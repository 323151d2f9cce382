import SqlDialect.Proofs.Pattern.Clash
import SqlDialect.Proofs.Pattern.Rewrite

/-!
# When replacing matches gives rise to nothing

Whether a pattern can match once more in a line whose matches have been replaced is decided from the
pattern and from a pattern `q` that reads the new text.  `Pattern.Describes` fixes what the patterns
have to do with the replacement; each condition of `Pattern.Inert` has a check, and
`Pattern.Describes.inert` puts them together.
-/

namespace SqlDialect.Pattern

variable {p narrow q : Pattern} {wanted : List Char → Prop} {edit : Match → Option (List Char)}
  {before behind : Option Char} {text : List Char}

/-! ### Sides -/

/-- Whether the pattern can tell characters of these sides apart next to a text. -/
def tells (x y : Side) : Pattern → Bool
  | chars _ => false
  | lineStart | lineEnd => x.isEdge != y.isEdge
  | boundary => x.isWord != y.isWord
  | seq a b | alt a b => a.tells x y || b.tells x y
  | many _ a | group _ a => a.tells x y

theorem tells_self (p : Pattern) (x : Side) : p.tells x x = false := by
  induction p with
  | chars => rfl
  | lineStart | lineEnd | boundary => simp [tells]
  | seq a b iha ihb | alt a b iha ihb => rw [tells, iha, ihb]; rfl
  | many greedy a ih | group name a ih => exact ih

theorem tells_head?_or {behind' : Option Char} (h : p.tells (.of behind) (.of behind') = false)
    (text : List Char) :
    p.tells (.of (text.head?.or behind)) (.of (text.head?.or behind')) = false := by
  cases text with
  | nil => exact h
  | cons c text => exact tells_self p _

theorem tells_getLast?_or {before' : Option Char} (h : p.tells (.of before) (.of before') = false)
    (text : List Char) :
    p.tells (.of (text.getLast?.or before)) (.of (text.getLast?.or before')) = false := by
  cases text.getLast? with
  | none => exact h
  | some c => exact tells_self p _

/-- A reading stays one next to characters that the pattern cannot tell from the ones before. -/
theorem reads_of_tells {before' behind' : Option Char}
    (hbefore : p.tells (.of before) (.of before') = false)
    (hbehind : p.tells (.of behind) (.of behind') = false) (h : p.Reads before text behind) :
    p.Reads before' text behind' := by
  induction p generalizing before behind before' behind' text with
  | chars sets => exact h
  | lineStart =>
    obtain ⟨rfl, rfl⟩ := h
    exact ⟨rfl, Side.isEdge_of.1 (by simpa [tells, Side.of, Side.isEdge] using hbefore)⟩
  | lineEnd =>
    obtain ⟨rfl, rfl⟩ := h
    exact ⟨rfl, Side.isEdge_of.1 (by simpa [tells, Side.of, Side.isEdge] using hbehind)⟩
  | boundary =>
    obtain ⟨rfl, hboundary⟩ := h
    rw [tells, bne_eq_false_iff_eq, Side.isWord_of, Side.isWord_of] at hbefore hbehind
    exact ⟨rfl, by rwa [← hbefore, ← hbehind]⟩
  | seq a b iha ihb =>
    rw [tells, Bool.or_eq_false_iff] at hbefore hbehind
    obtain ⟨s, t, rfl, ha, hb⟩ := h
    exact ⟨s, t, rfl, iha hbefore.1 (tells_head?_or hbehind.1 t) ha,
      ihb (tells_getLast?_or hbefore.2 s) hbehind.2 hb⟩
  | alt a b iha ihb =>
    rw [tells, Bool.or_eq_false_iff] at hbefore hbehind
    exact h.imp (iha hbefore.1 hbehind.1) (ihb hbefore.2 hbehind.2)
  | many greedy a ih =>
    generalize hreads : a.Reads = r at h
    induction h generalizing before' behind' with
    | nil => exact .nil _ _
    | @cons _ _ s t hne first _ ihmore =>
      subst hreads
      exact .cons hne (ih hbefore (tells_head?_or hbehind t) first)
        (ihmore (tells_getLast?_or hbefore s) hbehind)
  | group name a ih => exact ih hbefore hbehind h

/-- The sides of the characters that a reading can start with. -/
def heads (p : Pattern) : List Side :=
  Side.present.filter fun next => Side.all.any fun before => canStep before next [p]

theorem side_mem_heads {c : Char} (h : p.Reads before (c :: text) behind) :
    Side.of (some c) ∈ p.heads :=
  List.mem_filter.2 ⟨Side.of_some_mem_present c, List.any_eq_true.2
    ⟨_, Side.mem_all _, canStep_of_readsAll (readsAll_singleton_iff.2 h)⟩⟩

/-- Whether what is left behind a character of the side `last` can be nothing. -/
def canEnd (last : Side) (tail : CharSet × List Pattern) : Bool :=
  tail.1.fits last && Side.all.any fun next => tail.2.all (readsNil last next)

theorem exists_tail_of_reads (h : p.Reads before text behind) (hne : text ≠ []) :
    ∃ c, text.getLast? = some c ∧ ∃ tail ∈ p.tails [], tail.1.mem c = true ∧
      tail.2.all (readsNil (.of (some c)) (.of behind)) = true := by
  obtain ⟨init, c, rfl⟩ := (List.eq_nil_or_concat' text).resolve_left hne
  obtain ⟨tail, htail, hc, hreads⟩ := remains_of_reads h
  exact ⟨c, by simp, tail, htail, hc, readsAll_nil_iff.1 hreads⟩

/-- The sides of the characters that a reading can end with. -/
def lasts (p : Pattern) : List Side :=
  Side.present.filter fun last => (p.tails []).any (canEnd last)

theorem canEnd_of_mem {c : Char} {tail : CharSet × List Pattern} (hc : tail.1.mem c = true)
    (htail : tail.2.all (readsNil (.of (some c)) (.of behind)) = true) :
    canEnd (.of (some c)) tail = true := by
  rw [canEnd, CharSet.fits_of_mem hc, Bool.true_and]
  exact List.any_eq_true.2 ⟨_, Side.mem_all _, htail⟩

theorem side_mem_lasts (h : p.Reads before text behind) (hne : text ≠ []) :
    Side.of (text.getLast?.or before) ∈ p.lasts := by
  obtain ⟨c, hlast, tail, htail, hc, hnil⟩ := exists_tail_of_reads h hne
  rw [hlast, Option.some_or]
  exact List.mem_filter.2 ⟨Side.of_some_mem_present c,
    List.any_eq_true.2 ⟨tail, htail, canEnd_of_mem hc hnil⟩⟩

/-- The sides of the characters that can follow a reading. -/
def follows (p : Pattern) : List Side :=
  Side.all.filter fun next => (p.tails []).any fun tail =>
    Side.present.any fun last => tail.1.fits last && tail.2.all (readsNil last next)

theorem side_mem_follows (h : p.Reads before text behind) (hne : text ≠ []) :
    Side.of behind ∈ p.follows := by
  obtain ⟨c, -, tail, htail, hc, hnil⟩ := exists_tail_of_reads h hne
  refine List.mem_filter.2 ⟨Side.mem_all _, List.any_eq_true.2 ⟨tail, htail,
    List.any_eq_true.2 ⟨_, Side.of_some_mem_present c, ?_⟩⟩⟩
  rw [CharSet.fits_of_mem hc, hnil]
  rfl

/-- Whether the pattern may read the empty text. -/
def readsEmpty (p : Pattern) : Bool :=
  Side.all.any fun before => Side.all.any fun behind => p.readsNil before behind

theorem not_reads_nil (hp : p.readsEmpty = false) (before behind : Option Char) :
    ¬p.Reads before [] behind := by
  intro h
  have hempty : p.readsEmpty = true := by
    rw [readsEmpty, List.any_eq_true]
    exact ⟨_, Side.mem_all _, List.any_eq_true.2 ⟨_, Side.mem_all _, reads_nil_iff.1 h⟩⟩
  rw [hempty] at hp
  cases hp

/-- Whether what is read before a character of the side `y` is read before one of the side `x` as
well. -/
def carries (y x : Side) : Pattern → Bool
  | chars _ | lineStart => true
  | lineEnd => !y.isEdge || x.isEdge
  | boundary => y.isWord == x.isWord
  | seq a b => b.carries y x && (!b.readsEmpty || a.carries y x)
  | alt a b => a.carries y x && b.carries y x
  | many _ a | group _ a => a.carries y x

theorem reads_of_carries {behind' : Option Char}
    (hp : p.carries (.of behind) (.of behind') = true) (h : p.Reads before text behind) :
    p.Reads before text behind' := by
  induction p generalizing before text with
  | chars sets => exact h
  | lineStart => exact h
  | lineEnd =>
    obtain ⟨rfl, hend⟩ := h
    rw [carries, Side.isEdge_of.2 hend, Bool.not_true, Bool.false_or] at hp
    exact ⟨rfl, Side.isEdge_of.1 hp⟩
  | boundary =>
    obtain ⟨rfl, hboundary⟩ := h
    rw [carries, beq_iff_eq, Side.isWord_of, Side.isWord_of] at hp
    exact ⟨rfl, hp ▸ hboundary⟩
  | seq a b iha ihb =>
    -- the first half sees what is behind the text only if the second half reads nothing
    obtain ⟨s, t, rfl, ha, hb⟩ := h
    obtain ⟨hbc, hac⟩ := (Bool.and_eq_true _ _).mp hp
    refine ⟨s, t, rfl, ?_, ihb hbc hb⟩
    cases t with
    | nil =>
      rcases (Bool.or_eq_true _ _).mp hac with hempty | hac
      · exact absurd hb (not_reads_nil (by simpa using hempty) _ _)
      · exact iha hac ha
    | cons c t => exact ha
  | alt a b iha ihb =>
    obtain ⟨ha, hb⟩ := (Bool.and_eq_true _ _).mp hp
    exact h.imp (iha ha) (ihb hb)
  | many greedy a ih =>
    generalize hreads : a.Reads = r, hnext : behind = next at h
    induction h with
    | nil => exact .nil _ _
    | @cons _ _ s t hne first _ ihmore =>
      subst hreads hnext
      refine .cons hne ?_ (ihmore rfl)
      cases t with
      | nil => exact ih hp first
      | cons c t => exact first
  | group name a ih => exact ih hp h

/-- Whether all characters of the texts of the pattern are word characters. -/
def isWordy (p : Pattern) : Bool :=
  (p.tails []).all fun tail => !tail.1.fits .other

theorem isWordChar_of_isWordy (hp : p.isWordy = true) (h : p.Reads before text behind) {c : Char}
    (hc : c ∈ text) : Text.isWordChar c = true := by
  obtain ⟨tail, htail, hmem⟩ := exists_tail_of_mem h hc
  have hfits := CharSet.fits_of_mem hmem
  by_contra hword
  rw [Side.of, if_neg hword] at hfits
  have := List.all_eq_true.1 hp tail htail
  rw [hfits] at this
  cases this

/-! ### Starting within a text -/

/-- How many characters a check follows two patterns. -/
def reach : Nat := 200

/-- Whether no text of `p` starts behind the start of a text of `q`. -/
def startsWithin (right : List Side) (p q : Pattern) : Bool :=
  (q.tails []).all fun tail => Side.present.all fun last =>
    !tail.1.fits last || apart right reach [p] tail.2 last

theorem not_reads_of_startsWithin {right : List Side} (hcheck : startsWithin right p q = true)
    {a b new found rest : List Char} (hq : q.Reads before (a ++ b) new.head?)
    (hnew : Side.of new.head? ∈ right) (ha : a ≠ []) (hb : b ≠ [])
    (hline : b ++ new = found ++ rest) (hne : found ≠ []) :
    ¬p.Reads (a.getLast?.or before) found rest.head? := by
  intro hreads
  obtain ⟨init, last, rfl⟩ := (List.eq_nil_or_concat' a).resolve_left ha
  rw [List.append_assoc, List.singleton_append] at hq
  obtain ⟨tail, htail, hlast, hq⟩ := remains_of_reads hq
  have happart := List.all_eq_true.1 (List.all_eq_true.1 hcheck tail htail) _
    (Side.of_some_mem_present last)
  rw [CharSet.fits_of_mem hlast, Bool.not_true, Bool.false_or] at happart
  rw [List.getLast?_concat, Option.some_or] at hreads
  exact not_reads_of_apart happart hnew hq (readsAll_singleton_iff.2 hreads) hline.symm hb hne

/-! ### What replaces a match -/

/-- The pattern `q` reads the new text, and `narrow` reads all that is wanted. -/
structure Describes (p narrow q : Pattern) (wanted : List Char → Prop)
    (edit : Match → Option (List Char)) : Prop where
  narrows : ∀ {before text behind}, p.Reads before text behind → wanted text →
    narrow.Reads before text behind
  reads : ∀ {m text}, p.Matches m → edit m = some text → ∀ before behind,
    q.Reads before text behind
  readsEmpty_eq : q.readsEmpty = false

/-- Whether new text starts as the text does that it takes the place of. -/
def sameHeads (p q : Pattern) : Bool :=
  p.heads.all fun x => q.heads.all fun y => x == y

/-- The sides of the characters that can follow new text. -/
def rights (p q : Pattern) : List Side :=
  if sameHeads p q then p.follows else Side.all

/-- Whether nothing starts where new text starts. -/
def neverStarts (p narrow q : Pattern) : Bool :=
  Side.all.all fun before => apart (rights p q) reach [narrow] [q] before

/-- Whether nothing starts further behind in new text. -/
def neverWithin (p narrow q : Pattern) : Bool :=
  startsWithin (rights p q) narrow q

/-- Whether nothing starts behind new text that does not start there behind the old one. -/
def neverBehind (p narrow q : Pattern) : Bool :=
  (q.tails []).all fun tail => Side.present.all fun last =>
    !canEnd last tail || (p.lasts.all (· == last)) ||
      (rights p q).all fun next => !canStep last next [narrow]

/-- Whether nothing that starts in kept text goes on into new text. -/
def neverInto (p narrow q : Pattern) : Bool :=
  (narrow.tails []).all fun tail => Side.present.all fun last =>
    !(tail.1.fits last && Side.present.any fun next => canStep last next [p]) ||
      apart (rights p q) reach tail.2 [q] last

/-- Whether nothing ends before new text that does not end there before the old one. -/
def neverBefore (p narrow q : Pattern) : Bool :=
  p.heads.all fun x => q.heads.all fun y =>
    p.carries y x || (narrow.tails []).all fun tail => Side.present.all fun last =>
      !(tail.1.fits last && tail.2.all (readsNil last y))

namespace Describes

variable {m : Match} {old new : List Char}

theorem text_ne_nil (h : Describes p narrow q wanted edit)
    (hswap : p.Swap edit before m old text) : text ≠ [] := by
  rintro rfl
  exact not_reads_nil h.readsEmpty_eq none none (h.reads hswap.isMatch hswap.edit_eq _ _)

theorem side_head_eq (h : Describes p narrow q wanted edit) (hsame : sameHeads p q = true)
    (hrest : p.Rewritten wanted edit before old new) :
    Side.of new.head? = Side.of old.head? := by
  cases hrest with
  | nil => rfl
  | keep => rfl
  | @swap _ m old text new hswap _ =>
    obtain ⟨c, s, hc⟩ := List.exists_cons_of_ne_nil hswap.text_ne_nil
    obtain ⟨d, t, rfl⟩ := List.exists_cons_of_ne_nil (h.text_ne_nil hswap)
    have hx := hswap.reads
    rw [hc] at hx ⊢
    have hy := h.reads hswap.isMatch hswap.edit_eq none none
    have := List.all_eq_true.1 (List.all_eq_true.1 hsame _ (side_mem_heads hx)) _
      (side_mem_heads hy)
    exact (beq_iff_eq.1 this).symm

theorem side_mem_rights (h : Describes p narrow q wanted edit)
    (hswap : p.Swap edit before m old text)
    (hrest : p.Rewritten wanted edit (m.text.getLast?.or before) old new) :
    Side.of new.head? ∈ rights p q := by
  rw [rights]
  split
  · rename_i hsame
    rw [h.side_head_eq hsame hrest]
    exact side_mem_follows hswap.reads hswap.text_ne_nil
  · exact Side.mem_all _

theorem skips_start (h : Describes p narrow q wanted edit)
    (hcheck : neverStarts p narrow q = true) (hswap : p.Swap edit before m old text)
    (hrest : p.Rewritten wanted edit (m.text.getLast?.or before) old new) :
    p.Skips wanted before (text ++ new) := by
  intro found rest hline hne hreads hwanted
  exact not_reads_of_apart (List.all_eq_true.1 hcheck _ (Side.mem_all _))
    (h.side_mem_rights hswap hrest)
    (readsAll_singleton_iff.2 (h.reads hswap.isMatch hswap.edit_eq _ _))
    (readsAll_singleton_iff.2 (h.narrows hreads hwanted)) hline.symm (h.text_ne_nil hswap) hne

theorem skips_within (h : Describes p narrow q wanted edit)
    (hcheck : neverWithin p narrow q = true) (hswap : p.Swap edit before m old text)
    (hrest : p.Rewritten wanted edit (m.text.getLast?.or before) old new) {a b : List Char}
    (htext : text = a ++ b) (ha : a ≠ []) (hb : b ≠ []) :
    p.Skips wanted (a.getLast?.or before) (b ++ new) := by
  intro found rest hline hne hreads hwanted
  subst htext
  exact not_reads_of_startsWithin hcheck (h.reads hswap.isMatch hswap.edit_eq before new.head?)
    (h.side_mem_rights hswap hrest) ha hb hline hne (h.narrows hreads hwanted)

theorem skips_behind (h : Describes p narrow q wanted edit)
    (hcheck : neverBehind p narrow q = true) (hswap : p.Swap edit before m old text)
    (hrest : p.Rewritten wanted edit (m.text.getLast?.or before) old new)
    (hskips : p.Skips wanted (m.text.getLast?.or before) new) :
    p.Skips wanted (text.getLast?.or before) new := by
  intro found rest hline hne hreads hwanted
  obtain ⟨last, hlast, tail, htail, hmem, hnil⟩ :=
    exists_tail_of_reads (h.reads hswap.isMatch hswap.edit_eq none none) (h.text_ne_nil hswap)
  rw [hlast, Option.some_or] at hreads
  have hor := List.all_eq_true.1 (List.all_eq_true.1 hcheck tail htail) _
    (Side.of_some_mem_present last)
  rw [canEnd_of_mem hmem hnil, Bool.not_true, Bool.false_or, Bool.or_eq_true] at hor
  rcases hor with hsame | hnever
  · -- the old text ended with a character of the same side
    have hside := List.all_eq_true.1 hsame _ (side_mem_lasts hswap.reads hswap.text_ne_nil)
    have htells : p.tells (.of (some last)) (.of (m.text.getLast?.or before)) = false := by
      rw [beq_iff_eq.1 hside]
      exact tells_self p _
    exact hskips found rest hline hne (reads_of_tells htells (tells_self p _) hreads) hwanted
  · obtain ⟨c, found, rfl⟩ := List.exists_cons_of_ne_nil hne
    have hright := h.side_mem_rights hswap hrest
    rw [hline, List.cons_append, List.head?_cons] at hright
    have := List.all_eq_true.1 hnever _ hright
    rw [canStep_of_readsAll (readsAll_singleton_iff.2 (h.narrows hreads hwanted))] at this
    cases this

/-- What ends right before new text would have ended before the old one. -/
theorem not_wanted_of_ends (h : Describes p narrow q wanted edit)
    (hbefore : neverBefore p narrow q = true) {kept rest : List Char} {last : Char}
    (hswap : p.Swap edit (some last) m old text) (hskips : p.Skips wanted before
      (kept ++ [last] ++ (m.text ++ old)))
    (hline : text ++ new = rest) (hreads : p.Reads before (kept ++ [last]) rest.head?) :
    ¬wanted (kept ++ [last]) := by
  intro hwanted
  obtain ⟨tail, htail, hlast, hmore⟩ := remains_of_reads (h.narrows hreads hwanted)
  obtain ⟨c, s, hc⟩ := List.exists_cons_of_ne_nil hswap.text_ne_nil
  obtain ⟨d, t, hd⟩ := List.exists_cons_of_ne_nil (h.text_ne_nil hswap)
  have hx := hswap.reads
  rw [hc] at hx
  have hy := h.reads hswap.isMatch hswap.edit_eq none none
  rw [hd] at hy
  have hhead : rest.head? = some d := by rw [← hline, hd]; rfl
  rw [hhead] at hreads hmore
  have hor := List.all_eq_true.1 (List.all_eq_true.1 hbefore _ (side_mem_heads hx)) _
    (side_mem_heads hy)
  rcases (Bool.or_eq_true _ _).mp hor with hcarries | hnever
  · refine hskips _ (m.text ++ old) rfl (by simp) ?_ hwanted
    rw [hc, List.cons_append, List.head?_cons]
    exact reads_of_carries hcarries hreads
  · have hnone := List.all_eq_true.1 (List.all_eq_true.1 hnever tail htail) _
      (Side.of_some_mem_present last)
    rw [CharSet.fits_of_mem hlast, readsAll_nil_iff.1 hmore] at hnone
    cases hnone

/-- What goes on into new text is not read. -/
theorem not_wanted_of_goes_on (h : Describes p narrow q wanted edit)
    (hinto : neverInto p narrow q = true) {kept more rest : List Char} {last : Char}
    (hswap : p.Swap edit (some last) m old text)
    (hrest : p.Rewritten wanted edit (m.text.getLast?.or (some last)) old new) (hne : more ≠ [])
    (hline : text ++ new = more ++ rest)
    (hreads : p.Reads before (kept ++ [last] ++ more) rest.head?) :
    ¬wanted (kept ++ [last] ++ more) := by
  intro hwanted
  have hnarrow := h.narrows hreads hwanted
  rw [List.append_assoc, List.singleton_append] at hnarrow
  obtain ⟨tail, htail, hlast, hmore⟩ := remains_of_reads hnarrow
  have hor := List.all_eq_true.1 (List.all_eq_true.1 hinto tail htail) _
    (Side.of_some_mem_present last)
  have hstarts : (Side.present.any fun next => canStep (.of (some last)) next [p]) = true := by
    obtain ⟨e, s, he⟩ := List.exists_cons_of_ne_nil hswap.text_ne_nil
    have hx := hswap.reads
    rw [he] at hx
    exact List.any_eq_true.2 ⟨_, Side.of_some_mem_present e,
      canStep_of_readsAll (readsAll_singleton_iff.2 hx)⟩
  rw [CharSet.fits_of_mem hlast, hstarts, Bool.and_self, Bool.not_true, Bool.false_or] at hor
  exact not_reads_of_apart hor (h.side_mem_rights hswap hrest)
    (readsAll_singleton_iff.2 (h.reads hswap.isMatch hswap.edit_eq _ _)) hmore hline.symm
    (h.text_ne_nil hswap) hne

theorem skips_into (h : Describes p narrow q wanted edit) (hinto : neverInto p narrow q = true)
    (hbefore : neverBefore p narrow q = true) {kept : List Char}
    (hswap : p.Swap edit (kept.getLast?.or before) m old text)
    (hrest : p.Rewritten wanted edit (m.text.getLast?.or (kept.getLast?.or before)) old new)
    (hkept : kept ≠ []) (hskips : p.Skips wanted before (kept ++ (m.text ++ old)))
    {found rest : List Char} (hline : kept ++ (text ++ new) = found ++ rest)
    (hle : kept.length ≤ found.length) (hreads : p.Reads before found rest.head?) :
    ¬wanted found := by
  obtain ⟨init, last, rfl⟩ := (List.eq_nil_or_concat' kept).resolve_left hkept
  obtain ⟨more, rfl⟩ : ∃ more, found = init ++ [last] ++ more := by
    obtain ⟨more, hmore⟩ := List.prefix_of_prefix_length_le
      (List.prefix_append _ _) (hline ▸ List.prefix_append found rest) hle
    exact ⟨more, hmore.symm⟩
  rw [List.append_assoc (init ++ [last]) more, List.append_cancel_left_eq] at hline
  rw [List.getLast?_concat, Option.some_or] at hswap hrest
  by_cases hmore : more = []
  · subst hmore
    rw [List.append_nil] at hreads ⊢
    exact h.not_wanted_of_ends hbefore hswap hskips hline hreads
  · exact h.not_wanted_of_goes_on hinto hswap hrest hmore hline hreads

/-- Whether replacing the matches of `p` by texts of `q` gives rise to nothing. -/
theorem inert (h : Describes p narrow q wanted edit) (hstarts : neverStarts p narrow q = true)
    (hwithin : neverWithin p narrow q = true) (hbehind : neverBehind p narrow q = true)
    (hinto : neverInto p narrow q = true) (hbefore : neverBefore p narrow q = true) :
    p.Inert wanted edit where
  start hswap hrest _ := h.skips_start hstarts hswap hrest
  within hswap hrest _ _ htext ha hb := h.skips_within hwithin hswap hrest htext ha hb
  behind hswap hrest hskips := h.skips_behind hbehind hswap hrest hskips
  into hswap hrest hkept hskips _ _ hline hle hreads :=
    h.skips_into hinto hbefore hswap hrest hkept hskips hline hle hreads

end Describes

end SqlDialect.Pattern
