import SqlDialect.Proofs.Pattern.Group
import SqlDialect.Proofs.Rule.Settled
import SqlDialect.Proofs.Text.Run
import SqlDialect.Rule.Catalogue

/-!
# Fixed-point types

The two rules about fixed-point types look for the same pattern and leave some of its matches as they
are.  Whether they accept a match depends on the matched text only (`Rule.edit_eq_of_text_eq`), and two
texts of the pattern that start at the same place are equal (`Pattern.eq_of_reads_of_ends`), so that a
match that has been left is left again.
-/

namespace SqlDialect

namespace Pattern

variable {a : Pattern} {before before' behind behind' : Option Char} {s t u v text : List Char}
  {c : Char}

/-! ### Numbers behind a character -/

/-- The digits behind the first `c`, with white space before them. -/
def digitsBehind (c : Char) (text : List Char) : List Char :=
  (((text.dropWhile (· != c)).drop 1).dropWhile Text.isBlank).takeWhile Text.isDigit

theorem digitsBehind_eq {b : List Char} (hc : c ∉ s) (hb : ∀ d ∈ b, Text.isBlank d = true)
    (ht : t ≠ []) (hu : Text.Run Text.isDigit t u) :
    digitsBehind c (s ++ c :: (b ++ (t ++ u))) = t := by
  have hblank : Text.Run Text.isBlank b (t ++ u) := by
    refine ⟨hb, fun d hd => ?_⟩
    obtain ⟨e, t, rfl⟩ := List.exists_cons_of_ne_nil ht
    obtain rfl := Option.some.inj hd
    by_contra hblank
    rw [Bool.not_eq_false] at hblank
    have := Text.isWordChar_of_isDigit (hu.all e List.mem_cons_self)
    rw [Text.isWordChar_of_isBlank hblank] at this
    cases this
  rw [digitsBehind, (Text.Run.of_not_mem hc).dropWhile_eq, List.drop_one, List.tail_cons,
    hblank.dropWhile_eq, hu.takeWhile_eq]

/-- Whether a text of the pattern starts, and does so with a character that is no part of a word. -/
def startsOffWord (p : Pattern) : Bool :=
  !p.readsEmpty && p.heads.all fun side => !side.isWord

theorem stops_of_startsOffWord {q : Char → Bool} {r : Pattern} (hr : r.startsOffWord = true)
    (hq : ∀ c, q c = true → Text.isWordChar c = true) (h : r.Reads before u behind) {d : Char}
    (hd : u.head? = some d) : q d = false := by
  obtain ⟨u, rfl⟩ := List.head?_eq_some_iff.1 hd
  have hside := List.all_eq_true.1 ((Bool.and_eq_true _ _).mp hr).2 _ (side_mem_heads h)
  rw [Side.isWord_of, Option.any_some] at hside
  by_contra hnot
  rw [Bool.not_eq_false] at hnot
  rw [hq d hnot] at hside
  cases hside

/-- A group of digits behind the first `c` of a match, with white space between them. -/
theorem textOf_eq_digitsBehind {p r : Pattern} {name : String} {m : Match}
    (hp : p.around name = some (a ++ char c ++ blanks ++ empty, digits, r))
    (ha : a.avoids c = true) (hr : r.startsOffWord = true) (h : p.Matches m) :
    m.textOf name = digitsBehind c m.text := by
  obtain ⟨place, hmatch⟩ := h
  obtain ⟨_, u, rest, -, htext, hparts⟩ := exists_parts_of_matchAt hp hmatch
  obtain ⟨_, _, rfl, ⟨_, b, rfl, hs, hb⟩, hempty⟩ := hparts.reads_left
  obtain rfl := List.forall₂_nil_left_iff.1 hempty
  obtain ⟨s, rfl, hc⟩ := exists_of_reads_concat ha hs
  obtain ⟨hne, hdigits⟩ := reads_plus_one_iff.1 hparts.reads_group
  have hrun : Text.Run Text.isDigit (m.textOf name) u :=
    ⟨hdigits, fun d hd => stops_of_startsOffWord hr (fun _ => Text.isWordChar_of_isDigit)
      hparts.reads_right hd⟩
  rw [htext]
  simpa using (digitsBehind_eq hc (reads_star_one_iff.1 hb) hne hrun).symm

end Pattern

namespace Rule

open Pattern

variable {m m' : Match}

/-! ### The fields of a type -/

/-- The part of a type before its parenthesis. -/
def typeName : Pattern := boundary ++ group "type" fixedPointName ++ blanks

theorem textOf_precision (h : fixedPoint.Matches m) :
    m.textOf "precision" = digitsBehind '(' m.text :=
  textOf_eq_digitsBehind (a := typeName) rfl (by decide) (by decide) h

theorem textOf_scale (h : fixedPoint.Matches m) :
    m.textOf "scale" = digitsBehind ',' m.text :=
  textOf_eq_digitsBehind (a := typeName ++ char '(' ++ blanks ++ group "precision" digits ++ blanks)
    rfl (by decide) (by decide) h

theorem textOf_type (h : fixedPoint.Matches m) :
    m.textOf "type" = m.text.takeWhile Text.isWordChar := by
  obtain ⟨place, hmatch⟩ := h
  have haround : fixedPoint.around "type" = some (boundary ++ empty,
      fixedPointName,
      empty ++ blanks ++ char '(' ++ blanks ++ group "precision" digits ++ blanks ++ char ',' ++
        blanks ++ group "scale" digits ++ blanks ++ char ')') := rfl
  obtain ⟨_, u, rest, -, htext, hparts⟩ := exists_parts_of_matchAt haround hmatch
  obtain ⟨_, _, rfl, ⟨rfl, -⟩, hempty⟩ := hparts.reads_left
  obtain rfl := List.forall₂_nil_left_iff.1 hempty
  have hrun : Text.Run Text.isWordChar (m.textOf "type") u :=
    ⟨fun c hc => isWordChar_of_isWordy (by decide) hparts.reads_group hc, fun d hd =>
      stops_of_startsOffWord (by decide) (fun _ h => h) hparts.reads_right hd⟩
  rw [htext, List.append_nil, List.nil_append]
  exact hrun.takeWhile_eq.symm

/-- Whether a match is accepted depends on its text only, if it does on the fields of the type. -/
theorem edit_eq_of_text_eq {f : List Char → List Char → List Char → Option (List Char)}
    (h : fixedPoint.Matches m) (h' : fixedPoint.Matches m') (htext : m.text = m'.text) :
    f (m.textOf "type") (m.textOf "precision") (m.textOf "scale") =
      f (m'.textOf "type") (m'.textOf "precision") (m'.textOf "scale") := by
  rw [textOf_type h, textOf_precision h, textOf_scale h, textOf_type h', textOf_precision h',
    textOf_scale h', htext]

/-! ### New text -/

section Settles

variable {rule : Rule} {q : Pattern} {f : List Char → List Char → List Char → Option (List Char)}
  {before : Option Char} {old new text : List Char}

/-- The edit of a match, from the fields of its type. -/
def fieldEdit (f : List Char → List Char → List Char → Option (List Char)) (m : Match) :
    Option (List Char) :=
  f (m.textOf "type") (m.textOf "precision") (m.textOf "scale")

/-- The text is that of a type that is changed. -/
def Accepts (f : List Char → List Char → List Char → Option (List Char)) (text : List Char) :
    Prop :=
  ∃ m, fixedPoint.Matches m ∧ m.text = text ∧ fieldEdit f m ≠ none

theorem fixedPoint_eq : ∃ a, fixedPoint = a ++ char ')' ∧ a.avoids ')' = true :=
  ⟨_, rfl, by decide⟩

/-- Two fixed-point types that start at the same place are equal. -/
theorem eq_of_reads_fixedPoint {before' behind behind' : Option Char} {s t u v : List Char}
    (hs : fixedPoint.Reads before s behind) (ht : fixedPoint.Reads before' t behind')
    (h : s ++ u = t ++ v) : s = t := by
  obtain ⟨a, ha, havoids⟩ := fixedPoint_eq
  rw [ha] at hs ht
  exact eq_of_reads_of_ends havoids hs ht h

/-- In a type that is left as it is, nothing is found later. -/
theorem skips_of_declined {index : Nat} {rest a b : List Char}
    (hmatch : fixedPoint.matchAt ⟨before, index, m.text ++ rest⟩ = some m)
    (hdeclined : fieldEdit f m = none) (hab : m.text = a ++ b) (hb : b ≠ []) :
    fixedPoint.Skips (Accepts f) (a.getLast?.or before) (b ++ rest) := by
  intro found behind hline hne hreads haccepts
  obtain ⟨_, hrest, hm⟩ := reads_of_matchAt hmatch
  obtain rfl := List.append_cancel_left hrest
  by_cases ha : a = []
  · subst ha
    rw [List.nil_append] at hab
    rw [← hab] at hline
    obtain rfl := eq_of_reads_fixedPoint hm hreads hline
    obtain ⟨m', hm', htext, hchanged⟩ := haccepts
    refine hchanged ?_
    rw [← hdeclined]
    exact edit_eq_of_text_eq hm' ⟨_, hmatch⟩ htext
  · rw [hab] at hm
    exact not_reads_of_startsWithin (by decide) hm (Side.mem_all _) ha hb hline hne hreads

/-- A rule about fixed-point types settles if its new text gives rise to nothing that it changes. -/
theorem settles_of_fixedPoint
    (hrule : ∀ ctx line, rule.edit? ctx line = substituteSome fixedPoint (fieldEdit f) line)
    (hcheck : (!q.readsEmpty && neverWithin fixedPoint fixedPoint q &&
      neverBehind fixedPoint fixedPoint q && neverInto fixedPoint fixedPoint q &&
      neverBefore fixedPoint fixedPoint q && q.avoids '\'') = true)
    (hq : ∀ {m text}, fixedPoint.Matches m → fieldEdit f m = some text → q.ReadsAnywhere text)
    (hstart : Describes fixedPoint fixedPoint q (Accepts f) (fieldEdit f) →
      ∀ {before m old text new}, fixedPoint.Swap (fieldEdit f) before m old text →
      fixedPoint.Rewritten (Accepts f) (fieldEdit f) (m.text.getLast?.or before) old new →
        fixedPoint.Skips (Accepts f) before (text ++ new)) : rule.Settles := by
  simp only [Bool.and_eq_true, Bool.not_eq_true'] at hcheck
  obtain ⟨⟨⟨⟨⟨hempty, hwithin⟩, hbehind⟩, hinto⟩, hbefore⟩, hquote⟩ := hcheck
  have hdescribes : Describes fixedPoint fixedPoint q (Accepts f) (fieldEdit f) :=
    ⟨fun h _ => h, hq, hempty⟩
  -- nothing to be changed is found where a new text starts, within it, behind it, or into it from before
  have hinert : fixedPoint.Inert (Accepts f) (fieldEdit f) := {
    start := fun hswap hrest _ => hstart hdescribes hswap hrest
    within := fun hswap hrest _ _ htext ha hb =>
      hdescribes.skips_within hwithin hswap hrest htext ha hb
    behind := fun hswap hrest hskips => hdescribes.skips_behind hbehind hswap hrest hskips
    into := fun hswap hrest hkept hskips _ _ hline hle hreads =>
      hdescribes.skips_into hinto hbefore hswap hrest hkept hskips hline hle hreads }
  have hrewritten (code : List Char) : fixedPoint.Rewritten (Accepts f) (fieldEdit f) none code
      (fixedPoint.replaceIn (fun m => (fieldEdit f m).getD m.text) code) :=
    rewritten_replaceIn (fun hmatch _ hdeclined _ _ hab hb => skips_of_declined hmatch hdeclined hab hb)
      (not_reads_nil (by decide)) code
  intro ctx line e _ h
  rw [hrule] at h ⊢
  refine substituteSome_eq_none (fieldEdit f) ?_ ?_ h
  · intro code hcode hmem
    obtain ⟨_, m, _, text, hswap, htext⟩ := (hrewritten code).exists_swap_of_mem hmem hcode
    exact not_mem_of_avoids hquote (hq hswap.isMatch hswap.edit_eq none none) htext
  · intro code _ m hm
    by_contra hchanged
    exact (hinert.skipsAll (hrewritten code)).not_mem_matchesIn
      ⟨m, (matches_of_mem_matchesIn hm).1, rfl, hchanged⟩ hm

end Settles

/-! ### The two rules -/

/-- The new text for a numeric type. -/
def scaleEdit (type _precision scale : List Char) : Option (List Char) := do
  let scale ← Text.word32? scale
  if Text.sameIgnoringCase type "NUMERIC".toList && scale > 0 then some "DOUBLE".toList else none

/-- A double is no fixed-point type. -/
theorem numericScale_settles : numericScale.Settles := by
  refine settles_of_fixedPoint (f := scaleEdit) (q := exactText "DOUBLE".toList) (fun _ _ => rfl)
    (by decide) (fun _ h => ?_) fun hdescribes _ _ _ _ _ hswap hrest =>
      hdescribes.skips_start (by decide) hswap hrest
  obtain ⟨_, -, h⟩ := Option.bind_eq_some_iff.1 h
  split at h
  · obtain rfl := Option.some.inj h
    exact .exactText _
  · cases h

/-- The new text for a decimal type. -/
def precisionEdit (type precision scale : List Char) : Option (List Char) := do
  let precision ← Text.word32? precision
  if !Text.sameIgnoringCase type "DECIMAL".toList || precision ≤ maxPrecision then none
  else some (type ++ ['('] ++ (toString maxPrecision).toList ++ [','] ++ scale ++ [')'])

theorem eq_of_precisionEdit {type precision scale text : List Char}
    (h : precisionEdit type precision scale = some text) :
    text = type ++ ['('] ++ "38".toList ++ [','] ++ scale ++ [')'] := by
  obtain ⟨_, -, h⟩ := Option.bind_eq_some_iff.1 h
  split at h
  · cases h
  · exact (Option.some.inj h).symm

/-- What `precisionEdit` makes of a type, it leaves alone. -/
theorem decimalPrecision_settles : decimalPrecision.Settles := by
  have htype {m : Match} (hm : fixedPoint.Matches m) :
      fixedPointName.ReadsAnywhere (m.textOf "type") :=
    hm.readsAnywhere_textOf rfl rfl rfl
  have hscale {m : Match} (hm : fixedPoint.Matches m) : digits.ReadsAnywhere (m.textOf "scale") :=
    hm.readsAnywhere_textOf rfl rfl rfl
  have hrule : ∀ ctx line, decimalPrecision.edit? ctx line =
    substituteSome fixedPoint (fieldEdit precisionEdit) line := fun _ _ => rfl
  refine settles_of_fixedPoint (q := fixedPointName ++
    exactText ['('] ++ exactText "38".toList ++ exactText [','] ++ digits ++ exactText [')'])
    hrule (by decide) (fun hm h => ?_) ?_
  · rw [eq_of_precisionEdit h]
    exact (((((htype hm).append (.exactText _)).append (.exactText _)).append
      (.exactText _)).append (hscale hm)).append (.exactText _)
  · intro _ before m old text new hswap _ found rest hline _ hreads ⟨m', hm', htext, hchanged⟩
    have hedit : precisionEdit (m.textOf "type") (m.textOf "precision") (m.textOf "scale") =
      some text := hswap.edit_eq
    obtain rfl := eq_of_precisionEdit hedit
    -- what is found at the start of the new text is the new text
    obtain ⟨front, hfixed, havoids⟩ := fixedPoint_eq
    rw [hfixed] at hreads
    obtain ⟨x, rfl, hx⟩ := exists_of_reads_concat havoids hreads
    have hnotMem : ')' ∉ m.textOf "type" ++ ['('] ++ "38".toList ++ [','] ++ m.textOf "scale" := by
      have := not_mem_of_avoids (c := ')') (by decide) (htype hswap.isMatch none none)
      have := not_mem_of_avoids (c := ')') (by decide) (hscale hswap.isMatch none none)
      simp_all
    obtain rfl := Text.eq_of_concat_eq hnotMem hx hline
    -- its precision is the largest one
    have hprecision : m'.textOf "precision" = "38".toList := by
      have hparen := not_mem_of_avoids (c := '(') (by decide)
        (htype hswap.isMatch none none)
      have hrun : Text.Run Text.isDigit "38".toList (',' :: (m.textOf "scale" ++ [')'])) :=
        ⟨List.all_eq_true.1 (show "38".toList.all Text.isDigit = true from rfl), by simp; rfl⟩
      rw [textOf_precision hm', htext]
      simpa using digitsBehind_eq (b := []) hparen (by simp) (by simp) hrun
    refine hchanged ?_
    have hvalue : Text.word32? "38".toList = some maxPrecision := by decide
    rw [fieldEdit, hprecision, precisionEdit, hvalue]
    exact if_pos (Bool.or_eq_true_iff.2 (.inr (decide_eq_true le_rfl)))

end Rule

end SqlDialect
