import SqlDialect.Proofs.Pattern.Residual

/-!
# Patterns that read no text in common

Two patterns are read side by side, from the same place on.  `Pattern.apart` follows both of them
character by character and finds out that one of them gets stuck before the other one is done; it
never says so wrongly (`Pattern.not_reads_of_apart`).

The characters of a set are not listed one by one: `CharSet.meets` compares two sets up to the case
of letters, and may take sets for overlapping that are not.
-/

namespace SqlDialect

namespace CharSet

variable {a b : CharSet} {c x : Char}

/-- Whether the set may hold a character that is `x` up to case. -/
def mayHold (x : Char) : CharSet → Bool
  | oneOf chars => chars.any fun d => Text.foldCase d == Text.foldCase x
  | caseless y => Text.foldCase x == y
  | between _ _ => true
  | blank => Text.isBlank x
  | digit => Text.isDigit x
  | word => Text.isWordChar x
  | union a b => a.mayHold x || b.mayHold x
  | except a => (Text.foldCase x).isAlpha || !a.mem x

theorem mayHold_of_mem (hc : a.mem c = true) (hx : Text.foldCase c = Text.foldCase x) :
    a.mayHold x = true := by
  induction a with
  | oneOf chars => exact List.any_eq_true.2 ⟨c, by simpa [mem] using hc, by simp [hx]⟩
  | caseless y => rwa [mem, hx] at hc
  | between lo hi => rfl
  | blank =>
    rw [mem, ← Text.isBlank_foldCase, hx, Text.isBlank_foldCase] at hc
    exact hc
  | digit =>
    rw [mem, ← Text.isDigit_foldCase, hx, Text.isDigit_foldCase] at hc
    exact hc
  | word =>
    rw [mem, ← Text.isWordChar_foldCase, hx, Text.isWordChar_foldCase] at hc
    exact hc
  | union a b iha ihb =>
    rw [mem, Bool.or_eq_true] at hc
    rw [mayHold, Bool.or_eq_true]
    exact hc.imp iha ihb
  | except a =>
    rw [mayHold, Bool.or_eq_true]
    by_cases halpha : (Text.foldCase x).isAlpha = true
    · exact .inl halpha
    · -- characters without case agree up to case only if they are equal
      have hself : Text.foldCase x = x := by
        by_contra hne
        exact halpha (Text.isAlpha_of_foldCase_ne hne)
      have hother : Text.foldCase c = c := by
        by_contra hne
        exact halpha (hx ▸ Text.isAlpha_of_foldCase_ne hne)
      rw [hself, hother] at hx
      subst hx
      exact .inr hc

/-- The characters of a small set, up to case. -/
def listed? : CharSet → Option (List Char)
  | oneOf chars => some chars
  | caseless x => some [x]
  | _ => none

theorem exists_of_listed? {chars : List Char} (h : a.listed? = some chars)
    (hc : a.mem c = true) : ∃ x ∈ chars, Text.foldCase c = Text.foldCase x := by
  cases a with
  | oneOf own =>
    obtain rfl := Option.some.inj h
    exact ⟨c, by simpa [mem] using hc, rfl⟩
  | caseless y =>
    obtain rfl := Option.some.inj h
    rw [mem, beq_iff_eq] at hc
    exact ⟨y, List.mem_singleton_self y, by rw [← hc, Text.foldCase_foldCase]⟩
  | between | blank | digit | word | union | except => cases h

theorem side_eq_of_foldCase_eq (h : Text.foldCase c = Text.foldCase x) :
    Side.of (some c) = Side.of (some x) := by
  rw [Side.of, Side.of, ← Text.isWordChar_foldCase c, h, Text.isWordChar_foldCase]

/-- Whether the set may hold a character of that side. -/
def fits (side : Side) : CharSet → Bool
  | oneOf chars => chars.any fun c => Side.of (some c) == side
  | caseless x => Side.of (some x) == side
  | blank => !side.isWord
  | digit | word => side.isWord
  | union a b => a.fits side || b.fits side
  | between _ _ | except _ => true

theorem fits_of_mem (hc : a.mem c = true) : a.fits (.of (some c)) = true := by
  induction a with
  | oneOf chars => exact List.any_eq_true.2 ⟨c, by simpa [mem] using hc, by simp⟩
  | caseless y =>
    rw [mem, beq_iff_eq] at hc
    rw [fits, beq_iff_eq]
    exact (side_eq_of_foldCase_eq (by rw [← hc, Text.foldCase_foldCase])).symm
  | blank => rw [fits, Side.isWord_of, Option.any_some, Text.isWordChar_of_isBlank hc]; rfl
  | digit => rw [fits, Side.isWord_of, Option.any_some, Text.isWordChar_of_isDigit hc]
  | word => rwa [fits, Side.isWord_of, Option.any_some]
  | union a b iha ihb =>
    rw [mem, Bool.or_eq_true] at hc
    rw [fits, Bool.or_eq_true]
    exact hc.imp iha ihb
  | between | except => rfl

/-- Whether the two sets may have a character of that side in common. -/
def meets (side : Side) (a b : CharSet) : Bool :=
  match a.listed? with
  | some chars => chars.any fun x => b.mayHold x && Side.of (some x) == side
  | none =>
    match b.listed? with
    | some chars => chars.any fun x => a.mayHold x && Side.of (some x) == side
    | none => a.fits side && b.fits side

theorem meets_of_mem (ha : a.mem c = true) (hb : b.mem c = true) :
    meets (.of (some c)) a b = true := by
  rw [meets]
  split
  · rename_i chars hlisted
    obtain ⟨x, hx, hfold⟩ := exists_of_listed? hlisted ha
    refine List.any_eq_true.2 ⟨x, hx, ?_⟩
    rw [mayHold_of_mem hb hfold, side_eq_of_foldCase_eq hfold]
    simp
  · split
    · rename_i chars hlisted
      obtain ⟨x, hx, hfold⟩ := exists_of_listed? hlisted hb
      refine List.any_eq_true.2 ⟨x, hx, ?_⟩
      rw [mayHold_of_mem ha hfold, side_eq_of_foldCase_eq hfold]
      simp
    · rw [fits_of_mem ha, fits_of_mem hb]
      rfl

end CharSet

namespace Pattern

variable {k l : List Pattern} {before behind : Option Char}

/-- Whether the patterns may read a character of the side `next`. -/
def canStep (before next : Side) (k : List Pattern) : Bool :=
  !next.isEdge && (steps before next k).any fun step => step.set.fits next

theorem canStep_of_readsAll {c : Char} {rest : List Char}
    (h : ReadsAll k before (c :: rest) behind) :
    canStep (.of before) (.of (some c)) k = true := by
  obtain ⟨step, hstep, hc, -⟩ := leads_steps h
  have hedge : (Side.of (some c)).isEdge = false := by
    rw [Bool.eq_false_iff, Ne, Side.isEdge_of]
    simp
  rw [canStep, hedge]
  exact List.any_eq_true.2 ⟨step, hstep, CharSet.fits_of_mem hc⟩

/-- Whether `k` is not done where `l` is, and does not go on there, and the other way round: is not
done where `l` goes on.  The text is followed by a character of one of the sides `right`. -/
def isClear (right : List Side) (k l : List Pattern) (before : Side) : Bool :=
  (right.all fun next => !l.all (readsNil before next) ||
    (!k.all (readsNil before next) && !canStep before next k)) &&
  Side.present.all fun next => !canStep before next l || !k.all (readsNil before next)

/-- Where the text of `l` ends, that of `k` neither ends nor goes on. -/
theorem not_reads_of_isClear {right : List Side} {new t v : List Char}
    (h : isClear right k l (.of before) = true) (hnew : .of new.head? ∈ right)
    (hl : ReadsAll l before [] new.head?) (hk : ReadsAll k before t v.head?)
    (htext : t ++ v = new) : False := by
  rw [isClear, Bool.and_eq_true] at h
  have hnext := List.all_eq_true.1 h.1 _ hnew
  rw [readsAll_nil_iff.1 hl, Bool.not_true, Bool.false_or, Bool.and_eq_true] at hnext
  cases t with
  | nil =>
    obtain rfl : v = new := htext
    rw [readsAll_nil_iff.1 hk] at hnext
    exact Bool.false_ne_true hnext.1
  | cons e t =>
    obtain rfl : e :: t ++ v = new := htext
    have hgoes := canStep_of_readsAll hk
    rw [List.cons_append, List.head?_cons, hgoes] at hnext
    exact Bool.false_ne_true hnext.2

/-- Where the text of `l` goes on, that of `k` does not end. -/
theorem not_readsNil_of_isClear {right : List Side} {e : Char} {r : List Char}
    (h : isClear right k l (.of before) = true) (hl : ReadsAll l before (e :: r) behind)
    (hk : ReadsAll k before [] (some e)) : False := by
  rw [isClear, Bool.and_eq_true] at h
  have hnext := List.all_eq_true.1 h.2 _ (Side.of_some_mem_present e)
  rw [canStep_of_readsAll hl, readsAll_nil_iff.1 hk] at hnext
  exact Bool.false_ne_true hnext

/-- Whether nothing is read by `k` that starts where `l` starts to read its text, and ends with that
text or goes on behind it; nothing that ends within the text either. -/
def apart (right : List Side) : (fuel : Nat) → (k l : List Pattern) → (before : Side) → Bool
  | 0, _, _, _ => false
  | fuel + 1, k, l, before =>
    Side.present.all fun next =>
      (steps before next k).all fun s =>
        (steps before next l).all fun t =>
          !CharSet.meets next s.set t.set ||
            (isClear right s.rest t.rest next &&
              (s.stays && t.stays && before == next || apart right fuel s.rest t.rest next))

/-- **Patterns that are apart read no text in common.** -/
theorem not_reads_of_apart {right : List Side} {fuel : Nat} {new r t v : List Char}
    (h : apart right fuel k l (.of before) = true) (hnew : .of new.head? ∈ right)
    (hl : ReadsAll l before r new.head?) (hk : ReadsAll k before t v.head?)
    (htext : t ++ v = r ++ new) (hr : r ≠ []) (ht : t ≠ []) : False := by
  induction r generalizing k l before t fuel with
  | nil => exact hr rfl
  | cons c r ih =>
    cases fuel with
    | zero => cases h
    | succ fuel =>
      obtain ⟨d, t, rfl⟩ := List.exists_cons_of_ne_nil ht
      obtain ⟨rfl, hrest⟩ := List.cons.inj htext
      obtain ⟨step, hstep, hd, hk⟩ := leads_steps hk
      obtain ⟨step', hstep', hd', hl⟩ := leads_steps hl
      have hboth := List.all_eq_true.1 (List.all_eq_true.1
        (List.all_eq_true.1 h _ (Side.of_some_mem_present d)) step hstep) step' hstep'
      rw [CharSet.meets_of_mem hd hd', Bool.not_true, Bool.false_or, Bool.and_eq_true] at hboth
      obtain ⟨hclear, hmore⟩ := hboth
      cases r with
      | nil => exact not_reads_of_isClear hclear hnew hl hk hrest
      | cons e r =>
        cases t with
        | nil =>
          obtain rfl : v = e :: r ++ new := hrest
          exact not_readsNil_of_isClear hclear hl hk
        | cons e' t =>
          -- the two ways stay where they are, or they go on with less fuel
          rcases (Bool.or_eq_true _ _).mp hmore with hstay | hmore
          · simp only [Bool.and_eq_true, beq_iff_eq] at hstay
            obtain ⟨⟨hs, hs'⟩, hside⟩ := hstay
            rw [rest_of_stays hstep hs] at hk
            rw [rest_of_stays hstep' hs'] at hl
            rw [hside] at h
            exact ih h hl hk hrest (List.cons_ne_nil e r) (List.cons_ne_nil e' t)
          · exact ih hmore hl hk hrest (List.cons_ne_nil e r) (List.cons_ne_nil e' t)

/-! ### Characters that do not occur -/

/-- Whether no text of the pattern holds a character of the set. -/
def lacks (set : CharSet) (p : Pattern) : Bool :=
  (p.tails []).all fun tail => Side.present.all fun side => !CharSet.meets side set tail.1

theorem mem_eq_false_of_lacks {p : Pattern} {set : CharSet} {text : List Char}
    (hp : p.lacks set = true) (h : p.Reads before text behind) {c : Char} (hc : c ∈ text) :
    set.mem c = false := by
  obtain ⟨tail, htail, hmem⟩ := exists_tail_of_mem h hc
  have := List.all_eq_true.1 (List.all_eq_true.1 hp tail htail) _ (Side.of_some_mem_present c)
  by_contra hset
  rw [Bool.not_eq_false] at hset
  rw [CharSet.meets_of_mem hset hmem] at this
  cases this

end Pattern

end SqlDialect
