import SqlDialect.Pattern.Search

/-!
# Laws of patterns

* `Pattern.run_eq_findSome?` : the search of a pattern finds the first success among its outcomes.
* `Pattern.required_within` : every outcome passes over the runs of characters that the pattern
  requires.  A line without them has no match, so that leaving it unsearched changes nothing
  (`Pattern.pieces_eq`, `Pattern.find?_eq`).
-/

namespace SqlDialect.Pattern

/-- The first success over the concatenation of lists is the first success of one of them. -/
theorem findSome?_flatMap {α β γ : Type} (l : List α) (g : α → List β) (f : β → Option γ) :
    (l.flatMap g).findSome? f = l.findSome? fun a => (g a).findSome? f := by
  induction l with
  | nil => rfl
  | cons a l ih =>
    rw [List.flatMap_cons, List.findSome?_append, ih, List.findSome?_cons]
    cases (g a).findSome? f <;> rfl

/-! ### Search and outcomes -/

/-- The search through rounds finds the first success among the outcomes of the rounds, if the
search of one round does. -/
theorem rounds_eq_findSome? {α : Type} (greedy : Bool)
    {step : Cursor → List Group → (Cursor → List Group → Option α) → Option α}
    {outcomes : Cursor → List Group → List (Cursor × List Group)}
    (step_eq : ∀ place groups found,
      step place groups found = (outcomes place groups).findSome? fun o => found o.1 o.2)
    (bound : List Char) (place : Cursor) (groups : List Group)
    (found : Cursor → List Group → Option α) :
    rounds greedy step bound place groups found =
      (roundOutcomes greedy outcomes bound place groups).findSome? fun o => found o.1 o.2 := by
  induction bound generalizing place groups with
  | nil => simp [rounds, roundOutcomes]
  | cons _ bound ih =>
    cases greedy with
    | true =>
      simp only [rounds, roundOutcomes, ite_true, step_eq, ih, List.findSome?_append,
        findSome?_flatMap]
      split
      · rename_i h; rw [h]; rfl
      · rename_i h; rw [h, List.findSome?_singleton]; rfl
    | false =>
      simp only [rounds, roundOutcomes, Bool.false_eq_true, ite_false, step_eq, ih,
        List.findSome?_cons, findSome?_flatMap]
      cases found place groups <;> rfl

/-- The search of a pattern finds the first success among its outcomes, in their order. -/
theorem run_eq_findSome? {α : Type} (p : Pattern) (place : Cursor) (groups : List Group)
    (found : Cursor → List Group → Option α) :
    p.run place groups found = (p.outcomes place groups).findSome? fun o => found o.1 o.2 := by
  induction p generalizing place groups found with
  | chars sets => cases h : place.after? sets <;> simp [run, outcomes, h]
  | lineStart => by_cases h : place.previous.isNone <;> simp [run, outcomes, h]
  | lineEnd => by_cases h : place.rest.isEmpty <;> simp [run, outcomes, h]
  | boundary => by_cases h : place.atBoundary <;> simp [run, outcomes, h]
  | seq a b iha ihb => simp only [run, outcomes, findSome?_flatMap, iha, ihb]
  | alt a b iha ihb =>
    simp only [run, outcomes, List.findSome?_append, iha, ihb]
    split
    · rename_i h; rw [h]; rfl
    · rename_i h; rw [h]; rfl
  | many greedy a ih => exact rounds_eq_findSome? greedy ih place.rest place groups found
  | group name a ih => simp only [run, outcomes, ih, List.findSome?_map, Function.comp_def]

/-- A place has a match if and only if the pattern has an outcome there. -/
theorem matchAt_eq (p : Pattern) (place : Cursor) :
    p.matchAt place =
      (p.outcomes place []).head?.map fun o => ⟨place.index, place.between o.1, o.2⟩ := by
  rw [matchAt, run_eq_findSome?]
  cases p.outcomes place [] <;> rfl

/-! ### Outcomes, constructor by constructor -/

section Outcomes

variable {place : Cursor} {groups : List Group} {o : Cursor × List Group} {a b : Pattern}

theorem mem_outcomes_chars {sets : List CharSet} :
    o ∈ (chars sets).outcomes place groups ↔
      ∃ stop, place.after? sets = some stop ∧ o = (stop, groups) := by
  rw [outcomes, Option.mem_toList, Option.map_eq_some_iff]
  simp only [eq_comm]

theorem mem_outcomes_lineStart :
    o ∈ lineStart.outcomes place groups ↔ place.previous = none ∧ o = (place, groups) := by
  rw [outcomes, List.mem_ite_nil_right, List.mem_singleton, Option.isNone_iff_eq_none]

theorem mem_outcomes_lineEnd :
    o ∈ lineEnd.outcomes place groups ↔ place.rest = [] ∧ o = (place, groups) := by
  rw [outcomes, List.mem_ite_nil_right, List.mem_singleton, List.isEmpty_iff]

theorem mem_outcomes_boundary :
    o ∈ boundary.outcomes place groups ↔ place.atBoundary = true ∧ o = (place, groups) := by
  rw [outcomes, List.mem_ite_nil_right, List.mem_singleton]

theorem mem_outcomes_seq :
    o ∈ (seq a b).outcomes place groups ↔
      ∃ o' ∈ a.outcomes place groups, o ∈ b.outcomes o'.1 o'.2 :=
  List.mem_flatMap

theorem mem_outcomes_alt :
    o ∈ (alt a b).outcomes place groups ↔
      o ∈ a.outcomes place groups ∨ o ∈ b.outcomes place groups :=
  List.mem_append

theorem mem_outcomes_group {name : String} :
    o ∈ (group name a).outcomes place groups ↔
      ∃ o' ∈ a.outcomes place groups,
        (o'.1, ⟨name, place.index, place.between o'.1⟩ :: o'.2) = o :=
  List.mem_map

variable {greedy : Bool} {step : Cursor → List Group → List (Cursor × List Group)}
  {c : Char} {bound : List Char}

theorem mem_roundOutcomes_nil :
    o ∈ roundOutcomes greedy step [] place groups ↔ o = (place, groups) :=
  List.mem_singleton

/-- Either there is no further round, or the first of them leads to the place of the others. -/
theorem mem_roundOutcomes_cons :
    o ∈ roundOutcomes greedy step (c :: bound) place groups ↔
      o = (place, groups) ∨
        ∃ o' ∈ step place groups, o ∈ roundOutcomes greedy step bound o'.1 o'.2 := by
  cases greedy with
  | true =>
    rw [roundOutcomes, if_pos rfl, List.mem_append, List.mem_flatMap, List.mem_singleton, or_comm]
  | false =>
    rw [roundOutcomes, if_neg Bool.false_ne_true, List.mem_cons, List.mem_flatMap]

end Outcomes

/-! ### Required characters -/

/-- The place after a run of characters is behind them in the same line. -/
theorem rest_suffix_of_after? {sets : List CharSet} {place stop : Cursor}
    (h : place.after? sets = some stop) : stop.rest <:+ place.rest := by
  induction sets generalizing place with
  | nil => simp only [Cursor.after?, Option.some.injEq] at h; exact h ▸ List.suffix_refl _
  | cons set sets ih =>
    rw [Cursor.after?] at h
    split at h
    · cases h
    · rename_i c rest hrest
      split at h
      · exact hrest ▸ (ih h).trans (List.suffix_cons c rest)
      · cases h

/-- A place after a run of characters has them before it. -/
theorem startOf_of_after? {sets : List CharSet} {place stop : Cursor}
    (h : place.after? sets = some stop) : CharSet.startOf sets place.rest = true := by
  induction sets generalizing place with
  | nil => rfl
  | cons set sets ih =>
    rw [Cursor.after?] at h
    split at h
    · cases h
    · rename_i c rest hrest
      split at h
      · rename_i hc; rw [hrest, CharSet.startOf, hc, ih h]; rfl
      · cases h

/-- A run of characters at the start of a line is within the line. -/
theorem within_of_startOf {sets : List CharSet} {line : List Char}
    (h : CharSet.startOf sets line = true) : CharSet.within sets line = true := by
  cases line with
  | nil => exact h
  | cons c line => rw [CharSet.within, h]; rfl

/-- A run of characters within the end of a line is within the line. -/
theorem within_of_suffix {sets : List CharSet} {a b : List Char} (hab : a <:+ b)
    (h : CharSet.within sets a = true) : CharSet.within sets b = true := by
  obtain ⟨t, rfl⟩ := hab
  induction t with
  | nil => exact h
  | cons c t ih => rw [List.cons_append, CharSet.within, ih, Bool.or_true]

/-- The outcomes of rounds are behind the place where they start, if those of one round are. -/
theorem rest_suffix_of_mem_roundOutcomes {greedy : Bool}
    {step : Cursor → List Group → List (Cursor × List Group)}
    (step_suffix : ∀ {place groups o}, o ∈ step place groups → o.1.rest <:+ place.rest)
    {bound : List Char} {place : Cursor} {groups : List Group} {o : Cursor × List Group}
    (h : o ∈ roundOutcomes greedy step bound place groups) : o.1.rest <:+ place.rest := by
  induction bound generalizing place groups with
  | nil => exact mem_roundOutcomes_nil.1 h ▸ List.suffix_refl _
  | cons _ bound ih =>
    rcases mem_roundOutcomes_cons.1 h with rfl | ⟨o', ho', h⟩
    · exact List.suffix_refl _
    · exact (ih h).trans (step_suffix ho')

/-- Every outcome of a pattern is behind the place where it starts, in the same line. -/
theorem rest_suffix_of_mem_outcomes {p : Pattern} {place : Cursor} {groups : List Group}
    {o : Cursor × List Group} (h : o ∈ p.outcomes place groups) : o.1.rest <:+ place.rest := by
  induction p generalizing place groups o with
  | chars sets =>
    obtain ⟨stop, hstop, rfl⟩ := mem_outcomes_chars.1 h
    exact rest_suffix_of_after? hstop
  | lineStart =>
    obtain ⟨-, rfl⟩ := mem_outcomes_lineStart.1 h
    exact List.suffix_refl _
  | lineEnd =>
    obtain ⟨-, rfl⟩ := mem_outcomes_lineEnd.1 h
    exact List.suffix_refl _
  | boundary =>
    obtain ⟨-, rfl⟩ := mem_outcomes_boundary.1 h
    exact List.suffix_refl _
  | seq a b iha ihb =>
    obtain ⟨o', ho', h⟩ := mem_outcomes_seq.1 h
    exact (ihb h).trans (iha ho')
  | alt a b iha ihb =>
    rcases mem_outcomes_alt.1 h with h | h
    · exact iha h
    · exact ihb h
  | many greedy a ih => exact rest_suffix_of_mem_roundOutcomes ih h
  | group name a ih =>
    obtain ⟨o', ho', rfl⟩ := mem_outcomes_group.1 h
    exact ih (o := o') ho'

/-- Where a pattern has an outcome, the rest of the line holds the runs of characters that the
pattern requires. -/
theorem required_within {p : Pattern} {place : Cursor} {groups : List Group}
    {o : Cursor × List Group} (h : o ∈ p.outcomes place groups) {sets : List CharSet}
    (hsets : sets ∈ p.required) : CharSet.within sets place.rest = true := by
  induction p generalizing place groups o with
  | chars sets' =>
    obtain rfl := List.mem_singleton.1 hsets
    obtain ⟨stop, hstop, -⟩ := mem_outcomes_chars.1 h
    exact within_of_startOf (startOf_of_after? hstop)
  | seq a b iha ihb =>
    obtain ⟨o', ho', h⟩ := mem_outcomes_seq.1 h
    rcases List.mem_append.1 hsets with hsets | hsets
    · exact iha ho' hsets
    · exact within_of_suffix (rest_suffix_of_mem_outcomes ho') (ihb h hsets)
  | group name a ih =>
    obtain ⟨o', ho', -⟩ := mem_outcomes_group.1 h
    exact ih ho' hsets
  | lineStart | lineEnd | boundary | alt | many => cases hsets

/-- The pattern matches nowhere in a line that does not hold what it requires. -/
theorem matchAt_eq_none {p : Pattern} {line : List Char} (h : p.admits line = false)
    {place : Cursor} (hplace : place.rest <:+ line) : p.matchAt place = none := by
  rw [matchAt_eq, Option.map_eq_none_iff, List.head?_eq_none_iff, List.eq_nil_iff_forall_not_mem]
  intro o ho
  have : p.admits line = true :=
    List.all_eq_true.2 fun _ hsets => within_of_suffix hplace (required_within ho hsets)
  rw [h] at this
  cases this

/-- Leaving lines unsearched that do not hold what the pattern requires changes no piece. -/
theorem pieces_eq (p : Pattern) (line : List Char) :
    p.pieces line = p.piecesFrom 0 none 0 line := by
  rw [pieces]
  split
  · rfl
  · rename_i h
    have none_found (tail : List Char) (htail : tail <:+ line) (previous : Option Char)
        (index : Nat) : tail.map .other = p.piecesFrom 0 previous index tail := by
      induction tail generalizing previous index with
      | nil => rfl
      | cons c tail ih =>
        rw [piecesFrom, matchAt_eq_none (Bool.eq_false_iff.2 h) htail, List.map_cons,
          ih ((List.suffix_cons c tail).trans htail)]
    exact none_found line (List.suffix_refl _) none 0

/-- Leaving lines unsearched that do not hold what the pattern requires loses no match. -/
theorem find?_eq (p : Pattern) (line : List Char) : p.find? line = p.findFrom none 0 line := by
  rw [find?]
  split
  · rfl
  · rename_i h
    have none_found (tail : List Char) (htail : tail <:+ line) (previous : Option Char)
        (index : Nat) : none = p.findFrom previous index tail := by
      induction tail generalizing previous index with
      | nil => rw [findFrom, matchAt_eq_none (Bool.eq_false_iff.2 h) htail]
      | cons c tail ih =>
        rw [findFrom, matchAt_eq_none (Bool.eq_false_iff.2 h) htail]
        exact ih ((List.suffix_cons c tail).trans htail) _ _
    exact none_found line (List.suffix_refl _) none 0

end SqlDialect.Pattern
