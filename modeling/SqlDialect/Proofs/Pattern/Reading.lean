import SqlDialect.Proofs.Pattern.Stretch

/-!
# Readings

What a pattern matches depends on the matched text and on the characters next to it, and on
nothing else of the line: `Pattern.Reads p before text behind` says that `p` matches `text` between
these two characters.

* `Pattern.reads_of_mem_outcomes`, `Pattern.exists_outcome_of_reads` : the readings of a pattern are
  the texts of its outcomes.
* `Pattern.matchAt_eq_none_iff` : a place has no match if and only if no text there is read.
* `Pattern.reads_of_isFree` : a pattern that asks neither for ends of the line nor for boundaries
  reads its texts everywhere, and two of them do so side by side
  (`Pattern.reads_append_iff_of_isFree`).
-/

namespace SqlDialect

namespace Pattern

/-- Rounds of `r`, one behind the other, none of which is empty. -/
inductive Rounds (r : Option Char → List Char → Option Char → Prop) :
    Option Char → List Char → Option Char → Prop
  | nil (before behind : Option Char) : Rounds r before [] behind
  | cons {before behind : Option Char} {s t : List Char} (hs : s ≠ [])
      (first : r before s (t.head?.or behind)) (more : Rounds r (s.getLast?.or before) t behind) :
      Rounds r before (s ++ t) behind

/-- Whether the pattern matches the text between the characters `before` and `behind`. -/
def Reads : Pattern → Option Char → List Char → Option Char → Prop
  | chars sets, _, text, _ => List.Forall₂ (fun set c => set.mem c = true) sets text
  | lineStart, before, text, _ => text = [] ∧ before = none
  | lineEnd, _, text, behind => text = [] ∧ behind = none
  | boundary, before, text, behind =>
    text = [] ∧ (before.any Text.isWordChar != behind.any Text.isWordChar) = true
  | seq a b, before, text, behind =>
    ∃ s t, text = s ++ t ∧ a.Reads before s (t.head?.or behind) ∧
      b.Reads (s.getLast?.or before) t behind
  | alt a b, before, text, behind => a.Reads before text behind ∨ b.Reads before text behind
  | many _ a, before, text, behind => Rounds a.Reads before text behind
  | group _ a, before, text, behind => a.Reads before text behind

theorem Rounds.append {r : Option Char → List Char → Option Char → Prop}
    {before behind : Option Char} {s t : List Char} (hs : Rounds r before s (t.head?.or behind))
    (ht : Rounds r (s.getLast?.or before) t behind) : Rounds r before (s ++ t) behind := by
  generalize hnext : t.head?.or behind = next at hs
  induction hs with
  | nil => exact ht
  | @cons before next s₁ s₂ hne first _ ih =>
    subst hnext
    rw [getLast?_append_or] at ht
    rw [List.append_assoc]
    refine .cons hne ?_ (ih ht rfl)
    rwa [List.head?_append, Option.or_assoc]

/-! ### Readings and outcomes -/

variable {p : Pattern} {place : Cursor} {groups : List Group} {o : Cursor × List Group}
  {text : List Char}

/-- The text up to an outcome of some rounds is read in rounds, if that of one round is read. -/
theorem rounds_of_mem_roundOutcomes {a : Pattern} {greedy : Bool} {bound : List Char}
    (one : ∀ {place groups o text}, o ∈ a.outcomes place groups → place.Spans o.1 text →
      a.Reads place.previous text o.1.rest.head?)
    (h : o ∈ roundOutcomes greedy a.outcomes bound place groups) (htext : place.Spans o.1 text) :
    Rounds a.Reads place.previous text o.1.rest.head? := by
  obtain ⟨own, hown, hrounds⟩ : ∃ own, place.Spans o.1 own ∧
      Rounds a.Reads place.previous own o.1.rest.head? := by
    refine rel_of_mem_roundOutcomes (r := fun o o' => ∃ own, o.1.Spans o'.1 own ∧
      Rounds a.Reads o.1.previous own o'.1.rest.head?) (fun o => ⟨[], .refl o.1, .nil _ _⟩)
      ?_ ?_ h
    · rintro _ _ _ ⟨s, hs, hreads⟩ ⟨t, ht, hreads'⟩
      rw [ht.rest_eq, List.head?_append] at hreads
      rw [hs.previous_eq] at hreads'
      exact ⟨s ++ t, hs.trans ht, hreads.append hreads'⟩
    · intro place groups o ho
      obtain ⟨s, hs⟩ := spans_of_mem_outcomes ho
      refine ⟨s, hs, ?_⟩
      -- a round that matches nothing leads nowhere
      by_cases hne : s = []
      · subst hne
        exact .nil _ _
      · have := Rounds.cons hne (t := []) (one ho hs) (.nil _ _)
        rwa [List.append_nil] at this
  obtain rfl := htext.unique hown
  exact hrounds

/-- The text up to an outcome is read. -/
theorem reads_of_mem_outcomes (h : o ∈ p.outcomes place groups) (htext : place.Spans o.1 text) :
    p.Reads place.previous text o.1.rest.head? := by
  induction p generalizing place groups o text with
  | chars sets =>
    obtain ⟨stop, hstop, rfl⟩ := mem_outcomes_chars.1 h
    obtain ⟨own, hown, hmem⟩ := Cursor.spans_of_after? hstop
    obtain rfl := htext.unique hown
    exact hmem
  | lineStart =>
    obtain ⟨hstart, rfl⟩ := mem_outcomes_lineStart.1 h
    exact ⟨htext.eq_nil, hstart⟩
  | lineEnd =>
    obtain ⟨hend, rfl⟩ := mem_outcomes_lineEnd.1 h
    exact ⟨htext.eq_nil, List.head?_eq_none_iff.2 hend⟩
  | boundary =>
    obtain ⟨hboundary, rfl⟩ := mem_outcomes_boundary.1 h
    exact ⟨htext.eq_nil, hboundary⟩
  | seq a b iha ihb =>
    obtain ⟨o', ho', h⟩ := mem_outcomes_seq.1 h
    obtain ⟨s, hs⟩ := spans_of_mem_outcomes ho'
    obtain ⟨t, ht⟩ := spans_of_mem_outcomes h
    obtain rfl := htext.unique (hs.trans ht)
    have ha := iha ho' hs
    have hb := ihb h ht
    rw [ht.rest_eq, List.head?_append] at ha
    rw [hs.previous_eq] at hb
    exact ⟨s, t, rfl, ha, hb⟩
  | alt a b iha ihb =>
    rcases mem_outcomes_alt.1 h with h | h
    · exact .inl (iha h htext)
    · exact .inr (ihb h htext)
  | many greedy a ih => exact rounds_of_mem_roundOutcomes ih h htext
  | group name a ih =>
    obtain ⟨o', ho', rfl⟩ := mem_outcomes_group.1 h
    exact ih (o := o') ho' htext

theorem exists_after?_of_forall₂ {sets : List CharSet} {rest : List Char}
    (h : List.Forall₂ (fun set c => set.mem c = true) sets text)
    (hrest : place.rest = text ++ rest) :
    ∃ stop, place.after? sets = some stop ∧ place.Spans stop text := by
  induction h generalizing place with
  | nil => exact ⟨place, rfl, .refl place⟩
  | @cons set c sets text hc _ ih =>
    obtain ⟨stop, hstop, hspans⟩ := @ih ⟨some c, place.index + 1, text ++ rest⟩ rfl
    have one : place.Spans ⟨some c, place.index + 1, text ++ rest⟩ [c] := ⟨hrest, rfl, rfl⟩
    refine ⟨stop, ?_, one.trans hspans⟩
    rw [Cursor.after?, hrest]
    simpa [hc] using hstop

/-- The rounds that are read are among the outcomes, as long as there are not too many of them. -/
theorem exists_roundOutcome_of_rounds {a : Pattern} {greedy : Bool} {bound rest : List Char}
    (one : ∀ (groups : List Group) {place : Cursor} {text rest : List Char},
      a.Reads place.previous text rest.head? → place.rest = text ++ rest →
        ∃ o ∈ a.outcomes place groups, place.Spans o.1 text) (groups : List Group)
    (h : Rounds a.Reads place.previous text rest.head?) (hrest : place.rest = text ++ rest)
    (hbound : text.length ≤ bound.length) :
    ∃ o ∈ roundOutcomes greedy a.outcomes bound place groups, place.Spans o.1 text := by
  generalize hbefore : place.previous = before, hbehind : rest.head? = behind at h
  induction h generalizing place groups bound with
  | nil =>
    refine ⟨(place, groups), ?_, .refl place⟩
    cases bound with
    | nil => exact mem_roundOutcomes_nil.2 rfl
    | cons _ bound => exact mem_roundOutcomes_cons.2 (.inl rfl)
  | @cons before behind s t hne first _ ih =>
    subst hbefore hbehind
    cases bound with
    | nil =>
      rw [List.length_append] at hbound
      exact absurd (List.length_eq_zero_iff.1 (Nat.eq_zero_of_add_eq_zero_right
        (Nat.eq_zero_of_le_zero hbound))) hne
    | cons _ bound =>
      rw [List.append_assoc] at hrest
      rw [← List.head?_append] at first
      obtain ⟨o, ho, hs⟩ := one groups first hrest
      have hbehind : o.1.rest = t ++ rest :=
        List.append_cancel_left (hs.rest_eq.symm.trans hrest)
      have hlength : t.length ≤ bound.length := by
        have := List.length_pos_of_ne_nil hne
        rw [List.length_append, List.length_cons] at hbound
        omega
      obtain ⟨o', ho', ht⟩ := ih o.2 hbehind hlength hs.previous_eq rfl
      exact ⟨o', mem_roundOutcomes_cons.2 (.inr ⟨o, ho, ho'⟩), hs.trans ht⟩

/-- A text that is read has an outcome behind it. -/
theorem exists_outcome_of_reads (groups : List Group) {rest : List Char}
    (h : p.Reads place.previous text rest.head?) (hrest : place.rest = text ++ rest) :
    ∃ o ∈ p.outcomes place groups, place.Spans o.1 text := by
  induction p generalizing place groups text rest with
  | chars sets =>
    obtain ⟨stop, hstop, hspans⟩ := exists_after?_of_forall₂ h hrest
    exact ⟨(stop, groups), mem_outcomes_chars.2 ⟨stop, hstop, rfl⟩, hspans⟩
  | lineStart =>
    obtain ⟨rfl, hprevious⟩ := h
    exact ⟨(place, groups), mem_outcomes_lineStart.2 ⟨hprevious, rfl⟩, .refl place⟩
  | lineEnd =>
    obtain ⟨rfl, hend⟩ := h
    rw [List.head?_eq_none_iff.1 hend] at hrest
    exact ⟨(place, groups), mem_outcomes_lineEnd.2 ⟨hrest, rfl⟩, .refl place⟩
  | boundary =>
    obtain ⟨rfl, hboundary⟩ := h
    have hplace : place.atBoundary = true := by
      rw [Cursor.atBoundary, hrest]
      exact hboundary
    exact ⟨(place, groups), mem_outcomes_boundary.2 ⟨hplace, rfl⟩, .refl place⟩
  | seq a b iha ihb =>
    obtain ⟨s, t, rfl, ha, hb⟩ := h
    rw [List.append_assoc] at hrest
    rw [← List.head?_append] at ha
    obtain ⟨o, ho, hs⟩ := iha groups ha hrest
    rw [← hs.previous_eq] at hb
    obtain ⟨o', ho', ht⟩ := ihb o.2 hb
      (List.append_cancel_left (hs.rest_eq.symm.trans hrest))
    exact ⟨o', mem_outcomes_seq.2 ⟨o, ho, ho'⟩, hs.trans ht⟩
  | alt a b iha ihb =>
    rcases h with h | h
    · obtain ⟨o, ho, hspans⟩ := iha groups h hrest
      exact ⟨o, mem_outcomes_alt.2 (.inl ho), hspans⟩
    · obtain ⟨o, ho, hspans⟩ := ihb groups h hrest
      exact ⟨o, mem_outcomes_alt.2 (.inr ho), hspans⟩
  | many greedy a ih =>
    refine exists_roundOutcome_of_rounds (fun groups _ _ _ h hrest => ih groups h hrest) groups h hrest ?_
    rw [hrest, List.length_append]
    exact Nat.le_add_right _ _
  | group name a ih =>
    obtain ⟨o, ho, hspans⟩ := ih groups h hrest
    exact ⟨_, mem_outcomes_group.2 ⟨o, ho, rfl⟩, hspans⟩

/-! ### Readings and matches -/

/-- A place has no match if and only if no text there is read. -/
theorem matchAt_eq_none_iff :
    p.matchAt place = none ↔ ∀ text rest, place.rest = text ++ rest →
      ¬p.Reads place.previous text rest.head? := by
  rw [matchAt_eq, Option.map_eq_none_iff, List.head?_eq_none_iff]
  constructor
  · intro hnone text rest hrest hreads
    obtain ⟨o, ho, -⟩ := exists_outcome_of_reads [] hreads hrest
    rw [hnone] at ho
    cases ho
  · intro h
    rw [List.eq_nil_iff_forall_not_mem]
    intro o ho
    obtain ⟨text, htext⟩ := spans_of_mem_outcomes ho
    exact h text o.1.rest htext.rest_eq (reads_of_mem_outcomes ho htext)

/-- The text of a match is read. -/
theorem reads_of_matchAt {m : Match} (h : p.matchAt place = some m) :
    ∃ rest, place.rest = m.text ++ rest ∧ p.Reads place.previous m.text rest.head? := by
  obtain ⟨o, ho, htext, -, -⟩ := exists_outcome_of_matchAt h
  exact ⟨o.1.rest, htext.rest_eq, reads_of_mem_outcomes (List.mem_of_mem_head? ho) htext⟩

/-- A stretch of a pattern is read somewhere. -/
theorem Stretch.exists_reads (h : p.Stretch text) : ∃ before behind, p.Reads before text behind := by
  obtain ⟨place, groups, o, ho, htext⟩ := h
  exact ⟨_, _, reads_of_mem_outcomes ho htext⟩

/-! ### Single sets and the ends of lines -/

theorem reads_char_iff {c : Char} {before behind : Option Char} :
    (char c).Reads before text behind ↔ text = [c] := by
  constructor
  · intro h
    obtain ⟨d, rest, hd, hrest, rfl⟩ := List.forall₂_cons_left_iff.1 h
    obtain rfl := List.forall₂_nil_left_iff.1 hrest
    simpa [CharSet.exactly, CharSet.mem] using hd
  · rintro rfl
    exact .cons (by simp [CharSet.exactly, CharSet.mem]) .nil

theorem reads_star_one_iff {greedy : Bool} {set : CharSet} {before behind : Option Char} :
    (many greedy (one set)).Reads before text behind ↔ ∀ c ∈ text, set.mem c = true := by
  constructor
  · intro h
    rw [Reads] at h
    generalize hreads : (one set).Reads = r at h
    induction h with
    | nil => simp
    | cons _ first _ ih =>
      subst hreads
      obtain ⟨c, rest, hc, hrest, rfl⟩ := List.forall₂_cons_left_iff.1 first
      obtain rfl := List.forall₂_nil_left_iff.1 hrest
      exact List.forall_mem_cons.2 ⟨hc, ih⟩
  · intro h
    rw [Reads]
    induction text generalizing before with
    | nil => exact .nil _ _
    | cons c text ih =>
      rw [List.forall_mem_cons] at h
      exact .cons (s := [c]) (List.cons_ne_nil c []) (.cons h.1 .nil) (ih h.2)

theorem reads_plus_one_iff {set : CharSet} {before behind : Option Char} :
    (plus (one set)).Reads before text behind ↔ text ≠ [] ∧ ∀ c ∈ text, set.mem c = true := by
  constructor
  · rintro ⟨s, t, rfl, hs, ht⟩
    obtain ⟨c, rest, hc, hrest, rfl⟩ := List.forall₂_cons_left_iff.1 hs
    obtain rfl := List.forall₂_nil_left_iff.1 hrest
    exact ⟨List.cons_ne_nil _ _, List.forall_mem_cons.2 ⟨hc, reads_star_one_iff.1 ht⟩⟩
  · rintro ⟨hne, h⟩
    obtain ⟨c, rest, rfl⟩ := List.exists_cons_of_ne_nil hne
    rw [List.forall_mem_cons] at h
    exact ⟨[c], rest, rfl, .cons h.1 .nil, reads_star_one_iff.2 h.2⟩

theorem not_mem_of_mem_noneOf {marks : String} {c : Char}
    (h : (CharSet.noneOf marks).mem c = true) : c ∉ marks.toList := by
  simpa [CharSet.noneOf, CharSet.mem] using h

theorem reads_many_noneOf_iff {greedy : Bool} {marks : String} {before behind : Option Char} :
    (many greedy (one (.noneOf marks))).Reads before text behind ↔ ∀ c ∈ text, c ∉ marks.toList := by
  rw [reads_star_one_iff]
  simp [CharSet.noneOf, CharSet.mem]

theorem forall_not_mem_marks_iff {marks : String} {c : Char} (hmarks : marks.toList = [c]) :
    (∀ d ∈ text, d ∉ marks.toList) ↔ c ∉ text := by
  rw [hmarks]
  exact ⟨fun h hmem => h c hmem (List.mem_singleton_self c),
    fun h d hd hmem => h (List.mem_singleton.1 hmem ▸ hd)⟩

theorem reads_many_noneOf_iff_not_mem {greedy : Bool} {marks : String} {c : Char}
    (hmarks : marks.toList = [c]) {before behind : Option Char} :
    (many greedy (one (.noneOf marks))).Reads before text behind ↔ c ∉ text :=
  reads_many_noneOf_iff.trans (forall_not_mem_marks_iff hmarks)

theorem reads_append_lineEnd_iff {p : Pattern} {before behind : Option Char} :
    (p ++ lineEnd).Reads before text behind ↔ p.Reads before text none ∧ behind = none := by
  constructor
  · rintro ⟨s, _, rfl, hs, rfl, rfl⟩
    rw [List.append_nil]
    exact ⟨hs, rfl⟩
  · rintro ⟨h, rfl⟩
    exact ⟨text, [], (List.append_nil text).symm, h, rfl, rfl⟩

theorem reads_many_any_iff {greedy : Bool} {before behind : Option Char} :
    (many greedy (one .any)).Reads before text behind ↔ '\n' ∉ text := by
  have hmem (c : Char) : CharSet.any.mem c = true ↔ c ≠ '\n' := by
    simp [CharSet.any, CharSet.exactly, CharSet.mem]
  rw [reads_star_one_iff]
  exact ⟨fun h hfeed => (hmem '\n').1 (h '\n' hfeed) rfl,
    fun h c hc => (hmem c).2 fun heq => h (heq ▸ hc)⟩

/-- A keyword reads its own letters, in whatever case. -/
theorem map_foldCase_of_reads_keyword {word : String} {before behind : Option Char}
    (h : (keyword word).Reads before text behind) :
    text.map Text.foldCase = word.toList.map Text.foldCase := by
  have hletters : List.Forall₂ (fun c d => Text.foldCase d = Text.foldCase c) word.toList text := by
    refine (List.forall₂_map_left_iff.1 h).imp fun c d hd => ?_
    split at hd
    · rename_i halpha
      have hlower : Text.foldCase c = c.toLower := by
        have hlong : c ≠ '\u017F' := by
          rintro rfl
          exact absurd halpha (by decide)
        have hkelvin : c ≠ '\u212A' := by
          rintro rfl
          exact absurd halpha (by decide)
        simp [Text.foldCase, hlong, hkelvin]
      rw [hlower]
      exact beq_iff_eq.1 hd
    · obtain rfl : d = c := by simpa [CharSet.exactly, CharSet.mem] using hd
      rfl
  generalize word.toList = letters at hletters ⊢
  clear h
  induction hletters with
  | nil => rfl
  | cons hd _ ih => rw [List.map_cons, List.map_cons, hd, ih]

/-! ### Patterns that read their texts everywhere -/

/-- Whether the pattern asks neither for ends of the line nor for boundaries. -/
def isFree : Pattern → Bool
  | chars _ => true
  | lineStart | lineEnd | boundary => false
  | seq a b | alt a b => a.isFree && b.isFree
  | many _ a | group _ a => a.isFree

theorem reads_of_isFree (hp : p.isFree = true) {before behind : Option Char}
    (h : p.Reads before text behind) (before' behind' : Option Char) :
    p.Reads before' text behind' := by
  induction p generalizing before behind before' behind' text with
  | chars sets => exact h
  | seq a b iha ihb =>
    obtain ⟨ha, hb⟩ := (Bool.and_eq_true _ _).mp hp
    obtain ⟨s, t, rfl, hs, ht⟩ := h
    exact ⟨s, t, rfl, iha ha hs _ _, ihb hb ht _ _⟩
  | alt a b iha ihb =>
    obtain ⟨ha, hb⟩ := (Bool.and_eq_true _ _).mp hp
    exact h.imp (fun h => iha ha h _ _) (fun h => ihb hb h _ _)
  | many greedy a ih =>
    generalize hreads : a.Reads = r at h
    induction h generalizing before' behind' with
    | nil => exact .nil _ _
    | cons hne first _ ihmore =>
      subst hreads
      exact .cons hne (ih hp first _ _) (ihmore _ _)
  | group name a ih => exact ih hp h _ _
  | lineStart | lineEnd | boundary => cases hp

section Free

variable {a b : Pattern} {before behind last first : Option Char} {s t : List Char}

theorem Reads.append_of_isFree (hs : a.Reads before s last) (ht : b.Reads first t behind)
    (ha : a.isFree = true) (hb : b.isFree = true) : (a ++ b).Reads none (s ++ t) none :=
  ⟨s, t, rfl, reads_of_isFree ha hs _ _, reads_of_isFree hb ht _ _⟩

/-- Two patterns that read their texts everywhere do so side by side. -/
theorem reads_append_iff_of_isFree (ha : a.isFree = true) (hb : b.isFree = true) :
    (a ++ b).Reads before text behind ↔
      ∃ s t, text = s ++ t ∧ a.Reads none s none ∧ b.Reads none t none := by
  constructor
  · rintro ⟨s, t, rfl, hs, ht⟩
    exact ⟨s, t, rfl, reads_of_isFree ha hs _ _, reads_of_isFree hb ht _ _⟩
  · rintro ⟨s, t, rfl, hs, ht⟩
    exact ⟨s, t, rfl, reads_of_isFree ha hs _ _, reads_of_isFree hb ht _ _⟩

/-- A text between two characters, without certain characters in it. -/
theorem reads_enclosed_iff {c d : Char} {greedy : Bool} {marks : String} :
    (char c ++ many greedy (one (.noneOf marks)) ++ char d).Reads before text behind ↔
      ∃ x, text = c :: (x ++ [d]) ∧ ∀ e ∈ x, e ∉ marks.toList := by
  constructor
  · intro h
    obtain ⟨s, t, rfl, hs, ht⟩ := (reads_append_iff_of_isFree rfl rfl).1 h
    obtain ⟨s, x, rfl, hs, hx⟩ := (reads_append_iff_of_isFree rfl rfl).1 hs
    rw [reads_char_iff.1 hs, reads_char_iff.1 ht]
    exact ⟨x, rfl, reads_many_noneOf_iff.1 hx⟩
  · rintro ⟨x, rfl, hx⟩
    refine (reads_append_iff_of_isFree rfl rfl).2 ⟨c :: x, [d], rfl, ?_, reads_char_iff.2 rfl⟩
    exact (reads_append_iff_of_isFree rfl rfl).2
      ⟨[c], x, rfl, reads_char_iff.2 rfl, reads_many_noneOf_iff.2 hx⟩

end Free

end Pattern

end SqlDialect
