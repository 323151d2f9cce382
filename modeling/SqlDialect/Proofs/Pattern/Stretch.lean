import Mathlib.Data.List.Forall2
import SqlDialect.Pattern.Lemmas
import SqlDialect.Proofs.Text.Trim

/-!
# The stretches that a pattern matches

An outcome of a pattern lies behind some text of the line, and that text is all that matters for
what the match holds.

* `Pattern.spans_of_mem_outcomes` : an outcome is the place behind a stretch of the line.
* `Pattern.stretch_of_mem_groups` : every group of a match is a stretch of the pattern in some
  group of that name.
* `Pattern.isVisible` computes whether all stretches of a pattern hold something visible, and
  `Pattern.visible_of_stretch` says that it is right.
* `Pattern.Matches` : the matches that a search of some line can report.
-/

namespace SqlDialect

namespace Cursor

/-- The place `b` is behind `text`, which stands behind the place `a`. -/
structure Spans (a b : Cursor) (text : List Char) : Prop where
  rest_eq : a.rest = text ++ b.rest
  index_eq : b.index = a.index + text.length
  previous_eq : b.previous = text.getLast?.or a.previous

namespace Spans

variable {a b c : Cursor} {s t : List Char}

theorem refl (a : Cursor) : a.Spans a [] := ⟨rfl, rfl, rfl⟩

theorem trans (hab : a.Spans b s) (hbc : b.Spans c t) : a.Spans c (s ++ t) where
  rest_eq := by rw [hab.rest_eq, hbc.rest_eq, List.append_assoc]
  index_eq := by rw [hbc.index_eq, hab.index_eq, List.length_append, Nat.add_assoc]
  previous_eq := by
    rw [hbc.previous_eq, hab.previous_eq, List.getLast?_append, Option.or_assoc]

/-- Of two texts behind the same place, the longer one goes on where the shorter one ends. -/
theorem of_append (hb : a.Spans b s) (hc : a.Spans c (s ++ t)) : b.Spans c t where
  rest_eq := by
    rw [← List.append_cancel_left_eq s, ← List.append_assoc, ← hb.rest_eq, hc.rest_eq]
  index_eq := by rw [hc.index_eq, hb.index_eq, List.length_append, Nat.add_assoc]
  previous_eq := by rw [hc.previous_eq, hb.previous_eq, List.getLast?_append, Option.or_assoc]

theorem between_eq (h : a.Spans b s) : a.between b = s := by
  have length : b.index - a.index = s.length := by rw [h.index_eq]; omega
  rw [between, length, h.rest_eq, List.take_left]

/-- There is only one text between two places. -/
theorem unique (h : a.Spans b s) (h' : a.Spans b t) : s = t :=
  h.between_eq.symm.trans h'.between_eq

theorem eq_nil (h : a.Spans a s) : s = [] := h.unique (refl a)

end Spans

/-- A run of characters leads behind one character of each of its sets. -/
theorem spans_of_after? {sets : List CharSet} {a b : Cursor} (h : a.after? sets = some b) :
    ∃ text, a.Spans b text ∧ List.Forall₂ (fun set c => set.mem c = true) sets text := by
  induction sets generalizing a with
  | nil =>
    simp only [after?, Option.some.injEq] at h
    exact ⟨[], h ▸ Spans.refl a, .nil⟩
  | cons set sets ih =>
    rw [after?] at h
    split at h
    · cases h
    · rename_i c rest hrest
      split at h
      · rename_i hc
        obtain ⟨text, hspans, hmem⟩ := ih h
        have one : a.Spans ⟨some c, a.index + 1, rest⟩ [c] := ⟨hrest, rfl, rfl⟩
        exact ⟨c :: text, one.trans hspans, .cons hc hmem⟩
      · cases h

end Cursor

namespace Pattern

/-! ### Outcomes -/

/-- What one round gives and what carries over from round to round holds of all rounds. -/
theorem rel_of_mem_roundOutcomes {r : Cursor × List Group → Cursor × List Group → Prop}
    {step : Cursor → List Group → List (Cursor × List Group)}
    (refl : ∀ o, r o o) (trans : ∀ {o o' o''}, r o o' → r o' o'' → r o o'')
    (one : ∀ {place groups o}, o ∈ step place groups → r (place, groups) o)
    {greedy : Bool} {bound : List Char} {place : Cursor} {groups : List Group}
    {o : Cursor × List Group} (h : o ∈ roundOutcomes greedy step bound place groups) :
    r (place, groups) o := by
  induction bound generalizing place groups with
  | nil => exact mem_roundOutcomes_nil.1 h ▸ refl _
  | cons _ bound ih =>
    rcases mem_roundOutcomes_cons.1 h with rfl | ⟨o', ho', h⟩
    · exact refl _
    · exact trans (one ho') (ih h)

variable {p : Pattern} {place : Cursor} {groups : List Group} {o : Cursor × List Group}

/-- Every outcome of a pattern is the place behind some stretch of the line. -/
theorem spans_of_mem_outcomes (h : o ∈ p.outcomes place groups) :
    ∃ text, place.Spans o.1 text := by
  induction p generalizing place groups o with
  | chars sets =>
    obtain ⟨stop, hstop, rfl⟩ := mem_outcomes_chars.1 h
    obtain ⟨text, hspans, -⟩ := Cursor.spans_of_after? hstop
    exact ⟨text, hspans⟩
  | lineStart =>
    obtain ⟨-, rfl⟩ := mem_outcomes_lineStart.1 h
    exact ⟨[], .refl place⟩
  | lineEnd =>
    obtain ⟨-, rfl⟩ := mem_outcomes_lineEnd.1 h
    exact ⟨[], .refl place⟩
  | boundary =>
    obtain ⟨-, rfl⟩ := mem_outcomes_boundary.1 h
    exact ⟨[], .refl place⟩
  | seq a b iha ihb =>
    obtain ⟨o', ho', h⟩ := mem_outcomes_seq.1 h
    obtain ⟨s, hs⟩ := iha ho'
    obtain ⟨t, ht⟩ := ihb h
    exact ⟨s ++ t, hs.trans ht⟩
  | alt a b iha ihb =>
    rcases mem_outcomes_alt.1 h with h | h
    · exact iha h
    · exact ihb h
  | many greedy a ih =>
    refine rel_of_mem_roundOutcomes (r := fun o o' => ∃ text, o.1.Spans o'.1 text)
      (fun o => ⟨[], .refl o.1⟩) ?_ ih h
    rintro _ _ _ ⟨s, hs⟩ ⟨t, ht⟩
    exact ⟨s ++ t, hs.trans ht⟩
  | group name a ih =>
    obtain ⟨o', ho', rfl⟩ := mem_outcomes_group.1 h
    exact ih (o := o') ho'

variable (p) in
/-- The pattern matches the text somewhere in some line. -/
def Stretch (text : List Char) : Prop :=
  ∃ place groups, ∃ o ∈ p.outcomes place groups, place.Spans o.1 text

/-! ### Groups -/

/-- The patterns inside the groups of that name. -/
def groupsNamed (name : String) : Pattern → List Pattern
  | seq a b | alt a b => a.groupsNamed name ++ b.groupsNamed name
  | many _ a => a.groupsNamed name
  | group other a => (if other = name then [a] else []) ++ a.groupsNamed name
  | chars _ | lineStart | lineEnd | boundary => []

/-- Whether the group of that name takes part in every match. -/
def binds (name : String) : Pattern → Bool
  | seq a b => a.binds name || b.binds name
  | alt a b => a.binds name && b.binds name
  | group other a => other == name || a.binds name
  | chars _ | lineStart | lineEnd | boundary | many _ _ => false

/-- A group of an outcome was there before, or is a stretch of the pattern inside a group of its
name. -/
theorem mem_groups_of_mem_outcomes (h : o ∈ p.outcomes place groups) {g : Group} (hg : g ∈ o.2) :
    g ∈ groups ∨ ∃ a ∈ p.groupsNamed g.name, a.Stretch g.text := by
  induction p generalizing place groups o with
  | chars sets =>
    obtain ⟨stop, -, rfl⟩ := mem_outcomes_chars.1 h
    exact .inl hg
  | lineStart =>
    obtain ⟨-, rfl⟩ := mem_outcomes_lineStart.1 h
    exact .inl hg
  | lineEnd =>
    obtain ⟨-, rfl⟩ := mem_outcomes_lineEnd.1 h
    exact .inl hg
  | boundary =>
    obtain ⟨-, rfl⟩ := mem_outcomes_boundary.1 h
    exact .inl hg
  | seq a b iha ihb =>
    obtain ⟨o', ho', h⟩ := mem_outcomes_seq.1 h
    rcases ihb h hg with hg | ⟨q, hq, hstretch⟩
    · rcases iha ho' hg with hg | ⟨q, hq, hstretch⟩
      · exact .inl hg
      · exact .inr ⟨q, List.mem_append_left _ hq, hstretch⟩
    · exact .inr ⟨q, List.mem_append_right _ hq, hstretch⟩
  | alt a b iha ihb =>
    rcases mem_outcomes_alt.1 h with h | h
    · rcases iha h hg with hg | ⟨q, hq, hstretch⟩
      · exact .inl hg
      · exact .inr ⟨q, List.mem_append_left _ hq, hstretch⟩
    · rcases ihb h hg with hg | ⟨q, hq, hstretch⟩
      · exact .inl hg
      · exact .inr ⟨q, List.mem_append_right _ hq, hstretch⟩
  | many greedy a ih =>
    -- a round adds no groups but those of its own pattern
    refine rel_of_mem_roundOutcomes
      (r := fun o o' => g ∈ o'.2 → g ∈ o.2 ∨ ∃ q ∈ a.groupsNamed g.name, q.Stretch g.text)
      (fun _ hg => .inl hg) (fun first second hg => ?_) (fun ho hg => ih ho hg) h hg
    rcases second hg with hg | hg
    · exact first hg
    · exact .inr hg
  | group name a ih =>
    obtain ⟨o', ho', rfl⟩ := mem_outcomes_group.1 h
    rcases List.mem_cons.1 hg with rfl | hg
    · obtain ⟨text, hspans⟩ := spans_of_mem_outcomes ho'
      refine .inr ⟨a, ?_, place, groups, o', ho', ?_⟩
      · simp [groupsNamed]
      · rw [hspans.between_eq]; exact hspans
    · rcases ih ho' hg with hg | ⟨q, hq, hstretch⟩
      · exact .inl hg
      · exact .inr ⟨q, List.mem_append_right _ hq, hstretch⟩

/-- A group of an outcome was there before, or is text of the line behind the place. -/
theorem subset_of_mem_groups (h : o ∈ p.outcomes place groups) {g : Group} (hg : g ∈ o.2) :
    g ∈ groups ∨ g.text ⊆ place.rest := by
  induction p generalizing place groups o with
  | chars sets =>
    obtain ⟨stop, -, rfl⟩ := mem_outcomes_chars.1 h
    exact .inl hg
  | lineStart =>
    obtain ⟨-, rfl⟩ := mem_outcomes_lineStart.1 h
    exact .inl hg
  | lineEnd =>
    obtain ⟨-, rfl⟩ := mem_outcomes_lineEnd.1 h
    exact .inl hg
  | boundary =>
    obtain ⟨-, rfl⟩ := mem_outcomes_boundary.1 h
    exact .inl hg
  | seq a b iha ihb =>
    obtain ⟨o', ho', h⟩ := mem_outcomes_seq.1 h
    rcases ihb h hg with hg | hsub
    · exact iha ho' hg
    · exact .inr (List.Subset.trans hsub (rest_suffix_of_mem_outcomes ho').subset)
  | alt a b iha ihb =>
    rcases mem_outcomes_alt.1 h with h | h
    · exact iha h hg
    · exact ihb h hg
  | many greedy a ih =>
    -- the rounds behind this one see no more of the line than this one
    have hrounds := rel_of_mem_roundOutcomes
      (r := fun o o' => o'.1.rest <:+ o.1.rest ∧ (g ∈ o'.2 → g ∈ o.2 ∨ g.text ⊆ o.1.rest))
      (fun _ => ⟨List.suffix_refl _, .inl⟩)
      (fun first second => ⟨second.1.trans first.1, fun hg =>
        (second.2 hg).elim first.2 fun hsub => .inr (List.Subset.trans hsub first.1.subset)⟩)
      (fun ho => ⟨rest_suffix_of_mem_outcomes ho, fun hg => ih ho hg⟩) h
    exact hrounds.2 hg
  | group name a ih =>
    obtain ⟨o', ho', rfl⟩ := mem_outcomes_group.1 h
    rcases List.mem_cons.1 hg with rfl | hg
    · exact .inr (List.take_subset _ _)
    · exact ih ho' hg

/-- Groups are never lost. -/
theorem groups_suffix_of_mem_outcomes (h : o ∈ p.outcomes place groups) : groups <:+ o.2 := by
  induction p generalizing place groups o with
  | chars sets =>
    obtain ⟨stop, -, rfl⟩ := mem_outcomes_chars.1 h
    exact List.suffix_refl _
  | lineStart =>
    obtain ⟨-, rfl⟩ := mem_outcomes_lineStart.1 h
    exact List.suffix_refl _
  | lineEnd =>
    obtain ⟨-, rfl⟩ := mem_outcomes_lineEnd.1 h
    exact List.suffix_refl _
  | boundary =>
    obtain ⟨-, rfl⟩ := mem_outcomes_boundary.1 h
    exact List.suffix_refl _
  | seq a b iha ihb =>
    obtain ⟨o', ho', h⟩ := mem_outcomes_seq.1 h
    exact (iha ho').trans (ihb h)
  | alt a b iha ihb =>
    rcases mem_outcomes_alt.1 h with h | h
    · exact iha h
    · exact ihb h
  | many greedy a ih =>
    exact rel_of_mem_roundOutcomes (r := fun o o' => o.2 <:+ o'.2)
      (fun _ => List.suffix_refl _) List.IsSuffix.trans ih h
  | group name a ih =>
    obtain ⟨o', ho', rfl⟩ := mem_outcomes_group.1 h
    exact (ih ho').trans (List.suffix_cons _ _)

theorem exists_group_of_binds {name : String} (hp : p.binds name = true)
    (h : o ∈ p.outcomes place groups) : ∃ g ∈ o.2, g.name = name := by
  induction p generalizing place groups o with
  | seq a b iha ihb =>
    obtain ⟨o', ho', h⟩ := mem_outcomes_seq.1 h
    rcases (Bool.or_eq_true _ _).mp hp with hp | hp
    · obtain ⟨g, hg, hname⟩ := iha hp ho'
      exact ⟨g, (groups_suffix_of_mem_outcomes h).subset hg, hname⟩
    · exact ihb hp h
  | alt a b iha ihb =>
    obtain ⟨ha, hb⟩ := (Bool.and_eq_true _ _).mp hp
    rcases mem_outcomes_alt.1 h with h | h
    · exact iha ha h
    · exact ihb hb h
  | group other a ih =>
    obtain ⟨o', ho', rfl⟩ := mem_outcomes_group.1 h
    rcases (Bool.or_eq_true _ _).mp hp with hp | hp
    · exact ⟨_, List.mem_cons_self, beq_iff_eq.1 hp⟩
    · obtain ⟨g, hg, hname⟩ := ih hp ho'
      exact ⟨g, List.mem_cons_of_mem _ hg, hname⟩
  | chars | lineStart | lineEnd | boundary | many => cases hp

/-! ### Visible stretches -/

end Pattern

/-- Whether no character of the set is white space. -/
def CharSet.isVisible (set : CharSet) : Bool :=
  Text.blanks.all fun c => !set.mem c

theorem CharSet.visible_of_mem {set : CharSet} (hset : set.isVisible = true) {c : Char}
    (hc : set.mem c = true) : Text.isBlank c = false := by
  by_contra hblank
  have listed : c ∈ Text.blanks := (Text.mem_blanks_iff c).2 (by simpa using hblank)
  have := List.all_eq_true.1 hset c listed
  simp [hc] at this

namespace Pattern

/-- Whether every stretch of the pattern holds a character that is not white space. -/
def isVisible : Pattern → Bool
  | chars sets => sets.any CharSet.isVisible
  | seq a b => a.isVisible || b.isVisible
  | alt a b => a.isVisible && b.isVisible
  | group _ a => a.isVisible
  | lineStart | lineEnd | boundary | many _ _ => false

theorem visible_of_mem_outcomes {p : Pattern} {place : Cursor} {groups : List Group}
    {o : Cursor × List Group} (hp : p.isVisible = true) (h : o ∈ p.outcomes place groups)
    {text : List Char} (htext : place.Spans o.1 text) : Line.isBlank text = false := by
  induction p generalizing place groups o text with
  | chars sets =>
    obtain ⟨stop, hstop, rfl⟩ := mem_outcomes_chars.1 h
    obtain ⟨text', hspans, hmem⟩ := Cursor.spans_of_after? hstop
    obtain rfl : text = text' := htext.unique hspans
    obtain ⟨set, hset, hvisible⟩ := List.any_eq_true.1 hp
    obtain ⟨i, hi, rfl⟩ := List.mem_iff_getElem.1 hset
    have hlength : i < text.length := hmem.length_eq ▸ hi
    exact Line.isBlank_eq_false_iff.2
      ⟨text[i], List.getElem_mem hlength, CharSet.visible_of_mem hvisible (hmem.get hi hlength)⟩
  | seq a b iha ihb =>
    obtain ⟨o', ho', h⟩ := mem_outcomes_seq.1 h
    obtain ⟨s, hs⟩ := spans_of_mem_outcomes ho'
    obtain ⟨t, ht⟩ := spans_of_mem_outcomes h
    obtain rfl : text = s ++ t := htext.unique (hs.trans ht)
    rw [Line.isBlank_append]
    rcases (Bool.or_eq_true _ _).mp hp with hp | hp
    · rw [iha hp ho' hs, Bool.false_and]
    · rw [ihb hp h ht, Bool.and_false]
  | alt a b iha ihb =>
    obtain ⟨ha, hb⟩ := (Bool.and_eq_true _ _).mp hp
    rcases mem_outcomes_alt.1 h with h | h
    · exact iha ha h htext
    · exact ihb hb h htext
  | group name a ih =>
    obtain ⟨o', ho', rfl⟩ := mem_outcomes_group.1 h
    exact ih (o := o') hp ho' htext
  | lineStart | lineEnd | boundary | many => cases hp

/-- A pattern that `isVisible` accepts matches nothing but visible text. -/
theorem visible_of_stretch {p : Pattern} (hp : p.isVisible = true) {text : List Char}
    (h : p.Stretch text) : Line.isBlank text = false := by
  obtain ⟨place, groups, o, ho, htext⟩ := h
  exact visible_of_mem_outcomes hp ho htext

/-! ### Matches -/

variable {p : Pattern} {place : Cursor} {m : Match}

/-- A match reports the preferred outcome at its place. -/
theorem exists_outcome_of_matchAt (h : p.matchAt place = some m) :
    ∃ o, (p.outcomes place []).head? = some o ∧ place.Spans o.1 m.text ∧
      m.start = place.index ∧ m.groups = o.2 := by
  rw [matchAt_eq] at h
  obtain ⟨o, ho, rfl⟩ := Option.map_eq_some_iff.1 h
  obtain ⟨text, hspans⟩ := spans_of_mem_outcomes (List.mem_of_mem_head? ho)
  obtain rfl := hspans.between_eq
  exact ⟨o, ho, hspans, rfl, rfl⟩

theorem start_eq_of_matchAt (h : p.matchAt place = some m) : m.start = place.index := by
  obtain ⟨o, -, -, hstart, -⟩ := exists_outcome_of_matchAt h
  exact hstart

/-- The match is the preferred one of the pattern at some place. -/
def Matches (p : Pattern) (m : Match) : Prop :=
  ∃ place : Cursor, p.matchAt place = some m

theorem Matches.exists_outcome (h : p.Matches m) :
    ∃ place : Cursor, ∃ o ∈ p.outcomes place [], place.Spans o.1 m.text ∧ m.groups = o.2 := by
  obtain ⟨place, h⟩ := h
  obtain ⟨o, ho, hspans, -, hgroups⟩ := exists_outcome_of_matchAt h
  exact ⟨place, o, List.mem_of_mem_head? ho, hspans, hgroups⟩

theorem Matches.stretch (h : p.Matches m) : p.Stretch m.text := by
  obtain ⟨place, o, ho, hspans, -⟩ := h.exists_outcome
  exact ⟨place, [], o, ho, hspans⟩

theorem Matches.stretch_of_mem_groups (h : p.Matches m) {g : Group} (hg : g ∈ m.groups) :
    ∃ a ∈ p.groupsNamed g.name, a.Stretch g.text := by
  obtain ⟨place, o, ho, -, hgroups⟩ := h.exists_outcome
  rw [hgroups] at hg
  exact (mem_groups_of_mem_outcomes ho hg).resolve_left (List.not_mem_nil)

theorem Matches.stretch_of_group? (h : p.Matches m) {name : String} {g : Group}
    (hg : m.group? name = some g) : ∃ a ∈ p.groupsNamed name, a.Stretch g.text := by
  have hname : g.name = name := by simpa using List.find?_some hg
  exact hname ▸ h.stretch_of_mem_groups (List.mem_of_find?_eq_some hg)

/-- The text of a group that takes part in every match is a stretch of the pattern inside it. -/
theorem Matches.stretch_textOf (h : p.Matches m) {name : String} (hp : p.binds name = true) :
    ∃ a ∈ p.groupsNamed name, a.Stretch (m.textOf name) := by
  obtain ⟨place, o, ho, -, hgroups⟩ := h.exists_outcome
  obtain ⟨g, hg, hname⟩ := exists_group_of_binds hp ho
  have found : (m.group? name).isSome = true := by
    rw [Match.group?, List.find?_isSome]
    exact ⟨g, hgroups ▸ hg, beq_iff_eq.2 hname⟩
  obtain ⟨g', hg'⟩ := Option.isSome_iff_exists.1 found
  have text_eq : m.textOf name = g'.text := by rw [Match.textOf, hg']; rfl
  rw [text_eq]
  exact h.stretch_of_group? hg'

/-! ### Pieces -/

theorem getLast?_append_or (a b : List Char) (before : Option Char) :
    (a ++ b).getLast?.or before = b.getLast?.or (a.getLast?.or before) := by
  rw [List.getLast?_append, Option.or_assoc]

theorem getLast?_cons_or (c : Char) (a : List Char) (before : Option Char) :
    (c :: a).getLast?.or before = a.getLast?.or (some c) :=
  getLast?_append_or [c] a before

/-- A search reports the match at a place, unless there is none but an empty one. -/
theorem piecesFrom_cons_cases (p : Pattern) (before : Option Char) (index : Nat) (c : Char)
    (rest : List Char) :
    (∃ m, p.matchAt ⟨before, index, c :: rest⟩ = some m ∧ m.text ≠ [] ∧
      p.piecesFrom 0 before index (c :: rest) =
        .found m :: p.piecesFrom (m.text.length - 1) (some c) (index + 1) rest) ∨
    (∀ m, p.matchAt ⟨before, index, c :: rest⟩ = some m → m.text = []) ∧
      p.piecesFrom 0 before index (c :: rest) =
        .other c :: p.piecesFrom 0 (some c) (index + 1) rest := by
  rw [piecesFrom]
  split
  · rename_i m hmatch
    split
    · rename_i hempty
      refine .inr ⟨fun m' hmatch' => ?_, rfl⟩
      rw [hmatch] at hmatch'
      exact Option.some.inj hmatch' ▸ List.isEmpty_iff.1 hempty
    · rename_i hne
      exact .inl ⟨m, hmatch, mt List.isEmpty_iff.2 hne, rfl⟩
  · rename_i hnone
    refine .inr ⟨fun m hmatch => ?_, rfl⟩
    rw [hnone] at hmatch
    cases hmatch

/-- A reported match is the preferred one at its place of the line. -/
theorem exists_matchAt_of_mem_piecesFrom {skip : Nat} {before : Option Char} {index : Nat}
    {line : List Char} (h : .found m ∈ p.piecesFrom skip before index line) :
    ∃ a b, line = a ++ b ∧ skip ≤ a.length ∧
      p.matchAt ⟨a.getLast?.or before, index + a.length, b⟩ = some m ∧ m.text ≠ [] := by
  induction line generalizing skip before index with
  | nil => cases skip <;> simp [piecesFrom] at h
  | cons c rest ih =>
    have further {skip' : Nat} (hle : skip ≤ skip' + 1)
        (h : .found m ∈ p.piecesFrom skip' (some c) (index + 1) rest) :
        ∃ a b, c :: rest = a ++ b ∧ skip ≤ a.length ∧
          p.matchAt ⟨a.getLast?.or before, index + a.length, b⟩ = some m ∧ m.text ≠ [] := by
      obtain ⟨a, b, rfl, hskip, hmatch, hne⟩ := ih h
      refine ⟨c :: a, b, rfl, hle.trans (Nat.succ_le_succ hskip), ?_, hne⟩
      rwa [getLast?_cons_or, List.length_cons, Nat.add_comm a.length, ← Nat.add_assoc]
    cases skip with
    | succ skip => exact further (Nat.le_refl _) h
    | zero =>
      rcases p.piecesFrom_cons_cases before index c rest with ⟨m', hmatch, hne, hpieces⟩ | ⟨-, hpieces⟩
      · rw [hpieces] at h
        rcases List.mem_cons.1 h with h | h
        · obtain rfl : m = m' := by simpa using h
          exact ⟨[], c :: rest, rfl, Nat.zero_le _, hmatch, hne⟩
        · exact further (Nat.zero_le _) h
      · rw [hpieces] at h
        exact further (Nat.zero_le _) ((List.mem_cons.1 h).resolve_left (by simp))

theorem matches_of_mem_piecesFrom {skip : Nat} {before : Option Char} {index : Nat}
    {line : List Char} (h : .found m ∈ p.piecesFrom skip before index line) :
    p.Matches m ∧ m.text ≠ [] := by
  obtain ⟨a, b, -, -, hmatch, hne⟩ := exists_matchAt_of_mem_piecesFrom h
  exact ⟨⟨_, hmatch⟩, hne⟩

theorem exists_matchAt_of_mem_matchesIn {line : List Char} (h : m ∈ p.matchesIn line) :
    ∃ a b, line = a ++ b ∧ p.matchAt ⟨a.getLast?, a.length, b⟩ = some m ∧ m.text ≠ [] := by
  rw [matchesIn, pieces_eq] at h
  obtain ⟨piece, hpiece, hfound⟩ := List.mem_filterMap.1 h
  cases piece with
  | other c => cases hfound
  | found m' =>
    obtain rfl : m' = m := by simpa [Piece.match?] using hfound
    simpa using exists_matchAt_of_mem_piecesFrom hpiece

theorem matches_of_mem_matchesIn {line : List Char} (h : m ∈ p.matchesIn line) :
    p.Matches m ∧ m.text ≠ [] := by
  obtain ⟨a, b, -, hmatch, hne⟩ := exists_matchAt_of_mem_matchesIn h
  exact ⟨⟨_, hmatch⟩, hne⟩

theorem matches_of_find? {line : List Char} (h : p.find? line = some m) : p.Matches m := by
  rw [find?_eq] at h
  generalize (none : Option Char) = previous, 0 = index at h
  induction line generalizing previous index with
  | nil => exact ⟨_, h⟩
  | cons c line ih =>
    rw [findFrom] at h
    split at h
    · rename_i found hfound
      exact ⟨_, hfound.trans h⟩
    · exact ih _ _ h

end Pattern

end SqlDialect
