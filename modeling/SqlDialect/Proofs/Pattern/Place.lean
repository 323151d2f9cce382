import SqlDialect.Proofs.Pattern.Stretch

/-!
# Where a match stands

A match that a search reports stands behind some text of the line.  A pattern that starts with the
start of the line can only match there.

* `Pattern.exists_place_of_find?` : the place of the match that a search reports.
-/

namespace SqlDialect

/-- Nothing stands before a place without a character before it. -/
theorem Cursor.Spans.eq_of_previous {a b : Cursor} {text : List Char} (h : a.Spans b text)
    (hprevious : b.previous = none) : a = b := by
  have hlast := h.previous_eq.symm.trans hprevious
  obtain ⟨hlast, -⟩ := Option.or_eq_none_iff.1 hlast
  obtain rfl := List.getLast?_eq_none_iff.1 hlast
  have hrest : a.rest = b.rest := h.rest_eq
  have hindex : b.index = a.index := h.index_eq
  have hsame : b.previous = a.previous := h.previous_eq
  cases a
  cases b
  simp_all

/-- The text of a group, if all groups of that name hold the same. -/
theorem Match.textOf_eq {m : Match} {name : String} {text : List Char}
    (hbound : ∃ g ∈ m.groups, g.name = name)
    (hunique : ∀ g ∈ m.groups, g.name = name → g.text = text) : m.textOf name = text := by
  obtain ⟨g, hg, hname⟩ := hbound
  have hfound : (m.group? name).isSome = true := by
    rw [Match.group?, List.find?_isSome]
    exact ⟨g, hg, beq_iff_eq.2 hname⟩
  obtain ⟨own, hown⟩ := Option.isSome_iff_exists.1 hfound
  have hownName : own.name = name := by simpa using List.find?_some hown
  rw [Match.textOf, hown]
  exact hunique own (List.mem_of_find?_eq_some hown) hownName

namespace Pattern

variable {p : Pattern} {m : Match} {line : List Char}

/-! ### Places of matches -/

theorem exists_place_of_findFrom {previous : Option Char} {index : Nat}
    (h : p.findFrom previous index line = some m) :
    ∃ place text, Cursor.Spans ⟨previous, index, line⟩ place text ∧ p.matchAt place = some m := by
  induction line generalizing previous index with
  | nil => exact ⟨_, [], .refl _, h⟩
  | cons c line ih =>
    rw [findFrom] at h
    split at h
    · rename_i found hfound
      exact ⟨_, [], .refl _, hfound.trans h⟩
    · obtain ⟨place, text, hspans, hmatch⟩ := ih h
      have one : Cursor.Spans ⟨previous, index, c :: line⟩ ⟨some c, index + 1, line⟩ [c] :=
        ⟨rfl, rfl, rfl⟩
      exact ⟨place, [c] ++ text, one.trans hspans, hmatch⟩

/-- A match that a search reports stands behind some text of the line. -/
theorem exists_place_of_find? (h : p.find? line = some m) :
    ∃ place text, (Cursor.start line).Spans place text ∧ p.matchAt place = some m := by
  rw [find?_eq] at h
  exact exists_place_of_findFrom h

/-- Whether every match of the pattern starts with the start of the line. -/
def isAnchored : Pattern → Bool
  | lineStart => true
  | seq a _ | group _ a => a.isAnchored
  | alt a b => a.isAnchored && b.isAnchored
  | chars _ | lineEnd | boundary | many _ _ => false

theorem previous_of_mem_outcomes {place : Cursor} {groups : List Group}
    {o : Cursor × List Group} (hp : p.isAnchored = true) (h : o ∈ p.outcomes place groups) :
    place.previous = none := by
  induction p generalizing place groups o with
  | lineStart => exact (mem_outcomes_lineStart.1 h).1
  | seq a b iha _ =>
    obtain ⟨o', ho', -⟩ := mem_outcomes_seq.1 h
    exact iha hp ho'
  | alt a b iha ihb =>
    obtain ⟨ha, hb⟩ := (Bool.and_eq_true _ _).mp hp
    rcases mem_outcomes_alt.1 h with h | h
    · exact iha ha h
    · exact ihb hb h
  | group name a ih =>
    obtain ⟨o', ho', -⟩ := mem_outcomes_group.1 h
    exact ih hp ho'
  | chars | lineEnd | boundary | many => cases hp

/-- A match of a pattern that starts with the start of the line stands there. -/
theorem exists_outcome_of_find? (hp : p.isAnchored = true) (h : p.find? line = some m) :
    ∃ o ∈ p.outcomes (.start line) [], m.groups = o.2 := by
  obtain ⟨place, text, hspans, hmatch⟩ := exists_place_of_find? h
  obtain ⟨o, ho, -, -, hgroups⟩ := exists_outcome_of_matchAt hmatch
  have ho : o ∈ p.outcomes place [] := List.mem_of_mem_head? ho
  rw [hspans.eq_of_previous (previous_of_mem_outcomes hp ho)]
  exact ⟨o, ho, hgroups⟩

/-! ### Groups -/

/-- A group of a pattern that has no groups of that name was there before. -/
theorem mem_groups_of_groupsNamed_eq_nil {place : Cursor} {groups : List Group}
    {o : Cursor × List Group} (h : o ∈ p.outcomes place groups) {g : Group} (hg : g ∈ o.2)
    (hp : p.groupsNamed g.name = []) : g ∈ groups := by
  refine (mem_groups_of_mem_outcomes h hg).resolve_right ?_
  rintro ⟨a, ha, -⟩
  rw [hp] at ha
  cases ha

/-- The groups behind a group whose pattern has none of its names: that group, and those that were
there before. -/
theorem eq_of_mem_groups_group {a : Pattern} {name : String} {place : Cursor}
    {groups : List Group} {o : Cursor × List Group} (h : o ∈ (group name a).outcomes place groups)
    {g : Group} (hg : g ∈ o.2) (ha : a.groupsNamed g.name = []) :
    g = ⟨name, place.index, place.between o.1⟩ ∨ g ∈ groups := by
  obtain ⟨o', ho', rfl⟩ := mem_outcomes_group.1 h
  rcases List.mem_cons.1 hg with hg | hg
  · exact .inl hg
  · exact .inr (mem_groups_of_groupsNamed_eq_nil ho' hg ha)

theorem mem_groups_group {a : Pattern} {name : String} {place : Cursor}
    {groups : List Group} {o : Cursor × List Group}
    (h : o ∈ (group name a).outcomes place groups) :
    ⟨name, place.index, place.between o.1⟩ ∈ o.2 := by
  obtain ⟨o', -, rfl⟩ := mem_outcomes_group.1 h
  exact List.mem_cons_self

end Pattern

end SqlDialect
