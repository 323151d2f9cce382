import SqlDialect.Proofs.Pattern.Place
import SqlDialect.Proofs.Pattern.Reading

/-!
# The text of a group

A group that takes part in every match cuts the matched text in three: what the patterns before it
read, the text of the group, and what the patterns behind it read (`Pattern.exists_parts_of_matchAt`).

A sequence with several groups is taken apart from behind, one part after the other
(`Pattern.exists_of_mem_outcomes_append`, `Pattern.exists_of_mem_outcomes_append_group`).  Two groups from
the start of the line to its end cut the line in two (`Pattern.exists_halves_of_find?`).
-/

namespace SqlDialect.Pattern

variable {p l g r : Pattern} {name : String} {place : Cursor} {groups : List Group}
  {o : Cursor × List Group} {text : List Char}

/-- The pattern inside the only group of that name, with the patterns before and behind it; none if
the group need not take part in a match. -/
def around (name : String) : Pattern → Option (Pattern × Pattern × Pattern)
  | seq a b =>
    match b.around name with
    | some (l, g, r) => if (a.groupsNamed name).isEmpty then some (seq a l, g, r) else none
    | none =>
      match a.around name with
      | some (l, g, r) => if (b.groupsNamed name).isEmpty then some (l, g, seq r b) else none
      | none => none
  | group other g =>
    if other = name then
      if (g.groupsNamed name).isEmpty then some (empty, g, empty) else none
    else g.around name
  | chars _ | lineStart | lineEnd | boundary | alt _ _ | many _ _ => none

/-- The group of a sequence is in one of its patterns, and the other one has none of that name. -/
theorem around_seq_cases {a b : Pattern} (h : (seq a b).around name = some (l, g, r)) :
    (∃ l', b.around name = some (l', g, r) ∧ a.groupsNamed name = [] ∧ l = seq a l') ∨
      ∃ r', a.around name = some (l, g, r') ∧ b.groupsNamed name = [] ∧ r = seq r' b := by
  rw [around] at h
  split at h
  · rename_i l' g' r' hb
    split at h
    · rename_i hempty
      obtain ⟨rfl, rfl, rfl⟩ : seq a l' = l ∧ g' = g ∧ r' = r := by simpa using h
      exact .inl ⟨l', hb, List.isEmpty_iff.1 hempty, rfl⟩
    · cases h
  · split at h
    · rename_i l' g' r' ha
      split at h
      · rename_i hempty
        obtain ⟨rfl, rfl, rfl⟩ : l' = l ∧ g' = g ∧ seq r' b = r := by simpa using h
        exact .inr ⟨r', ha, List.isEmpty_iff.1 hempty, rfl⟩
      · cases h
    · cases h

/-- Either a group is the one in question, or that one is inside it. -/
theorem around_group_cases {other : String} {a : Pattern}
    (h : (group other a).around name = some (l, g, r)) :
    (other = name ∧ a.groupsNamed name = [] ∧ l = empty ∧ g = a ∧ r = empty) ∨
      other ≠ name ∧ a.around name = some (l, g, r) := by
  rw [around] at h
  split at h
  · rename_i hother
    split at h
    · rename_i hempty
      obtain ⟨rfl, rfl, rfl⟩ : empty = l ∧ a = g ∧ empty = r := by simpa using h
      exact .inl ⟨hother, List.isEmpty_iff.1 hempty, rfl, rfl, rfl⟩
    · cases h
  · rename_i hother
    exact .inr ⟨hother, h⟩

/-- The three parts of a text between two characters: `t` is the text of the group. -/
structure Parts (l g r : Pattern) (before : Option Char) (s t u : List Char)
    (behind : Option Char) : Prop where
  reads_left : l.Reads before s ((t ++ u).head?.or behind)
  reads_group : g.Reads (s.getLast?.or before) t (u.head?.or behind)
  reads_right : r.Reads ((s ++ t).getLast?.or before) u behind

section Parts

variable {a b : Pattern} {before behind : Option Char} {s t u x y : List Char}

/-- What is read before the three parts belongs to the first one. -/
theorem Parts.append_left (h : Parts l g r (x.getLast?.or before) s t u behind)
    (ha : a.Reads before x ((s ++ t ++ u).head?.or behind)) :
    Parts (seq a l) g r before (x ++ s) t u behind where
  reads_left := by
    rw [List.append_assoc, List.head?_append, Option.or_assoc] at ha
    exact ⟨x, s, rfl, ha, h.reads_left⟩
  reads_group := by
    rw [getLast?_append_or]
    exact h.reads_group
  reads_right := by
    rw [List.append_assoc, getLast?_append_or]
    exact h.reads_right

/-- What is read behind the three parts belongs to the last one. -/
theorem Parts.append_right (h : Parts l g r before s t u (y.head?.or behind))
    (hb : b.Reads ((s ++ t ++ u).getLast?.or before) y behind) :
    Parts l g (seq r b) before s t (u ++ y) behind where
  reads_left := by
    rw [← List.append_assoc, List.head?_append, Option.or_assoc]
    exact h.reads_left
  reads_group := by
    rw [List.head?_append, Option.or_assoc]
    exact h.reads_group
  reads_right := by
    rw [getLast?_append_or] at hb
    exact ⟨u, y, rfl, h.reads_right, hb⟩

end Parts

theorem exists_parts_of_mem_outcomes (hp : p.around name = some (l, g, r))
    (h : o ∈ p.outcomes place groups) (htext : place.Spans o.1 text) :
    ∃ s t u, text = s ++ t ++ u ∧ Parts l g r place.previous s t u o.1.rest.head? ∧
      ⟨name, place.index + s.length, t⟩ ∈ o.2 ∧
      ∀ own ∈ o.2, own.name = name → own = ⟨name, place.index + s.length, t⟩ ∨ own ∈ groups := by
  induction p generalizing l g r place groups o text with
  | seq a b iha ihb =>
    obtain ⟨o', ho', ho⟩ := mem_outcomes_seq.1 h
    obtain ⟨x, hx⟩ := spans_of_mem_outcomes ho'
    obtain ⟨y, hy⟩ := spans_of_mem_outcomes ho
    obtain rfl := htext.unique (hx.trans hy)
    -- the group is in one half, and the other half has no group of its name
    rcases around_seq_cases hp with ⟨l', hb, hnone, rfl⟩ | ⟨r', ha, hnone, rfl⟩
    · obtain ⟨s, t, u, rfl, hparts, hmem, hunique⟩ := ihb hb ho hy
      have hreads := reads_of_mem_outcomes ho' hx
      rw [hy.rest_eq, List.head?_append] at hreads
      rw [hx.previous_eq] at hparts
      have hstart : o'.1.index + s.length = place.index + (x ++ s).length := by
        rw [hx.index_eq, List.length_append, Nat.add_assoc]
      rw [hstart] at hmem hunique
      refine ⟨x ++ s, t, u, by simp, hparts.append_left hreads, hmem, fun own hown hname => ?_⟩
      exact (hunique own hown hname).imp_right fun hown =>
        mem_groups_of_groupsNamed_eq_nil ho' hown (hname ▸ hnone)
    · obtain ⟨s, t, u, rfl, hparts, hmem, hunique⟩ := iha ha ho' hx
      have hreads := reads_of_mem_outcomes ho hy
      rw [hx.previous_eq] at hreads
      rw [hy.rest_eq, List.head?_append] at hparts
      exact ⟨s, t, u ++ y, by simp, hparts.append_right hreads,
        (groups_suffix_of_mem_outcomes ho).subset hmem, fun own hown hname =>
          hunique own (mem_groups_of_groupsNamed_eq_nil ho hown (hname ▸ hnone)) hname⟩
  | group other a ih =>
    rcases around_group_cases hp with ⟨rfl, hnone, rfl, rfl, rfl⟩ | ⟨hother, hp⟩
    · have hmem := mem_groups_group h
      have hunique (own : Group) (hown : own ∈ o.2) (hname : own.name = other) :=
        eq_of_mem_groups_group h hown (hname ▸ hnone)
      rw [htext.between_eq] at hmem hunique
      have hreads : (group other g).Reads place.previous text o.1.rest.head? :=
        reads_of_mem_outcomes h htext
      exact ⟨[], text, [], by simp, ⟨.nil, hreads, .nil⟩, hmem, hunique⟩
    · obtain ⟨o', ho', rfl⟩ := mem_outcomes_group.1 h
      obtain ⟨s, t, u, htext, hparts, hmem, hunique⟩ := ih hp ho' htext
      refine ⟨s, t, u, htext, hparts, List.mem_cons_of_mem _ hmem, fun own hown hname => ?_⟩
      rcases List.mem_cons.1 hown with rfl | hown
      · exact absurd hname hother
      · exact hunique own hown hname
  | chars | lineStart | lineEnd | boundary | alt | many => cases hp

/-- **The text of a group that takes part in every match**, and what stands around it. -/
theorem exists_parts_of_matchAt {m : Match} (hp : p.around name = some (l, g, r))
    (h : p.matchAt place = some m) :
    ∃ s u rest, place.rest = m.text ++ rest ∧ m.text = s ++ m.textOf name ++ u ∧
      Parts l g r place.previous s (m.textOf name) u rest.head? := by
  obtain ⟨o, ho, htext, -, hgroups⟩ := exists_outcome_of_matchAt h
  obtain ⟨s, t, u, hsplit, hparts, hmem, hunique⟩ :=
    exists_parts_of_mem_outcomes hp (List.mem_of_mem_head? ho) htext
  rw [← hgroups] at hmem hunique
  have hgroup : m.textOf name = t :=
    Match.textOf_eq ⟨_, hmem, rfl⟩ fun own hown hname => by
      rcases hunique own hown hname with rfl | hown
      · rfl
      · cases hown
  rw [hgroup]
  exact ⟨s, u, o.1.rest, htext.rest_eq, hsplit, hparts⟩

/-! ### Several groups -/

/-- Whether the pattern has no groups. -/
def isPlain : Pattern → Bool
  | chars _ | lineStart | lineEnd | boundary => true
  | seq a b | alt a b => a.isPlain && b.isPlain
  | many _ a => a.isPlain
  | group _ _ => false

theorem groups_eq_of_isPlain (hp : p.isPlain = true) (h : o ∈ p.outcomes place groups) :
    o.2 = groups := by
  induction p generalizing place groups o with
  | chars sets =>
    obtain ⟨stop, -, rfl⟩ := mem_outcomes_chars.1 h
    rfl
  | lineStart => rw [(mem_outcomes_lineStart.1 h).2]
  | lineEnd => rw [(mem_outcomes_lineEnd.1 h).2]
  | boundary => rw [(mem_outcomes_boundary.1 h).2]
  | seq a b iha ihb =>
    obtain ⟨ha, hb⟩ := (Bool.and_eq_true _ _).mp hp
    obtain ⟨o', ho', ho⟩ := mem_outcomes_seq.1 h
    rw [ihb hb ho, iha ha ho']
  | alt a b iha ihb =>
    obtain ⟨ha, hb⟩ := (Bool.and_eq_true _ _).mp hp
    rcases mem_outcomes_alt.1 h with h | h
    · exact iha ha h
    · exact ihb hb h
  | many greedy a ih =>
    exact rel_of_mem_roundOutcomes (r := fun o o' => o'.2 = o.2) (fun _ => rfl)
      (fun first second => second.trans first) (ih hp) h
  | group name a => cases hp

/-- What the last part of a sequence reads, if it has no groups. -/
theorem exists_of_mem_outcomes_append {a b : Pattern} (hb : b.isPlain = true)
    (h : o ∈ (a ++ b).outcomes place groups) :
    ∃ stop t, (stop, o.2) ∈ a.outcomes place groups ∧ stop.Spans o.1 t ∧
      b.Reads stop.previous t o.1.rest.head? := by
  obtain ⟨⟨stop, own⟩, ho', ho⟩ := mem_outcomes_seq.1 h
  obtain rfl : o.2 = own := groups_eq_of_isPlain hb ho
  obtain ⟨t, ht⟩ := spans_of_mem_outcomes ho
  exact ⟨stop, t, ho', ht, reads_of_mem_outcomes ho ht⟩

/-- An optional part at the end of a sequence takes part or not. -/
theorem mem_outcomes_append_optional {a b : Pattern}
    (h : o ∈ (a ++ optional b).outcomes place groups) :
    o ∈ (a ++ b).outcomes place groups ∨ o ∈ a.outcomes place groups := by
  obtain ⟨⟨stop, own⟩, ha, ho⟩ := mem_outcomes_seq.1 h
  rcases mem_outcomes_alt.1 ho with ho | ho
  · exact .inl (mem_outcomes_seq.2 ⟨_, ha, ho⟩)
  · obtain rfl := List.mem_singleton.1 ho
    exact .inr ha

/-- What a group reads. -/
theorem exists_of_mem_outcomes_group {a : Pattern} {name : String} (ha : a.isPlain = true)
    (h : o ∈ (group name a).outcomes place groups) :
    ∃ t, place.Spans o.1 t ∧ a.Reads place.previous t o.1.rest.head? ∧
      o.2 = ⟨name, place.index, t⟩ :: groups := by
  obtain ⟨⟨behind, more⟩, ho, rfl⟩ := mem_outcomes_group.1 h
  obtain rfl : more = groups := groups_eq_of_isPlain ha ho
  obtain ⟨t, ht⟩ := spans_of_mem_outcomes ho
  have htext : place.between behind = t := ht.between_eq
  subst htext
  exact ⟨_, ht, reads_of_mem_outcomes (o := (behind, more)) ho ht, rfl⟩

/-- What the last part of a sequence reads, if it is a group. -/
theorem exists_of_mem_outcomes_append_group {a b : Pattern} {name : String} (hb : b.isPlain = true)
    (h : o ∈ (a ++ group name b).outcomes place groups) :
    ∃ stop own t, (stop, own) ∈ a.outcomes place groups ∧ stop.Spans o.1 t ∧
      b.Reads stop.previous t o.1.rest.head? ∧ o.2 = ⟨name, stop.index, t⟩ :: own := by
  obtain ⟨⟨stop, own⟩, ho', ho⟩ := mem_outcomes_seq.1 h
  obtain ⟨t, ht, hreads, hgroups⟩ := exists_of_mem_outcomes_group hb ho
  exact ⟨stop, own, t, ho', ht, hreads, hgroups⟩

/-- **Two groups from the start of the line to its end cut the line in two.** -/
theorem exists_halves_of_find? {a b : Pattern} {first second : String} {line : List Char} {m : Match}
    (hne : first ≠ second) (ha : a.isPlain = true) (hb : b.isPlain = true)
    (h : (lineStart ++ group first a ++ group second b ++ lineEnd).find? line = some m) :
    ∃ s t, line = s ++ t ∧ m.textOf first = s ∧ m.group? second = some ⟨second, s.length, t⟩ ∧
      a.Reads none s t.head? ∧ b.Reads s.getLast? t none := by
  obtain ⟨o, ho, hgroups⟩ := exists_outcome_of_find? rfl h
  obtain ⟨behind, _, ho, hnil, rfl, hend⟩ := exists_of_mem_outcomes_append rfl ho
  obtain ⟨middle, own, t, ho, ht, hsecond, hown⟩ := exists_of_mem_outcomes_append_group hb ho
  obtain ⟨start, own', s, ho, hs, hfirst, hown'⟩ := exists_of_mem_outcomes_append_group ha ho
  obtain ⟨-, hstart⟩ := mem_outcomes_lineStart.1 ho
  obtain ⟨rfl, rfl⟩ := Prod.mk.inj hstart
  -- nothing stands behind the second group
  have hbehind : behind.rest = [] := hnil.rest_eq.trans (List.head?_eq_none_iff.1 hend)
  have hmiddle : middle.rest = t := by rw [ht.rest_eq, hbehind, List.append_nil]
  have hindex : middle.index = s.length := by simpa [Cursor.start] using hs.index_eq
  have hprevious : middle.previous = s.getLast? := by simpa [Cursor.start] using hs.previous_eq
  rw [hmiddle] at hfirst
  rw [hprevious, hbehind] at hsecond
  obtain rfl : own = [⟨first, 0, s⟩] := hown'
  have hown : m.groups = [⟨second, s.length, t⟩, ⟨first, 0, s⟩] := by
    rw [← hindex]
    exact hgroups.trans hown
  refine ⟨s, t, hmiddle ▸ hs.rest_eq, ?_, ?_, hfirst, hsecond⟩
  · simp [Match.textOf, Match.group?, hown, hne.symm]
  · simp [Match.group?, hown]

end SqlDialect.Pattern
