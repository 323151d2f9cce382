import SqlDialect.Proofs.Line.Literal
import SqlDialect.Proofs.Pattern.Preference
import SqlDialect.Rule.DateArithmetic

/-!
# Rules that change the first match they can

`Rule.replaceFirst` puts new text in the place of one match: the first that starts in code and that
the rule accepts.

* `Rule.exists_of_replaceFirst` : what the new line is made of, and that no match further left is
  acceptable.
* `Rule.eq_none_of_replaceFirst` : without an edit, no match is acceptable.
* `Pattern.exists_of_matchAt_optional` : whether an optional group at the end of a pattern takes part
  in a match.
-/

namespace SqlDialect

namespace Pattern

variable {w c : Pattern} {name : String} {place : Cursor} {m : Match}

/-- What stands before an optional group decides where the group may start; the group takes part in
the match if there is one of its texts at that place. -/
theorem exists_of_matchAt_optional (hw : w.groupsNamed name = [])
    (h : (w ++ optional (group name c)).matchAt place = some m) :
    ∃ s behind, place.rest = s ++ behind ∧ w.Reads place.previous s behind.head? ∧
      ((m.has name = false ∧ m.text = s ∧ ∀ t rest, behind = t ++ rest →
          ¬c.Reads (s.getLast?.or place.previous) t rest.head?) ∨
        (m.has name = true ∧ ∃ t rest, behind = t ++ rest ∧ m.text = s ++ t ∧
          c.Reads (s.getLast?.or place.previous) t rest.head?)) := by
  obtain ⟨o, ho, htext, -, hgroups⟩ := exists_outcome_of_matchAt h
  -- the group is tried first behind the first outcome of what stands before it
  have houtcomes : (w ++ optional (group name c)).outcomes place [] =
      (w.outcomes place []).flatMap fun o =>
        (group name c).outcomes o.1 o.2 ++ [o] := rfl
  rw [houtcomes] at ho
  cases hfirst : w.outcomes place [] with
  | nil => rw [hfirst] at ho; cases ho
  | cons o' others =>
    rw [hfirst, List.flatMap_cons] at ho
    have ho' : o' ∈ w.outcomes place [] := hfirst ▸ List.mem_cons_self
    obtain ⟨s, hs⟩ := spans_of_mem_outcomes ho'
    have hreads := reads_of_mem_outcomes ho' hs
    refine ⟨s, o'.1.rest, hs.rest_eq, hreads, ?_⟩
    cases hgroup : (group name c).outcomes o'.1 o'.2 with
    | nil =>
      obtain rfl : o' = o := by simpa [hgroup] using ho
      refine .inl ⟨?_, htext.unique hs, fun t rest hrest ht => ?_⟩
      · rw [Match.has, Match.group?, hgroups, Option.isSome_eq_false_iff, Option.isNone_iff_eq_none,
          List.find?_eq_none]
        intro g hg hname
        have hg := mem_groups_of_groupsNamed_eq_nil ho' hg
        rw [beq_iff_eq.1 hname] at hg
        exact absurd (hg hw) List.not_mem_nil
      · rw [← hs.previous_eq] at ht
        obtain ⟨stop, hstop, -⟩ := exists_outcome_of_reads o'.2 ht hrest
        have hmem : _ ∈ (group name c).outcomes o'.1 o'.2 :=
          mem_outcomes_group.2 ⟨stop, hstop, rfl⟩
        rw [hgroup] at hmem
        cases hmem
    | cons first more =>
      obtain rfl : first = o := by simpa [hgroup] using ho
      have hmem : first ∈ (group name c).outcomes o'.1 o'.2 := hgroup ▸ List.mem_cons_self
      obtain ⟨t, ht⟩ := spans_of_mem_outcomes hmem
      refine .inr ⟨?_, t, first.1.rest, ht.rest_eq, htext.unique (hs.trans ht), ?_⟩
      · obtain ⟨stop, -, rfl⟩ := mem_outcomes_group.1 hmem
        simp [Match.has, Match.group?, hgroups]
      · have hgroup : (group name c).Reads o'.1.previous t first.1.rest.head? :=
          reads_of_mem_outcomes hmem ht
        rw [← hs.previous_eq]
        exact hgroup

end Pattern

namespace Rule

open Pattern

variable {p : Pattern} {f : Match → Option (List Char)} {line : List Char} {edit : Edit}

/-- Whether the match is one that can be changed: it starts in code and is accepted. -/
def Changeable (f : Match → Option (List Char)) (line : List Char) (m : Match) : Prop :=
  Literal.inCode line m.start = true ∧ (f m).isSome = true

theorem inCode_append_cons {a b : List Char} {c : Char} :
    Literal.inCode (a ++ c :: b) a.length = true ↔ c ≠ '\'' ∧ Literal.isClosed a = true := by
  rw [Literal.inCode, List.drop_left, List.take_left, Literal.isClosed]
  simp

/-- The change that is made of a match, if it is one that can be changed. -/
def change (f : Match → Option (List Char)) (line : List Char) (m : Match) : Option Edit :=
  if Literal.inCode line m.start then
    (f m).map fun replacement =>
      .changed (line.take m.start ++ replacement ++ line.drop m.stop) (Text.trim m.text)
  else none

theorem change_eq_none_iff {m : Match} : change f line m = none ↔ ¬Changeable f line m := by
  rw [change, Changeable]
  split
  · rename_i hcode
    simp [hcode]
  · rename_i hcode
    simp [hcode]

/-- The edit is that of the first match that can be changed. -/
theorem exists_mem_of_replaceFirst (h : replaceFirst p f line = some edit) :
    ∃ a m b new, line = a ++ (m.text ++ b) ∧ m.text ≠ [] ∧ Literal.isClosed a = true ∧
      m ∈ p.matchesIn line ∧ p.matchAt ⟨a.getLast?, a.length, m.text ++ b⟩ = some m ∧
      f m = some new ∧ edit = .changed (a ++ (new ++ b)) (Text.trim m.text) ∧
      ∀ m' ∈ p.matchesIn line, m'.start < a.length → ¬Changeable f line m' := by
  have hfind : (p.matchesIn line).findSome? (change f line) = some edit := h
  obtain ⟨before, m, after, hmatches, hm, hbefore⟩ := List.findSome?_eq_some_iff.1 hfind
  have hmem : m ∈ p.matchesIn line := by
    rw [hmatches]
    simp
  obtain ⟨a, rest, rfl, hmatch, hne⟩ := exists_matchAt_of_mem_matchesIn hmem
  obtain ⟨b, hrest, -⟩ := reads_of_matchAt hmatch
  dsimp only at hrest
  subst hrest
  have hstart : m.start = a.length := start_eq_of_matchAt hmatch
  obtain ⟨c, text, htext⟩ := List.exists_cons_of_ne_nil hne
  rw [change] at hm
  split at hm
  · rename_i hcode
    obtain ⟨new, hnew, rfl⟩ := Option.map_eq_some_iff.1 hm
    refine ⟨a, m, b, new, rfl, hne, ?_, hmem, hmatch, hnew, ?_, ?_⟩
    · rw [hstart, htext, List.cons_append, inCode_append_cons] at hcode
      exact hcode.2
    · have htake : (a ++ (m.text ++ b)).take m.start = a := by rw [hstart, List.take_left]
      have hdrop : (a ++ (m.text ++ b)).drop m.stop = b := by
        rw [Match.stop, hstart, ← List.append_assoc, ← List.length_append, List.drop_left]
      rw [htake, hdrop, List.append_assoc]
    · intro m' hm' hlt
      rw [hmatches, List.mem_append, List.mem_cons] at hm'
      rcases hm' with hm' | rfl | hm'
      · exact change_eq_none_iff.1 (hbefore m' hm')
      · omega
      · -- matches behind the first one start behind it
        have hpairs := pairwise_matchesIn p (a ++ (m.text ++ b))
        rw [hmatches] at hpairs
        have := List.rel_of_pairwise_cons (List.pairwise_append.1 hpairs).2.1 hm'
        rw [Match.stop] at this
        omega
  · cases hm

theorem exists_of_replaceFirst (h : replaceFirst p f line = some edit) :
    ∃ a m b new, line = a ++ (m.text ++ b) ∧ m.text ≠ [] ∧ Literal.isClosed a = true ∧
      p.matchAt ⟨a.getLast?, a.length, m.text ++ b⟩ = some m ∧ f m = some new ∧
      edit.line = a ++ (new ++ b) ∧
      ∀ m' ∈ p.matchesIn line, m'.start < a.length → ¬Changeable f line m' := by
  obtain ⟨a, m, b, new, hline, hne, hclosed, -, hmatch, hnew, rfl, hfirst⟩ :=
    exists_mem_of_replaceFirst h
  exact ⟨a, m, b, new, hline, hne, hclosed, hmatch, hnew, rfl, hfirst⟩

/-- Without an edit, there is no match that can be changed. -/
theorem eq_none_of_replaceFirst (h : replaceFirst p f line = none) :
    ∀ m ∈ p.matchesIn line, ¬Changeable f line m := by
  have hfind : (p.matchesIn line).findSome? (change f line) = none := h
  intro m hm
  exact change_eq_none_iff.1 (List.findSome?_eq_none_iff.1 hfind m hm)

end Rule

end SqlDialect
