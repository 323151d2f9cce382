import SqlDialect.Proofs.Rule.PriorPeriod
import SqlDialect.Proofs.Rule.Sysdate

/-!
# The limit of passes is high enough

The number of passes over a line is limited by its length and by `Repetition.maxPasses`.  Only the
second limit is ever felt (`Repetition.converged_or_passes_eq_maxPasses`):

* every edit leaves fewer prospects (`Prospect.count_lt_of_edit`), whichever of the rules makes it;
* so does every pass that hits something (`Prospect.count_sweep_lt`), so that a line is at rest
  after as many passes as it has prospects (`Prospect.count_iterate_sweep`);
* a line has no more prospects than half its characters, and the length allows for more passes than
  that.
-/

namespace SqlDialect

namespace Prospect

/-- `CURRENT_TIMESTAMP()` has fewer prospects than the word that it replaces. -/
theorem fewer_replacement {w : List Char} (h : w.map Text.foldCase = "sysdate".toList) :
    Fewer Sysdate.replacement w where
  below σ := by
    have hbelow : ∀ σ, Below (read σ Sysdate.replacement) (read σ "sysdate".toList) := by
      decide
    rw [← read_map_foldCase σ w, h]
    exact hbelow σ
  inside_eq := by
    rw [Literal.insideAfter_of_not_mem (Sysdate.not_mem_word h)]
    decide
  count_lt rest := by
    have hhot : read .start "sysdate".toList = .hot := by decide
    rw [countIn_of_isBarren (by decide)]
    refine countIn_pos ?_ ?_
    · rintro rfl
      cases h
    · rw [read_append, ← read_map_foldCase .start w, h, hhot, read_hot]

variable {ctx : Context} {rules : List Rule} {line : List Char}

/-- **Every edit leaves fewer prospects.** -/
theorem count_lt_of_edit {rule : Rule} {edit : Edit} (hrule : rule ∈ RuleSet.standard.repeated)
    (h : rule.edit? ctx line = some edit) : count edit.line < count line := by
  rcases List.mem_pair.1 hrule with rfl | rfl
  · obtain ⟨front, p, rest, rfl, hclosed, -, -, rfl⟩ := PeriodOffset.exists_of_edit h
    exact count_lt_of_fewer p.fewer hclosed rest
  · obtain ⟨a, w, b, hline, hclosed, hbare, hedit, -⟩ := Sysdate.exists_of_edit h
    rw [hline, hedit]
    exact count_lt_of_fewer (fewer_replacement hbare.word) hclosed b

open Repetition

theorem count_sweep_le (hrules : rules ⊆ RuleSet.standard.repeated) (line : List Char) :
    count (sweep ctx rules line) ≤ count line := by
  induction rules generalizing line with
  | nil => exact Nat.le_refl _
  | cons rule rest ih =>
    obtain ⟨hrule, hrest⟩ := List.cons_subset.1 hrules
    cases hedit : rule.edit? ctx line with
    | none =>
      rw [sweep_cons_of_eq_none hedit]
      exact ih hrest line
    | some edit =>
      rw [sweep_cons_of_eq_some hedit]
      exact (ih hrest edit.line).trans (count_lt_of_edit hrule hedit).le

/-- A pass that hits something leaves fewer prospects. -/
theorem count_sweep_lt (hrules : rules ⊆ RuleSet.standard.repeated) (h : ¬Rests ctx rules line) :
    count (sweep ctx rules line) < count line := by
  induction rules generalizing line with
  | nil => exact absurd (by simp [Rests]) h
  | cons rule rest ih =>
    obtain ⟨hrule, hrest⟩ := List.cons_subset.1 hrules
    cases hedit : rule.edit? ctx line with
    | none =>
      rw [sweep_cons_of_eq_none hedit]
      exact ih hrest fun hrests => h (List.forall_mem_cons.2 ⟨hedit, hrests⟩)
    | some edit =>
      rw [sweep_cons_of_eq_some hedit]
      exact (count_sweep_le hrest edit.line).trans_lt (count_lt_of_edit hrule hedit)

/-- There are no more passes that hit something than there are prospects. -/
theorem count_iterate_sweep (hrules : rules ⊆ RuleSet.standard.repeated) {n : Nat}
    (busy : ∀ k < n, ¬Rests ctx rules ((sweep ctx rules)^[k] line)) :
    count ((sweep ctx rules)^[n] line) + n ≤ count line := by
  induction n with
  | zero => exact Nat.le_refl _
  | succ n ih =>
    have hbefore := ih fun k hk => busy k (Nat.lt_succ_of_lt hk)
    have hless := count_sweep_lt hrules (busy n (Nat.lt_succ_self n))
    rw [Function.iterate_succ_apply']
    omega

end Prospect

namespace Repetition

/-- The length of a line allows for more passes than it has prospects, with two rules or one. -/
theorem count_lt_octets_div {ruleCount : Nat} (hpos : 0 < ruleCount) (hle : ruleCount ≤ 2)
    (line : List Char) : Prospect.count line < Text.octets line / ruleCount + 2 := by
  have hcount := Prospect.two_mul_count_le line
  have hoctets := length_le_octets line
  have hdiv : Text.octets line / 2 ≤ Text.octets line / ruleCount :=
    Nat.div_le_div_left hle hpos
  omega

/-- **The length of a line never cuts its passes off**, whichever of the rules are enabled.  Either the
passes converge: each of them hits something but the last one, `idle`, for which no rule has an edit
(without any rules there is no pass at all).  Or they do not, and they are `maxPasses` passes which have
all hit something. -/
theorem converged_or_passes_eq_maxPasses (ctx : Context) (disabled : List String)
    (line : List Char) (remark : Remark) :
    let rules := (RuleSet.without disabled).repeated
    let outcome := run ctx rules line remark
    (outcome.converged = true ∧
      ∃ idle, (∀ k < idle, ¬Rests ctx rules ((sweep ctx rules)^[k] line)) ∧
        Rests ctx rules ((sweep ctx rules)^[idle] line) ∧
        outcome.line = (sweep ctx rules)^[idle] line ∧
        outcome.passes = if rules.isEmpty then 0 else idle + 1) ∨
    (outcome.converged = false ∧ outcome.passes = maxPasses ∧
      (∀ k < maxPasses, ¬Rests ctx rules ((sweep ctx rules)^[k] line)) ∧
      outcome.line = (sweep ctx rules)^[maxPasses] line) := by
  intro rules outcome
  have hrules : rules ⊆ RuleSet.standard.repeated := List.filter_subset_self _
  have hle : rules.length ≤ 2 := List.length_filter_le _ _
  by_cases hnil : rules = []
  · have hidle : outcome = ⟨line, remark, [], 0, true⟩ := by
      simp only [outcome, hnil]
      rfl
    refine .inl ⟨congrArg converged hidle, 0, by simp, by simp [hnil, Rests], congrArg _ hidle, ?_⟩
    simpa [hnil] using congrArg passes hidle
  have hpos : 0 < rules.length := List.length_pos_iff.2 hnil
  let start : Repetition := ⟨line, remark, [], 0, true⟩
  have hrun : outcome = passesUpTo ctx rules (passLimit rules.length line) start :=
    run_eq_passesUpTo hnil line remark
  rcases exists_first_rest_or_busy ctx rules start.line (passLimit rules.length line) with
    ⟨n, hn, hbusy, hrests⟩ | hbusy
  · obtain ⟨hline, hpasses, hconverged⟩ := passesUpTo_of_rests hn hbusy hrests
    rw [← hrun] at hline hpasses hconverged
    exact .inl ⟨hconverged, n, hbusy, hrests, hline, by simpa [hnil, start] using hpasses⟩
  · -- every pass has hit something, and there were not prospects enough for so many
    have hspent := Prospect.count_iterate_sweep hrules hbusy
    have hcount : Prospect.count start.line < _ := count_lt_octets_div hpos hle line
    have hlimit : passLimit rules.length line = maxPasses := by
      rw [passLimit_eq hpos.ne'] at hspent ⊢
      omega
    obtain ⟨hline, hpasses, hconverged⟩ := passesUpTo_of_busy hbusy
    rw [← hrun, hlimit] at hline hpasses
    rw [← hrun] at hconverged
    exact .inr ⟨hconverged, by simpa [start] using hpasses, hlimit ▸ hbusy, hline⟩

end Repetition

end SqlDialect
