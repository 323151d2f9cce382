import SqlDialect.Proofs.Document.Step
import SqlDialect.Proofs.Rule.Repetition

/-!
# Lines that reach the limit of passes

The limit of passes shows in three places: the flag `Repetition.converged`, the last note of the
remark, and the counter of such lines in the report.  `Repetition.converged_iff` says that the three
agree, and what they mean: some rule still has an edit for the line, or the very last pass allowed
has brought it to rest.  The second case is a false alarm (`Repetition.converged_eq_false_at_rest`).
-/

namespace SqlDialect

namespace Converter

variable (c : Converter)

/-- The passes of the repeated rules over the line behind a context do not converge. -/
def RunsIntoLimit (ctx : Context) (raw : List Char) : Prop :=
  let remark := unquotingNote (Line.sourceCode raw) (Line.code raw)
  Line.treatment ctx raw = .ruled ∧
    (c.oncePass ctx.advance (Line.code raw) remark).control = .proceed ∧
    (c.repetition ctx.advance (Line.code raw) remark).converged = false

instance (ctx : Context) (raw : List Char) : Decidable (c.RunsIntoLimit ctx raw) :=
  inferInstanceAs (Decidable (_ ∧ _ ∧ _))

theorem limitHit_applyRules (ctx : Context) (code : List Char) (remark : Remark) :
    (c.applyRules ctx code remark).2 = true ↔
      (c.oncePass ctx code remark).control = .proceed ∧
        (c.repetition ctx code remark).converged = false := by
  have once : Pass.run ctx ⟨code, remark, [], .proceed, false⟩ c.rules.once =
    c.oncePass ctx code remark := rfl
  rw [applyRules, once, ← Bool.not_eq_true']
  split
  · rename_i hcontrol
    exact (and_iff_right hcontrol).symm
  · rename_i hcontrol
    exact iff_of_false (by simp) fun h => hcontrol h.1

theorem repeatLimitHits_step (run : Run) (raw : List Char) :
    (c.step run raw).report.repeatLimitHits =
      run.report.repeatLimitHits + if c.RunsIntoLimit run.context raw then 1 else 0 := by
  rw [step_eq]
  dsimp only [reportNext]
  congr 1
  cases htreatment : Line.treatment run.context raw with
  | quiet => simp [RunsIntoLimit, htreatment]
  | suppressed region => simp [RunsIntoLimit, htreatment]
  | ruled => simp only [RunsIntoLimit, htreatment, limitHit, limitHit_applyRules, true_and]

end Converter

namespace Repetition

/-- **The limit of passes**: the passes are reported to have converged if and only if no rule has an
edit for the line that they leave and it was not the last pass allowed that brought it to rest; the
remark has a note for each hit, and one on the limit behind them unless the passes have converged;
the report counts the lines on which they have not. -/
theorem converged_iff (ctx : Context) (rules : List Rule) (line : List Char) (remark : Remark)
    (c : Converter) (document : Run) (raw : List Char) :
    ((run ctx rules line remark).converged = true ↔
      Rests ctx rules (run ctx rules line remark).line ∧ ¬RestsAtLimit ctx rules line) ∧
    (∃ notes : List (List Char),
      notes.length = (run ctx rules line remark).hits.length ∧
      (run ctx rules line remark).remark =
        (notes ++ if (run ctx rules line remark).converged then []
          else [limitNote (passLimit rules.length line)]).foldl Remark.push remark) ∧
    (c.step document raw).report.repeatLimitHits =
      document.report.repeatLimitHits + if c.RunsIntoLimit document.context raw then 1 else 0 :=
  ⟨converged_run_iff line remark, exists_notes_run line remark, c.repeatLimitHits_step document raw⟩

/-- Three rules allow two passes over a line of two characters.  The second pass removes the last
character that any of them would, and no pass is left to find that out. -/
theorem converged_eq_false_at_rest :
    let remove := fun id text => Rule.replacingText id text []
    let rules := [remove "A" ['a'], remove "B" ['b'], remove "C" ['c']]
    let result := run (.start none) rules "aa".toList .empty
    result.converged = false ∧ result.line = [] ∧
      (∀ rule ∈ rules, rule.edit? (.start none) result.line = none) ∧
      result.remark.fragments =
        ["a".toList, "a".toList, "repeat limit of 2 passes reached".toList] := by
  decide

end Repetition

end SqlDialect
