import SqlDialect.Proofs.Document.Remark

/-!
# Comments of the document

Whatever becomes of the code of a line, the comment at its end stays: it is the end of the text that
is written for the line.  Where the code is kept, the comment stands behind it as it did; where the
line is finished in another form, it stands behind the SQL and the remark with one space between,
or alone if neither is left.

* `FinishedLine.exists_render_of_comment` : a finished line with a comment is written.
* `Converter.exists_text_of_comment` : so is any line with a comment, behind any context.
* `Converter.comment_isSuffix_convert` : **comments survive**, for every document.
-/

namespace SqlDialect

/-- A finished line with a comment is written, and ends with the comment. -/
theorem FinishedLine.exists_render_of_comment {line : FinishedLine} (showRemarks : Bool)
    (h : line.comment ≠ []) :
    ∃ front, line.render showRemarks = some (front ++ line.comment) ∧
      (front = [] ∨ front = line.commented showRemarks ++ [' ']) := by
  rw [render_eq_append, if_neg fun hnothing => h hnothing.2]
  by_cases hcommented : line.commented showRemarks = []
  · exact ⟨[], by rw [hcommented, if_pos (.inl rfl)], .inl rfl⟩
  · refine ⟨line.commented showRemarks ++ [' '], ?_, .inr rfl⟩
    rw [if_neg (not_or.2 ⟨hcommented, h⟩), List.append_assoc]
    rfl

namespace Converter

variable {c : Converter} {ctx : Context} {raw : List Char}

/-- What stands before the comment of a line in its text: the code as it came, or nothing, or SQL
and remark with a space behind them. -/
def BeforeComment (raw front : List Char) : Prop :=
  front = Line.sourceCode raw ∨ front = [] ∨ ∃ body, front = body ++ [' ']

theorem exists_text_finished {line : FinishedLine} (showRemarks : Bool)
    (hcomment : line.comment = Line.comment raw) (h : Line.comment raw ≠ []) :
    ∃ front, (Written.finished line).text showRemarks = some (front ++ Line.comment raw) ∧
      BeforeComment raw front := by
  obtain ⟨front, hrender, hfront⟩ :=
    FinishedLine.exists_render_of_comment showRemarks (hcomment ▸ h)
  refine ⟨front, hcomment ▸ hrender, ?_⟩
  rcases hfront with hfront | hfront
  · exact .inr (.inl hfront)
  · exact .inr (.inr ⟨_, hfront⟩)

/-- A line with a comment is written, and ends with the comment: as it came, in a region, or in the
form that the rules give it. -/
theorem exists_text_of_comment (c : Converter) (ctx : Context) (showRemarks : Bool)
    (h : Line.comment raw ≠ []) :
    ∃ front, (c.written ctx raw).text showRemarks = some (front ++ Line.comment raw) ∧
      BeforeComment raw front := by
  have asItCame : ∃ front,
      (Written.asItCame raw).text showRemarks = some (front ++ Line.comment raw) ∧
        BeforeComment raw front :=
    ⟨Line.sourceCode raw, congrArg some (Line.sourceCode_append_comment raw).symm, .inl rfl⟩
  rw [written]
  cases Line.treatment ctx raw with
  | quiet => exact asItCame
  | suppressed region => exact exists_text_finished showRemarks rfl h
  | ruled =>
    dsimp only
    split
    · exact asItCame
    · exact exists_text_finished showRemarks rfl h

/-- **Comments survive.**  For every document, every choice of rules and with or without remarks, a
line with a comment is written, behind the texts of the lines above it, and its text ends with the
comment.  Before the comment stands the code of the line as it came, or the SQL and the remark with
one space behind them, or nothing. -/
theorem comment_isSuffix_convert (rules : RuleSet) (showRemarks : Bool) (name : Option String)
    (above : List (List Char)) (raw : List Char) (below : List (List Char))
    (h : Line.comment raw ≠ []) :
    let c : Converter := ⟨rules, showRemarks⟩
    ∃ front after,
      (c.convert ⟨name, above ++ raw :: below⟩).texts =
        (c.runLines name above).texts.reverse ++ (front ++ Line.comment raw) :: after ∧
      (c.runLines name (above ++ [raw])).texts =
        (front ++ Line.comment raw) :: (c.runLines name above).texts ∧
      (front = Line.sourceCode raw ∨ front = [] ∨ ∃ body, front = body ++ [' ']) := by
  intro c
  obtain ⟨front, htext, hfront⟩ :=
    exists_text_of_comment c (c.runLines name above).context showRemarks h
  have hrun : (c.runLines name (above ++ [raw])).texts =
      (front ++ Line.comment raw) :: (c.runLines name above).texts := by
    rw [runLines_concat, step_eq]
    dsimp only
    rw [htext]
    rfl
  obtain ⟨after, hafter⟩ := texts_convert_of_prefix c name (above ++ [raw]) below
  refine ⟨front, after, ?_, hrun, hfront⟩
  rw [List.append_cons, hafter, hrun, List.reverse_cons, List.append_assoc]
  rfl

/-- The comment of a line in a region is written, although nothing else of the line is. -/
theorem comment_isSuffix_region :
    let c : Converter := ⟨.standard, false⟩
    Line.comment "on t; -- until spring".toList ≠ [] ∧
    ∃ front after, (c.convert ⟨none, ["GRANT SELECT".toList] ++ "on t; -- until spring".toList ::
        ["SELECT 1;".toList]⟩).texts =
      (c.runLines none ["GRANT SELECT".toList]).texts.reverse ++
        (front ++ "-- until spring".toList) :: after := by
  intro c
  have hcomment : Line.comment "on t; -- until spring".toList = "-- until spring".toList := by
    decide +kernel
  have hne : Line.comment "on t; -- until spring".toList ≠ [] := by
    rw [hcomment]
    decide
  obtain ⟨front, after, htexts, -⟩ :=
    comment_isSuffix_convert .standard false none ["GRANT SELECT".toList]
      "on t; -- until spring".toList ["SELECT 1;".toList] hne
  refine ⟨hne, front, after, ?_⟩
  rw [← hcomment]
  exact htexts

end Converter

end SqlDialect
