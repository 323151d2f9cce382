import SqlDialect.Proofs.Document.Step
import SqlDialect.Proofs.Line.Literal
import SqlDialect.Proofs.Rule.Pass

/-!
# The end of a statement around a discarded clause

A clause that is discarded takes its semicolon along, although the statement around it may need it.
The semicolon is restored if the last fragment of the remark ends with one.

* `FinishedLine.codeContains_statement` : when the SQL of a finished line has a semicolon in code.
* `Converter.codeContains_sql_of_normal`, `Converter.codeContains_sql_of_closing` : when it has one
  behind a line that went through the rules, and behind the last line of a discarded clause.
* `Converter.statementEnd_iff` : **both conditions together**, for every line of every run.
-/

namespace SqlDialect

/-- The SQL of a finished line has a semicolon in code if the rules left one, or if one is restored
where no literal is open. -/
theorem FinishedLine.codeContains_statement (line : FinishedLine) :
    Literal.codeContains ';' line.statement =
      (Literal.codeContains ';' (line.sql.getD []) ||
        (line.keepsTerminator && line.remark.endsStatement &&
          Literal.isClosed (line.sql.getD []))) := by
  rw [statement, ← Literal.codeContains_trimEnd (c := ';') (by decide) (line.sql.getD []),
    ← Literal.isClosed_trimEnd (line.sql.getD [])]
  generalize Text.trimEnd (line.sql.getD []) = sql
  cases hrestored : line.keepsTerminator && line.remark.endsStatement with
  | false => simp
  | true =>
    cases hend : Text.endsWith sql ';' with
    | false => simp [Literal.codeContains_concat]
    | true =>
      -- a semicolon that is there already is code unless it stands in an open literal
      cases hclosed : Literal.isClosed sql with
      | false => simp
      | true => simp [Literal.codeContains_of_endsWith (by decide) hend hclosed]

/-- Nothing but white space and commas is left of a vestigial line. -/
theorem Line.not_mem_of_isVestigial {line : List Char} (h : isVestigial line = true) {c : Char}
    (hc : Text.isBlank c = false) (hcomma : c ≠ ',') : c ∉ line := by
  intro hmem
  have htrim := Text.mem_trim hmem hc
  rw [isVestigial, Bool.or_eq_true, List.isEmpty_iff, beq_iff_eq] at h
  rcases h with h | h
  · rw [h] at htrim
    cases htrim
  · rw [h, List.mem_singleton] at htrim
    exact hcomma htrim

namespace Converter

variable {c : Converter} {ctx : Context} {raw : List Char} {region : Region}

/-- What is left of a line has the same semicolons and open literals as the line of the pass. -/
theorem codeContains_emitted :
    Literal.codeContains ';' ((c.emitted ctx raw).getD []) =
        Literal.codeContains ';' (c.pass ctx raw).line ∧
      Literal.isClosed ((c.emitted ctx raw).getD []) = Literal.isClosed (c.pass ctx raw).line := by
  rw [emitted]
  split
  · rename_i hvestigial
    have hsemicolon := Line.not_mem_of_isVestigial hvestigial (c := ';') (by decide) (by decide)
    have hquote := Line.not_mem_of_isVestigial hvestigial (c := '\'') (by decide) (by decide)
    constructor
    · rw [Literal.codeContains_eq, Literal.codeContains_eq,
        Literal.occursFrom_of_not_mem hsemicolon]
      rfl
    · rw [Literal.isClosed, Literal.isClosed, List.count_eq_zero.2 hquote]
      rfl
  · exact ⟨rfl, rfl⟩

/-- A line that goes through the rules has a semicolon in its SQL if the rules leave one in code, or
if the last fragment of the remark ends with one and no literal is open. -/
theorem codeContains_sql_of_normal (hend : Line.endsStatement raw = true)
    (hmode : ctx.mode = .normal) (hdiscards : (c.pass ctx raw).discardsStatement = false) :
    Literal.codeContains ';' (c.written ctx raw).sql =
      (Literal.codeContains ';' (c.pass ctx raw).line ||
        ((c.pass ctx raw).remark.endsStatement && Literal.isClosed (c.pass ctx raw).line)) := by
  rw [Line.endsStatement, Bool.and_eq_true] at hend
  obtain ⟨hcode, hsemicolon⟩ := hend
  rw [written, Line.treatment_eq_ruled.2 ⟨hcode, hmode⟩]
  dsimp only
  cases hleaves : c.leaves ctx raw with
  | true =>
    -- the line is written as it came, which is also what the rules have made of it
    simp only [leaves, Bool.and_eq_true, Bool.or_eq_true, decide_eq_true_eq,
      List.isEmpty_iff] at hleaves
    obtain ⟨hsource, hpass⟩ := hleaves
    have hline : (c.pass ctx raw).line = Line.code raw := by
      rcases hpass with hhits | ⟨hline, -⟩
      · exact line_applyRules_of_hits hhits
      · exact hline
    have hcontains : Literal.codeContains ';' (Line.code raw) = true := hsemicolon
    rw [hline, hcontains, if_pos rfl, Written.sql, Literal.codeContains_trimEnd (by decide),
      ← hsource, hcontains]
    rfl
  | false =>
    rw [if_neg (by simp), Written.sql, FinishedLine.codeContains_statement]
    change (Literal.codeContains ';' ((c.emitted ctx raw).getD []) ||
      (!(c.pass ctx raw).discardsStatement && (c.pass ctx raw).remark.endsStatement &&
        Literal.isClosed ((c.emitted ctx raw).getD []))) = _
    rw [codeContains_emitted.1, codeContains_emitted.2, hdiscards]
    rfl

/-- The one fragment of a line in a region is the code of the line, and it ends as that does. -/
theorem endsStatement_suppressedLine (hcode : Line.holdsCode raw = true) :
    (suppressedLine region raw).remark.endsStatement =
      Text.endsWith (Text.trimEnd (Line.sourceCode raw)) ';' := by
  have hvisible := Line.isBlank_sourceCode hcode
  have hfragment : Text.trim (Line.sourceCode raw) ≠ [] :=
    Line.ne_nil_of_isBlank_eq_false (by rw [Line.isBlank_trim, hvisible])
  rw [suppressedLine, Remark.ofFragments_singleton, Remark.push_of_ne_nil hfragment,
    Remark.endsStatement]
  change Text.endsWith (Text.trimEnd (Text.trim (Line.sourceCode raw))) ';' = _
  rw [Text.endsWith, Text.trim, Text.trimEnd_trimEnd, ← Text.trim,
    Text.getLast?_trim (Line.isBlank_eq_false_iff.1 hvisible), ← Text.endsWith]

/-- The last line of a discarded clause has a semicolon in its SQL if its code ends with one. -/
theorem codeContains_sql_of_closing (hmode : ctx.mode = .suppressing region)
    (hnext : (c.contextNext ctx raw).mode = .normal) (hscope : region.scope = .clause) :
    Literal.codeContains ';' (c.written ctx raw).sql =
      Text.endsWith (Text.trimEnd (Line.sourceCode raw)) ';' := by
  obtain ⟨hcode, hcloses⟩ := closes_of_mode_contextNext hmode hnext
  have hkeeps : (suppressedLine region raw).keepsTerminator = true := by
    rw [suppressedLine]
    simp [hcloses, hscope]
  rw [written, Line.treatment_eq_suppressed.2 ⟨hcode, hmode⟩]
  dsimp only
  rw [Written.sql, FinishedLine.codeContains_statement, hkeeps, endsStatement_suppressedLine hcode,
    Bool.true_and]
  exact Bool.and_true _

/-- **When the statement around a discarded clause stays terminated.**  What is written for a line
starts with its SQL, and

* behind a line that ends a statement, goes through the rules and loses no statement of its own, the
  SQL has a semicolon in code exactly if the rules left one there, or if the last fragment of the
  remark ends with one and the line has no open literal;
* behind the last line of a discarded clause, exactly if the code of that line ends with one. -/
theorem statementEnd_iff (c : Converter) (name : Option String) (before : List (List Char))
    (raw : List Char) :
    let run := c.runLines name before
    let next := c.runLines name (before ++ [raw])
    let written := c.written run.context raw
    let pass := c.pass run.context raw
    next.texts = (written.text c.showRemarks).toList ++ run.texts ∧
    (∀ text, written.text c.showRemarks = some text → written.sql <+: text) ∧
    (Line.endsStatement raw = true → run.context.mode = .normal →
      pass.discardsStatement = false →
      (Literal.codeContains ';' written.sql = true ↔
        Literal.codeContains ';' pass.line = true ∨
          pass.remark.endsStatement = true ∧ Literal.isClosed pass.line = true)) ∧
    (∀ region, run.context.mode = .suppressing region → next.context.mode = .normal →
      region.scope = .clause →
      (Literal.codeContains ';' written.sql = true ↔
        Text.endsWith (Text.trimEnd (Line.sourceCode raw)) ';' = true)) := by
  intro run next written pass
  have hnext : next = c.step run raw := runLines_concat
  rw [hnext, step_eq]
  refine ⟨rfl, fun text => Written.sql_isPrefix_text, ?_, ?_⟩
  · intro hend hmode hdiscards
    rw [codeContains_sql_of_normal hend hmode hdiscards, Bool.or_eq_true, Bool.and_eq_true]
  · intro region hmode hleft hscope
    rw [codeContains_sql_of_closing hmode hleft hscope]

/-- The semicolon is restored behind a discarded clause, on one line and at the end of a region. -/
theorem statementEnd_kept :
    let c : Converter := ⟨.standard, true⟩
    let table := (c.runLines none []).context
    let region := (c.runLines none [") SORTKEY (".toList]).context
    Literal.codeContains ';' (c.written table ") OWNER TO admin;".toList).sql = true ∧
      Literal.codeContains ';' (c.written region "a);".toList).sql = true :=
  ⟨((statementEnd_iff ⟨.standard, true⟩ none [] ") OWNER TO admin;".toList).2.2.1
      (by decide +kernel) rfl (by decide +kernel)).2 (.inr ⟨by decide +kernel, by decide +kernel⟩),
    ((statementEnd_iff ⟨.standard, true⟩ none [") SORTKEY (".toList] "a);".toList).2.2.2
      ⟨.statement, .clause, 1⟩ (by decide +kernel) (by decide +kernel) rfl).2 (by decide +kernel)⟩

/-- The semicolon is lost if a rule adds a fragment behind the one that took it along, and if a
discarded clause ends in the middle of a line. -/
theorem statementEnd_lost :
    let c : Converter := ⟨.standard, true⟩
    let table := (c.runLines none []).context
    let line := "CREATE TABLE t OWNER TO admin;".toList
    let region := (c.runLines none [") SORTKEY (".toList]).context
    let last := "a); SELECT 1".toList
    (Line.endsStatement line = true ∧ table.mode = .normal ∧
      (c.pass table line).discardsStatement = false ∧
      Literal.codeContains ';' (c.written table line).sql = false) ∧
    (region.mode = .suppressing ⟨.statement, .clause, 1⟩ ∧
      (c.contextNext region last).mode = .normal ∧
      Literal.codeContains ';' (c.written region last).sql = false) := by
  decide +kernel

end Converter

end SqlDialect
