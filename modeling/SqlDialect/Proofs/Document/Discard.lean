import SqlDialect.Proofs.Document.Remark
import SqlDialect.Proofs.Document.Suppression
import SqlDialect.Proofs.Rule.Discard

/-!
# What goes with a discarded statement

Statements are discarded by lines.  A rule that discards a statement takes everything behind its
first word, other statements on the same line as well, and a line that closes a suppression region
is discarded as a whole.  Nothing of it is left in the SQL, and all of it is in the remark.

* `Converter.sql_written_of_discard` : what is left of the line is what stands before the statement.
* `Converter.bears_written_of_ruled`, `Converter.bears_written_of_suppressed` : the texts that are
  written, with remarks and without.
* `Converter.discarded_to_end_of_line` : **the rest of the line goes with the statement**, for every
  document.
-/

namespace SqlDialect

namespace Converter

variable {c : Converter} {ctx : Context} {raw : List Char} {region : Region}

/-! ### Discarded statements -/

/-- Behind a discarded statement, the SQL of a line is what the rules have left of it, without the
white space at its end. -/
theorem sql_written_of_discard (htreat : Line.treatment ctx raw = .ruled)
    (hhits : (c.pass ctx raw).hits ≠ []) (hdiscards : (c.pass ctx raw).discardsStatement = true) :
    (c.written ctx raw).sql = Text.trimEnd (c.pass ctx raw).line ∨
      Line.isVestigial (c.pass ctx raw).line = true ∧ (c.written ctx raw).sql = [] := by
  obtain ⟨hcode, hmode⟩ := Line.treatment_eq_ruled.1 htreat
  cases hleaves : c.leaves ctx raw with
  | true =>
    -- the line already has its remark, and the rules have given its code back
    have hwritten := written_eq_asItCame hcode hmode hleaves
    simp only [leaves, Bool.and_eq_true, Bool.or_eq_true, decide_eq_true_eq,
      List.isEmpty_iff] at hleaves
    obtain ⟨hsource, hpass⟩ := hleaves
    obtain ⟨hline, -⟩ := hpass.resolve_left hhits
    refine .inl ?_
    rw [hwritten, hline, hsource]
    rfl
  | false =>
    rw [written_eq_ruledLine hcode hmode hleaves]
    have hstatement : (c.ruledLine ctx raw).statement =
        Text.trimEnd ((c.emitted ctx raw).getD []) := by
      rw [FinishedLine.statement, ruledLine, hdiscards]
      rfl
    rw [Written.sql, hstatement, emitted]
    split
    · rename_i hvestigial
      exact .inr ⟨hvestigial, rfl⟩
    · exact .inl rfl

/-- A line of code with something in its remark is written with that remark, unless it is left as it
is. -/
theorem bears_written_of_ruled (htreat : Line.treatment ctx raw = .ruled)
    (hremark : (c.pass ctx raw).remark.isEmpty = false) :
    (c.leaves ctx raw = true → ∀ b, (c.written ctx raw).text b = some (Text.trimEnd raw)) ∧
      (c.leaves ctx raw = false →
        (c.written ctx raw).Bears (c.pass ctx raw).remark.text (Line.comment raw)) := by
  obtain ⟨hcode, hmode⟩ := Line.treatment_eq_ruled.1 htreat
  constructor
  · intro hleaves b
    rw [written_eq_asItCame hcode hmode hleaves]
    rfl
  · intro hleaves
    rw [written_eq_ruledLine hcode hmode hleaves]
    have hline : (c.ruledLine ctx raw).remark.isEmpty = false := hremark
    exact FinishedLine.bears hline

/-! ### Lines in a region -/

theorem remark_suppressedLine (region : Region) (hcode : Line.holdsCode raw = true) :
    (suppressedLine region raw).remark = ⟨[Text.trim (Line.sourceCode raw)]⟩ := by
  have hfragment : Text.trim (Line.sourceCode raw) ≠ [] :=
    Line.ne_nil_of_isBlank_eq_false (by rw [Line.isBlank_trim, Line.isBlank_sourceCode hcode])
  rw [suppressedLine, Remark.ofFragments_singleton, Remark.push_of_ne_nil hfragment]
  rfl

/-- A line in a region is written as a remark of its whole code. -/
theorem bears_written_of_suppressed (htreat : Line.treatment ctx raw = .suppressed region) :
    ((c.written ctx raw).sql = [] ∨ (c.written ctx raw).sql = [';'] ∧ region.scope = .clause) ∧
      (c.written ctx raw).Bears (Text.trim (Line.sourceCode raw)) (Line.comment raw) := by
  obtain ⟨hcode, -⟩ := Line.treatment_eq_suppressed.1 htreat
  have hwritten : c.written ctx raw = .finished (suppressedLine region raw) := by
    rw [written, htreat]
  have hremark := remark_suppressedLine region hcode
  have hne : (suppressedLine region raw).remark.isEmpty = false := by rw [hremark]; rfl
  have htext : (suppressedLine region raw).remark.text = Text.trim (Line.sourceCode raw) := by
    rw [hremark]
    rfl
  rw [hwritten]
  constructor
  · rcases statement_suppressedLine region raw with hsql | ⟨hsql, -, hscope⟩
    · exact .inl hsql
    · exact .inr ⟨hsql, hscope⟩
  · rw [← htext]
    exact FinishedLine.bears hne

/-! ### Documents -/

/-- **What goes with a discarded statement.**  Where a rule discards a statement, the line that the
rules before it have made is cut in two, in front of the first words of the statement.  The SQL is what
stands before the cut, which is nothing unless an index is created behind other code.  The remark ends
with all the rest, other statements behind a semicolon as well.  Of a line in a region, also of the one
that closes it, nothing is left but a semicolon, if that, and the remark is its whole code.

The line is written with that remark, if remarks are written, and with its own comment.  If it already
has its remark and the rules give its code back, it is written as it came. -/
theorem discarded_to_end_of_line (disabled : List String) (showRemarks : Bool)
    (name : Option String) (above : List (List Char)) (raw : List Char)
    (below : List (List Char)) :
    let c : Converter := ⟨.without disabled, showRemarks⟩
    let ctx := c.contextBehind (.start name) above
    let pass := c.pass ctx raw
    let written := c.written ctx raw
    (∃ before after, (c.convert ⟨name, above ++ raw :: below⟩).texts =
      before ++ (written.text showRemarks).toList ++ after) ∧
    (Line.treatment ctx raw = .ruled →
      ∀ rule opening, (rule, opening) ∈ Rule.openings → rule.id ∈ pass.hits →
      ∃ before after clause,
        c.rules.once = before ++ rule :: after ∧
        Rule.Cuts opening (Pass.run ctx.advance
          ⟨Line.code raw, unquotingNote (Line.sourceCode raw) (Line.code raw), [], .proceed, false⟩
          before).line pass.line clause ∧
        Line.isBlank clause = false ∧
        (written.sql = Text.trimEnd pass.line ∨
          Line.isVestigial pass.line = true ∧ written.sql = []) ∧
        (rule.id ≠ Rule.createIndex.id → Line.isBlank pass.line = true ∧ written.sql = []) ∧
        Text.trim clause <:+ pass.remark.text ∧
        (∀ head rest, clause = head ++ ';' :: rest →
          ';' :: Text.trimEnd rest <:+ pass.remark.text) ∧
        (c.leaves ctx raw = true → ∀ b, written.text b = some (Text.trimEnd raw)) ∧
        (c.leaves ctx raw = false → written.Bears pass.remark.text (Line.comment raw))) ∧
    ∀ region, Line.treatment ctx raw = .suppressed region →
      (written.sql = [] ∨ written.sql = [';'] ∧ region.scope = .clause) ∧
      (∀ head rest, Line.sourceCode raw = head ++ ';' :: rest →
        ';' :: Text.trimEnd rest <:+ Text.trim (Line.sourceCode raw)) ∧
      written.Bears (Text.trim (Line.sourceCode raw)) (Line.comment raw) := by
  intro c ctx pass written
  refine ⟨texts_convert_of_line name above raw below, ?_, ?_⟩
  · intro htreat rule opening hrule hhit
    obtain ⟨before, after, lead, clause, honce, hcuts, hblank, hclause, hpass⟩ :=
      exists_cut_of_hit hrule hhit
    replace hpass : pass = _ := hpass
    obtain rfl : pass.line = lead := congrArg Pass.line hpass
    have hfragment : Text.trim clause ≠ [] :=
      Line.ne_nil_of_isBlank_eq_false (by rw [Line.isBlank_trim, hclause])
    have hremark : Text.trim clause <:+ pass.remark.text := by
      rw [hpass]
      exact Remark.isSuffix_text_push _ hfragment
    have hdiscards : pass.discardsStatement = true := by
      rw [hpass]
      exact Bool.or_true _
    have hsql := sql_written_of_discard htreat (List.ne_nil_of_mem hhit) hdiscards
    have hne : pass.remark.isEmpty = false := by
      rw [hpass]
      exact Remark.isEmpty_push_of_ne_nil hfragment
    refine ⟨before, after, clause, honce, hcuts, hclause, hsql, ?_, hremark, ?_,
      bears_written_of_ruled htreat hne⟩
    · intro hid
      refine ⟨hblank hid, ?_⟩
      rcases hsql with hsql | ⟨-, hsql⟩
      · exact hsql.trans (Line.trimEnd_eq_nil_iff.2 (hblank hid))
      · exact hsql
    · rintro head rest rfl
      exact (Text.isSuffix_trim (by decide)).trans hremark
  · intro region htreat
    obtain ⟨hsql, htext⟩ := bears_written_of_suppressed htreat
    refine ⟨hsql, fun head rest hsource => ?_, htext⟩
    rw [hsource]
    exact Text.isSuffix_trim (by decide)

/-- An index takes the query behind it along, but not the one before it; and a query in the line
that ends a `GRANT` goes with that. -/
theorem discarded_queries :
    let c : Converter := ⟨.without [], true⟩
    let fired := "SELECT 1; CREATE INDEX i ON t (a); SELECT 2".toList
    let closing := "ON t TO bob; SELECT 1; -- query".toList
    let ctx := c.contextBehind (.start none) ["GRANT SELECT".toList]
    (c.written (.start none) fired).text true =
      some "SELECT 1;\t\t--// CREATE INDEX i ON t (a); SELECT 2".toList ∧
    (c.written (.start none) fired).text false = some "SELECT 1;".toList ∧
    (c.written ctx closing).text true = some "\t\t--// ON t TO bob; SELECT 1; -- query".toList ∧
    (c.written ctx closing).text false = some "-- query".toList := by
  intro c fired closing ctx
  have hfired : (c.written (.start none) fired).Bears "CREATE INDEX i ON t (a); SELECT 2".toList [] ∧
      (c.written (.start none) fired).sql = "SELECT 1;".toList := by
    obtain ⟨-, hfired, -⟩ := discarded_to_end_of_line [] true none [] fired []
    obtain ⟨before, after, clause, -, -, -, hsql, -, -, -, -, htext⟩ :=
      hfired (by decide +kernel) Rule.createIndex (Rule.createsIndex ++ Pattern.boundary)
        (by simp [Rule.openings]) (by decide +kernel)
    have hpass : (c.pass (.start none) fired).line = "SELECT 1; ".toList ∧
        (c.pass (.start none) fired).remark.text = "CREATE INDEX i ON t (a); SELECT 2".toList ∧
        c.leaves (.start none) fired = false ∧ Line.comment fired = [] := by decide +kernel
    refine ⟨hpass.2.1 ▸ hpass.2.2.2 ▸ htext hpass.2.2.1, ?_⟩
    rcases hsql with hsql | ⟨hvestigial, -⟩
    · exact hsql.trans ((congrArg Text.trimEnd hpass.1).trans (by decide))
    · exact absurd ((congrArg Line.isVestigial hpass.1).symm.trans hvestigial) (by decide)
  have hclosing : (c.written ctx closing).Bears "ON t TO bob; SELECT 1;".toList "-- query".toList ∧
      (c.written ctx closing).sql = [] := by
    obtain ⟨-, -, hclosing⟩ :=
      discarded_to_end_of_line [] true none ["GRANT SELECT".toList] closing []
    obtain ⟨hsql, -, htext⟩ := hclosing ⟨.statement, .statement, 1⟩ (by decide +kernel)
    have hline : Text.trim (Line.sourceCode closing) = "ON t TO bob; SELECT 1;".toList ∧
        Line.comment closing = "-- query".toList := by decide +kernel
    exact ⟨hline.1 ▸ hline.2 ▸ htext, hsql.resolve_right (by simp)⟩
  refine ⟨hfired.1.text_true.trans ?_, hfired.1.text_false.trans ?_, hclosing.1.text_true.trans ?_,
    hclosing.1.text_false.trans ?_⟩
  · rw [hfired.2]; decide
  · rw [hfired.2]; decide
  · rw [hclosing.2]; decide
  · rw [hclosing.2]; decide

/-- A query behind a discarded statement is not in the SQL, neither on the line of the statement nor
on the last line of a region. -/
theorem query_discarded_with_grant :
    let c : Converter := ⟨.standard, true⟩
    let query := " SELECT 1;".toList
    let fired := "GRANT SELECT ON t TO bob".toList ++ ';' :: query
    let opening := "GRANT SELECT".toList
    let closing := "ON t TO bob".toList ++ ';' :: query
    let region : Region := ⟨.statement, .statement, 1⟩
    let ctx := c.contextBehind (.start none) [opening]
    Line.isBlank query = false ∧
    Rule.grant.id ∈ (c.pass (.start none) fired).hits ∧
    ¬Text.trim query <:+: (c.written (.start none) fired).sql ∧
    (c.convert ⟨none, [fired]⟩).texts =
      ["\t\t--// GRANT SELECT ON t TO bob; SELECT 1;".toList] ∧
    Line.treatment ctx closing = .suppressed region ∧ closes region closing = true ∧
    ¬Text.trim query <:+: (c.written ctx closing).sql ∧
    (c.convert ⟨none, [opening, closing]⟩).texts =
      ["\t\t--// GRANT SELECT".toList, "\t\t--// ON t TO bob; SELECT 1;".toList] := by
  decide +kernel

end Converter

end SqlDialect
