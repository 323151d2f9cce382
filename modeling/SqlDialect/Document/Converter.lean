import SqlDialect.Document.Report
import SqlDialect.Line.Identifier
import SqlDialect.Rule.Pass

/-!
# Converting a document

A document is converted line by line.  A line that is blank or holds nothing but a comment is
written as it is; a line inside a suppression region becomes a remark; any other line loses
the quoting of its identifiers and goes through the rules.

* `Converter.step` handles one line: it takes the `Run` so far to the run after that line.
* `Converter.convert` handles a whole document, and closes a region that is still open at its end.
-/

namespace SqlDialect

/-- How documents are converted. -/
structure Converter where
  /-- The rules that lines go through. -/
  rules : RuleSet
  /-- Whether remarks are written. -/
  showRemarks : Bool

/-- The lines of a document with its name, if it has one. -/
structure Document where
  /-- The name, which is the schema of unqualified views. -/
  name : Option String
  /-- The lines, without their terminators. -/
  lines : List (List Char)
deriving Repr, DecidableEq

/-- What has come of the lines of a document so far. -/
structure Run where
  /-- What the next line knows of them. -/
  context : Context
  /-- The counters. -/
  report : Report
  /-- The texts to be written, last one first. -/
  texts : List (List Char)
deriving Repr, DecidableEq

namespace Run

/-- The run before the first line. -/
def start (name : Option String) : Run :=
  ⟨.start name, {}, []⟩

/-- The run with one more text, if there is one. -/
def write (run : Run) (text : Option (List Char)) : Run :=
  { run with texts := text.toList ++ run.texts }

/-- The run after a line that is written as it is but for the white space at its end. -/
def verbatim (run : Run) (raw : List Char) : Run :=
  let source := Text.trimEnd raw
  { run with
    report := { run.report with
      changedLines := run.report.changedLines + if source = raw then 0 else 1 }
    texts := source :: run.texts }

/-- The run after a line that is written in another form, if at all. -/
def rendered (run : Run) (showRemarks : Bool) (line : FinishedLine) : Run :=
  { run with report := { run.report with changedLines := run.report.changedLines + 1 } }.write
    (line.render showRemarks)

end Run

namespace Converter

/-- The remark that the removal of identifier quotes leaves: the quoted identifiers, or the
whole code where only single backticks were removed. -/
def unquotingNote (sourceCode code : List Char) : Remark :=
  if code = sourceCode then .empty
  else match Identifier.quotedIn sourceCode with
    | [] => .ofFragments [Text.trim sourceCode]
    | quoted => .ofFragments [Text.joinWith [' '] quoted]

/-- The run after a line inside the region: its code becomes a remark, and the line ends the
region if it holds the terminator. -/
def suppress (c : Converter) (run : Run) (region : Region) (sourceCode code comment : List Char) :
    Run :=
  let closes := region.terminator.occursIn code
  let report := { run.report with suppressedLines := run.report.suppressedLines + 1 }
  let run :=
    if closes then
      { run with
        context := run.context.closeRegion.2
        report := { report with regionsClosed := report.regionsClosed + 1 } }
    else
      { run with report := report }
  run.rendered c.showRemarks
    { sql := none
      remark := .ofFragments [Text.trim sourceCode]
      keepsTerminator := closes && region.scope = .clause
      comment := comment }

/-- What the rules make of the code of a line: the pass of the rules that are applied once and,
unless one of them ended the line, of the repeated ones.  The flag tells whether the repeated ones
reached their limit. -/
def applyRules (c : Converter) (ctx : Context) (code : List Char) (remark : Remark) :
    Pass × Bool :=
  let pass := Pass.run ctx ⟨code, remark, [], .proceed, false⟩ c.rules.once
  if pass.control = .proceed then
    let repetition := Repetition.run ctx c.rules.repeated pass.line pass.remark
    ({ pass with
       line := repetition.line
       remark := repetition.remark
       hits := pass.hits ++ repetition.hits }, !repetition.converged)
  else
    (pass, false)

/-- The context after a line that went through the rules, with the region that it opens. -/
def contextAfter (ctx : Context) (code : List Char) (emitted : Option (List Char)) (pass : Pass) :
    Context :=
  let ctx := ctx.record code emitted
  match pass.control with
  | .suppress terminator =>
    ctx.openRegion terminator (if pass.discardsStatement then .statement else .clause)
  | _ => ctx

/-- Whether the comment is a remark that an earlier conversion wrote. -/
def isRemark (comment : List Char) : Bool :=
  (Text.trim Remark.marker).isPrefixOf comment

/-- The run after a line that goes through the rules.  A line that nothing changes is written as
it is, and so is a line that already has its remark. -/
def transform (c : Converter) (run : Run) (raw sourceCode code comment : List Char) : Run :=
  let (pass, limitHit) :=
    c.applyRules run.context code (unquotingNote sourceCode code)
  let emitted := if Line.isVestigial pass.line then none else some pass.line
  let report := run.report.recordHits pass.hits
  let opens := match pass.control with
    | .suppress _ => 1
    | _ => 0
  let run :=
    { run with
      context := contextAfter run.context code emitted pass
      report := { report with
        regionsOpened := report.regionsOpened + opens
        repeatLimitHits := report.repeatLimitHits + if limitHit then 1 else 0 } }
  if code = sourceCode &&
      (pass.hits.isEmpty || (pass.line = code && isRemark comment)) then
    run.verbatim raw
  else
    run.rendered c.showRemarks
      { sql := emitted
        remark := pass.remark
        keepsTerminator := !pass.discardsStatement
        comment := comment }

/-- The run after one more line. -/
def step (c : Converter) (run : Run) (raw : List Char) : Run :=
  let run :=
    { run with
      context := run.context.advance
      report := { run.report with lines := run.report.lines + 1 } }
  let source := Text.trimEnd raw
  if Line.isComment source || Line.isBlank source then run.verbatim raw
  else
    let (sourceCode, comment) := Line.splitComment source
    let code := Identifier.unquote sourceCode
    match run.context.mode with
    | .suppressing region => c.suppress run region sourceCode code comment
    | .normal => c.transform run raw sourceCode code comment

/-- The run at the end of the document: a region that is still open is closed, and a remark
says so. -/
def finish (c : Converter) (run : Run) : Run :=
  match run.context.closeRegion with
  | (none, _) => run
  | (some region, context) =>
    { run with
      context := context
      report := { run.report with
        regionsClosed := run.report.regionsClosed + 1
        forcedCloses := run.report.forcedCloses + 1 } }.write
      (FinishedLine.render c.showRemarks
        { sql := none
          remark := .ofFragments ["suppression opened at line ".toList ++
            (toString region.openedAt).toList ++ " closed at end of document".toList]
          keepsTerminator := false
          comment := [] })

/-- The run over some lines of a document. -/
def runLines (c : Converter) (name : Option String) (lines : List (List Char)) : Run :=
  lines.foldl c.step (.start name)

end Converter

/-- A converted document. -/
structure Conversion where
  /-- The lines to be written. -/
  texts : List (List Char)
  /-- The counters. -/
  report : Report
deriving Repr, DecidableEq

namespace Converter

/-- The document, converted. -/
def convert (c : Converter) (document : Document) : Conversion :=
  let run := c.finish (c.runLines document.name document.lines)
  ⟨run.texts.reverse, run.report⟩

end Converter

end SqlDialect
