import SqlDialect.Document.Source
import SqlDialect.Document.Transcript
import SqlDialect.Proofs.Line.Scan

/-!
# What one line does to a run

What becomes of a line depends on the context that the lines before it leave, and on the line: it is
written as it is, it belongs to a region, or it goes through the rules (`Line.treatment`).  From
that follow

* `Converter.written` : what is written for the line;
* `Converter.contextNext` : the context behind it;
* `Converter.reportNext` : the counters behind it.

`Converter.step_eq` says that a step of the converter consists of these three, and
`Written.sql_isPrefix_text` that the written text starts with its SQL.  The end of a run is in
`Converter.finish_of_normal` and `Converter.finish_of_suppressing`; a conversion from a stream is
reduced to that of a document by `Converter.transcribe_eq`.
-/

namespace SqlDialect

/-! ### The parts of a line -/

namespace Line

/-- The code of a line of a document, as it came. -/
def sourceCode (raw : List Char) : List Char := (splitComment (Text.trimEnd raw)).1

/-- The comment at the end of a line of a document. -/
def comment (raw : List Char) : List Char := (splitComment (Text.trimEnd raw)).2

/-- The code of a line of a document without the quoting of its identifiers. -/
def code (raw : List Char) : List Char := Identifier.unquote (sourceCode raw)

/-- Whether the line is neither blank nor nothing but a comment. -/
def holdsCode (raw : List Char) : Bool :=
  !(isComment (Text.trimEnd raw) || isBlank (Text.trimEnd raw))

/-- Whether the line has code with a semicolon outside literals. -/
def endsStatement (raw : List Char) : Bool :=
  holdsCode raw && Terminator.statement.occursIn (code raw)

theorem isBlank_sourceCode {raw : List Char} (h : holdsCode raw = true) :
    isBlank (sourceCode raw) = false := by
  rw [holdsCode, Bool.not_eq_true', Bool.or_eq_false_iff] at h
  exact isBlank_splitComment h.1 h.2

theorem isBlank_sourceCode_of_quiet {raw : List Char} (h : holdsCode raw = false) :
    isBlank (sourceCode raw) = true := by
  rw [holdsCode, Bool.not_eq_false', Bool.or_eq_true] at h
  exact isBlank_splitComment_of_quiet h

theorem sourceCode_append_comment (raw : List Char) :
    sourceCode raw ++ comment raw = Text.trimEnd raw :=
  splitComment_append _

end Line

/-! ### What is written -/

/-- What is written for a line. -/
inductive Written where
  /-- The line as it came, without the white space at its end. -/
  | asItCame (raw : List Char)
  /-- The line in another form. -/
  | finished (line : FinishedLine)

namespace Written

/-- The text that is written, if there is anything to write. -/
def text (showRemarks : Bool) : Written → Option (List Char)
  | asItCame raw => some (Text.trimEnd raw)
  | finished line => line.render showRemarks

/-- The SQL part of the text: what stands before remark and comment. -/
def sql : Written → List Char
  | asItCame raw => Text.trimEnd (Line.sourceCode raw)
  | finished line => line.statement

/-- Whether the line counts as changed. -/
def isChanged : Written → Bool
  | asItCame raw => decide (Text.trimEnd raw ≠ raw)
  | finished _ => true

end Written

namespace FinishedLine

/-- The line without its comment: its SQL and, if remarks are written, its remark. -/
def commented (showRemarks : Bool) (line : FinishedLine) : List Char :=
  if showRemarks && !line.remark.isEmpty then
    line.statement ++ Remark.marker ++ line.remark.text
  else line.statement

/-- The text with the comment behind it, and a space between the two if there are both. -/
def withComment (text comment : List Char) : List Char :=
  if comment.isEmpty then text
  else if text.isEmpty then comment
  else text ++ [' '] ++ comment

theorem render_eq (showRemarks : Bool) (line : FinishedLine) :
    line.render showRemarks =
      if (withComment (line.commented showRemarks) line.comment).isEmpty then none
      else some (withComment (line.commented showRemarks) line.comment) := rfl

theorem render_eq_some {showRemarks : Bool} {line : FinishedLine} {text : List Char}
    (h : line.render showRemarks = some text) :
    text = withComment (line.commented showRemarks) line.comment := by
  rw [render_eq] at h
  split at h
  · cases h
  · exact (Option.some.inj h).symm

theorem isPrefix_withComment (text comment : List Char) : text <+: withComment text comment := by
  rw [withComment]
  split
  · exact List.prefix_refl _
  · split
    · rename_i hempty
      rw [List.isEmpty_iff.1 hempty]
      exact List.nil_prefix
    · rw [List.append_assoc]
      exact List.prefix_append _ _

theorem statement_isPrefix_commented (showRemarks : Bool) (line : FinishedLine) :
    line.statement <+: line.commented showRemarks := by
  rw [commented]
  split
  · rw [List.append_assoc]; exact List.prefix_append _ _
  · exact List.prefix_refl _

end FinishedLine

/-- The text that is written for a line starts with its SQL. -/
theorem Written.sql_isPrefix_text {showRemarks : Bool} {w : Written} {text : List Char}
    (h : w.text showRemarks = some text) : w.sql <+: text := by
  cases w with
  | asItCame raw =>
    obtain rfl := Option.some.inj h
    rw [← Line.sourceCode_append_comment raw]
    exact (List.rdropWhile_prefix _ _).trans (List.prefix_append _ _)
  | finished line =>
    rw [FinishedLine.render_eq_some h]
    exact (line.statement_isPrefix_commented showRemarks).trans
      (FinishedLine.isPrefix_withComment _ _)

namespace Context

@[simp] theorem mode_advance (ctx : Context) : ctx.advance.mode = ctx.mode := rfl

@[simp] theorem isSuppressing_advance (ctx : Context) :
    ctx.advance.isSuppressing = ctx.isSuppressing := rfl

end Context

/-! ### What becomes of a line -/

/-- What becomes of a line behind a context. -/
inductive Treatment where
  /-- It holds no code and is written as it is. -/
  | quiet
  /-- It belongs to the region. -/
  | suppressed (region : Region)
  /-- It goes through the rules. -/
  | ruled
deriving DecidableEq

/-- What becomes of the line behind a context. -/
def Line.treatment (ctx : Context) (raw : List Char) : Treatment :=
  if holdsCode raw then
    match ctx.mode with
    | .suppressing region => .suppressed region
    | .normal => .ruled
  else .quiet

section Treatment

variable {ctx : Context} {raw : List Char} {region : Region}

theorem Line.treatment_eq_quiet : treatment ctx raw = .quiet ↔ holdsCode raw = false := by
  rw [treatment]
  cases holdsCode raw with
  | false => simp
  | true => cases ctx.mode <;> simp

theorem Line.treatment_eq_suppressed :
    treatment ctx raw = .suppressed region ↔
      holdsCode raw = true ∧ ctx.mode = .suppressing region := by
  rw [treatment]
  cases holdsCode raw with
  | false => simp
  | true => cases ctx.mode <;> simp

theorem Line.treatment_eq_ruled :
    treatment ctx raw = .ruled ↔ holdsCode raw = true ∧ ctx.mode = .normal := by
  rw [treatment]
  cases holdsCode raw with
  | false => simp
  | true => cases ctx.mode <;> simp

theorem Line.treatment_ne_ruled (h : ctx.mode = .suppressing region) :
    treatment ctx raw ≠ .ruled := by
  intro hruled
  rw [(treatment_eq_ruled.1 hruled).2] at h
  cases h

end Treatment

/-- The number of regions that open behind the line. -/
def Control.regions : Control → Nat
  | suppress _ => 1
  | _ => 0

namespace Converter

/-- What the rules make of a line of code, in the context of the line before it. -/
def pass (c : Converter) (ctx : Context) (raw : List Char) : Pass :=
  (c.applyRules ctx.advance (Line.code raw) (unquotingNote (Line.sourceCode raw) (Line.code raw))).1

/-- Whether the repeated rules reach their limit on a line of code. -/
def limitHit (c : Converter) (ctx : Context) (raw : List Char) : Bool :=
  (c.applyRules ctx.advance (Line.code raw) (unquotingNote (Line.sourceCode raw) (Line.code raw))).2

/-- Whether a line of code outside all regions is written as it came: its identifiers are not
quoted, and no rule changes it or it already has its remark. -/
def leaves (c : Converter) (ctx : Context) (raw : List Char) : Bool :=
  Line.code raw = Line.sourceCode raw &&
    ((c.pass ctx raw).hits.isEmpty ||
      ((c.pass ctx raw).line = Line.code raw && isRemark (Line.comment raw)))

/-- The SQL that the rules leave of a line of code, if any. -/
def emitted (c : Converter) (ctx : Context) (raw : List Char) : Option (List Char) :=
  if Line.isVestigial (c.pass ctx raw).line then none else some (c.pass ctx raw).line

/-- Whether a line of code holds what ends the region. -/
def closes (region : Region) (raw : List Char) : Bool :=
  region.terminator.occursIn (Line.code raw)

/-- The finished form of a line of code in a region. -/
def suppressedLine (region : Region) (raw : List Char) : FinishedLine where
  sql := none
  remark := .ofFragments [Text.trim (Line.sourceCode raw)]
  keepsTerminator := closes region raw && region.scope = .clause
  comment := Line.comment raw

/-- The finished form of a line of code that has gone through the rules. -/
def ruledLine (c : Converter) (ctx : Context) (raw : List Char) : FinishedLine where
  sql := c.emitted ctx raw
  remark := (c.pass ctx raw).remark
  keepsTerminator := !(c.pass ctx raw).discardsStatement
  comment := Line.comment raw

/-- What is written for the line behind a context. -/
def written (c : Converter) (ctx : Context) (raw : List Char) : Written :=
  match Line.treatment ctx raw with
  | .quiet => .asItCame raw
  | .suppressed region => .finished (suppressedLine region raw)
  | .ruled => if c.leaves ctx raw then .asItCame raw else .finished (c.ruledLine ctx raw)

/-- The context behind the line. -/
def contextNext (c : Converter) (ctx : Context) (raw : List Char) : Context :=
  match Line.treatment ctx raw with
  | .quiet => ctx.advance
  | .suppressed region =>
    if closes region raw then { ctx.advance with mode := .normal, statementStart := true }
    else ctx.advance
  | .ruled => contextAfter ctx.advance (Line.code raw) (c.emitted ctx raw) (c.pass ctx raw)

/-- The report behind the line. -/
def reportNext (c : Converter) (ctx : Context) (raw : List Char) (report : Report) : Report where
  lines := report.lines + 1
  changedLines := report.changedLines + if (c.written ctx raw).isChanged then 1 else 0
  suppressedLines := report.suppressedLines +
    match Line.treatment ctx raw with
    | .suppressed _ => 1
    | _ => 0
  regionsOpened := report.regionsOpened +
    match Line.treatment ctx raw with
    | .ruled => (c.pass ctx raw).control.regions
    | _ => 0
  regionsClosed := report.regionsClosed +
    match Line.treatment ctx raw with
    | .suppressed region => if closes region raw then 1 else 0
    | _ => 0
  forcedCloses := report.forcedCloses
  repeatLimitHits := report.repeatLimitHits +
    match Line.treatment ctx raw with
    | .ruled => if c.limitHit ctx raw then 1 else 0
    | _ => 0
  ruleHits :=
    match Line.treatment ctx raw with
    | .ruled => (report.recordHits (c.pass ctx raw).hits).ruleHits
    | _ => report.ruleHits

/-- The run that has come to its next line. -/
def nextLine (run : Run) : Run :=
  { run with
    context := run.context.advance
    report := { run.report with lines := run.report.lines + 1 } }

/-- The run whose next line has gone through the rules, before anything is written for it. -/
def ruled (c : Converter) (run : Run) (raw : List Char) : Run :=
  { nextLine run with
    context :=
      contextAfter run.context.advance (Line.code raw) (c.emitted run.context raw)
        (c.pass run.context raw)
    report := { (nextLine run).report.recordHits (c.pass run.context raw).hits with
      regionsOpened := run.report.regionsOpened + (c.pass run.context raw).control.regions
      repeatLimitHits :=
        run.report.repeatLimitHits + if c.limitHit run.context raw then 1 else 0 } }

variable (c : Converter) (run : Run) (raw : List Char)

theorem step_eq_match : c.step run raw =
    match Line.treatment run.context raw with
    | .quiet => (nextLine run).verbatim raw
    | .suppressed region =>
      c.suppress (nextLine run) region (Line.sourceCode raw) (Line.code raw) (Line.comment raw)
    | .ruled =>
      c.transform (nextLine run) raw (Line.sourceCode raw) (Line.code raw) (Line.comment raw) := by
  have hstep : c.step run raw =
      if (Line.isComment (Text.trimEnd raw) || Line.isBlank (Text.trimEnd raw)) = true then
        (nextLine run).verbatim raw
      else match run.context.mode with
        | .suppressing region =>
          c.suppress (nextLine run) region (Line.sourceCode raw) (Line.code raw) (Line.comment raw)
        | .normal =>
          c.transform (nextLine run) raw (Line.sourceCode raw) (Line.code raw) (Line.comment raw) :=
    rfl
  rw [hstep, Line.treatment, Line.holdsCode]
  cases Line.isComment (Text.trimEnd raw) || Line.isBlank (Text.trimEnd raw) with
  | true => rfl
  | false => cases run.context.mode <;> rfl

theorem transform_eq_ite :
    c.transform (nextLine run) raw (Line.sourceCode raw) (Line.code raw) (Line.comment raw) =
      if c.leaves run.context raw = true then (c.ruled run raw).verbatim raw
      else (c.ruled run raw).rendered c.showRemarks (c.ruledLine run.context raw) := rfl

/-- **The parts of a step**: context, report and text, each determined by the context before it. -/
theorem step_eq : c.step run raw =
    { context := c.contextNext run.context raw
      report := c.reportNext run.context raw run.report
      texts := ((c.written run.context raw).text c.showRemarks).toList ++ run.texts } := by
  rw [step_eq_match]
  cases h : Line.treatment run.context raw with
  | quiet =>
    simp [contextNext, reportNext, written, h, nextLine, Run.verbatim, Written.text,
      Written.isChanged]
  | suppressed region =>
    have hmode := (Line.treatment_eq_suppressed.1 h).2
    have hclose : (nextLine run).context.closeRegion.2 =
        { run.context.advance with mode := .normal, statementStart := true } := by
      simp [Context.closeRegion, nextLine, Context.advance, hmode]
    simp only [contextNext, reportNext, written, h, suppress, suppressedLine, hclose]
    have hcloses : region.terminator.occursIn (Line.code raw) = closes region raw := rfl
    rw [hcloses]
    cases closes region raw with
    | false => rfl
    | true => rfl
  | ruled =>
    simp only [contextNext, reportNext, written, h, transform_eq_ite]
    cases c.leaves run.context raw with
    | false => rfl
    | true =>
      simp [Run.verbatim, ruled, nextLine, Written.text, Written.isChanged, Report.recordHits]

variable {c run raw}

variable {ctx : Context} {region : Region}

theorem written_eq_ruledLine (hcode : Line.holdsCode raw = true) (hmode : ctx.mode = .normal)
    (hleaves : c.leaves ctx raw = false) :
    c.written ctx raw = .finished (c.ruledLine ctx raw) := by
  rw [written, Line.treatment_eq_ruled.2 ⟨hcode, hmode⟩]
  dsimp only
  rw [hleaves, if_neg Bool.false_ne_true]

theorem written_eq_asItCame (hcode : Line.holdsCode raw = true) (hmode : ctx.mode = .normal)
    (hleaves : c.leaves ctx raw = true) : c.written ctx raw = .asItCame raw := by
  rw [written, Line.treatment_eq_ruled.2 ⟨hcode, hmode⟩]
  dsimp only
  rw [hleaves, if_pos rfl]

/-- A line is written as it came, or in a form that bears its comment. -/
theorem written_eq_or (c : Converter) (ctx : Context) (raw : List Char) :
    c.written ctx raw = .asItCame raw ∨
      ∃ line, c.written ctx raw = .finished line ∧ line.comment = Line.comment raw := by
  rw [written]
  cases Line.treatment ctx raw with
  | quiet => exact .inl rfl
  | suppressed region => exact .inr ⟨_, rfl, rfl⟩
  | ruled =>
    cases hleaves : c.leaves ctx raw with
    | true => exact .inl (by rw [if_pos rfl])
    | false => exact .inr ⟨_, rfl, rfl⟩

/-- A line that leaves a region holds code, and what ends the region. -/
theorem closes_of_mode_contextNext (hmode : ctx.mode = .suppressing region)
    (hnext : (c.contextNext ctx raw).mode = .normal) :
    Line.holdsCode raw = true ∧ closes region raw = true := by
  rw [contextNext] at hnext
  cases htreat : Line.treatment ctx raw with
  | quiet =>
    simp only [htreat, Context.mode_advance, hmode] at hnext
    cases hnext
  | suppressed own =>
    obtain ⟨hcode, hown⟩ := Line.treatment_eq_suppressed.1 htreat
    obtain rfl : own = region := Mode.suppressing.inj (hown.symm.trans hmode)
    refine ⟨hcode, ?_⟩
    by_contra hcloses
    simp only [htreat, if_neg hcloses, Context.mode_advance, hmode] at hnext
    cases hnext
  | ruled => exact absurd htreat (Line.treatment_ne_ruled hmode)

/-! ### Whole runs -/

variable {name : Option String} {lines : List (List Char)}

theorem runLines_concat :
    c.runLines name (lines ++ [raw]) = c.step (c.runLines name lines) raw := by
  rw [runLines, List.foldl_concat, ← runLines]

/-- The line that tells of a region that the end of the document closes. -/
def closingLine (region : Region) : FinishedLine where
  sql := none
  remark := .ofFragments ["suppression opened at line ".toList ++
    (toString region.openedAt).toList ++ " closed at end of document".toList]
  keepsTerminator := false
  comment := []

theorem finish_of_normal (h : run.context.mode = .normal) : c.finish run = run := by
  simp [finish, Context.closeRegion, h]

theorem finish_of_suppressing {region : Region} (h : run.context.mode = .suppressing region) :
    c.finish run =
      { context := { run.context with mode := .normal, statementStart := true }
        report := { run.report with
          regionsClosed := run.report.regionsClosed + 1
          forcedCloses := run.report.forcedCloses + 1 }
        texts := ((closingLine region).render c.showRemarks).toList ++ run.texts } := by
  simp [finish, Context.closeRegion, h, Run.write, closingLine]

end Converter

/-! ### Streams -/

/-- The document in a stream, as far as it can be decoded. -/
def Document.ofStream (name : Option String) (octets : List UInt8) : Document :=
  ⟨name, (Text.decodeLines (Text.lines 0x0A 0x0D octets)).1⟩

theorem Sink.eq_of_deliver {room : Option Nat} {texts : List (List Char)}
    (h : (Sink.deliver room texts).2 = true) : (Sink.deliver room texts).1 = texts := by
  induction texts generalizing room with
  | nil => cases room <;> rfl
  | cons text rest ih =>
    cases room with
    | none => rfl
    | some room =>
      rw [Sink.deliver] at h ⊢
      split at h
      · rename_i hfits
        rw [if_pos hfits]
        exact congrArg (text :: ·) (ih h)
      · cases h

theorem Converter.flatten_terminated (texts : List (List Char)) :
    (Converter.terminated texts).flatten = texts.flatMap fun text => text ++ ['\n'] := by
  induction texts with
  | nil => rfl
  | cons text rest ih => simp_all [Converter.terminated]

/-- A conversion from a stream to a sink that succeeds has converted the document in the stream,
and written all of it. -/
theorem Converter.transcribe_eq {c : Converter} {name : Option String} {octets : List UInt8}
    {sink : Sink} {report : Report} (h : (c.transcribe name octets sink).result = .ok report) :
    (c.transcribe name octets sink).written = (c.convert (.ofStream name octets)).text ∧
      report = (c.convert (.ofStream name octets)).report := by
  have hconvert : c.convert (.ofStream name octets) =
      ⟨(c.finish (c.runLines name (Document.ofStream name octets).lines)).texts.reverse,
        (c.finish (c.runLines name (Document.ofStream name octets).lines)).report⟩ := rfl
  rw [hconvert, Document.ofStream, Conversion.text, ← flatten_terminated]
  simp only [transcribe] at h ⊢
  cases hdecoded : (Text.decodeLines (Text.lines 0x0A 0x0D octets)).2 with
  | false =>
    simp only [hdecoded, Bool.not_false, Bool.false_eq_true, if_true, if_false] at h
    split at h
    · cases h
    · cases h
  | true =>
    simp only [hdecoded, Bool.not_true, Bool.false_eq_true, if_true, if_false] at h ⊢
    split at h
    · cases h
    rename_i hcomplete
    split at h
    · cases h
    rw [Bool.not_eq_true, Bool.not_eq_false'] at hcomplete
    exact ⟨congrArg List.flatten (Sink.eq_of_deliver hcomplete), (Except.ok.inj h).symm⟩

end SqlDialect
