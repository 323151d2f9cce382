import SqlDialect.Proofs.Document.Tally
import SqlDialect.Proofs.Rule.Pass

/-!
# What lines depend on

Of the lines before it, a line sees no more than the `Outlook` of the context that they leave: the
name of the document, whether a statement begins, whether the last line with SQL orders rows, and
what is being suppressed.

* `Rule.SeesOutlook` : the edits of a rule depend on the outlook only, as those of the catalogue do
  (`RuleSet.seesOutlook_of_mem_without`).
* `Converter.written_congr`, `Converter.reportNext_congr`, `Converter.outlook_contextNext` : so does
  what a step makes of a line, what it counts, and the outlook behind it.
* `Converter.account_congr`, `Converter.tally_congr`, `Converter.outlook_contextBehind` : so do
  whole runs.
* `Context.Below` : the same, with the numbers of the lines; a document can be cut where the context
  is that of a new document, further down (`Converter.report_convert_append`,
  `Converter.texts_convert_append`).
* `Converter.lines_depend_on_outlook` : **contexts with the same outlook are not told apart** by any
  lines.
-/

namespace SqlDialect

/-- What the lines behind a context depend on. -/
structure Outlook where
  /-- The name of the document. -/
  document : Option String
  /-- Whether the next line begins a statement. -/
  statementStart : Bool
  /-- Whether the last line that left SQL behind orders rows. -/
  ordered : Bool
  /-- The terminator and the scope of the open region, if there is one. -/
  region : Option (Terminator × RegionScope)
deriving Repr, DecidableEq

namespace Context

/-- What the lines behind the context depend on. -/
def outlook (ctx : Context) : Outlook where
  document := ctx.document
  statementStart := ctx.statementStart
  ordered := ctx.previousLine.any (Literal.codeMatches Rule.orderBy)
  region :=
    match ctx.mode with
    | .normal => none
    | .suppressing region => some (region.terminator, region.scope)

variable {a b : Context}

theorem document_eq (h : a.outlook = b.outlook) : a.document = b.document :=
  congrArg Outlook.document h

theorem statementStart_eq (h : a.outlook = b.outlook) : a.statementStart = b.statementStart :=
  congrArg Outlook.statementStart h

theorem ordered_eq (h : a.outlook = b.outlook) :
    a.previousLine.any (Literal.codeMatches Rule.orderBy) =
      b.previousLine.any (Literal.codeMatches Rule.orderBy) :=
  congrArg Outlook.ordered h

theorem outlook_record (h : a.outlook = b.outlook) (code : List Char)
    (emitted : Option (List Char)) :
    (a.record code emitted).outlook = (b.record code emitted).outlook := by
  have hregion := congrArg Outlook.region h
  simp only [outlook] at hregion
  have hordered : (emitted.or a.previousLine).any (Literal.codeMatches Rule.orderBy) =
      (emitted.or b.previousLine).any (Literal.codeMatches Rule.orderBy) := by
    cases emitted with
    | none => exact ordered_eq h
    | some line => rfl
  simp only [outlook, record, hordered, hregion, document_eq h]

theorem outlook_openRegion (h : a.outlook = b.outlook) (terminator : Terminator)
    (scope : RegionScope) :
    (a.openRegion terminator scope).outlook = (b.openRegion terminator scope).outlook := by
  simp only [outlook, openRegion, document_eq h, ordered_eq h]

/-- The context that a region leaves behind when it is closed. -/
theorem outlook_closed (h : a.outlook = b.outlook) :
    { a with mode := .normal, statementStart := true }.outlook =
      { b with mode := .normal, statementStart := true }.outlook := by
  simp only [outlook, document_eq h, ordered_eq h]

/-- Contexts with the same outlook are either both in normal mode, or suppress lines of the same
kind. -/
theorem mode_of_outlook (h : a.outlook = b.outlook) :
    (a.mode = .normal ∧ b.mode = .normal) ∨
      ∃ r s, a.mode = .suppressing r ∧ b.mode = .suppressing s ∧ r.terminator = s.terminator ∧
        r.scope = s.scope := by
  have hregion := congrArg Outlook.region h
  simp only [outlook] at hregion
  cases ha : a.mode with
  | normal =>
    cases hb : b.mode with
    | normal => exact .inl ⟨rfl, rfl⟩
    | suppressing s => simp [ha, hb] at hregion
  | suppressing r =>
    cases hb : b.mode with
    | normal => simp [ha, hb] at hregion
    | suppressing s =>
      simp only [ha, hb, Option.some.injEq, Prod.mk.injEq] at hregion
      exact .inr ⟨r, s, rfl, rfl, hregion⟩

end Context

/-! ### Rules -/

/-- The rule sees no more of a context than its outlook. -/
def Rule.SeesOutlook (rule : Rule) : Prop :=
  ∀ {a b : Context}, a.outlook = b.outlook → rule.edit? a = rule.edit? b

namespace Rule

theorem seesOutlook_of_const {rule : Rule} (h : ∀ a b, rule.edit? a = rule.edit? b) :
    rule.SeesOutlook :=
  fun {a b} _ => h a b

theorem nearOrderBy_congr {a b : Context} (h : a.outlook = b.outlook) (line : List Char) :
    nearOrderBy a line = nearOrderBy b line := by
  rw [nearOrderBy, nearOrderBy, Context.ordered_eq h]

theorem unboundedFrame_seesOutlook : unboundedFrame.SeesOutlook := by
  intro a b h
  funext line
  simp only [unboundedFrame, nearOrderBy_congr h]

theorem qualifiedNameCase_seesOutlook : qualifiedNameCase.SeesOutlook := by
  intro a b h
  funext line
  simp only [qualifiedNameCase, nearOrderBy_congr h]

theorem sessionSet_seesOutlook : sessionSet.SeesOutlook := by
  intro a b h
  funext line
  simp only [sessionSet, Context.statementStart_eq h]

theorem viewSchema_seesOutlook : viewSchema.SeesOutlook := by
  intro a b h
  funext line
  simp only [viewSchema, Context.document_eq h]

end Rule

namespace RuleSet

open Rule

theorem seesOutlook_of_mem_standard {rule : Rule} (h : rule ∈ standard.all) :
    rule.SeesOutlook := by
  revert rule
  simp only [all, standard, List.cons_append, List.nil_append, List.forall_mem_cons,
    List.not_mem_nil, IsEmpty.forall_iff, implies_true, and_true]
  and_intros
  -- all but four rules do not look at the context
  all_goals first
    | exact seesOutlook_of_const fun _ _ => rfl
    | exact unboundedFrame_seesOutlook
    | exact sessionSet_seesOutlook
    | exact viewSchema_seesOutlook
    | exact qualifiedNameCase_seesOutlook

/-- Every rule of a rule set sees the outlook only, whichever rules are disabled. -/
theorem seesOutlook_of_mem_without {disabled : List String} {rule : Rule}
    (h : rule ∈ (without disabled).all) : rule.SeesOutlook :=
  seesOutlook_of_mem_standard (mem_standard_of_mem_without h)

end RuleSet

/-! ### Lines -/

namespace Converter

/-- Lines in contexts with the same outlook are treated alike. -/
theorem treatment_congr {a b : Context} (h : a.outlook = b.outlook) (raw : List Char) :
    (Line.treatment a raw = .quiet ∧ Line.treatment b raw = .quiet) ∨
      (Line.treatment a raw = .ruled ∧ Line.treatment b raw = .ruled) ∨
      ∃ r s, Line.treatment a raw = .suppressed r ∧ Line.treatment b raw = .suppressed s ∧
        r.terminator = s.terminator ∧ r.scope = s.scope := by
  cases hcode : Line.holdsCode raw with
  | false => exact .inl ⟨Line.treatment_eq_quiet.2 hcode, Line.treatment_eq_quiet.2 hcode⟩
  | true =>
    refine .inr ?_
    rcases Context.mode_of_outlook h with ⟨ha, hb⟩ | ⟨r, s, ha, hb, hrs⟩
    · exact .inl ⟨Line.treatment_eq_ruled.2 ⟨hcode, ha⟩, Line.treatment_eq_ruled.2 ⟨hcode, hb⟩⟩
    · exact .inr ⟨r, s, Line.treatment_eq_suppressed.2 ⟨hcode, ha⟩,
        Line.treatment_eq_suppressed.2 ⟨hcode, hb⟩, hrs⟩

theorem closes_congr {r s : Region} (h : r.terminator = s.terminator) (raw : List Char) :
    closes r raw = closes s raw := by
  rw [closes, closes, h]

section Steps

variable {c : Converter} {a b : Context}

theorem applyRules_advance_congr (hrules : ∀ rule ∈ c.rules.all, rule.SeesOutlook)
    (h : a.outlook = b.outlook) (code : List Char) (remark : Remark) :
    c.applyRules a.advance code remark = c.applyRules b.advance code remark :=
  applyRules_congr (fun rule hrule => hrules rule hrule (a := a.advance) (b := b.advance) h)
    code remark

theorem pass_congr (hrules : ∀ rule ∈ c.rules.all, rule.SeesOutlook) (h : a.outlook = b.outlook)
    (raw : List Char) : c.pass a raw = c.pass b raw := by
  rw [pass, applyRules_advance_congr hrules h, ← pass]

theorem limitHit_congr (hrules : ∀ rule ∈ c.rules.all, rule.SeesOutlook)
    (h : a.outlook = b.outlook) (raw : List Char) : c.limitHit a raw = c.limitHit b raw := by
  rw [limitHit, applyRules_advance_congr hrules h, ← limitHit]

theorem emitted_congr (hrules : ∀ rule ∈ c.rules.all, rule.SeesOutlook)
    (h : a.outlook = b.outlook) (raw : List Char) : c.emitted a raw = c.emitted b raw := by
  rw [emitted, pass_congr hrules h, ← emitted]

theorem leaves_congr (hrules : ∀ rule ∈ c.rules.all, rule.SeesOutlook) (h : a.outlook = b.outlook)
    (raw : List Char) : c.leaves a raw = c.leaves b raw := by
  rw [leaves, pass_congr hrules h, ← leaves]

theorem ruledLine_congr (hrules : ∀ rule ∈ c.rules.all, rule.SeesOutlook)
    (h : a.outlook = b.outlook) (raw : List Char) : c.ruledLine a raw = c.ruledLine b raw := by
  rw [ruledLine, pass_congr hrules h, emitted_congr hrules h, ← ruledLine]

/-- What is written for a line depends on the outlook only. -/
theorem written_congr (hrules : ∀ rule ∈ c.rules.all, rule.SeesOutlook)
    (h : a.outlook = b.outlook) (raw : List Char) : c.written a raw = c.written b raw := by
  rw [written, written]
  rcases treatment_congr h raw with ⟨ha, hb⟩ | ⟨ha, hb⟩ | ⟨r, s, ha, hb, hterminator, hscope⟩
  · rw [ha, hb]
  · rw [ha, hb]
    dsimp only
    rw [leaves_congr hrules h, ruledLine_congr hrules h]
  · rw [ha, hb]
    simp only [suppressedLine, closes_congr hterminator, hscope]

/-- What is counted for a line depends on the outlook only. -/
theorem reportNext_congr (hrules : ∀ rule ∈ c.rules.all, rule.SeesOutlook)
    (h : a.outlook = b.outlook) (raw : List Char) (report : Report) :
    c.reportNext a raw report = c.reportNext b raw report := by
  rw [reportNext, reportNext, written_congr hrules h]
  rcases treatment_congr h raw with ⟨ha, hb⟩ | ⟨ha, hb⟩ | ⟨r, s, ha, hb, hterminator, -⟩
  · simp only [ha, hb]
  · simp only [ha, hb, pass_congr hrules h, limitHit_congr hrules h]
  · simp only [ha, hb, closes_congr hterminator]

theorem outlook_contextAfter (h : a.outlook = b.outlook) (code : List Char)
    (emitted : Option (List Char)) (pass : Pass) :
    (contextAfter a code emitted pass).outlook = (contextAfter b code emitted pass).outlook := by
  have recorded := Context.outlook_record h code emitted
  rw [contextAfter, contextAfter]
  cases pass.control with
  | proceed => exact recorded
  | endLine => exact recorded
  | suppress terminator => exact Context.outlook_openRegion recorded ..

/-- The outlook behind a line depends on the outlook before it only. -/
theorem outlook_contextNext (hrules : ∀ rule ∈ c.rules.all, rule.SeesOutlook)
    (h : a.outlook = b.outlook) (raw : List Char) :
    (c.contextNext a raw).outlook = (c.contextNext b raw).outlook := by
  have advanced : a.advance.outlook = b.advance.outlook := h
  rw [contextNext, contextNext]
  rcases treatment_congr h raw with ⟨ha, hb⟩ | ⟨ha, hb⟩ | ⟨r, s, ha, hb, hterminator, -⟩
  · rw [ha, hb]
    exact advanced
  · rw [ha, hb, pass_congr hrules h, emitted_congr hrules h]
    exact outlook_contextAfter advanced ..
  · rw [ha, hb]
    dsimp only
    rw [closes_congr hterminator]
    split
    · exact Context.outlook_closed advanced
    · exact advanced

/-! ### Runs -/

theorem account_congr (hrules : ∀ rule ∈ c.rules.all, rule.SeesOutlook)
    (h : a.outlook = b.outlook) (lines : List (List Char)) :
    c.account a lines = c.account b lines := by
  induction lines generalizing a b with
  | nil => rfl
  | cons raw lines ih =>
    rw [account, account, written_congr hrules h, ih (outlook_contextNext hrules h raw)]

theorem tally_congr (hrules : ∀ rule ∈ c.rules.all, rule.SeesOutlook)
    (h : a.outlook = b.outlook) (lines : List (List Char)) : c.tally a lines = c.tally b lines := by
  induction lines generalizing a b with
  | nil => rfl
  | cons raw lines ih =>
    rw [tally_cons, tally_cons, reportNext_congr hrules h, ih (outlook_contextNext hrules h raw)]

theorem outlook_contextBehind (hrules : ∀ rule ∈ c.rules.all, rule.SeesOutlook)
    (h : a.outlook = b.outlook) (lines : List (List Char)) :
    (c.contextBehind a lines).outlook = (c.contextBehind b lines).outlook := by
  induction lines generalizing a b with
  | nil => exact h
  | cons raw lines ih => exact ih (outlook_contextNext hrules h raw)

end Steps

end Converter

/-! ### Documents put together -/

/-- The mode as it is behind `n` more lines. -/
def Mode.movedDown (n : Nat) : Mode → Mode
  | normal => normal
  | suppressing region => suppressing { region with openedAt := region.openedAt + n }

namespace Context

/-- The context `a` is like `b`, but `n` lines further down. -/
structure Below (n : Nat) (a b : Context) : Prop where
  /-- Both are seen alike. -/
  outlook_eq : a.outlook = b.outlook
  /-- They suppress alike, and the region has been opened on the same line. -/
  mode_eq : a.mode = b.mode.movedDown n
  /-- They have come to the same line. -/
  lineNumber_eq : a.lineNumber = b.lineNumber + n

variable {n : Nat} {a b : Context}

theorem Below.advance (h : Below n a b) : Below n a.advance b.advance where
  outlook_eq := h.outlook_eq
  mode_eq := h.mode_eq
  lineNumber_eq := by
    have := h.lineNumber_eq
    simp only [Context.advance]
    omega

theorem Below.contextAfter (h : Below n a b) (code : List Char) (emitted : Option (List Char))
    (pass : Pass) :
    Below n (Converter.contextAfter a code emitted pass)
      (Converter.contextAfter b code emitted pass) := by
  have recorded : Below n (a.record code emitted) (b.record code emitted) :=
    ⟨outlook_record h.outlook_eq code emitted, h.mode_eq, h.lineNumber_eq⟩
  rw [Converter.contextAfter, Converter.contextAfter]
  cases pass.control with
  | proceed => exact recorded
  | endLine => exact recorded
  | suppress terminator =>
    refine ⟨outlook_openRegion recorded.outlook_eq .., ?_, recorded.lineNumber_eq⟩
    simp only [openRegion, Mode.movedDown, recorded.lineNumber_eq]

end Context

namespace Converter

variable {c : Converter} {a b : Context} {n : Nat}

theorem below_contextNext (hrules : ∀ rule ∈ c.rules.all, rule.SeesOutlook)
    (h : Context.Below n a b) (raw : List Char) :
    Context.Below n (c.contextNext a raw) (c.contextNext b raw) := by
  rw [contextNext, contextNext]
  rcases treatment_congr h.outlook_eq raw with
    ⟨ha, hb⟩ | ⟨ha, hb⟩ | ⟨r, s, ha, hb, hterminator, -⟩
  · rw [ha, hb]
    exact h.advance
  · rw [ha, hb, pass_congr hrules h.outlook_eq, emitted_congr hrules h.outlook_eq]
    exact h.advance.contextAfter ..
  · rw [ha, hb]
    dsimp only
    rw [closes_congr hterminator]
    split
    · exact ⟨Context.outlook_closed h.advance.outlook_eq, rfl, h.advance.lineNumber_eq⟩
    · exact h.advance

theorem below_contextBehind (hrules : ∀ rule ∈ c.rules.all, rule.SeesOutlook)
    (h : Context.Below n a b) (lines : List (List Char)) :
    Context.Below n (c.contextBehind a lines) (c.contextBehind b lines) := by
  induction lines generalizing a b with
  | nil => exact h
  | cons raw lines ih => exact ih (below_contextNext hrules h raw)

/-- The name of the document stays, and every line is counted. -/
theorem place_contextNext (ctx : Context) (raw : List Char) :
    (c.contextNext ctx raw).document = ctx.document ∧
      (c.contextNext ctx raw).lineNumber = ctx.lineNumber + 1 := by
  rw [contextNext]
  split
  · exact ⟨rfl, rfl⟩
  · split
    · exact ⟨rfl, rfl⟩
    · exact ⟨rfl, rfl⟩
  · rw [contextAfter]
    cases (c.pass ctx raw).control with
    | proceed => exact ⟨rfl, rfl⟩
    | endLine => exact ⟨rfl, rfl⟩
    | suppress terminator => exact ⟨rfl, rfl⟩

theorem place_contextBehind (ctx : Context) (lines : List (List Char)) :
    (c.contextBehind ctx lines).document = ctx.document ∧
      (c.contextBehind ctx lines).lineNumber = ctx.lineNumber + lines.length := by
  induction lines generalizing ctx with
  | nil => exact ⟨rfl, rfl⟩
  | cons raw lines ih =>
    obtain ⟨hdocument, hnumber⟩ := place_contextNext (c := c) ctx raw
    obtain ⟨ihdocument, ihnumber⟩ := ih (c.contextNext ctx raw)
    refine ⟨ihdocument.trans hdocument, ihnumber.trans ?_⟩
    rw [hnumber, List.length_cons]
    omega

/-- Where a document can be cut, the rest is seen as a document of its own, further down. -/
theorem below_start {name : Option String} {lines : List (List Char)}
    (hmode : (c.contextBehind (.start name) lines).mode = .normal)
    (hstart : (c.contextBehind (.start name) lines).statementStart = true)
    (hordered : (c.contextBehind (.start name) lines).previousLine.any
      (Literal.codeMatches Rule.orderBy) = false) :
    Context.Below lines.length (c.contextBehind (.start name) lines) (.start name) := by
  obtain ⟨hdocument, hnumber⟩ := place_contextBehind (c := c) (.start name) lines
  refine ⟨?_, hmode, hnumber⟩
  simp only [Context.outlook, hdocument, hstart, hordered, hmode]
  rfl

/-! ### The end of the document -/

theorem closingReport_congr (h : a.outlook = b.outlook) : closingReport a = closingReport b := by
  rw [closingReport, closingReport, Context.isSuppressing, Context.isSuppressing]
  rcases Context.mode_of_outlook h with ⟨ha, hb⟩ | ⟨r, s, ha, hb, -⟩
  · rw [ha, hb]
  · rw [ha, hb]

/-- Contexts with the same outlook close alike, but for the number of the line that opened the
region. -/
theorem closing_of_outlook (h : a.outlook = b.outlook) :
    (closing a = [] ∧ closing b = []) ∨
      ∃ r s : Region, closing a = [.finished (closingLine r)] ∧
        closing b = [.finished (closingLine s)] ∧
        closingLine r = closingLine { s with openedAt := r.openedAt } := by
  rcases Context.mode_of_outlook h with ⟨ha, hb⟩ | ⟨r, s, ha, hb, -⟩
  · exact .inl ⟨by rw [closing, ha], by rw [closing, hb]⟩
  · exact .inr ⟨r, s, by rw [closing, ha], by rw [closing, hb], rfl⟩

theorem closing_eq_of_below (h : Context.Below n a b) :
    closing a = closing { b with mode := b.mode.movedDown n } := by
  rw [closing, closing, h.mode_eq]

section Cut

variable {name : Option String} {first : List (List Char)}

/-- The report of a document is the sum of the reports of its parts, if it can be cut. -/
theorem report_convert_append (hrules : ∀ rule ∈ c.rules.all, rule.SeesOutlook)
    (below : Context.Below n (c.contextBehind (.start name) first) (.start name))
    (second : List (List Char)) :
    (c.convert ⟨name, first ++ second⟩).report =
      (c.convert ⟨name, first⟩).report.plus (c.convert ⟨name, second⟩).report := by
  have behind := below_contextBehind hrules below second
  have hclosing : closingReport (c.contextBehind (.start name) first) = {} :=
    closingReport_congr below.outlook_eq
  rw [report_convert, report_convert, report_convert]
  dsimp only
  rw [contextBehind_append, tally_append, hclosing, Report.plus_empty,
    tally_congr hrules below.outlook_eq, closingReport_congr behind.outlook_eq, Report.plus_assoc]

/-- The texts of a document are those of its parts one after the other, if it can be cut. -/
theorem texts_convert_append (hrules : ∀ rule ∈ c.rules.all, rule.SeesOutlook)
    (below : Context.Below n (c.contextBehind (.start name) first) (.start name))
    (second : List (List Char)) :
    let last := c.contextBehind (.start name) second
    (c.convert ⟨name, first ++ second⟩).texts = (c.convert ⟨name, first⟩).texts ++
      (c.account (.start name) second).filterMap (Written.text c.showRemarks) ++
      (closing { last with mode := last.mode.movedDown n }).filterMap
        (Written.text c.showRemarks) := by
  intro last
  have behind := below_contextBehind hrules below second
  have hclosing : closing (c.contextBehind (.start name) first) = [] :=
    closing_eq_of_below below
  rw [texts_convert, texts_convert, entries, entries]
  dsimp only
  rw [contextBehind_append, account_append, hclosing, List.append_nil,
    account_congr hrules below.outlook_eq, closing_eq_of_below behind, List.filterMap_append,
    List.filterMap_append]

end Cut

/-- **What lines depend on.**  Two contexts with the same outlook are not told apart: the lines
behind them leave the same texts and the same counts, and contexts with the same outlook again; and
at the end of the document both close a region or neither does, with texts that differ in the number
of a line only.

In particular, a document can be cut where the outlook is that of a new document: its texts are
those of its parts one after the other, with the number of the line that opened a region moved down,
and its report is the sum of their reports. -/
theorem lines_depend_on_outlook (disabled : List String) (showRemarks : Bool) :
    let c : Converter := ⟨.without disabled, showRemarks⟩
    let texts := List.filterMap (Written.text showRemarks)
    (∀ (a b : Context) (lines : List (List Char)), a.outlook = b.outlook →
      ∃ (account : List Written) (counted closed : Report),
        (∀ ctx, ctx = a ∨ ctx = b → ∀ report before,
          let run := lines.foldl c.step ⟨ctx, report, before⟩
          let behind := c.contextBehind ctx lines
          run = ⟨behind, report.plus counted, (texts account).reverse ++ before⟩ ∧
          (c.finish run).texts = (texts (closing behind)).reverse ++ run.texts ∧
          (c.finish run).report = run.report.plus closed) ∧
        let behindA := c.contextBehind a lines
        let behindB := c.contextBehind b lines
        behindA.outlook = behindB.outlook ∧
        ((closing behindA = [] ∧ closing behindB = []) ∨
          ∃ r s : Region, closing behindA = [.finished (closingLine r)] ∧
            closing behindB = [.finished (closingLine s)] ∧
            closingLine r = closingLine { s with openedAt := r.openedAt })) ∧
    ∀ (name : Option String) (first second : List (List Char)),
      let cut := c.contextBehind (.start name) first
      let last := c.contextBehind (.start name) second
      let own := texts (c.account (.start name) second)
      cut.mode = .normal → cut.statementStart = true →
      cut.previousLine.any (Literal.codeMatches Rule.orderBy) = false →
        (c.convert ⟨name, first ++ second⟩).report =
          (c.convert ⟨name, first⟩).report.plus (c.convert ⟨name, second⟩).report ∧
        (c.convert ⟨name, second⟩).texts = own ++ texts (closing last) ∧
        (c.convert ⟨name, first ++ second⟩).texts = (c.convert ⟨name, first⟩).texts ++ own ++
          texts (closing { last with mode := last.mode.movedDown first.length }) := by
  intro c texts
  have hrules : ∀ rule ∈ c.rules.all, rule.SeesOutlook :=
    fun rule hrule => RuleSet.seesOutlook_of_mem_without hrule
  constructor
  · intro a b lines h
    have behind := outlook_contextBehind hrules h lines
    refine ⟨c.account a lines, c.tally a lines, closingReport (c.contextBehind a lines), ?_, behind,
      closing_of_outlook behind⟩
    rintro ctx hctx report before
    have same : ctx.outlook = a.outlook := by
      rcases hctx with rfl | rfl
      · rfl
      · exact h.symm
    have hrun : lines.foldl c.step ⟨ctx, report, before⟩ =
        ⟨c.contextBehind ctx lines, report.plus (c.tally a lines),
          (texts (c.account a lines)).reverse ++ before⟩ := by
      rw [foldl_step, account_congr hrules same, tally_congr hrules same]
    refine ⟨hrun, ?_, ?_⟩
    · rw [texts_finish, hrun]
    · rw [report_finish_eq_plus, hrun,
        closingReport_congr (outlook_contextBehind hrules same lines)]
  · intro name first second cut last own hmode hstart hordered
    have below : Context.Below first.length cut (.start name) := below_start hmode hstart hordered
    refine ⟨report_convert_append hrules below second, ?_, texts_convert_append hrules below second⟩
    rw [texts_convert, entries, List.filterMap_append]

/-- Behind a finished statement a document is cut, and a region that its last line opens is told of
with the number of that line in the whole. -/
theorem cut_behind_statement :
    let c : Converter := ⟨.without [], true⟩
    let later : Context := ⟨none, some "SELECT 1;".toList, true, .normal, 7⟩
    let first := ["SELECT NOW();".toList]
    let second := ["GRANT SELECT".toList]
    (c.finish (second.foldl c.step ⟨.start none, {}, []⟩)).report =
      (c.finish (second.foldl c.step ⟨later, {}, []⟩)).report ∧
    (c.convert ⟨none, first ++ second⟩).texts = (c.convert ⟨none, first⟩).texts ++
      ["\t\t--// GRANT SELECT".toList,
        "\t\t--// suppression opened at line 2 closed at end of document".toList] := by
  intro c later first second
  obtain ⟨hcontexts, hcut⟩ := lines_depend_on_outlook [] true
  constructor
  · obtain ⟨account, counted, closed, hruns, -⟩ :=
      hcontexts (.start none) later second (by decide +kernel)
    obtain ⟨hstart, -, hstartEnd⟩ := hruns (.start none) (.inl rfl) {} []
    obtain ⟨hlater, -, hlaterEnd⟩ := hruns later (.inr rfl) {} []
    rw [hstartEnd, hlaterEnd, hstart, hlater]
  · obtain ⟨-, -, htexts⟩ :=
      hcut none first second (by decide +kernel) (by decide +kernel) (by decide +kernel)
    let last := c.contextBehind (.start none) second
    have hsecond : (c.account (.start none) second).filterMap (Written.text true) ++
        (closing { last with mode := last.mode.movedDown first.length }).filterMap
          (Written.text true) =
        ["\t\t--// GRANT SELECT".toList,
          "\t\t--// suppression opened at line 2 closed at end of document".toList] := by
      decide +kernel
    rw [htexts, List.append_assoc, hsecond]

end Converter

end SqlDialect
