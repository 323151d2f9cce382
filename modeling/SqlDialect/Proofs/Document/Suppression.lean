import SqlDialect.Proofs.Document.Step
import SqlDialect.Proofs.Rule.Pass

/-!
# Suppression regions over whole runs

* `Run.Balanced` : the invariant of a run.  The regions opened so far are those closed and the one
  that is open, none was closed by force, and the open one waits for the end of a statement.
* `Converter.balanced_step`, `Converter.balanced_runLines` : a line keeps the invariant, and so
  does a run over any lines.
* `Converter.mode_step_of_suppressing` : a region is left at the first line that ends a statement.
* `Converter.suppression_runLines` : **the laws of suppression** for every run with rules of the
  catalogue.
-/

namespace SqlDialect

/-- Opened and closed regions add up, and the open region lasts until the end of a statement. -/
structure Run.Balanced (run : Run) : Prop where
  regionsOpened_eq : run.report.regionsOpened =
    run.report.regionsClosed + if run.context.isSuppressing then 1 else 0
  forcedCloses_eq : run.report.forcedCloses = 0
  terminator_eq : ∀ region, run.context.mode = .suppressing region →
    region.terminator = .statement

namespace Context

variable {ctx : Context}

theorem isSuppressing_of_normal (h : ctx.mode = .normal) : ctx.isSuppressing = false := by
  rw [isSuppressing, h]

theorem isSuppressing_of_suppressing {region : Region} (h : ctx.mode = .suppressing region) :
    ctx.isSuppressing = true := by
  rw [isSuppressing, h]

end Context

namespace Converter

variable {c : Converter} {ctx : Context} {run : Run} {raw : List Char} {region : Region}

/-! ### The mode behind a line -/

theorem mode_contextAfter {code : List Char} {emitted : Option (List Char)} {pass : Pass} :
    (contextAfter ctx code emitted pass).mode =
      match pass.control with
      | .suppress t =>
        .suppressing ⟨t, if pass.discardsStatement then .statement else .clause, ctx.lineNumber⟩
      | _ => ctx.mode := by
  rw [contextAfter]
  cases pass.control <;> rfl

theorem mode_step_of_quiet (h : Line.holdsCode raw = false) :
    (c.step run raw).context.mode = run.context.mode := by
  rw [step_eq, contextNext, Line.treatment_eq_quiet.2 h]
  rfl

/-- A region whose terminator is the end of a statement is left at a line of code that ends one,
and at no other line. -/
theorem mode_step_of_suppressing (hmode : run.context.mode = .suppressing region)
    (hterminator : region.terminator = .statement) :
    (c.step run raw).context.mode =
      if Line.endsStatement raw then .normal else .suppressing region := by
  cases hcode : Line.holdsCode raw with
  | false => rw [mode_step_of_quiet hcode, hmode, Line.endsStatement, hcode]; rfl
  | true =>
    simp only [step_eq, contextNext, Line.treatment_eq_suppressed.2 ⟨hcode, hmode⟩]
    rw [Line.endsStatement, hcode, Bool.true_and, closes, hterminator]
    split
    · rfl
    · rw [Context.mode_advance, hmode]

/-! ### The invariant -/

theorem balanced_start (name : Option String) : (Run.start name).Balanced where
  regionsOpened_eq := rfl
  forcedCloses_eq := rfl
  terminator_eq := by intro region h; cases h

theorem terminator_of_control_pass (regular : ∀ rule ∈ c.rules.all, rule.Regular) {t : Terminator}
    (h : (c.pass ctx raw).control = .suppress t) : t = .statement :=
  terminator_of_control_applyRules regular h

/-- A line keeps the invariant. -/
theorem balanced_step (regular : ∀ rule ∈ c.rules.all, rule.Regular) (h : run.Balanced) :
    (c.step run raw).Balanced := by
  obtain ⟨hopened, hforced, hterminator⟩ := h
  rw [step_eq]
  cases htreat : Line.treatment run.context raw with
  | quiet =>
    -- neither counters nor mode change
    refine ⟨?_, hforced, ?_⟩
    · simpa [reportNext, contextNext, htreat] using hopened
    · simpa [contextNext, htreat] using hterminator
  | suppressed region =>
    have hmode := (Line.treatment_eq_suppressed.1 htreat).2
    rw [Context.isSuppressing_of_suppressing hmode] at hopened
    refine ⟨?_, hforced, ?_⟩
    · simp only [reportNext, contextNext, htreat]
      cases closes region raw with
      | false => simpa [Context.isSuppressing_of_suppressing hmode] using hopened
      | true => simpa [Context.isSuppressing] using hopened
    · intro open? hopen
      simp only [contextNext, htreat] at hopen
      split at hopen
      · cases hopen
      · exact hterminator _ hopen
  | ruled =>
    have hmode := (Line.treatment_eq_ruled.1 htreat).2
    rw [Context.isSuppressing_of_normal hmode] at hopened
    refine ⟨?_, hforced, ?_⟩
    · simp only [reportNext, contextNext, htreat]
      rw [hopened, Context.isSuppressing, mode_contextAfter]
      cases (c.pass run.context raw).control <;> simp [Control.regions, hmode]
    · intro open? hopen
      simp only [contextNext, htreat, mode_contextAfter] at hopen
      cases hcontrol : (c.pass run.context raw).control with
      | proceed => simp [hcontrol, hmode] at hopen
      | endLine => simp [hcontrol, hmode] at hopen
      | suppress t =>
        rw [hcontrol] at hopen
        obtain rfl := Mode.suppressing.inj hopen
        exact terminator_of_control_pass regular hcontrol

/-- Every run keeps the invariant. -/
theorem balanced_runLines (regular : ∀ rule ∈ c.rules.all, rule.Regular) (name : Option String)
    (lines : List (List Char)) : (c.runLines name lines).Balanced := by
  induction lines using List.reverseRecOn with
  | nil => exact balanced_start name
  | append_singleton lines raw ih =>
    rw [runLines_concat]
    exact balanced_step regular ih

/-- A region lasts over lines that end no statement. -/
theorem mode_runLines_append {name : Option String} {lines quiet : List (List Char)}
    (hmode : (c.runLines name lines).context.mode = .suppressing region)
    (hterminator : region.terminator = .statement)
    (hquiet : ∀ line ∈ quiet, Line.endsStatement line = false) :
    (c.runLines name (lines ++ quiet)).context.mode = .suppressing region := by
  induction quiet using List.reverseRecOn with
  | nil => rwa [List.append_nil]
  | append_singleton quiet raw ih =>
    have before := ih fun line hline => hquiet line (List.mem_append_left _ hline)
    have hraw := hquiet raw (List.mem_append_right _ List.mem_cons_self)
    rw [← List.append_assoc, runLines_concat, mode_step_of_suppressing before hterminator, hraw]
    rfl

/-! ### Lines in a region -/

theorem ruleHits_step_of_suppressing (hmode : run.context.mode = .suppressing region) :
    (c.step run raw).report.ruleHits = run.report.ruleHits := by
  rw [step_eq, reportNext]
  cases htreat : Line.treatment run.context raw with
  | quiet => rfl
  | suppressed region => rfl
  | ruled => exact absurd htreat (Line.treatment_ne_ruled hmode)

theorem previousLine_step_of_suppressing (hmode : run.context.mode = .suppressing region) :
    (c.step run raw).context.previousLine = run.context.previousLine := by
  rw [step_eq, contextNext]
  cases htreat : Line.treatment run.context raw with
  | quiet => rfl
  | suppressed region => dsimp only; split <;> rfl
  | ruled => exact absurd htreat (Line.treatment_ne_ruled hmode)

theorem statement_suppressedLine (region : Region) (raw : List Char) :
    (suppressedLine region raw).statement = [] ∨
    (suppressedLine region raw).statement = [';'] ∧ closes region raw = true ∧
      region.scope = .clause := by
  rw [FinishedLine.statement]
  split
  · rename_i h
    simp only [suppressedLine, Bool.and_eq_true, decide_eq_true_eq] at h
    exact .inr ⟨rfl, h.1.1⟩
  · exact .inl rfl

/-- No SQL is left of a line in a region but the semicolon that a discarded clause leaves to the
statement around it. -/
theorem sql_written_of_suppressing (hmode : ctx.mode = .suppressing region)
    (hterminator : region.terminator = .statement) :
    (c.written ctx raw).sql = [] ∨
      (c.written ctx raw).sql = [';'] ∧ Line.endsStatement raw = true ∧ region.scope = .clause := by
  rw [written]
  cases htreat : Line.treatment ctx raw with
  | quiet =>
    left
    exact Line.trimEnd_eq_nil_iff.2 (Line.isBlank_sourceCode_of_quiet
      (Line.treatment_eq_quiet.1 htreat))
  | suppressed own =>
    obtain ⟨hcode, hown⟩ := Line.treatment_eq_suppressed.1 htreat
    obtain rfl : own = region := Mode.suppressing.inj (hown.symm.trans hmode)
    rcases statement_suppressedLine own raw with h | ⟨h, hcloses, hscope⟩
    · exact .inl h
    · rw [closes, hterminator] at hcloses
      exact .inr ⟨h, by rw [Line.endsStatement, hcode, hcloses]; rfl, hscope⟩
  | ruled => exact absurd htreat (Line.treatment_ne_ruled hmode)

/-! ### The laws of suppression -/

/-- Regions open in normal mode only, and the counter of opened regions tells. -/
theorem opens_step :
    ((c.step run raw).report.regionsOpened = run.report.regionsOpened ∧
      ∀ region, (c.step run raw).context.mode = .suppressing region →
        run.context.mode = .suppressing region) ∨
    ((c.step run raw).report.regionsOpened = run.report.regionsOpened + 1 ∧
      run.context.mode = .normal ∧ (c.step run raw).context.isSuppressing = true) := by
  rw [step_eq]
  cases htreat : Line.treatment run.context raw with
  | quiet => left; simp [reportNext, contextNext, htreat]
  | suppressed own =>
    left
    refine ⟨by simp [reportNext, htreat], ?_⟩
    intro region h
    simp only [contextNext, htreat] at h
    split at h
    · cases h
    · exact h
  | ruled =>
    have hmode := (Line.treatment_eq_ruled.1 htreat).2
    cases hcontrol : (c.pass run.context raw).control with
    | proceed =>
      left
      simp [reportNext, contextNext, htreat, mode_contextAfter, hcontrol, Control.regions, hmode]
    | endLine =>
      left
      simp [reportNext, contextNext, htreat, mode_contextAfter, hcontrol, Control.regions, hmode]
    | suppress t =>
      right
      simp [reportNext, contextNext, htreat, mode_contextAfter, hcontrol, Control.regions, hmode,
        Context.isSuppressing]

theorem report_finish (h : run.Balanced) :
    (c.finish run).report.regionsOpened = (c.finish run).report.regionsClosed ∧
      (c.finish run).report.forcedCloses = if run.context.isSuppressing then 1 else 0 := by
  have hopened := h.regionsOpened_eq
  cases hmode : run.context.mode with
  | normal =>
    rw [finish_of_normal hmode, Context.isSuppressing_of_normal hmode]
    rw [Context.isSuppressing_of_normal hmode] at hopened
    exact ⟨hopened, h.forcedCloses_eq⟩
  | suppressing region =>
    rw [finish_of_suppressing hmode, Context.isSuppressing_of_suppressing hmode]
    rw [Context.isSuppressing_of_suppressing hmode] at hopened
    exact ⟨hopened, by simp [h.forcedCloses_eq]⟩

/-- **The laws of suppression.**  At every point of every run with rules of the catalogue:

* the opened regions are the closed ones and the one that is open;
* a region opens in normal mode only;
* it is left exactly at the first line of code behind it that ends a statement;
* a line in it records no hit, leaves the previous line as it was, and leaves no SQL but the
  semicolon of the statement around a discarded clause, at the end of the region;
* at the end of the document opened and closed regions agree, and a region is closed by force
  exactly if it was still open behind the last line. -/
theorem suppression_runLines (disabled : List String) (showRemarks : Bool) (name : Option String)
    (before : List (List Char)) (raw : List Char) :
    let c : Converter := ⟨.without disabled, showRemarks⟩
    let run := c.runLines name before
    let next := c.runLines name (before ++ [raw])
    run.report.regionsOpened =
      run.report.regionsClosed + (if run.context.isSuppressing then 1 else 0) ∧
    ((next.report.regionsOpened = run.report.regionsOpened ∧
        ∀ region, next.context.mode = .suppressing region →
          run.context.mode = .suppressing region) ∨
      (next.report.regionsOpened = run.report.regionsOpened + 1 ∧
        run.context.mode = .normal ∧ next.context.isSuppressing = true)) ∧
    (∀ region quiet, run.context.mode = .suppressing region →
      (∀ line ∈ quiet, Line.endsStatement line = false) →
      (c.runLines name (before ++ quiet)).context.mode = .suppressing region ∧
      (c.runLines name (before ++ quiet ++ [raw])).context.mode =
        if Line.endsStatement raw then .normal else .suppressing region) ∧
    (∀ region, run.context.mode = .suppressing region →
      next.report.ruleHits = run.report.ruleHits ∧
      next.context.previousLine = run.context.previousLine ∧
      next.texts = ((c.written run.context raw).text showRemarks).toList ++ run.texts ∧
      ((c.written run.context raw).sql = [] ∨
        (c.written run.context raw).sql = [';'] ∧ Line.endsStatement raw = true ∧
          region.scope = .clause)) ∧
    (c.convert ⟨name, before⟩).report.regionsOpened =
      (c.convert ⟨name, before⟩).report.regionsClosed ∧
    (c.convert ⟨name, before⟩).report.forcedCloses =
      (if run.context.isSuppressing then 1 else 0) ∧
    ∀ octets sink report, (c.transcribe name octets sink).result = .ok report →
      report.regionsOpened = report.regionsClosed ∧
      report.forcedCloses =
        if (c.runLines name (Document.ofStream name octets).lines).context.isSuppressing then 1
        else 0 := by
  intro c run next
  have regular : ∀ rule ∈ c.rules.all, rule.Regular := fun _ => RuleSet.regular_of_mem_without
  have balanced : ∀ lines, (c.runLines name lines).Balanced := balanced_runLines regular name
  have hnext : next = c.step run raw := runLines_concat
  refine ⟨(balanced before).regionsOpened_eq, ?_, ?_, ?_, (report_finish (balanced before)).1,
    (report_finish (balanced before)).2, ?_⟩
  · rw [hnext]
    exact opens_step
  · intro region quiet hmode hquiet
    have hterminator := (balanced before).terminator_eq _ hmode
    have still := mode_runLines_append hmode hterminator hquiet
    refine ⟨still, ?_⟩
    rw [runLines_concat, mode_step_of_suppressing still hterminator]
  · intro region hmode
    have hterminator := (balanced before).terminator_eq _ hmode
    rw [hnext]
    exact ⟨ruleHits_step_of_suppressing hmode, previousLine_step_of_suppressing hmode,
      by rw [step_eq], sql_written_of_suppressing hmode hterminator⟩
  · intro octets sink report h
    rw [(transcribe_eq h).2]
    exact report_finish (balanced _)

/-- A region opens behind a clause that does not end on its line, lasts over a line without a
semicolon, and is left at the next line with one. -/
theorem suppression_sortkey :
    let c : Converter := ⟨.without [], true⟩
    let region : Region := ⟨.statement, .clause, 1⟩
    (c.runLines none ([") SORTKEY (".toList] ++ ["a,".toList])).context.mode =
        .suppressing region ∧
      (c.runLines none ([") SORTKEY (".toList] ++ ["a,".toList] ++ ["b);".toList])).context.mode =
        .normal :=
  (suppression_runLines [] true none [") SORTKEY (".toList] "b);".toList).2.2.1
    ⟨.statement, .clause, 1⟩ ["a,".toList] (by decide) (by decide)

end Converter

end SqlDialect
