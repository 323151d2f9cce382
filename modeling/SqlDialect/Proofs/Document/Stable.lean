import SqlDialect.Proofs.Document.Completeness
import SqlDialect.Proofs.Text.Lines

/-!
# Documents that a second conversion leaves alone

A converted document may be converted again.  Whether the second conversion leaves it alone can be
read off its lines, one after the other:

* `Converter.Keeps` : the line has no white space at its end and no quoted identifiers, and either
  no rule has an edit for it, or it has its remark and the rules give it back.
* `Converter.Stable` : so do all lines, each in the context of those before it.
* `Converter.stable_of_unchanged`, `Converter.unchanged_of_stable` : the lines of a run that count
  no line as changed, and leave no region open, are the stable ones.
* `Converter.convert_text_eq_self_of_forall_keeps` : it is enough that every line is left as it is in
  every context.
* `Converter.convert_text_eq_self_iff` : **when conversion is idempotent**: the second conversion
  changes nothing if and only if the lines of the first are stable.
-/

namespace SqlDialect

/-- The context behind a line outside all regions that is left as it is. -/
def Context.afterKept (ctx : Context) (raw : List Char) : Context :=
  if Line.holdsCode raw then
    ctx.advance.record (Line.code raw)
      (if Line.isVestigial (Line.code raw) then none else some (Line.code raw))
  else ctx.advance

namespace Converter

/-- The line outside all regions, in the context of those before it, is left as it is. -/
structure Keeps (c : Converter) (ctx : Context) (raw : List Char) : Prop where
  /-- No white space is trimmed. -/
  trimmed : Text.trimEnd raw = raw
  /-- No quotes are removed. -/
  unquoted : Line.holdsCode raw = true → Line.code raw = Line.sourceCode raw
  /-- No rule has an edit for the code; or the line has its remark, and the rules give the code
  back and suppress nothing behind it. -/
  settled : Line.holdsCode raw = true →
    (∀ rule ∈ c.rules.all, rule.edit? ctx.advance (Line.code raw) = none) ∨
      isRemark (Line.comment raw) = true ∧ (c.pass ctx raw).line = Line.code raw ∧
        ∀ t, (c.pass ctx raw).control ≠ .suppress t

/-- Every line is left as it is, in the context of those before it. -/
def Stable (c : Converter) (ctx : Context) : List (List Char) → Prop
  | [] => True
  | raw :: rest => c.Keeps ctx raw ∧ c.Stable (ctx.afterKept raw) rest

variable {c : Converter} {ctx : Context} {run : Run} {raw : List Char}

theorem stable_append (a b : List (List Char)) :
    c.Stable ctx (a ++ b) ↔ c.Stable ctx a ∧ c.Stable (a.foldl Context.afterKept ctx) b := by
  induction a generalizing ctx with
  | nil => simp [Stable]
  | cons raw a ih => simp [Stable, ih, and_assoc]

theorem stable_of_forall_keeps {lines : List (List Char)}
    (h : ∀ raw ∈ lines, ∀ ctx, c.Keeps ctx raw) : c.Stable ctx lines := by
  induction lines generalizing ctx with
  | nil => trivial
  | cons raw lines ih =>
    rw [List.forall_mem_cons] at h
    exact ⟨h.1 ctx, ih h.2⟩

theorem Stable.trimmed {lines : List (List Char)} (h : c.Stable ctx lines) :
    ∀ raw ∈ lines, Text.trimEnd raw = raw := by
  induction lines generalizing ctx with
  | nil => simp
  | cons first rest ih =>
    rw [List.forall_mem_cons]
    exact ⟨h.1.trimmed, ih h.2⟩

/-! ### One line -/

theorem pass_of_hits_eq_nil (h : (c.pass ctx raw).hits = []) :
    (c.pass ctx raw).line = Line.code raw ∧ (c.pass ctx raw).control = .proceed := by
  refine ⟨line_applyRules_of_hits h, ?_⟩
  have hnone := hits_applyRules_eq_nil_iff.1 h
  rw [pass, control_applyRules, oncePass,
    Pass.run_eq_self fun rule hrule => hnone rule (List.mem_append_left _ hrule)]

theorem leaves_iff : c.leaves ctx raw = true ↔ Line.code raw = Line.sourceCode raw ∧
    ((∀ rule ∈ c.rules.all, rule.edit? ctx.advance (Line.code raw) = none) ∨
      isRemark (Line.comment raw) = true ∧ (c.pass ctx raw).line = Line.code raw) := by
  have hhits : (c.pass ctx raw).hits = [] ↔
      ∀ rule ∈ c.rules.all, rule.edit? ctx.advance (Line.code raw) = none :=
    hits_applyRules_eq_nil_iff
  simp only [leaves, Bool.and_eq_true, Bool.or_eq_true, decide_eq_true_eq, List.isEmpty_iff, hhits]
  exact and_congr_right fun _ => or_congr_right and_comm

theorem mode_contextNext_of_ruled (h : Line.treatment ctx raw = .ruled) :
    (c.contextNext ctx raw).mode = .normal ↔ ∀ t, (c.pass ctx raw).control ≠ .suppress t := by
  have hmode := (Line.treatment_eq_ruled.1 h).2
  simp only [contextNext, h, mode_contextAfter, Context.mode_advance, hmode]
  cases (c.pass ctx raw).control <;> simp

/-- Outside all regions, a line is kept if and only if it does not count as changed and opens no
region. -/
theorem keeps_iff (hmode : ctx.mode = .normal) : c.Keeps ctx raw ↔
    (c.written ctx raw).isChanged = false ∧ (c.contextNext ctx raw).mode = .normal := by
  cases htreat : Line.treatment ctx raw with
  | quiet =>
    have hcode := Line.treatment_eq_quiet.1 htreat
    simp only [written, contextNext, htreat, Written.isChanged, Context.mode_advance, hmode,
      and_true, decide_eq_false_iff_not, ne_eq, not_not]
    exact ⟨fun h => h.trimmed, fun h => ⟨h, by simp [hcode], by simp [hcode]⟩⟩
  | suppressed region =>
    rw [(Line.treatment_eq_suppressed.1 htreat).2] at hmode
    cases hmode
  | ruled =>
    have hcode := (Line.treatment_eq_ruled.1 htreat).1
    rw [mode_contextNext_of_ruled htreat]
    have hchanged : (c.written ctx raw).isChanged = false ↔
        c.leaves ctx raw = true ∧ Text.trimEnd raw = raw := by
      simp only [written, htreat]
      cases c.leaves ctx raw <;> simp [Written.isChanged]
    rw [hchanged, leaves_iff]
    constructor
    · rintro ⟨htrim, hunquoted, hsettled⟩
      rcases hsettled hcode with hnone | ⟨hremark, hline, hcontrol⟩
      · refine ⟨⟨⟨hunquoted hcode, .inl hnone⟩, htrim⟩, fun t => ?_⟩
        rw [(pass_of_hits_eq_nil (hits_applyRules_eq_nil_iff.2 hnone)).2]
        simp
      · exact ⟨⟨⟨hunquoted hcode, .inr ⟨hremark, hline⟩⟩, htrim⟩, hcontrol⟩
    · rintro ⟨⟨⟨hunquoted, hsettled⟩, htrim⟩, hcontrol⟩
      refine ⟨htrim, fun _ => hunquoted, fun _ => ?_⟩
      refine hsettled.imp_right ?_
      rintro ⟨hremark, hline⟩
      exact ⟨hremark, hline, hcontrol⟩

/-- The context behind a kept line. -/
theorem contextNext_of_keeps (hmode : ctx.mode = .normal) (h : c.Keeps ctx raw) :
    c.contextNext ctx raw = ctx.afterKept raw := by
  rw [Context.afterKept]
  cases hcode : Line.holdsCode raw with
  | false => rw [contextNext, Line.treatment_eq_quiet.2 hcode]; rfl
  | true =>
    rw [contextNext, Line.treatment_eq_ruled.2 ⟨hcode, hmode⟩]
    -- the rules give the code back, and suppress nothing behind it
    have hline : (c.pass ctx raw).line = Line.code raw := by
      rcases h.settled hcode with hnone | ⟨-, hline, -⟩
      · exact (pass_of_hits_eq_nil (hits_applyRules_eq_nil_iff.2 hnone)).1
      · exact hline
    have hcontrol : ∀ t, (c.pass ctx raw).control ≠ .suppress t :=
      (mode_contextNext_of_ruled (Line.treatment_eq_ruled.2 ⟨hcode, hmode⟩)).1
        ((keeps_iff hmode).1 h).2
    dsimp only [if_true]
    rw [contextAfter, emitted, hline]
    cases hc : (c.pass ctx raw).control with
    | proceed => rfl
    | endLine => rfl
    | suppress t => exact absurd hc (hcontrol t)

/-! ### Whole runs -/

variable {name : Option String} {lines : List (List Char)}

theorem changedLines_runLines_concat :
    (c.runLines name (lines ++ [raw])).report.changedLines = 0 ↔
      (c.runLines name lines).report.changedLines = 0 ∧
        (c.written (c.runLines name lines).context raw).isChanged = false := by
  rw [runLines_concat, step_eq, reportNext]
  cases (c.written (c.runLines name lines).context raw).isChanged <;> simp

theorem written_of_unchanged (h : (c.written ctx raw).isChanged = false) :
    (c.written ctx raw).text c.showRemarks = some raw := by
  rcases written_eq_or c ctx raw with hraw | ⟨line, hline, -⟩
  · rw [hraw] at h ⊢
    simp only [Written.isChanged, decide_eq_false_iff_not, ne_eq, not_not] at h
    rw [Written.text, h]
  · rw [hline] at h
    cases h

/-- What is written for lines of which none counts as changed. -/
theorem texts_runLines_of_unchanged (h : (c.runLines name lines).report.changedLines = 0) :
    (c.runLines name lines).texts.reverse = lines := by
  induction lines using List.reverseRecOn with
  | nil => rfl
  | append_singleton lines raw ih =>
    obtain ⟨hlines, hraw⟩ := changedLines_runLines_concat.1 h
    rw [runLines_concat, step_eq, written_of_unchanged hraw, List.reverse_append, ih hlines]
    rfl

/-- Lines none of which counts as changed and after which no region is open are stable. -/
theorem stable_of_unchanged (h : (c.runLines name lines).report.changedLines = 0)
    (hmode : (c.runLines name lines).context.mode = .normal) :
    c.Stable (.start name) lines ∧
      (c.runLines name lines).context = lines.foldl Context.afterKept (.start name) := by
  induction lines using List.reverseRecOn with
  | nil => exact ⟨trivial, rfl⟩
  | append_singleton lines raw ih =>
    obtain ⟨hlines, hraw⟩ := changedLines_runLines_concat.1 h
    rw [runLines_concat, step_eq] at hmode ⊢
    have hbefore : (c.runLines name lines).context.mode = .normal := by
      cases hopen : (c.runLines name lines).context.mode with
      | normal => rfl
      | suppressing region =>
        -- the line would have had to leave the region, and a line that does is changed
        have hcode := (closes_of_mode_contextNext hopen hmode).1
        rw [written, Line.treatment_eq_suppressed.2 ⟨hcode, hopen⟩] at hraw
        cases hraw
    obtain ⟨hstable, hcontext⟩ := ih hlines hbefore
    have hkeeps := (keeps_iff hbefore).2 ⟨hraw, hmode⟩
    rw [List.foldl_concat, ← hcontext, contextNext_of_keeps hbefore hkeeps, stable_append,
      ← hcontext]
    exact ⟨⟨hstable, hkeeps, trivial⟩, rfl⟩

/-- No line of stable lines counts as changed, and no region is open behind them. -/
theorem unchanged_of_stable (h : c.Stable (.start name) lines) :
    (c.runLines name lines).report.changedLines = 0 ∧
      (c.runLines name lines).context.mode = .normal ∧
        (c.runLines name lines).context = lines.foldl Context.afterKept (.start name) := by
  induction lines using List.reverseRecOn with
  | nil => exact ⟨rfl, rfl, rfl⟩
  | append_singleton lines raw ih =>
    rw [stable_append] at h
    obtain ⟨hlines, hkeeps, -⟩ := h
    obtain ⟨hunchanged, hmode, hcontext⟩ := ih hlines
    rw [← hcontext] at hkeeps
    have hraw := (keeps_iff hmode).1 hkeeps
    refine ⟨changedLines_runLines_concat.2 ⟨hunchanged, hraw.1⟩, ?_, ?_⟩
    · rw [runLines_concat, step_eq]
      exact hraw.2
    · rw [runLines_concat, step_eq, List.foldl_concat, ← hcontext]
      exact contextNext_of_keeps hmode hkeeps

/-! ### Whole documents -/

theorem changedLines_finish : (c.finish run).report.changedLines = run.report.changedLines := by
  cases hmode : run.context.mode with
  | normal => rw [finish_of_normal hmode]
  | suppressing region => rw [finish_of_suppressing hmode]

/-- The texts of a conversion in which no line counts as changed: the lines themselves and, if a
region is still open at the end, the text that tells of it. -/
theorem texts_convert_of_unchanged (hremarks : c.showRemarks = true)
    (h : (c.convert ⟨name, lines⟩).report.changedLines = 0) :
    ∃ final, (c.convert ⟨name, lines⟩).texts = lines ++ final ∧
      (final = [] → (c.runLines name lines).context.mode = .normal) := by
  change (c.finish (c.runLines name lines)).report.changedLines = 0 at h
  rw [changedLines_finish] at h
  change ∃ final, (c.finish (c.runLines name lines)).texts.reverse = lines ++ final ∧ _
  cases hmode : (c.runLines name lines).context.mode with
  | normal =>
    rw [finish_of_normal hmode]
    exact ⟨[], by rw [texts_runLines_of_unchanged h, List.append_nil], fun _ => rfl⟩
  | suppressing region =>
    obtain ⟨text, htext, -⟩ :=
      FinishedLine.exists_render (isEmpty_remark_closingLine region)
    refine ⟨[text], ?_, by simp⟩
    rw [finish_of_suppressing hmode, hremarks, htext, List.reverse_append,
      texts_runLines_of_unchanged h]
    rfl

/-- The conversion of stable lines is these lines. -/
theorem convert_of_stable (h : c.Stable (.start name) lines) :
    (c.convert ⟨name, lines⟩).texts = lines ∧
      (c.convert ⟨name, lines⟩).report.changedLines = 0 := by
  obtain ⟨hunchanged, hmode, -⟩ := unchanged_of_stable h
  have hconvert : c.convert ⟨name, lines⟩ =
      ⟨(c.runLines name lines).texts.reverse, (c.runLines name lines).report⟩ := by
    rw [convert, finish_of_normal hmode]
  rw [hconvert]
  exact ⟨texts_runLines_of_unchanged hunchanged, hunchanged⟩

/-- The text of a conversion is read as its lines, which are cut at line feeds and lose a carriage
return at their end. -/
theorem ofText_text (name : Option String) (conversion : Conversion) :
    Document.ofText name conversion.text =
      ⟨name, (conversion.texts.flatMap (Text.cutAt '\n')).map Text.dropReturn⟩ := by
  rw [← Text.lines_unlines Text.not_mem_of_mem_flatMap_cutAt, Text.unlines_flatMap_cutAt]
  rfl

/-- The text of a conversion is read as its texts, if each of them is one line and trimmed. -/
theorem ofText_text_of_forall {texts : List (List Char)} (name : Option String) (report : Report)
    (hfeed : ∀ text ∈ texts, '\n' ∉ text) (htrim : ∀ text ∈ texts, Text.trimEnd text = text) :
    Document.ofText name (Conversion.text ⟨texts, report⟩) = ⟨name, texts⟩ := by
  have hmap : texts.map Text.dropReturn = texts := by
    conv_rhs => rw [← List.map_id texts]
    exact List.map_congr_left fun text htext => Text.dropReturn_eq_self (htrim text htext)
  rw [ofText_text, Text.flatMap_cutAt_of_not_mem hfeed, hmap]

/-- **A conversion is not converted any further** if each of its texts is one line that is left as it is
in every context. -/
theorem convert_text_eq_self_of_forall_keeps
    (h : ∀ text ∈ (c.convert ⟨name, lines⟩).texts, '\n' ∉ text ∧ ∀ ctx, c.Keeps ctx text) :
    let first := c.convert ⟨name, lines⟩
    let second := c.convert (.ofText name first.text)
    second.text = first.text ∧ second.report.changedLines = 0 := by
  intro first second
  have hdocument : Document.ofText name first.text = ⟨name, first.texts⟩ :=
    ofText_text_of_forall name first.report (fun text htext => (h text htext).1)
      fun text htext => ((h text htext).2 (.start name)).trimmed
  have hstable : c.Stable (.start name) first.texts :=
    stable_of_forall_keeps fun text htext => (h text htext).2
  obtain ⟨htexts, hunchanged⟩ := convert_of_stable hstable
  have hsecond : second = c.convert ⟨name, first.texts⟩ := congrArg c.convert hdocument
  rw [hsecond]
  exact ⟨by rw [Conversion.text, htexts, Conversion.text], hunchanged⟩

/-- **When conversion is idempotent.**  The conversion of what a conversion has written changes
nothing, and counts no line as changed, if and only if the lines written by the first are stable.
A text that holds a line feed is written as several lines. -/
theorem convert_text_eq_self_iff (rules : RuleSet) (name : Option String)
    (lines : List (List Char)) :
    let c : Converter := ⟨rules, true⟩
    let first := c.convert ⟨name, lines⟩
    let second := c.convert (.ofText name first.text)
    (second.text = first.text ∧ second.report.changedLines = 0) ↔
      c.Stable (.start name) (first.texts.flatMap (Text.cutAt '\n')) := by
  intro c first second
  have hsecond : second = c.convert ⟨name, _⟩ := congrArg c.convert (ofText_text name first)
  have htext : first.text = Text.unlines (first.texts.flatMap (Text.cutAt '\n')) :=
    (Text.unlines_flatMap_cutAt first.texts).symm
  have hfree : ∀ piece ∈ first.texts.flatMap (Text.cutAt '\n'), '\n' ∉ piece :=
    Text.not_mem_of_mem_flatMap_cutAt
  rw [hsecond, htext]
  generalize first.texts.flatMap (Text.cutAt '\n') = pieces at hfree
  constructor
  · rintro ⟨hsame, hunchanged⟩
    obtain ⟨final, hfinal, hnormal⟩ := texts_convert_of_unchanged rfl hunchanged
    rw [Conversion.text, hfinal] at hsame
    obtain ⟨hnone, hkept⟩ := Text.eq_of_unlines_eq hfree hsame
    rw [hkept] at hunchanged hnormal
    exact (stable_of_unchanged (changedLines_finish.symm.trans hunchanged) (hnormal hnone)).1
  · intro hstable
    have hkept : pieces.map Text.dropReturn = pieces := by
      conv_rhs => rw [← List.map_id pieces]
      exact List.map_congr_left fun piece hpiece =>
        Text.dropReturn_eq_self (hstable.trimmed piece hpiece)
    obtain ⟨htexts, hunchanged⟩ := convert_of_stable hstable
    rw [hkept]
    exact ⟨by rw [Conversion.text, htexts]; rfl, hunchanged⟩

/-- Conversion is not idempotent: to the second conversion, the subscript that the first has put in
the place of a call looks like a quoted identifier. -/
theorem convert_text_jsonArrayElement :
    let c : Converter := ⟨.standard, true⟩
    let text := "SELECT json_extract_array_element_text(tags, i) FROM t;\n".toList
    let first := c.convert (.ofText none text)
    let second := c.convert (.ofText none first.text)
    second.text ≠ first.text ∧ second.report.changedLines = 1 := by
  decide +kernel

end Converter

end SqlDialect
