import Mathlib.Data.List.Forall2
import SqlDialect.Proofs.Document.Suppression

/-!
# Every line is written, and every change is marked

* `FinishedLine.exists_render` : with remarks, a finished line with something in its remark is
  written and bears the marker.
* `Converter.exists_text_written` : what is written for a line is the line itself, without the white
  space at its end, or bears the marker.
* `Converter.forall₂_texts_runLines` : a run writes one such text for each line, in order.
* `Converter.completeness_convert` : **no line is lost and no change is hidden**, for every document
  and every choice of rules of the catalogue.
-/

namespace SqlDialect

/-- With remarks, a finished line with something in its remark is written and bears the marker. -/
theorem FinishedLine.exists_render {line : FinishedLine} (h : line.remark.isEmpty = false) :
    ∃ text, line.render true = some text ∧ Remark.marker <:+: text := by
  have hcommented : line.commented true =
      line.statement ++ Remark.marker ++ line.remark.text := by
    rw [commented, h]; rfl
  have hmarker : Remark.marker <:+: withComment (line.commented true) line.comment := by
    refine List.IsInfix.trans ?_ (isPrefix_withComment _ _).isInfix
    rw [hcommented]
    exact ⟨_, _, rfl⟩
  have hne : withComment (line.commented true) line.comment ≠ [] := by
    intro hnil
    rw [hnil, List.infix_nil] at hmarker
    cases hmarker
  exact ⟨_, by rw [render_eq, if_neg (by simpa using hne)], hmarker⟩

namespace Converter

variable {c : Converter} {ctx : Context} {raw : List Char} {region : Region}

/-! ### Remarks with something in them -/

theorem isEmpty_ofFragments_singleton {fragment : List Char} (h : fragment ≠ []) :
    (Remark.ofFragments [fragment]).isEmpty = false :=
  Remark.isEmpty_push_of_ne_nil h

theorem joinWith_ne_nil {separator piece : List Char} {pieces : List (List Char)}
    (h : piece ≠ []) : Text.joinWith separator (piece :: pieces) ≠ [] := by
  cases pieces with
  | nil => exact h
  | cons next rest => simp [Text.joinWith, h]

theorem ne_nil_of_mem_quotedIn {line quoted : List Char} (h : quoted ∈ Identifier.quotedIn line) :
    quoted ≠ [] := by
  obtain ⟨piece, -, hpiece⟩ := List.mem_flatMap.1 h
  obtain ⟨m, hm, rfl⟩ := List.mem_map.1 hpiece
  exact Line.ne_nil_of_isBlank_eq_false
    (Rule.visible_text (by decide) (Pattern.matches_of_mem_matchesIn hm).1)

/-- The removal of identifier quotes leaves something in the remark. -/
theorem isEmpty_unquotingNote {sourceCode code : List Char} (hcode : code ≠ sourceCode)
    (hvisible : Line.isBlank sourceCode = false) :
    (unquotingNote sourceCode code).isEmpty = false := by
  rw [unquotingNote, if_neg hcode]
  split
  · refine isEmpty_ofFragments_singleton (Line.ne_nil_of_isBlank_eq_false ?_)
    rw [Line.isBlank_trim, hvisible]
  · rename_i quoted hquoted
    cases hlist : Identifier.quotedIn sourceCode with
    | nil => exact absurd hlist hquoted
    | cons first rest =>
      have hfirst : first ≠ [] := ne_nil_of_mem_quotedIn (by rw [hlist]; exact List.mem_cons_self)
      exact isEmpty_ofFragments_singleton (joinWith_ne_nil hfirst)

theorem isEmpty_remark_suppressedLine (region : Region) (h : Line.holdsCode raw = true) :
    (suppressedLine region raw).remark.isEmpty = false := by
  refine isEmpty_ofFragments_singleton (Line.ne_nil_of_isBlank_eq_false ?_)
  rw [Line.isBlank_trim, Line.isBlank_sourceCode h]

/-- A line of code that is not left as it is has something in its remark. -/
theorem isEmpty_remark_ruledLine (regular : ∀ rule ∈ c.rules.all, rule.Regular)
    (h : Line.holdsCode raw = true) (hleaves : c.leaves ctx raw = false) :
    (c.ruledLine ctx raw).remark.isEmpty = false := by
  refine isEmpty_remark_applyRules regular ?_
  by_cases hcode : Line.code raw = Line.sourceCode raw
  · -- the identifiers are as they were, so a rule has changed the line
    left
    intro hhits
    change (c.pass ctx raw).hits = [] at hhits
    simp [leaves, hcode, hhits] at hleaves
  · right
    exact isEmpty_unquotingNote hcode (Line.isBlank_sourceCode h)

/-! ### One text for each line -/

/-- The text is the line without the white space at its end, or it bears the marker. -/
def IsAccount (raw text : List Char) : Prop :=
  text = Text.trimEnd raw ∨ Remark.marker <:+: text

/-- With remarks, a line is always written: as it came, or with the marker. -/
theorem exists_text_written (regular : ∀ rule ∈ c.rules.all, rule.Regular) (ctx : Context)
    (raw : List Char) :
    ∃ text, (c.written ctx raw).text true = some text ∧ IsAccount raw text := by
  rw [written]
  cases htreat : Line.treatment ctx raw with
  | quiet => exact ⟨_, rfl, .inl rfl⟩
  | suppressed region =>
    have hcode := (Line.treatment_eq_suppressed.1 htreat).1
    obtain ⟨text, htext, hmarker⟩ :=
      FinishedLine.exists_render (isEmpty_remark_suppressedLine region hcode)
    exact ⟨text, htext, .inr hmarker⟩
  | ruled =>
    have hcode := (Line.treatment_eq_ruled.1 htreat).1
    cases hleaves : c.leaves ctx raw with
    | true => exact ⟨_, rfl, .inl rfl⟩
    | false =>
      obtain ⟨text, htext, hmarker⟩ :=
        FinishedLine.exists_render (isEmpty_remark_ruledLine regular hcode hleaves)
      exact ⟨text, htext, .inr hmarker⟩

theorem exists_texts_step (regular : ∀ rule ∈ c.rules.all, rule.Regular)
    (hremarks : c.showRemarks = true) (run : Run) (raw : List Char) :
    ∃ text, (c.step run raw).texts = text :: run.texts ∧ IsAccount raw text := by
  obtain ⟨text, htext, haccount⟩ := exists_text_written regular run.context raw
  refine ⟨text, ?_, haccount⟩
  rw [step_eq, hremarks, htext]
  rfl

/-- A run writes one text for each line, in order. -/
theorem forall₂_texts_runLines (regular : ∀ rule ∈ c.rules.all, rule.Regular)
    (hremarks : c.showRemarks = true) (name : Option String) (lines : List (List Char)) :
    List.Forall₂ IsAccount lines (c.runLines name lines).texts.reverse := by
  induction lines using List.reverseRecOn with
  | nil => exact .nil
  | append_singleton lines raw ih =>
    obtain ⟨text, htext, haccount⟩ :=
      exists_texts_step regular hremarks (c.runLines name lines) raw
    rw [runLines_concat, htext, List.reverse_cons]
    exact List.rel_append ih (.cons haccount .nil)

/-- What has been written stays. -/
theorem texts_runLines_append (name : Option String) (before after : List (List Char)) :
    (c.runLines name before).texts.reverse <+:
      (c.runLines name (before ++ after)).texts.reverse := by
  induction after using List.reverseRecOn with
  | nil => simp
  | append_singleton after raw ih =>
    rw [← List.append_assoc, runLines_concat, step_eq, List.reverse_append]
    exact ih.trans (List.prefix_append _ _)

theorem lines_runLines (name : Option String) (lines : List (List Char)) :
    (c.runLines name lines).report.lines = lines.length := by
  induction lines using List.reverseRecOn with
  | nil => rfl
  | append_singleton lines raw ih =>
    rw [runLines_concat, step_eq, List.length_append]
    exact congrArg (· + 1) ih

theorem isEmpty_remark_closingLine (region : Region) :
    (closingLine region).remark.isEmpty = false :=
  isEmpty_ofFragments_singleton (by simp)

/-- The end of the document writes one more text if and only if it closes a region. -/
theorem exists_texts_finish {run : Run} (h : run.Balanced) (hremarks : c.showRemarks = true) :
    ∃ final : List (List Char), (c.finish run).texts.reverse = run.texts.reverse ++ final ∧
      final.length = (c.finish run).report.forcedCloses := by
  rw [(report_finish h).2]
  cases hmode : run.context.mode with
  | normal =>
    rw [finish_of_normal hmode, Context.isSuppressing_of_normal hmode]
    exact ⟨[], by simp⟩
  | suppressing region =>
    obtain ⟨text, htext, -⟩ := FinishedLine.exists_render (isEmpty_remark_closingLine region)
    rw [finish_of_suppressing hmode, Context.isSuppressing_of_suppressing hmode, hremarks, htext]
    exact ⟨[text], by simp⟩

theorem lines_finish {run : Run} : (c.finish run).report.lines = run.report.lines := by
  cases hmode : run.context.mode with
  | normal => rw [finish_of_normal hmode]
  | suppressing region => rw [finish_of_suppressing hmode]

/-- **No line is lost and no change is hidden.**  With remarks, the conversion of a document writes
one text for each of its lines, in their order, and one more exactly if a region is closed by force;
the text for a line is the line without the white space at its end, or bears the marker.  A
conversion from a stream that succeeds writes just these texts. -/
theorem completeness_convert (disabled : List String) (name : Option String)
    (lines : List (List Char)) :
    let c : Converter := ⟨.without disabled, true⟩
    let conversion := c.convert ⟨name, lines⟩
    (∃ own final, conversion.texts = own ++ final ∧
      List.Forall₂ (fun raw text => text = Text.trimEnd raw ∨ Remark.marker <:+: text) lines own ∧
      (∀ n ≤ lines.length, (c.runLines name (lines.take n)).texts.reverse = own.take n) ∧
      final.length = conversion.report.forcedCloses) ∧
    conversion.report.forcedCloses ≤ 1 ∧
    conversion.report.lines = lines.length ∧
    conversion.texts.length = conversion.report.lines + conversion.report.forcedCloses ∧
    ∀ octets sink report, (c.transcribe name octets sink).result = .ok report →
      (c.transcribe name octets sink).written = (c.convert (.ofStream name octets)).text ∧
      report = (c.convert (.ofStream name octets)).report := by
  intro c conversion
  have regular : ∀ rule ∈ c.rules.all, rule.Regular := fun _ => RuleSet.regular_of_mem_without
  have balanced := balanced_runLines regular name lines
  have own := forall₂_texts_runLines regular rfl name lines
  obtain ⟨final, htexts, hfinal⟩ := exists_texts_finish balanced (c := c) rfl
  have hlines : conversion.report.lines = lines.length :=
    lines_finish.trans (lines_runLines name lines)
  refine ⟨⟨_, final, htexts, own, ?_, hfinal⟩, ?_, hlines, ?_, fun _ _ _ h => transcribe_eq h⟩
  · intro n hn
    have hprefix := texts_runLines_append (c := c) name (lines.take n) (lines.drop n)
    rw [List.take_append_drop] at hprefix
    have hlength := (forall₂_texts_runLines regular rfl name (lines.take n)).length_eq
    rw [List.length_take_of_le hn] at hlength
    have htake := List.prefix_iff_eq_take.1 hprefix
    rwa [← hlength] at htake
  · have hforced := (report_finish balanced (c := c)).2
    change (c.finish (c.runLines name lines)).report.forcedCloses ≤ 1
    rw [hforced]
    split <;> decide
  · change (c.finish (c.runLines name lines)).texts.reverse.length = _
    rw [htexts, List.length_append, hfinal, hlines, ← own.length_eq]
    rfl

end Converter

end SqlDialect
