import SqlDialect.Proofs.Document.Remark
import SqlDialect.Proofs.Document.Stable
import SqlDialect.Proofs.Rule.Discard
import SqlDialect.Proofs.Rule.Reworded

/-!
# Conversions that only rename

A conversion whose rules do no more than put words in the place of words is not converted any further
(`Converter.convert_text_eq_self_of_onlyRenames`), whichever of these rules it has.  It is asked of the
document that the code of each of its lines closes its quotes and quotes no identifiers: where a quote is
left open, the remark behind it is read as part of the literal, and what stands in brackets may lose them.

* `Converter.keeps_trimEnd`, `Converter.keeps_render` : when the text that is written for a line is left
  as it is, whatever the rules.
* `Converter.keeps_written` : so are all texts of such a conversion, in every context.
-/

namespace SqlDialect

/-- Only the last part of a text has white space at its end. -/
theorem Text.trimEnd_append_eq_iff {b : List Char} (hne : b ≠ []) (a : List Char) :
    trimEnd (a ++ b) = a ++ b ↔ trimEnd b = b := by
  rw [trimEnd_eq, trimEnd_eq, List.rdropWhile_eq_self_iff, List.rdropWhile_eq_self_iff]
  simp [hne, List.getLast_append_of_ne_nil]

namespace Line

/-! ### Lines without the white space at their end -/

variable (raw : List Char)

@[simp] theorem sourceCode_trimEnd : sourceCode (Text.trimEnd raw) = sourceCode raw := by
  rw [sourceCode, Text.trimEnd_trimEnd, sourceCode]

@[simp] theorem code_trimEnd : code (Text.trimEnd raw) = code raw := by
  rw [code, sourceCode_trimEnd, code]

@[simp] theorem holdsCode_trimEnd : holdsCode (Text.trimEnd raw) = holdsCode raw := by
  rw [holdsCode, Text.trimEnd_trimEnd, holdsCode]

/-- A comment goes on to the last visible character of the line. -/
theorem trimEnd_comment : Text.trimEnd (comment raw) = comment raw := by
  by_cases hne : comment raw = []
  · rw [hne]
    rfl
  · rw [← Text.trimEnd_append_eq_iff hne (sourceCode raw), sourceCode_append_comment,
      Text.trimEnd_trimEnd]

end Line

/-- The rules put words in the place of words, and each of them sees a line once. -/
structure RuleSet.OnlyRenames (rules : RuleSet) : Prop where
  once : ∀ rule ∈ rules.once, ∃ r ∈ WordMap.renamings, r.rule = rule
  repeated : rules.repeated = []

namespace RuleSet.OnlyRenames

variable {rules : RuleSet} {rule : Rule} {ctx ctx' : Context} {line : List Char}

theorem exists_renaming (h : rules.OnlyRenames) (hrule : rule ∈ rules.all) :
    ∃ r ∈ WordMap.renamings, r.rule = rule := by
  rw [RuleSet.all, h.repeated, List.append_nil] at hrule
  exact h.once rule hrule

/-- Whether a rule has an edit does not depend on the context. -/
theorem edit?_eq_none (h : rules.OnlyRenames) (hrule : rule ∈ rules.all)
    (hline : rule.edit? ctx line = none) : rule.edit? ctx' line = none := by
  obtain ⟨r, hr, rfl⟩ := h.exists_renaming hrule
  rw [WordMap.edit?_eq_none_iff hr] at hline ⊢
  exact hline

theorem regular (h : rules.OnlyRenames) : ∀ rule ∈ rules.all, rule.Regular := by
  intro rule hrule
  obtain ⟨r, hr, rfl⟩ := h.exists_renaming hrule
  exact RuleSet.standard_once_regular _ (WordMap.mem_standard_of_mem_renamings hr)

end RuleSet.OnlyRenames

/-- So do the rules of the catalogue if all others are disabled. -/
theorem RuleSet.onlyRenames_without {disabled : List String}
    (h : ∀ rule ∈ standard.all, isDisabled disabled rule = false →
      rule.id ∈ WordMap.renamings.map fun r => r.rule.id) : (without disabled).OnlyRenames where
  once rule hrule := by
    obtain ⟨hmem, henabled⟩ := List.mem_filter.1 hrule
    have hstandard : rule ∈ standard.all := List.mem_append_left _ hmem
    obtain ⟨r, hr, hid⟩ := List.mem_map.1 (h rule hstandard (by simpa using henabled))
    exact ⟨r, hr, eq_of_id_eq (List.mem_append_left _ (WordMap.mem_standard_of_mem_renamings hr))
      hstandard hid⟩
  repeated := by
    have hother : ∀ rule ∈ standard.repeated, rule.id ∉ WordMap.renamings.map fun r => r.rule.id := by
      decide
    refine List.filter_eq_nil_iff.2 fun rule hrule henabled => hother rule hrule ?_
    exact h rule (List.mem_append_right _ hrule) (by simpa using henabled)

/-! ### Remarks of words -/

theorem Written.Bears.not_mem_lineFeed {written : Written} {remark comment text : List Char}
    (h : written.Bears remark comment) (hsql : '\n' ∉ written.sql) (hremark : '\n' ∉ remark)
    (hcomment : '\n' ∉ comment) (htext : written.text true = some text) : '\n' ∉ text := by
  have hmarker : '\n' ∉ Remark.marker := by decide
  rw [Option.some.inj (htext.symm.trans h.text_true), FinishedLine.withComment_eq]
  split
  · simp [hsql, hmarker, hremark, hcomment]
  · simp [hsql, hmarker, hremark, hcomment]

namespace Remark.IsWords

variable {remark : Remark}

/-- A word does not end with white space, or with a semicolon. -/
theorem exists_eq_concat (h : remark.IsWords) {fragment : List Char} (hmem : fragment ∈ remark.fragments) :
    ∃ init c, fragment = init ++ [c] ∧ Text.isBlank c = false ∧ c ≠ ';' := by
  obtain ⟨hne, hword⟩ := h fragment hmem
  obtain ⟨init, c, rfl⟩ := (List.eq_nil_or_concat' fragment).resolve_left hne
  have hc : Text.isWordChar c = true := hword c (by simp)
  refine ⟨init, c, rfl, ?_, ?_⟩
  · rw [← Bool.not_eq_true]
    intro hblank
    rw [Text.isWordChar_of_isBlank hblank] at hc
    cases hc
  · rintro rfl
    exact absurd hc (by decide)

theorem endsStatement (h : remark.IsWords) : remark.endsStatement = false := by
  rw [Remark.endsStatement]
  cases hlast : remark.fragments.getLast? with
  | none => rfl
  | some fragment =>
    obtain ⟨init, c, rfl, hblank, hc⟩ := h.exists_eq_concat (List.mem_of_getLast? hlast)
    simp [Text.trimEnd_concat hblank, Text.endsWith, hc]

theorem text_spec (h : remark.IsWords) (hne : remark.isEmpty = false) :
    remark.text ≠ [] ∧ Text.trimEnd remark.text = remark.text ∧ '\n' ∉ remark.text := by
  obtain ⟨front, last, hfragments⟩ := (List.eq_nil_or_concat' remark.fragments).resolve_left fun hnil => by
    rw [Remark.isEmpty, hnil] at hne
    cases hne
  have hlast : last ∈ remark.fragments := by simp [hfragments]
  obtain ⟨init, c, rfl, hblank, -⟩ := h.exists_eq_concat hlast
  obtain ⟨before, htext⟩ := Text.isSuffix_joinWith Remark.separator front (init ++ [c])
  have htext : remark.text = before ++ (init ++ [c]) := by rw [Remark.text, hfragments, htext]
  refine ⟨by simp [htext], ?_, fun hmem => ?_⟩
  · rw [htext, ← List.append_assoc, Text.trimEnd_concat hblank]
  · rcases Literal.mem_joinWith hmem with hmem | ⟨fragment, hfragment, hmem⟩
    · exact absurd hmem (by decide)
    · exact absurd ((h fragment hfragment).2 _ hmem) (by decide)

end Remark.IsWords

/-- The code of a line of a document holds no comment, and is bare if it closes its quotes and
quotes no identifiers. -/
theorem Line.isBare_sourceCode {raw : List Char} (hfeed : '\n' ∉ raw)
    (hclosed : quoteBehind none (sourceCode raw) = none) (hbracket : '[' ∉ sourceCode raw)
    (hbacktick : Identifier.backtick ∉ sourceCode raw) : IsBare (sourceCode raw) where
  isCode := splitCommentFrom_code none (Text.trimEnd raw)
  isClosed := hclosed
  bracket := hbracket
  backtick := hbacktick
  lineFeed hmem := hfeed <| Text.trimEnd_subset raw <|
    sourceCode_append_comment raw ▸ List.mem_append_left _ hmem

namespace Converter

variable {c : Converter} {ctx : Context} {raw text : List Char}

/-! ### Lines that are left alone -/

/-- A line that came through unchanged is left as it is. -/
theorem keeps_trimEnd (hcode : Line.holdsCode raw = true → Line.code raw = Line.sourceCode raw ∧
      ∀ rule ∈ c.rules.all, rule.edit? ctx.advance (Line.code raw) = none) :
    c.Keeps ctx (Text.trimEnd raw) where
  trimmed := Text.trimEnd_trimEnd raw
  unquoted h := by
    rw [Line.holdsCode_trimEnd] at h
    simpa using (hcode h).1
  settled h := by
    rw [Line.holdsCode_trimEnd] at h
    simpa using .inl (hcode h).2

/-- A line with a remark is left as it is, if its SQL is bare and no rule has an edit for it. -/
theorem keeps_render {line : FinishedLine} (hremark : line.remark.isEmpty = false)
    (hsql : Line.IsBare line.statement) (hne : line.remark.text ≠ [])
    (htrim : Text.trimEnd line.remark.text = line.remark.text)
    (hcomment : Text.trimEnd line.comment = line.comment)
    (hnone : ∀ rule ∈ c.rules.all, rule.edit? ctx.advance (line.statement ++ ['\t', '\t']) = none)
    (htext : line.render true = some text) : c.Keeps ctx text := by
  obtain ⟨tail, htail, htext⟩ : ∃ tail, Text.trimEnd (line.remark.text ++ tail) =
      line.remark.text ++ tail ∧
        text = line.statement ++ (Remark.marker ++ (line.remark.text ++ tail)) := by
    have hmarked := Option.some.inj (htext.symm.trans (FinishedLine.bears hremark).text_true)
    rw [FinishedLine.withComment_eq] at hmarked
    by_cases hnil : line.comment = []
    · refine ⟨[], by rw [List.append_nil, htrim], ?_⟩
      rw [hmarked, hnil]
      simp [Written.sql]
    · refine ⟨' ' :: line.comment, ?_, ?_⟩
      · rw [Text.trimEnd_append_eq_iff (List.cons_ne_nil _ _), ← List.singleton_append,
          Text.trimEnd_append_eq_iff hnil, hcomment]
      · rw [hmarked, if_neg (by simp [hne, hnil])]
        simp [Written.sql]
  have hmore : line.remark.text ++ tail ≠ [] := by simp [hne]
  have htrimmed : Text.trimEnd text = text := by
    rw [htext, ← List.append_assoc, Text.trimEnd_append_eq_iff hmore, htail]
  have hsplit : Line.splitComment (Text.trimEnd text) = _ :=
    (congrArg Line.splitComment (htrimmed.trans htext)).trans (hsql.append_marker _)
  have hsource : Line.sourceCode text = line.statement ++ ['\t', '\t'] := congrArg Prod.fst hsplit
  have hcode : Line.code text = line.statement ++ ['\t', '\t'] := by
    rw [Line.code, hsource]
    exact hsql.unquote_append Line.isBlank_of_mem_tabs
  exact ⟨htrimmed, fun _ => hcode.trans hsource.symm, fun _ => .inl (by rwa [hcode])⟩

/-! ### Rules that only rename -/

open WordMap

theorem applyRules_of_repeated_eq_nil (h : c.rules.repeated = []) (ctx : Context) (code : List Char)
    (remark : Remark) : (c.applyRules ctx code remark).1 = c.oncePass ctx code remark := by
  have hrun : c.repetition ctx code remark =
      ⟨(c.oncePass ctx code remark).line, (c.oncePass ctx code remark).remark, [], 0, true⟩ := by
    rw [repetition, h]
    rfl
  rw [applyRules_eq_ite, hrun]
  split
  · rw [List.append_nil]
  · rfl

/-- What the pass of bare code leaves: bare code with no name left in it, and words in the remark. -/
theorem pass_of_onlyRenames (hrules : c.rules.OnlyRenames)
    (hbare : Line.IsBare (Line.sourceCode raw)) (ctx : Context) :
    Line.code raw = Line.sourceCode raw ∧ Line.IsBare (c.pass ctx raw).line ∧
      (c.pass ctx raw).remark.IsWords ∧ (c.pass ctx raw).control = .proceed ∧
      ∀ rule ∈ c.rules.all, rule.edit? ctx.advance (c.pass ctx raw).line = none := by
  have hcode : Line.code raw = Line.sourceCode raw := by
    have hnone : ∀ c ∈ ([] : List Char), Text.isBlank c = true := by simp
    have hunquote := hbare.unquote_append hnone
    rwa [List.append_nil] at hunquote
  let start : Pass := ⟨Line.sourceCode raw, .empty, [], .proceed, false⟩
  have hpass : c.pass ctx raw = Pass.run ctx.advance start c.rules.once := by
    rw [pass, applyRules_of_repeated_eq_nil hrules.repeated, hcode, unquotingNote, if_pos rfl]
    rfl
  have hline : Line.IsBare start.line := hbare
  have hremark : start.remark.IsWords := by simp [Remark.IsWords, start, Remark.empty]
  obtain ⟨hline, hremark, hcontrol, hnone, -⟩ := run_renamings hrules.once hline hremark rfl
  rw [hpass, RuleSet.all, hrules.repeated, List.append_nil]
  exact ⟨hcode, hline, hremark, hcontrol, hnone⟩

/-- No line opens a region. -/
theorem mode_contextNext_of_onlyRenames (hrules : c.rules.OnlyRenames) (hmode : ctx.mode = .normal)
    (hraw : Line.holdsCode raw = true → Line.IsBare (Line.sourceCode raw)) :
    (c.contextNext ctx raw).mode = .normal := by
  cases htreat : Line.treatment ctx raw with
  | quiet => rw [contextNext, htreat, Context.mode_advance, hmode]
  | suppressed region =>
    rw [(Line.treatment_eq_suppressed.1 htreat).2] at hmode
    cases hmode
  | ruled =>
    have hbare := hraw (Line.treatment_eq_ruled.1 htreat).1
    rw [mode_contextNext_of_ruled htreat, (pass_of_onlyRenames hrules hbare ctx).2.2.2.1]
    intro terminator hcontrol
    cases hcontrol

/-- The SQL that is written is bare, and no rule has an edit for it in any context. -/
theorem statement_of_onlyRenames (hrules : c.rules.OnlyRenames)
    (hbare : Line.IsBare (Line.sourceCode raw)) (ctx : Context) :
    Line.IsBare (c.ruledLine ctx raw).statement ∧ ∀ rule ∈ c.rules.all, ∀ ctx',
      rule.edit? ctx' ((c.ruledLine ctx raw).statement ++ ['\t', '\t']) = none := by
  obtain ⟨-, hline, hremark, -, hnone⟩ := pass_of_onlyRenames hrules hbare ctx
  have hstatement : (c.ruledLine ctx raw).statement = Text.trimEnd ((c.emitted ctx raw).getD []) := by
    rw [FinishedLine.statement, ruledLine, hremark.endsStatement, Bool.and_false, Bool.false_and]
    rfl
  rw [hstatement, emitted]
  split
  · refine ⟨Line.isBare_nil, fun rule hrule ctx' => ?_⟩
    obtain ⟨r, hr, rfl⟩ := hrules.exists_renaming hrule
    have hnil : r.rule.edit? ctx' [] = none := by
      rw [edit?_eq_none_iff hr]
      intro token htoken
      cases htoken
    exact edit?_trimEnd_append hr Line.isBlank_of_mem_tabs hnil ctx'
  · refine ⟨hline.trimEnd, fun rule hrule ctx' => ?_⟩
    obtain ⟨r, hr, rfl⟩ := hrules.exists_renaming hrule
    exact edit?_trimEnd_append hr Line.isBlank_of_mem_tabs (hnone _ hrule) ctx'

/-- What such a conversion writes for a line is one line that is left as it is in every context. -/
theorem keeps_written (hrules : c.rules.OnlyRenames) (hmode : ctx.mode = .normal) (hfeed : '\n' ∉ raw)
    (hraw : Line.holdsCode raw = true → Line.IsBare (Line.sourceCode raw))
    (htext : (c.written ctx raw).text true = some text) :
    '\n' ∉ text ∧ ∀ ctx', c.Keeps ctx' text := by
  have htrimmed : '\n' ∉ Text.trimEnd raw := fun hmem => hfeed (Text.trimEnd_subset raw hmem)
  cases htreat : Line.treatment ctx raw with
  | quiet =>
    rw [written, htreat] at htext
    obtain rfl := Option.some.inj htext
    have hcode := Line.treatment_eq_quiet.1 htreat
    exact ⟨htrimmed, fun ctx' => keeps_trimEnd (by simp [hcode])⟩
  | suppressed region =>
    rw [(Line.treatment_eq_suppressed.1 htreat).2] at hmode
    cases hmode
  | ruled =>
    have hholds := (Line.treatment_eq_ruled.1 htreat).1
    have hbare := hraw hholds
    obtain ⟨hcode, -, hwords, -, hnone⟩ := pass_of_onlyRenames hrules hbare ctx
    cases hleaves : c.leaves ctx raw with
    | true =>
      rw [written_eq_asItCame hholds hmode hleaves] at htext
      obtain rfl := Option.some.inj htext
      -- the rules have given the code back, and have no edit for what they give back
      have hline : (c.pass ctx raw).line = Line.code raw := by
        rcases (leaves_iff.1 hleaves).2 with hunchanged | ⟨-, hline⟩
        · exact line_applyRules_of_hits (hits_applyRules_eq_nil_iff.2 hunchanged)
        · exact hline
      rw [hline] at hnone
      exact ⟨htrimmed, fun ctx' => keeps_trimEnd fun _ =>
        ⟨hcode, fun rule hrule => hrules.edit?_eq_none hrule (hnone rule hrule)⟩⟩
    | false =>
      rw [written_eq_ruledLine hholds hmode hleaves] at htext
      obtain ⟨hstatement, hsettled⟩ := statement_of_onlyRenames hrules hbare ctx
      have hmarked := isEmpty_remark_ruledLine hrules.regular hholds hleaves
      obtain ⟨hne, htrim, hwordsFeed⟩ := hwords.text_spec hmarked
      refine ⟨?_, fun ctx' => keeps_render hmarked hstatement hne htrim (Line.trimEnd_comment raw)
        (fun rule hrule => hsettled rule hrule _) htext⟩
      have hcomment : '\n' ∉ (c.ruledLine ctx raw).comment := fun hmem => htrimmed
        (Line.sourceCode_append_comment raw ▸ List.mem_append_right _ hmem)
      exact (FinishedLine.bears hmarked).not_mem_lineFeed hstatement.lineFeed hwordsFeed hcomment htext

/-! ### Documents -/

variable {lines : List (List Char)}

/-- Every line of a document meets a context outside all regions. -/
theorem exists_of_mem_account (hrules : c.rules.OnlyRenames) (hmode : ctx.mode = .normal)
    (hlines : ∀ raw ∈ lines, Line.holdsCode raw = true → Line.IsBare (Line.sourceCode raw)) :
    (c.contextBehind ctx lines).mode = .normal ∧ ∀ entry ∈ c.account ctx lines,
      ∃ ctx' raw, ctx'.mode = .normal ∧ raw ∈ lines ∧ entry = c.written ctx' raw := by
  induction lines generalizing ctx with
  | nil => exact ⟨hmode, nofun⟩
  | cons raw lines ih =>
    rw [List.forall_mem_cons] at hlines
    obtain ⟨hbehind, hentries⟩ :=
      ih (mode_contextNext_of_onlyRenames hrules hmode hlines.1) hlines.2
    refine ⟨hbehind, fun entry hentry => ?_⟩
    rcases List.mem_cons.1 hentry with rfl | hentry
    · exact ⟨ctx, raw, hmode, List.mem_cons_self, rfl⟩
    · obtain ⟨ctx', raw', hmode', hraw', rfl⟩ := hentries entry hentry
      exact ⟨ctx', raw', hmode', List.mem_cons_of_mem _ hraw', rfl⟩

/-- **A conversion that only renames is not converted any further.**  Its rules are any of the renamings,
and the code of each line closes its quotes and quotes no identifiers.  Then the conversion of what
has been written changes nothing, and counts no line as changed. -/
theorem convert_text_eq_self_of_onlyRenames {rules : RuleSet} (hrules : rules.OnlyRenames)
    (name : Option String) (hlines : ∀ raw ∈ lines, '\n' ∉ raw ∧ (Line.holdsCode raw = true →
      Line.quoteBehind none (Line.sourceCode raw) = none ∧ '[' ∉ Line.sourceCode raw ∧
        Identifier.backtick ∉ Line.sourceCode raw)) :
    let c : Converter := ⟨rules, true⟩
    let first := c.convert ⟨name, lines⟩
    let second := c.convert (.ofText name first.text)
    second.text = first.text ∧ second.report.changedLines = 0 := by
  intro c
  have hcode : ∀ raw ∈ lines, Line.holdsCode raw = true → Line.IsBare (Line.sourceCode raw) := by
    intro raw hraw hholds
    obtain ⟨hfeed, hquoting⟩ := hlines raw hraw
    obtain ⟨hclosed, hbracket, hbacktick⟩ := hquoting hholds
    exact Line.isBare_sourceCode hfeed hclosed hbracket hbacktick
  have hstart : (Context.start name).mode = .normal := rfl
  have hc : c.rules.OnlyRenames := hrules
  obtain ⟨hmode, hentries⟩ := exists_of_mem_account hc hstart hcode
  refine convert_text_eq_self_of_forall_keeps fun text htext => ?_
  have hclosing : closing (c.contextBehind (.start name) lines) = [] := by rw [closing, hmode]
  rw [texts_convert, entries, hclosing, List.append_nil] at htext
  obtain ⟨entry, hentry, htext⟩ := List.mem_filterMap.1 htext
  obtain ⟨ctx, raw, hnormal, hraw, rfl⟩ := hentries entry hentry
  exact keeps_written hc hnormal (hlines raw hraw).1 (hcode raw hraw) htext

/-- Quotes may stand anywhere on the line if they are closed, and brackets in the comment. -/
example :
    let code := Line.sourceCode "  \"the 'id'\" BIGINT DEFAULT '--', -- [key".toList
    Line.quoteBehind none code = none ∧ '[' ∉ code ∧ Identifier.backtick ∉ code := by
  decide +kernel

end Converter

end SqlDialect
