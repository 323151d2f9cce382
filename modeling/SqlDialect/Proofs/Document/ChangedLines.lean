import SqlDialect.Proofs.Document.Completeness
import SqlDialect.Proofs.Document.Remark
import SqlDialect.Proofs.Document.Stable
import SqlDialect.Proofs.Document.StatementEnd

/-!
# What the count of changed lines counts

A line counts as changed if it is finished in another form, whatever the text of that form turns
out to be.  If the text is the line itself, the line is counted although nothing is different.

* `Converter.differing`, `Converter.echoing` : the number of lines whose text is not the line, and
  of lines that are finished and come out as they were.
* `Converter.changedLines_tally` : the count is the sum of the two.
* `FinishedLine.render_false_iff`, `FinishedLine.commentMark_isInfix_sourceCode` : which lines come
  out as they were, without remarks and with them.
* `Converter.changedLines_convert` : **what is counted**, for every document.
-/

namespace SqlDialect

namespace Line

/-- No white space stands at the end of the line, and just one space before its comment. -/
def IsTidy (raw : List Char) : Prop :=
  raw = FinishedLine.withComment (Text.trimEnd (sourceCode raw)) (comment raw)

instance (raw : List Char) : Decidable (IsTidy raw) :=
  inferInstanceAs (Decidable (raw = _))

variable {raw text : List Char}

/-- Behind a comment stands no white space. -/
theorem trimEnd_append_comment (front : List Char) (h : comment raw ≠ []) :
    Text.trimEnd (front ++ comment raw) = front ++ comment raw := by
  obtain ⟨rest, hrest⟩ : commentMark <+: comment raw := mark_isPrefix_of_splitComment h
  have hcomment : comment raw = '-' :: ('-' :: rest) := hrest.symm
  have hvisible : Text.isBlank '-' = false := by decide
  have htrimmed : Text.trimEnd ('-' :: rest) = '-' :: rest := by
    have hraw := Text.trimEnd_trimEnd raw
    rw [← sourceCode_append_comment raw, hcomment, Text.trimEnd_append_cons hvisible,
      List.append_cancel_left_eq] at hraw
    exact (List.cons.inj hraw).2
  rw [hcomment, Text.trimEnd_append_cons hvisible, htrimmed]

/-- A line that is put together from a text and its own comment has that text for its code. -/
theorem trimEnd_sourceCode_of_withComment
    (h : FinishedLine.withComment text (comment raw) = raw) :
    Text.trimEnd (sourceCode raw) = Text.trimEnd text := by
  have hsplit := sourceCode_append_comment raw
  by_cases hcomment : comment raw = []
  · rw [hcomment, List.append_nil] at hsplit
    rw [hcomment, FinishedLine.withComment, List.isEmpty_nil, if_pos rfl] at h
    rw [hsplit, Text.trimEnd_trimEnd, h]
  · obtain ⟨blanks, hblanks, hraw⟩ : ∃ blanks : List Char,
        (∀ c ∈ blanks, Text.isBlank c = true) ∧ raw = text ++ blanks ++ comment raw := by
      rw [FinishedLine.withComment_eq] at h
      split at h
      · exact ⟨[], by simp, by rw [List.append_nil, h]⟩
      · exact ⟨[' '], List.all_eq_true.1 (by decide), by rw [List.append_assoc]; exact h.symm⟩
    have htrimmed : Text.trimEnd raw = raw := by
      rw [hraw]
      exact trimEnd_append_comment _ hcomment
    rw [htrimmed] at hsplit
    rw [List.append_cancel_right (hsplit.trans hraw), Text.trimEnd_append_blank hblanks]

end Line

/-! ### Finished lines that come out as they were -/

namespace FinishedLine

variable {line : FinishedLine} {raw : List Char}

theorem trimEnd_statement (line : FinishedLine) :
    Text.trimEnd line.statement = line.statement := by
  rw [statement]
  split
  · exact Text.trimEnd_concat (by decide)
  · exact Text.trimEnd_trimEnd _

/-- Without remarks, the text of a line is the line itself if and only if its SQL is its code and
the line is tidy. -/
theorem render_false_iff (hcode : Line.holdsCode raw = true)
    (hcomment : line.comment = Line.comment raw) :
    line.render false = some raw ↔
      line.statement = Text.trimEnd (Line.sourceCode raw) ∧ Line.IsTidy raw := by
  constructor
  · intro h
    have hraw := (render_eq_some h).symm
    rw [hcomment, commented_false] at hraw
    have hsql := Line.trimEnd_sourceCode_of_withComment hraw
    rw [trimEnd_statement] at hsql
    exact ⟨hsql.symm, by rw [Line.IsTidy, hsql, hraw]⟩
  · rintro ⟨hsql, htidy⟩
    have htext : withComment (line.commented false) line.comment = raw := by
      rw [hcomment, commented_false, hsql]
      exact htidy.symm
    have hne : raw ≠ [] := by
      rintro rfl
      exact absurd hcode (by decide)
    rw [render_eq, htext, if_neg (by simpa using hne)]

/-- With remarks, the text of a line with something in its remark is the line itself only if the
line hides a comment mark in its quotes. -/
theorem commentMark_isInfix_sourceCode (hremark : line.remark.isEmpty = false)
    (hcomment : line.comment = Line.comment raw) (h : line.render true = some raw) :
    Line.commentMark <:+: Line.sourceCode raw := by
  have hraw := (render_eq_some h).symm
  rw [hcomment] at hraw
  have htrim := Line.trimEnd_sourceCode_of_withComment hraw
  -- the second hyphen of the marker is visible, so it is not trimmed away
  have hmarked : line.commented true =
      (line.statement ++ ['\t', '\t', '-']) ++ '-' :: ("// ".toList ++ line.remark.text) := by
    rw [commented_true, markedRemark, hremark, List.append_assoc]
    rfl
  rw [hmarked, Text.trimEnd_append_cons (by decide)] at htrim
  have hprefix : Text.trimEnd (Line.sourceCode raw) <+: Line.sourceCode raw :=
    List.rdropWhile_prefix _ _
  refine List.IsInfix.trans ?_ hprefix.isInfix
  rw [htrim]
  exact ⟨line.statement ++ ['\t', '\t'], Text.trimEnd ("// ".toList ++ line.remark.text),
    by simp [Line.commentMark]⟩

end FinishedLine

/-- Whether the line is finished and comes out as it was. -/
def Written.echoes (showRemarks : Bool) (raw : List Char) : Written → Bool
  | asItCame _ => false
  | finished line => decide (line.render showRemarks = some raw)

namespace Converter

/-- The line is finished and comes out as it was. -/
def Echoes (c : Converter) (ctx : Context) (raw : List Char) : Prop :=
  (c.written ctx raw).echoes c.showRemarks raw = true

/-- The line is finished, and its SQL is its code: it is nothing but the semicolon that ends a
discarded clause, or it goes through the rules and they give its code back. -/
def GivesBack (c : Converter) (ctx : Context) (raw : List Char) : Prop :=
  match Line.treatment ctx raw with
  | .quiet => False
  | .suppressed region =>
    closes region raw = true ∧ region.scope = .clause ∧ Text.trimEnd (Line.sourceCode raw) = [';']
  | .ruled =>
    c.leaves ctx raw = false ∧ (c.ruledLine ctx raw).statement = Text.trimEnd (Line.sourceCode raw)

variable {c : Converter} {ctx : Context} {raw : List Char} {region : Region}

theorem statement_suppressedLine_eq_iff (hcode : Line.holdsCode raw = true) :
    (suppressedLine region raw).statement = Text.trimEnd (Line.sourceCode raw) ↔
      closes region raw = true ∧ region.scope = .clause ∧
        Text.trimEnd (Line.sourceCode raw) = [';'] := by
  constructor
  · intro h
    rcases statement_suppressedLine region raw with hnil | ⟨hsemicolon, hcloses, hscope⟩
    · rw [hnil] at h
      have hblank := Line.trimEnd_eq_nil_iff.1 h.symm
      rw [Line.isBlank_sourceCode hcode] at hblank
      cases hblank
    · exact ⟨hcloses, hscope, by rw [← h, hsemicolon]⟩
  · rintro ⟨hcloses, hscope, hsemicolon⟩
    rw [FinishedLine.statement, endsStatement_suppressedLine hcode, hsemicolon]
    simp [suppressedLine, hcloses, hscope, Text.endsWith, Text.trimEnd, Text.dropEndWhile]

/-- Without remarks, the lines that are finished and come out as they were are the tidy ones whose
code is given back. -/
theorem echoes_iff_of_hidden (hremarks : c.showRemarks = false) :
    c.Echoes ctx raw ↔ c.GivesBack ctx raw ∧ Line.IsTidy raw := by
  rw [Echoes, GivesBack, written, hremarks]
  cases htreat : Line.treatment ctx raw with
  | quiet => simp [Written.echoes]
  | suppressed region =>
    have hcode := (Line.treatment_eq_suppressed.1 htreat).1
    simp only [Written.echoes, decide_eq_true_eq]
    rw [FinishedLine.render_false_iff hcode rfl, statement_suppressedLine_eq_iff hcode]
  | ruled =>
    have hcode := (Line.treatment_eq_ruled.1 htreat).1
    cases hleaves : c.leaves ctx raw with
    | true => simp [Written.echoes]
    | false =>
      simp only [Written.echoes, decide_eq_true_eq, Bool.false_eq_true, if_false, true_and]
      rw [FinishedLine.render_false_iff hcode rfl]

/-- With remarks, such a line hides a comment mark in its quotes. -/
theorem Echoes.commentMark_isInfix (regular : ∀ rule ∈ c.rules.all, rule.Regular)
    (hremarks : c.showRemarks = true) (h : c.Echoes ctx raw) :
    Line.commentMark <:+: Line.sourceCode raw := by
  rw [Echoes, written, hremarks] at h
  cases htreat : Line.treatment ctx raw with
  | quiet => simp [htreat, Written.echoes] at h
  | suppressed region =>
    have hcode := (Line.treatment_eq_suppressed.1 htreat).1
    simp only [htreat, Written.echoes, decide_eq_true_eq] at h
    exact FinishedLine.commentMark_isInfix_sourceCode
      (isEmpty_remark_suppressedLine region hcode) rfl h
  | ruled =>
    have hcode := (Line.treatment_eq_ruled.1 htreat).1
    cases hleaves : c.leaves ctx raw with
    | true => simp [htreat, hleaves, Written.echoes] at h
    | false =>
      simp only [htreat, hleaves, Written.echoes, decide_eq_true_eq, Bool.false_eq_true,
        if_false] at h
      exact FinishedLine.commentMark_isInfix_sourceCode
        (isEmpty_remark_ruledLine regular hcode hleaves) rfl h

/-! ### Counting -/

/-- What is written for each of the lines: one text, or nothing. -/
def lineTexts (c : Converter) (ctx : Context) (lines : List (List Char)) :
    List (Option (List Char)) :=
  (c.account ctx lines).map (Written.text c.showRemarks)

/-- The number of lines for which another text is written, or nothing. -/
def differing (c : Converter) (ctx : Context) (lines : List (List Char)) : Nat :=
  (lines.zip (c.lineTexts ctx lines)).countP fun (raw, text) => text ≠ some raw

/-- The number of lines that are finished and come out as they were. -/
def echoing (c : Converter) (ctx : Context) (lines : List (List Char)) : Nat :=
  (lines.zip (c.account ctx lines)).countP fun (raw, entry) => entry.echoes c.showRemarks raw

theorem differing_cons (raw : List Char) (rest : List (List Char)) :
    c.differing ctx (raw :: rest) = c.differing (c.contextNext ctx raw) rest +
      if (c.written ctx raw).text c.showRemarks ≠ some raw then 1 else 0 := by
  simp [differing, lineTexts, account, List.countP_cons]

theorem echoing_cons (raw : List Char) (rest : List (List Char)) :
    c.echoing ctx (raw :: rest) = c.echoing (c.contextNext ctx raw) rest +
      if (c.written ctx raw).echoes c.showRemarks raw then 1 else 0 := by
  simp [echoing, account, List.countP_cons]

/-- A line counts as changed if its text is another one, or if it is finished and comes out as it
was, and not for both. -/
theorem isChanged_eq_add (c : Converter) (ctx : Context) (raw : List Char) :
    (if (c.written ctx raw).isChanged then 1 else 0) =
      (if (c.written ctx raw).text c.showRemarks ≠ some raw then 1 else 0) +
        if (c.written ctx raw).echoes c.showRemarks raw then 1 else 0 := by
  rcases written_eq_or c ctx raw with hraw | ⟨line, hline, -⟩
  · rw [hraw]
    simp [Written.isChanged, Written.text, Written.echoes]
  · rw [hline]
    by_cases hecho : line.render c.showRemarks = some raw <;>
      simp [Written.isChanged, Written.text, Written.echoes, hecho]

theorem changedLines_tally (lines : List (List Char)) :
    (c.tally ctx lines).changedLines = c.differing ctx lines + c.echoing ctx lines := by
  induction lines generalizing ctx with
  | nil => rfl
  | cons raw rest ih =>
    rw [tally_cons, Report.plus, reportNext, differing_cons, echoing_cons]
    dsimp only
    rw [isChanged_eq_add, ih]
    omega

/-- There are none if and only if no line comes out as it was, each behind those above it. -/
theorem echoing_eq_zero_iff (lines : List (List Char)) :
    c.echoing ctx lines = 0 ↔
      ∀ above raw below, lines = above ++ raw :: below →
        ¬c.Echoes (c.contextBehind ctx above) raw := by
  induction lines generalizing ctx with
  | nil => simp [echoing]
  | cons first rest ih =>
    rw [echoing_cons, Nat.add_eq_zero_iff, ih]
    constructor
    · rintro ⟨hrest, hfirst⟩ above raw below hlines hecho
      cases above with
      | nil =>
        obtain ⟨rfl, -⟩ := List.cons.inj hlines
        have hecho : (c.written ctx first).echoes c.showRemarks first = true := hecho
        rw [if_pos hecho] at hfirst
        cases hfirst
      | cons own above =>
        obtain ⟨rfl, hbelow⟩ := List.cons.inj hlines
        exact hrest above raw below hbelow hecho
    · intro h
      refine ⟨fun above raw below hrest => h (first :: above) raw below (by rw [hrest]; rfl), ?_⟩
      exact if_neg (h [] first rest rfl)

/-! ### Whole documents -/

/-- **What counts as a changed line.**  For every converter and every document, one text or nothing
is written for each line, and the texts are those of the conversion but for the one that tells of a
region that the end of the document closes.  The number of changed lines is the number of lines for
which another text is written, or nothing, and on top of that the number of lines that are finished
and come out as they were.  So it is the first number if and only if no line does that:

* without remarks, the lines that do are those without white space at their end and with one space
  before their comment whose code is given back: a semicolon alone that ends a discarded clause, and
  a line that loses its quotes or is changed by a rule, and is left with the SQL that it had;
* with remarks, only a line can that hides a comment mark in its quotes, so in a document without
  such lines the two numbers are the same.

A conversion from a stream that succeeds reports what the conversion of the document does. -/
theorem changedLines_convert (c : Converter) (name : Option String) (lines : List (List Char)) :
    let start := Context.start name
    let conversion := c.convert ⟨name, lines⟩
    (c.lineTexts start lines).length = lines.length ∧
    conversion.texts = (c.lineTexts start lines).reduceOption ++
      (closing (c.contextBehind start lines)).filterMap (Written.text c.showRemarks) ∧
    conversion.report.changedLines = c.differing start lines + c.echoing start lines ∧
    (conversion.report.changedLines = c.differing start lines ↔
      ∀ above raw below, lines = above ++ raw :: below →
        ¬c.Echoes (c.contextBehind start above) raw) ∧
    (∀ ctx raw, c.showRemarks = false →
      (c.Echoes ctx raw ↔ c.GivesBack ctx raw ∧ Line.IsTidy raw)) ∧
    (c.showRemarks = true → (∀ rule ∈ c.rules.all, rule.Regular) →
      (∀ raw ∈ lines, ¬Line.commentMark <:+: Line.sourceCode raw) →
      conversion.report.changedLines = c.differing start lines) ∧
    ∀ octets sink report, (c.transcribe name octets sink).result = .ok report →
      report = (c.convert (.ofStream name octets)).report := by
  intro start conversion
  have hcount : conversion.report.changedLines =
      c.differing start lines + c.echoing start lines := by
    rw [← changedLines_tally]
    change (c.finish (c.runLines name lines)).report.changedLines = _
    rw [changedLines_finish, runLines_eq]
  have hexact : conversion.report.changedLines = c.differing start lines ↔
      ∀ above raw below, lines = above ++ raw :: below →
        ¬c.Echoes (c.contextBehind start above) raw := by
    rw [hcount, ← echoing_eq_zero_iff]
    omega
  refine ⟨?_, ?_, hcount, hexact, fun _ _ => echoes_iff_of_hidden, ?_,
    fun _ _ _ h => (transcribe_eq h).2⟩
  · rw [lineTexts, List.length_map]
    exact (forall₂_account c start lines).length_eq.symm
  · have hown : (c.lineTexts start lines).reduceOption =
        (c.account start lines).filterMap (Written.text c.showRemarks) := List.filterMap_map
    change (c.convert ⟨name, lines⟩).texts = _
    rw [texts_convert, entries, List.filterMap_append, hown]
  · intro hremarks regular hvisible
    refine hexact.2 fun above raw below hlines hecho => ?_
    have hraw : raw ∈ lines := by
      rw [hlines]
      simp
    exact hvisible raw hraw (hecho.commentMark_isInfix regular hremarks)

/-- A line that is warned of is counted, with its remark and without. -/
theorem changedLines_warned :
    let warned := "SELECT LISTAGG(DISTINCT a, ',') FROM t;".toList
    (convert ⟨.without [], true⟩ ⟨none, [warned]⟩).report.changedLines =
        differing ⟨.without [], true⟩ (.start none) [warned] ∧
      (convert ⟨.without [], false⟩ ⟨none, [warned]⟩).report.changedLines ≠
        differing ⟨.without [], false⟩ (.start none) [warned] := by
  intro warned
  obtain ⟨-, -, -, -, -, hmarked, -⟩ := changedLines_convert ⟨.without [], true⟩ none [warned]
  obtain ⟨-, -, -, hexact, hechoes, -⟩ := changedLines_convert ⟨.without [], false⟩ none [warned]
  constructor
  · refine hmarked rfl (fun _ => RuleSet.regular_of_mem_without) ?_
    decide +kernel
  · intro heq
    have hruled : Line.treatment (.start none) warned = .ruled := by decide +kernel
    have hback : GivesBack ⟨.without [], false⟩ (.start none) warned := by
      rw [GivesBack, hruled]
      decide +kernel
    exact hexact.1 heq [] warned [] rfl ((hechoes _ _ rfl).2 ⟨hback, by decide +kernel⟩)

/-- Without remarks, lines are counted that are written as they are: one that a rule warns of, and
the semicolon that ends a discarded clause. -/
theorem changedLines_same_text :
    let c : Converter := ⟨.standard, false⟩
    let warned := ["SELECT LISTAGG(DISTINCT a, ',') FROM t;".toList]
    let clause := [") SORTKEY (".toList, "a)".toList, ";".toList]
    ((c.convert ⟨none, warned⟩).texts = warned ∧
      c.differing (.start none) warned = 0 ∧
      (c.convert ⟨none, warned⟩).report.changedLines = 1) ∧
    (c.lineTexts (.start none) clause = [some ")".toList, none, some ";".toList] ∧
      c.differing (.start none) clause = 2 ∧
      (c.convert ⟨none, clause⟩).report.changedLines = 3) := by
  decide +kernel

end Converter

end SqlDialect
