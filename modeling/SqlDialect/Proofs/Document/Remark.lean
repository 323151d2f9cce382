import Mathlib.Data.List.Forall2
import SqlDialect.Proofs.Document.Tally

/-!
# What remarks add to a document

A conversion writes remarks or leaves them out.  Apart from the remarks themselves, nothing depends
on that, and where the SQL of a line leaves no quote open, its remark is read as a comment.

* `FinishedLine.render_eq_append`, `FinishedLine.bears` : the text of a finished line, with remark and
  comment.
* `Converter.account_eq`, `Converter.tally_eq` : what is made of the lines of a document does not
  depend on whether remarks are written.
* `Converter.convert_showRemarks` : **remarks can be left out** without any other change.
* `FinishedLine.readsAs_iff` : when the remark of a line is read as a comment.
* `Converter.readsAs_convert_iff` : **when remarks are comments**, for every document.
-/

namespace SqlDialect

/-! ### Texts with and without their remarks -/

namespace FinishedLine

/-- The remark of the line with its marker, if there is one. -/
def markedRemark (line : FinishedLine) : List Char :=
  if line.remark.isEmpty then [] else Remark.marker ++ line.remark.text

theorem commented_true (line : FinishedLine) :
    line.commented true = line.statement ++ line.markedRemark := by
  rw [commented, markedRemark]
  cases line.remark.isEmpty <;> simp

theorem commented_false (line : FinishedLine) : line.commented false = line.statement := rfl

theorem withComment_eq (text comment : List Char) :
    withComment text comment =
      text ++ if text = [] ∨ comment = [] then comment else ' ' :: comment := by
  rw [withComment]
  cases comment with
  | nil => simp
  | cons c comment => cases text <;> simp

theorem withComment_eq_nil_iff {text comment : List Char} :
    withComment text comment = [] ↔ text = [] ∧ comment = [] := by
  rw [withComment_eq, List.append_eq_nil_iff]
  refine and_congr_right fun htext => ?_
  simp [htext]

/-- The text of the line: what stands before the comment, and the comment, with a space between the
two if there are both. -/
theorem render_eq_append (showRemarks : Bool) (line : FinishedLine) :
    line.render showRemarks =
      if line.commented showRemarks = [] ∧ line.comment = [] then none
      else some (line.commented showRemarks ++
        if line.commented showRemarks = [] ∨ line.comment = [] then line.comment
        else ' ' :: line.comment) := by
  rw [render_eq, ← withComment_eq]
  by_cases hnothing : withComment (line.commented showRemarks) line.comment = []
  · rw [if_pos (by rw [hnothing]; rfl), if_pos (withComment_eq_nil_iff.1 hnothing)]
  · rw [if_neg (by simpa using hnothing), if_neg (mt withComment_eq_nil_iff.2 hnothing)]

end FinishedLine

/-- The line is written as SQL with a remark, if remarks are written, and with its own comment
behind both. -/
structure Written.Bears (written : Written) (remark comment : List Char) : Prop where
  text_true : written.text true =
    some (FinishedLine.withComment (written.sql ++ Remark.marker ++ remark) comment)
  text_false : written.text false =
    if written.sql = [] ∧ comment = [] then none
    else some (FinishedLine.withComment written.sql comment)

/-- A line with something in its remark is written with it. -/
theorem FinishedLine.bears {line : FinishedLine} (h : line.remark.isEmpty = false) :
    (Written.finished line).Bears line.remark.text line.comment where
  text_true := by
    have hremark : line.commented true = line.statement ++ Remark.marker ++ line.remark.text := by
      rw [commented_true, markedRemark, h, List.append_assoc]
      rfl
    have hne : line.commented true ≠ [] := by
      have hmarker : Remark.marker ≠ [] := by decide
      simp [hremark, hmarker]
    rw [Written.text, render_eq_append, if_neg fun hnothing => hne hnothing.1, ← withComment_eq, hremark]
    rfl
  text_false := by
    rw [Written.text, render_eq_append, ← withComment_eq]
    rfl

/-! ### Runs with and without remarks -/

namespace Converter

variable {rules : RuleSet} {ctx : Context}

/-- What is written for the lines of a document, up to their remarks, does not depend on whether
these are written. -/
theorem account_eq (b : Bool) (lines : List (List Char)) :
    (⟨rules, b⟩ : Converter).account ctx lines = (⟨rules, true⟩ : Converter).account ctx lines := by
  induction lines generalizing ctx with
  | nil => rfl
  | cons raw lines ih =>
    have hwritten : (⟨rules, b⟩ : Converter).written ctx raw =
      (⟨rules, true⟩ : Converter).written ctx raw := rfl
    have hnext : (⟨rules, b⟩ : Converter).contextNext ctx raw =
      (⟨rules, true⟩ : Converter).contextNext ctx raw := rfl
    rw [account, account, ih, hwritten, hnext]

/-- Nor do the counters of the lines. -/
theorem tally_eq (b : Bool) (lines : List (List Char)) :
    (⟨rules, b⟩ : Converter).tally ctx lines = (⟨rules, true⟩ : Converter).tally ctx lines := by
  induction lines generalizing ctx with
  | nil => rfl
  | cons raw lines ih =>
    have hreport : (⟨rules, b⟩ : Converter).reportNext ctx raw {} =
      (⟨rules, true⟩ : Converter).reportNext ctx raw {} := rfl
    have hnext : (⟨rules, b⟩ : Converter).contextNext ctx raw =
      (⟨rules, true⟩ : Converter).contextNext ctx raw := rfl
    rw [tally_cons, tally_cons, ih, hreport, hnext]

theorem contextBehind_eq (b : Bool) (lines : List (List Char)) :
    (⟨rules, b⟩ : Converter).contextBehind ctx lines =
      (⟨rules, true⟩ : Converter).contextBehind ctx lines := rfl

theorem entries_eq (b : Bool) (document : Document) :
    (⟨rules, b⟩ : Converter).entries document = (⟨rules, true⟩ : Converter).entries document := by
  rw [entries, entries, account_eq, contextBehind_eq]

theorem report_convert_eq (b : Bool) (document : Document) :
    ((⟨rules, b⟩ : Converter).convert document).report =
      ((⟨rules, true⟩ : Converter).convert document).report := by
  rw [report_convert, report_convert, tally_eq, contextBehind_eq]

/-- A line is written as it came, or in a form that bears its comment. -/
theorem forall₂_account (c : Converter) (ctx : Context) (lines : List (List Char)) :
    List.Forall₂
      (fun raw entry => entry = .asItCame raw ∨
        ∃ line, entry = .finished line ∧ line.comment = Line.comment raw)
      lines (c.account ctx lines) := by
  induction lines generalizing ctx with
  | nil => exact .nil
  | cons raw lines ih => exact .cons (written_eq_or c ctx raw) (ih _)

/-- A conversion from a stream to a sink with room for everything differs from one without remarks
in nothing but what it writes. -/
theorem result_transcribe_eq (b : Bool) (name : Option String) (octets : List UInt8)
    (flushFails : Bool) :
    ((⟨rules, b⟩ : Converter).transcribe name octets ⟨none, flushFails⟩).result =
      ((⟨rules, true⟩ : Converter).transcribe name octets ⟨none, flushFails⟩).result := by
  have hreport : ((⟨rules, b⟩ : Converter).convert (.ofStream name octets)).report =
    ((⟨rules, true⟩ : Converter).convert (.ofStream name octets)).report := report_convert_eq b _
  have hconvert : ∀ c : Converter, (c.convert (.ofStream name octets)).report =
    (c.finish (c.runLines name (Document.ofStream name octets).lines)).report := fun _ => rfl
  rw [hconvert, hconvert, Document.ofStream] at hreport
  simp only [transcribe, Sink.deliver]
  cases (Text.decodeLines (Text.lines 0x0A 0x0D octets)).2 with
  | false => rfl
  | true => rw [if_pos rfl, if_pos rfl, hreport]

/-- A conversion from a stream that succeeds counts what the conversion of the document counts. -/
theorem result_transcribe_eq_or (b : Bool) (name : Option String) (octets : List UInt8)
    (sink : Sink) :
    (∃ failure, ((⟨rules, b⟩ : Converter).transcribe name octets sink).result = .error failure) ∨
      ((⟨rules, b⟩ : Converter).transcribe name octets sink).result =
        .ok ((⟨rules, true⟩ : Converter).convert (.ofStream name octets)).report := by
  cases hresult : ((⟨rules, b⟩ : Converter).transcribe name octets sink).result with
  | error failure => exact .inl ⟨failure, rfl⟩
  | ok report => exact .inr (by rw [(transcribe_eq hresult).2, report_convert_eq])

/-- **Remarks can be left out without any other change.**  For every document and every choice of
rules, a conversion without remarks

* counts the same, also behind every single line, and passes the same on from line to line;
* writes the lines that are kept, byte for byte, as the conversion with remarks does;
* writes, for any other line, the same SQL and the comment of the line, with a space between the two
  if there are both: the text with the remark and its marker cut out.  It writes nothing exactly if
  there is neither SQL nor a comment.

A conversion from a stream that succeeds reports the same counters, whether it writes remarks or
not, and both end in the same way if there is room for all that they write. -/
theorem convert_showRemarks (rules : RuleSet) (name : Option String) (lines : List (List Char)) :
    let on : Converter := ⟨rules, true⟩
    let off : Converter := ⟨rules, false⟩
    let entries := on.entries ⟨name, lines⟩
    (on.convert ⟨name, lines⟩).report = (off.convert ⟨name, lines⟩).report ∧
    (on.runLines name lines).report = (off.runLines name lines).report ∧
    (on.runLines name lines).context = (off.runLines name lines).context ∧
    (on.convert ⟨name, lines⟩).texts = entries.filterMap (Written.text true) ∧
    (off.convert ⟨name, lines⟩).texts = entries.filterMap (Written.text false) ∧
    List.Forall₂
      (fun raw entry => entry = .asItCame raw ∨
        ∃ line, entry = .finished line ∧ line.comment = Line.comment raw)
      lines (entries.take lines.length) ∧
    (∀ raw, (Written.asItCame raw).text true = some (Text.trimEnd raw) ∧
      (Written.asItCame raw).text false = some (Text.trimEnd raw)) ∧
    (∀ line : FinishedLine,
      let sql := line.statement
      let remark := line.markedRemark
      let comment := line.comment
      (Written.finished line).text true =
        (if sql ++ remark = [] ∧ comment = [] then none
        else some (sql ++ remark ++
          if sql ++ remark = [] ∨ comment = [] then comment else ' ' :: comment)) ∧
      (Written.finished line).text false =
        (if sql = [] ∧ comment = [] then none
        else some (sql ++ if sql = [] ∨ comment = [] then comment else ' ' :: comment))) ∧
    (∀ b octets sink,
      (∃ failure, ((⟨rules, b⟩ : Converter).transcribe name octets sink).result =
        .error failure) ∨
      ((⟨rules, b⟩ : Converter).transcribe name octets sink).result =
        .ok (on.convert (.ofStream name octets)).report) ∧
    ∀ octets flushFails, (on.transcribe name octets ⟨none, flushFails⟩).result =
      (off.transcribe name octets ⟨none, flushFails⟩).result := by
  intro on off entries
  have account := forall₂_account on (.start name) lines
  have hlength : (on.account (.start name) lines).length = lines.length := account.length_eq.symm
  refine ⟨(report_convert_eq false _).symm, ?_, ?_, texts_convert _, ?_, ?_, ?_, ?_,
    fun b octets sink => result_transcribe_eq_or b name octets sink, ?_⟩
  · rw [runLines_eq, runLines_eq]
    exact (tally_eq false lines).symm
  · rw [runLines_eq, runLines_eq]
    exact (contextBehind_eq false lines).symm
  · rw [texts_convert, entries_eq]
  · have htake : entries.take lines.length = on.account (.start name) lines := by
      rw [← hlength]
      exact List.take_left
    rw [htake]
    exact account
  · exact fun raw => ⟨rfl, rfl⟩
  · intro line
    dsimp only [Written.text]
    rw [FinishedLine.render_eq_append, FinishedLine.render_eq_append, FinishedLine.commented_true,
      FinishedLine.commented_false]
    exact ⟨rfl, rfl⟩
  · exact fun octets flushFails => (result_transcribe_eq false name octets flushFails).symm

end Converter

/-! ### Remarks as comments -/

/-- The text is read as the SQL, white space behind it, and a remark in the place of a comment. -/
def ReadsAs (sql text : List Char) : Prop :=
  ∃ blanks, Line.isBlank blanks = true ∧ (Line.splitComment text).1 = sql ++ blanks ∧
    "--// ".toList <+: (Line.splitComment text).2

namespace FinishedLine

/-- A remark behind SQL is read as a comment if and only if the SQL leaves no quote open and holds
no comment mark of its own. -/
theorem readsAs_iff (sql rest : List Char) :
    ReadsAs sql (sql ++ Remark.marker ++ rest) ↔
      Line.quoteBehind none sql = none ∧ (Line.splitComment sql).2 = [] := by
  rw [List.append_assoc]
  by_cases hcode : (Line.splitComment sql).2 = []
  · have hhead : (Remark.marker ++ rest).head? = some '\t' := rfl
    have hsplit : Line.splitComment (sql ++ (Remark.marker ++ rest)) = _ :=
      Line.splitCommentFrom_append_of_code hcode (by rw [hhead]; decide)
    cases hquote : Line.quoteBehind none sql with
    | none =>
      rw [hquote] at hsplit
      refine iff_of_true ⟨['\t', '\t'], rfl, ?_, ?_⟩ ⟨rfl, hcode⟩
      · rw [hsplit]; rfl
      · rw [hsplit]; exact ⟨rest, rfl⟩
    | some quote =>
      refine iff_of_false ?_ (by simp)
      rintro ⟨blanks, hblanks, hfirst, -⟩
      rw [hquote] at hsplit
      -- the marker stands inside the open quote, so its hyphens belong to the code
      have hmarker : Remark.marker <+: blanks := by
        have hinside : quote ∉ Remark.marker := by
          rcases Line.quote_of_quoteBehind hquote with rfl | rfl <;> decide
        have hprefix := Line.isPrefix_splitCommentFrom hinside rest
        rw [hsplit] at hfirst
        rwa [List.append_cancel_left hfirst] at hprefix
      have hhyphen : '-' ∈ blanks := hmarker.subset (by decide)
      exact absurd (Line.isBlank_iff.1 hblanks _ hhyphen) (by decide)
  · refine iff_of_false ?_ fun h => hcode h.2
    rintro ⟨blanks, -, hfirst, -⟩
    have hsplit : Line.splitComment (sql ++ (Remark.marker ++ rest)) = _ :=
      Line.splitCommentFrom_append_of_comment hcode
    rw [hsplit] at hfirst
    -- the code ends inside the SQL
    have hlength := congrArg List.length (Line.splitComment_append sql)
    have hshort := congrArg List.length hfirst
    have hpos := List.length_pos_of_ne_nil hcode
    rw [List.length_append] at hlength hshort
    change (Line.splitComment sql).1.length = _ at hshort
    omega

/-- The text of a line with a remark has the remark behind its SQL. -/
theorem exists_render_eq_marked {line : FinishedLine} (h : line.remark.isEmpty = false) :
    ∃ rest, line.render true =
      some (line.statement ++ Remark.marker ++ (line.remark.text ++ rest)) := by
  have hremark : line.commented true = line.statement ++ Remark.marker ++ line.remark.text := by
    rw [commented_true, markedRemark, h, List.append_assoc]
    rfl
  have hne : ¬(line.commented true = [] ∧ line.comment = []) := by
    have hmarker : Remark.marker ≠ [] := by decide
    rw [hremark]
    simp [hmarker]
  rw [render_eq_append, if_neg hne, hremark, List.append_assoc _ line.remark.text]
  exact ⟨_, rfl⟩

/-- Where no SQL is left, nothing stands before the remark but a semicolon. -/
theorem statement_of_sql_eq_none {line : FinishedLine} (h : line.sql = none) :
    line.statement = [] ∨ line.statement = [';'] := by
  rw [statement, h]
  split
  · exact .inr rfl
  · exact .inl rfl

end FinishedLine

namespace Converter

/-- **When remarks are comments.**  For every document and every choice of rules, each line with a
remark is written, and its text is read as the SQL, white space, and a comment that starts with the
remark, if and only if the SQL leaves no quote open, single or double, and holds no comment mark
outside quotes.  It always is where no SQL is left: in a suppression region, behind a discarded
statement that filled its line, and where the end of the document closes a region. -/
theorem readsAs_convert_iff (rules : RuleSet) (name : Option String) (lines : List (List Char)) :
    let c : Converter := ⟨rules, true⟩
    let entries := c.entries ⟨name, lines⟩
    (c.convert ⟨name, lines⟩).texts = entries.filterMap (Written.text true) ∧
    ∀ line, Written.finished line ∈ entries → line.remark.isEmpty = false →
      ∃ text ∈ (c.convert ⟨name, lines⟩).texts, (Written.finished line).text true = some text ∧
        (ReadsAs line.statement text ↔
          Line.quoteBehind none line.statement = none ∧
            (Line.splitComment line.statement).2 = []) ∧
        (line.sql = none → ReadsAs line.statement text) := by
  intro c entries
  refine ⟨texts_convert _, fun line hline hremark => ?_⟩
  obtain ⟨rest, hrender⟩ := FinishedLine.exists_render_eq_marked hremark
  have hiff := FinishedLine.readsAs_iff line.statement (line.remark.text ++ rest)
  refine ⟨_, ?_, hrender, hiff, fun hsql => hiff.2 ?_⟩
  · rw [texts_convert]
    exact List.mem_filterMap.2 ⟨_, hline, hrender⟩
  · rcases FinishedLine.statement_of_sql_eq_none hsql with h | h
    · rw [h]; exact ⟨rfl, rfl⟩
    · rw [h]; exact ⟨rfl, rfl⟩

/-- The remark of a renamed column type is a comment. -/
theorem readsAs_columnType :
    let c : Converter := ⟨.standard, true⟩
    let raw := "  name NVARCHAR(20) DEFAULT 'a--b',".toList
    let line := c.ruledLine (.start none) raw
    ∃ text ∈ (c.convert ⟨none, [raw]⟩).texts, ReadsAs line.statement text := by
  intro c raw line
  have hline : Written.finished line ∈ c.entries ⟨none, [raw]⟩ := by
    refine List.mem_append_left _ (List.mem_singleton.2 (Eq.symm ?_))
    exact written_eq_ruledLine (by decide +kernel) rfl (by decide +kernel)
  obtain ⟨text, htext, -, hiff, -⟩ :=
    (readsAs_convert_iff .standard none [raw]).2 line hline (by decide +kernel)
  exact ⟨text, htext, hiff.2 (by decide +kernel)⟩

/-- Remarks do become SQL: behind a literal that goes on in the next line, and where a rule cuts a
line inside double quotes.  In the second case, another conversion takes the remark for SQL. -/
theorem remark_inside_quotes :
    let c : Converter := ⟨.standard, true⟩
    let openLiteral := c.convert ⟨none, ["INSERT INTO t VALUES (NOW(), 'first".toList,
      "second');".toList]⟩
    let cutName := c.convert ⟨none, ["SELECT \"owner to\" FROM t;".toList]⟩
    let again := c.convert ⟨none, cutName.texts⟩
    openLiteral.texts = ["INSERT INTO t VALUES (CURRENT_TIMESTAMP(), 'first\t\t--// NOW()".toList,
      "second');".toList] ∧
    (∀ text ∈ openLiteral.texts, (Line.splitComment text).2 = []) ∧
    cutName.texts = ["SELECT \";\t\t--// owner to\" FROM t;".toList] ∧
    (∀ text ∈ cutName.texts, (Line.splitComment text).2 = []) ∧
    again.texts ≠ cutName.texts ∧ again.report.ruleHits = [("DDL003", 1)] := by
  intro c openLiteral cutName again
  have hopen : openLiteral.texts =
      ["INSERT INTO t VALUES (CURRENT_TIMESTAMP(), 'first\t\t--// NOW()".toList,
        "second');".toList] := by
    decide +kernel
  have hcut : cutName.texts = ["SELECT \";\t\t--// owner to\" FROM t;".toList] := by
    decide +kernel
  have hagain : again = c.convert ⟨none, ["SELECT \";\t\t--// owner to\" FROM t;".toList]⟩ :=
    congrArg (fun lines => c.convert ⟨none, lines⟩) hcut
  rw [hopen, hcut, hagain]
  refine ⟨rfl, by decide +kernel, rfl, by decide +kernel, ?_⟩
  decide +kernel

end Converter

end SqlDialect
