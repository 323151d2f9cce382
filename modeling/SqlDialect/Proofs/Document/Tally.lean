import SqlDialect.Proofs.Document.Step

/-!
# Runs as sums over their lines

A run over lines adds to what was there before it, and what it adds depends on the context that it
starts in and on the lines alone:

* `Converter.contextBehind` : the context behind the lines;
* `Converter.tally` : the counters of the lines by themselves;
* `Converter.account` : what is written for each line.

`Converter.foldl_step` says that a run consists of these three; it can be cut between any two lines
(`Converter.account_append`, `Converter.tally_append`).  `Converter.texts_convert` and
`Converter.report_convert` say what the end of the document adds to them.  Counters are added up by
`Report.plus`, and hits of rules by `RuleHits.merge`, which keeps the order of first hits;
`RuleHits.merge_add` and `RuleHits.merge_assoc` are what makes the sum independent of where the
lines are cut.
-/

namespace SqlDialect

/-! ### Hits of rules -/

namespace RuleHits

/-- Whether the rule has been hit. -/
def Has (hits : RuleHits) (id : String) : Prop := id ∈ hits.map Prod.fst

variable {hits : RuleHits} {id other : String}

theorem has_add (hits : RuleHits) (id : String) (n : Nat) : (hits.add id n).Has id := by
  induction hits with
  | nil => simp [add, Has]
  | cons first rest ih =>
    obtain ⟨other, m⟩ := first
    rw [add]
    split
    · rename_i hid
      simp [Has, beq_iff_eq.1 hid]
    · exact List.mem_cons_of_mem _ ih

theorem Has.add (h : hits.Has id) (other : String) (n : Nat) : (hits.add other n).Has id := by
  induction hits with
  | nil => cases h
  | cons first rest ih =>
    obtain ⟨own, m⟩ := first
    rw [RuleHits.add]
    split
    · exact h
    · rcases List.mem_cons.1 h with h | h
      · exact List.mem_cons.2 (.inl h)
      · exact List.mem_cons_of_mem _ (ih h)

theorem add_add_self (hits : RuleHits) (id : String) (m n : Nat) :
    (hits.add id m).add id n = hits.add id (m + n) := by
  induction hits with
  | nil => simp [add]
  | cons first rest ih =>
    obtain ⟨other, k⟩ := first
    by_cases hid : (other == id) = true
    · simp [add, hid, Nat.add_assoc]
    · simp [add, hid, ih]

/-- More hits of a rule that has been hit can be counted before those of any other. -/
theorem Has.add_comm (h : hits.Has id) (other : String) (m n : Nat) :
    (hits.add other m).add id n = (hits.add id n).add other m := by
  induction hits with
  | nil => cases h
  | cons first rest ih =>
    obtain ⟨own, k⟩ := first
    by_cases hother : (own == other) = true
    · by_cases hid : (own == id) = true
      · simp [RuleHits.add, hother, hid, Nat.add_right_comm]
      · simp [RuleHits.add, hother, hid]
    · by_cases hid : (own == id) = true
      · simp [RuleHits.add, hother, hid]
      · have hrest : RuleHits.Has rest id := by
          refine (List.mem_cons.1 h).resolve_left fun hown => hid ?_
          exact beq_iff_eq.2 hown.symm
        simp [RuleHits.add, hother, hid, ih hrest]

theorem merge_cons (hits : RuleHits) (id : String) (n : Nat) (more : RuleHits) :
    hits.merge ((id, n) :: more) = (hits.add id n).merge more := rfl

theorem Has.merge_add (h : hits.Has id) (more : RuleHits) (n : Nat) :
    (hits.merge more).add id n = (hits.add id n).merge more := by
  induction more generalizing hits with
  | nil => rfl
  | cons first more ih =>
    obtain ⟨other, m⟩ := first
    rw [merge_cons, merge_cons, ih (h.add other m), h.add_comm]

theorem merge_add (hits more : RuleHits) (id : String) (n : Nat) :
    hits.merge (more.add id n) = (hits.merge more).add id n := by
  induction more generalizing hits with
  | nil => rfl
  | cons first more ih =>
    obtain ⟨other, m⟩ := first
    by_cases hid : (other == id) = true
    · obtain rfl := beq_iff_eq.1 hid
      have hadd : RuleHits.add ((other, m) :: more) other n = (other, m + n) :: more := by
        simp [add]
      rw [hadd, merge_cons, merge_cons, (has_add hits other m).merge_add, add_add_self]
    · have hadd : RuleHits.add ((other, m) :: more) id n = (other, m) :: add more id n := by
        simp [add, hid]
      rw [hadd, merge_cons, merge_cons, ih]

theorem merge_assoc (a b c : RuleHits) : (a.merge b).merge c = a.merge (b.merge c) := by
  induction c using List.reverseRecOn with
  | nil => rfl
  | append_singleton c last ih =>
    obtain ⟨id, n⟩ := last
    have hconcat : ∀ hits : RuleHits, hits.merge (c ++ [(id, n)]) = (hits.merge c).add id n :=
      fun _ => List.foldl_concat ..
    rw [hconcat, hconcat, merge_add, ih]

end RuleHits

/-! ### Reports -/

namespace Report

/-- The report of two runs one after the other: the counters are added, and the hits of the rules
are merged. -/
def plus (a b : Report) : Report where
  lines := a.lines + b.lines
  changedLines := a.changedLines + b.changedLines
  suppressedLines := a.suppressedLines + b.suppressedLines
  regionsOpened := a.regionsOpened + b.regionsOpened
  regionsClosed := a.regionsClosed + b.regionsClosed
  forcedCloses := a.forcedCloses + b.forcedCloses
  repeatLimitHits := a.repeatLimitHits + b.repeatLimitHits
  ruleHits := a.ruleHits.merge b.ruleHits

@[simp] theorem plus_empty (report : Report) : report.plus {} = report := rfl

theorem plus_assoc (a b c : Report) : (a.plus b).plus c = a.plus (b.plus c) := by
  simp [plus, Nat.add_assoc, RuleHits.merge_assoc]

theorem ruleHits_recordHits (report : Report) (ids : List String) :
    (report.recordHits ids).ruleHits =
      report.ruleHits.merge (recordHits {} ids).ruleHits := by
  induction ids using List.reverseRecOn with
  | nil => rfl
  | append_singleton ids id ih =>
    have hconcat : ∀ report : Report, (report.recordHits (ids ++ [id])).ruleHits =
        (report.recordHits ids).ruleHits.add id 1 := fun _ => List.foldl_concat ..
    rw [hconcat, hconcat, RuleHits.merge_add, ih]

end Report

/-! ### Runs -/

namespace Converter

/-- The context behind the lines. -/
def contextBehind (c : Converter) (ctx : Context) (lines : List (List Char)) : Context :=
  lines.foldl c.contextNext ctx

/-- What is written for each of the lines. -/
def account (c : Converter) (ctx : Context) : List (List Char) → List Written
  | [] => []
  | raw :: rest => c.written ctx raw :: c.account (c.contextNext ctx raw) rest

/-- The counters of the lines by themselves. -/
def tally (c : Converter) (ctx : Context) (lines : List (List Char)) : Report :=
  (lines.foldl c.step ⟨ctx, {}, []⟩).report

variable {c : Converter} {ctx : Context} {raw : List Char}

/-- What a line adds to the counters does not depend on them. -/
theorem reportNext_eq_plus (report : Report) :
    c.reportNext ctx raw report = report.plus (c.reportNext ctx raw {}) := by
  cases htreat : Line.treatment ctx raw with
  | quiet => simp [reportNext, Report.plus, htreat, RuleHits.merge]
  | suppressed region => simp [reportNext, Report.plus, htreat, RuleHits.merge]
  | ruled =>
    simp only [reportNext, Report.plus, htreat, Nat.zero_add, Nat.add_zero]
    rw [Report.ruleHits_recordHits]

theorem report_foldl_step (run : Run) (lines : List (List Char)) :
    (lines.foldl c.step run).report = run.report.plus (c.tally run.context lines) := by
  induction lines generalizing run with
  | nil => rfl
  | cons raw lines ih =>
    have alone : c.tally run.context (raw :: lines) =
        (c.step ⟨run.context, {}, []⟩ raw).report.plus
          (c.tally (c.step ⟨run.context, {}, []⟩ raw).context lines) := by
      rw [tally, List.foldl_cons, ih]
    rw [List.foldl_cons, ih, alone, step_eq, step_eq]
    dsimp only
    rw [reportNext_eq_plus, Report.plus_assoc]

theorem tally_cons (raw : List Char) (rest : List (List Char)) :
    c.tally ctx (raw :: rest) =
      (c.reportNext ctx raw {}).plus (c.tally (c.contextNext ctx raw) rest) := by
  rw [tally, List.foldl_cons, report_foldl_step, step_eq]

theorem contextBehind_append (first second : List (List Char)) :
    c.contextBehind ctx (first ++ second) =
      c.contextBehind (c.contextBehind ctx first) second :=
  List.foldl_append

theorem account_append (first second : List (List Char)) :
    c.account ctx (first ++ second) =
      c.account ctx first ++ c.account (c.contextBehind ctx first) second := by
  induction first generalizing ctx with
  | nil => rfl
  | cons raw first ih =>
    rw [List.cons_append, account, ih, account, List.cons_append]
    rfl

theorem tally_append (first second : List (List Char)) :
    c.tally ctx (first ++ second) =
      (c.tally ctx first).plus (c.tally (c.contextBehind ctx first) second) := by
  induction first generalizing ctx with
  | nil => exact report_foldl_step ⟨ctx, {}, []⟩ second
  | cons raw first ih =>
    rw [List.cons_append, tally_cons, ih, tally_cons, Report.plus_assoc]
    rfl

/-- **A run is the sum of its lines**: whatever was counted and written before it stays, and what it
adds is determined by the context that it starts in. -/
theorem foldl_step (run : Run) (lines : List (List Char)) :
    lines.foldl c.step run =
      { context := c.contextBehind run.context lines
        report := run.report.plus (c.tally run.context lines)
        texts := ((c.account run.context lines).filterMap (Written.text c.showRemarks)).reverse ++
          run.texts } := by
  induction lines generalizing run with
  | nil => rfl
  | cons raw lines ih =>
    rw [List.foldl_cons, ih, tally_cons, ← Report.plus_assoc, ← reportNext_eq_plus, step_eq]
    congr 1
    rw [account, List.filterMap_cons]
    cases (c.written run.context raw).text c.showRemarks <;> simp

theorem runLines_eq (name : Option String) (lines : List (List Char)) :
    c.runLines name lines =
      { context := c.contextBehind (.start name) lines
        report := c.tally (.start name) lines
        texts :=
          ((c.account (.start name) lines).filterMap (Written.text c.showRemarks)).reverse } := by
  have hreport : (c.runLines name lines).report = c.tally (.start name) lines := rfl
  rw [← hreport, runLines, foldl_step]
  exact congrArg (Run.mk _ _) (List.append_nil _)

/-! ### Whole documents -/

/-- What is written behind the last line: that a region is still open. -/
def closing (ctx : Context) : List Written :=
  match ctx.mode with
  | .normal => []
  | .suppressing region => [.finished (closingLine region)]

/-- What the end of the document adds to the counters. -/
def closingReport (ctx : Context) : Report :=
  if ctx.isSuppressing then { regionsClosed := 1, forcedCloses := 1 } else {}

theorem texts_finish (run : Run) : (c.finish run).texts =
    ((closing run.context).filterMap (Written.text c.showRemarks)).reverse ++ run.texts := by
  rw [closing]
  cases hmode : run.context.mode with
  | normal => rw [finish_of_normal hmode]; rfl
  | suppressing region =>
    rw [finish_of_suppressing hmode]
    dsimp only [List.filterMap_cons, Written.text]
    cases (closingLine region).render c.showRemarks <;> rfl

theorem report_finish_eq_plus (run : Run) :
    (c.finish run).report = run.report.plus (closingReport run.context) := by
  rw [closingReport, Context.isSuppressing]
  cases hmode : run.context.mode with
  | normal => rw [finish_of_normal hmode]; rfl
  | suppressing region => rw [finish_of_suppressing hmode]; rfl

/-- Everything that is written for a document. -/
def entries (c : Converter) (document : Document) : List Written :=
  c.account (.start document.name) document.lines ++
    closing (c.contextBehind (.start document.name) document.lines)

theorem texts_convert (document : Document) :
    (c.convert document).texts =
      (c.entries document).filterMap (Written.text c.showRemarks) := by
  have hconvert : (c.convert document).texts =
      (c.finish (c.runLines document.name document.lines)).texts.reverse := rfl
  rw [hconvert, texts_finish, runLines_eq, List.reverse_append, List.reverse_reverse,
    List.reverse_reverse, entries, List.filterMap_append]

/-- The text of a line stands between the texts of the lines above it and below it. -/
theorem texts_convert_of_line (name : Option String) (above : List (List Char)) (raw : List Char)
    (below : List (List Char)) :
    ∃ before after, (c.convert ⟨name, above ++ raw :: below⟩).texts =
      before ++ ((c.written (c.contextBehind (.start name) above) raw).text c.showRemarks).toList ++
        after := by
  refine ⟨(c.account (.start name) above).filterMap (Written.text c.showRemarks),
    (c.account (c.contextNext (c.contextBehind (.start name) above) raw) below ++
      closing (c.contextBehind (.start name) (above ++ raw :: below))).filterMap
        (Written.text c.showRemarks), ?_⟩
  rw [texts_convert, entries]
  dsimp only
  rw [account_append, account, List.append_assoc, List.filterMap_append, List.cons_append,
    List.filterMap_cons]
  cases (c.written (c.contextBehind (.start name) above) raw).text c.showRemarks <;> simp

/-- What is written for the lines above stays as it is. -/
theorem texts_convert_of_prefix (c : Converter) (name : Option String)
    (above below : List (List Char)) :
    ∃ after, (c.convert ⟨name, above ++ below⟩).texts =
      (c.runLines name above).texts.reverse ++ after := by
  rw [texts_convert, entries, runLines_eq]
  dsimp only
  rw [account_append, List.append_assoc, List.filterMap_append, List.reverse_reverse]
  exact ⟨_, rfl⟩

theorem report_convert (document : Document) :
    (c.convert document).report =
      (c.tally (.start document.name) document.lines).plus
        (closingReport (c.contextBehind (.start document.name) document.lines)) := by
  have hconvert : (c.convert document).report =
      (c.finish (c.runLines document.name document.lines)).report := rfl
  rw [hconvert, report_finish_eq_plus, runLines_eq]

end Converter

end SqlDialect
