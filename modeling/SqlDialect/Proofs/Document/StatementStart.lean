import SqlDialect.Proofs.Document.Suppression
import SqlDialect.Proofs.Document.Tally
import SqlDialect.Proofs.Rule.Discard

/-!
# Where a statement starts

A context takes the next line for the start of a statement if the last line of code had a semicolon
outside its literals, wherever on the line that was.  A `SET` behind an unfinished statement is
discarded if that statement began on a line behind such a semicolon.

* `Converter.pendingBehind` : the statement that the lines of a document leave unfinished.
* `Converter.Aligned` : the invariant of a context that has seen some lines; `aligned_contextNext`
  is its step, `aligned_contextBehind` the run.
* `Converter.sessionSet_behind_pending` : **when a `SET` behind an unfinished statement is left
  alone**.
-/

namespace SqlDialect

/-- A statement of which only the beginning has been read. -/
structure Pending where
  /-- What has been read of it. -/
  text : List Char
  /-- Whether a literal is open behind the text. -/
  inLiteral : Bool
deriving Repr, DecidableEq

namespace Pending

/-- No statement has begun. -/
def none : Pending := ⟨[], false⟩

/-- One more character has been read: a semicolon outside literals ends the statement. -/
def read (s : Pending) (c : Char) : Pending :=
  if c = '\'' then ⟨s.text ++ [c], !s.inLiteral⟩
  else if c = ';' ∧ s.inLiteral = false then none
  else ⟨s.text ++ [c], s.inLiteral⟩

end Pending

namespace Line

/-- The last line that holds code, if there is one. -/
def lastCode (lines : List (List Char)) : Option (List Char) := (lines.filter holdsCode).getLast?

variable {lines : List (List Char)} {raw : List Char}

theorem lastCode_concat_of_quiet (h : holdsCode raw = false) :
    lastCode (lines ++ [raw]) = lastCode lines := by
  simp [lastCode, h]

theorem lastCode_concat_of_code (h : holdsCode raw = true) :
    lastCode (lines ++ [raw]) = some raw := by
  simp [lastCode, h]

theorem forall_quiet_of_lastCode_eq_none (h : lastCode lines = none) :
    ∀ line ∈ lines, holdsCode line = false := by
  rw [lastCode, List.getLast?_eq_none_iff, List.filter_eq_nil_iff] at h
  exact fun line hline => Bool.eq_false_iff.2 (h line hline)

end Line

namespace Converter

variable {c : Converter} {ctx : Context} {raw : List Char} {lines : List (List Char)}

/-! ### The unfinished statement -/

/-- The unfinished statement behind a line.  Lines in a region take no part in it, and the line that
closes the region ends the statement; any other line is read with its line feed. -/
def pendingNext (ctx : Context) (raw : List Char) (s : Pending) : Pending :=
  match Line.treatment ctx raw with
  | .quiet => s
  | .suppressed region => if closes region raw then .none else s
  | .ruled => (Line.sourceCode raw ++ ['\n']).foldl Pending.read s

/-- The unfinished statement behind some lines. -/
def pendingBehind (c : Converter) (ctx : Context) (s : Pending) : List (List Char) → Pending
  | [] => s
  | raw :: rest => c.pendingBehind (c.contextNext ctx raw) (pendingNext ctx raw s) rest

/-- Lines without code leave the unfinished statement as it is. -/
theorem pendingBehind_of_quiet {s : Pending} (h : ∀ line ∈ lines, Line.holdsCode line = false) :
    c.pendingBehind ctx s lines = s := by
  induction lines generalizing ctx with
  | nil => rfl
  | cons raw lines ih =>
    rw [List.forall_mem_cons] at h
    rw [pendingBehind, pendingNext, Line.treatment_eq_quiet.2 h.1]
    exact ih h.2

/-! ### The start of a statement -/

/-- What a context behind some lines knows of the last line of code: outside regions, whether it had
a semicolon in code. -/
structure Aligned (lines : List (List Char)) (ctx : Context) : Prop where
  statementStart_iff : ctx.mode = .normal →
    (ctx.statementStart = true ↔ ∀ last ∈ Line.lastCode lines, Line.endsStatement last = true)
  terminator_eq : ∀ region, ctx.mode = .suppressing region → region.terminator = .statement

theorem aligned_start (name : Option String) : Aligned [] (.start name) where
  statementStart_iff _ := iff_of_true rfl (by simp [Line.lastCode])
  terminator_eq := nofun

/-- A line in a region ends the last statement if and only if it closes the region. -/
theorem aligned_contextNext_of_suppressed {region : Region}
    (htreat : Line.treatment ctx raw = .suppressed region) (h : Aligned lines ctx) :
    Aligned (lines ++ [raw]) (c.contextNext ctx raw) := by
  obtain ⟨hcode, hmode⟩ := Line.treatment_eq_suppressed.1 htreat
  have hends : Line.endsStatement raw = closes region raw := by
    rw [Line.endsStatement, hcode, Bool.true_and, closes, h.terminator_eq region hmode]
  rw [contextNext, htreat]
  dsimp only
  cases hcloses : closes region raw with
  | true =>
    refine ⟨fun _ => iff_of_true rfl ?_, fun _ hopen => by cases hopen⟩
    rw [Line.lastCode_concat_of_code hcode]
    simpa [hends] using hcloses
  | false =>
    -- the region goes on
    refine ⟨fun hnormal => ?_, h.terminator_eq⟩
    have hstill : ctx.mode = .normal := hnormal
    rw [hmode] at hstill
    cases hstill

/-- Behind a line that the rules see, the context knows whether it ends a statement, unless it opens a
region. -/
theorem statementStart_contextAfter (hcode : Line.holdsCode raw = true)
    (hnormal : (contextAfter ctx.advance (Line.code raw) (c.emitted ctx raw)
      (c.pass ctx raw)).mode = .normal) :
    (contextAfter ctx.advance (Line.code raw) (c.emitted ctx raw)
      (c.pass ctx raw)).statementStart = Line.endsStatement raw := by
  rw [mode_contextAfter] at hnormal
  rw [Line.endsStatement, hcode, Bool.true_and, contextAfter]
  cases hcontrol : (c.pass ctx raw).control with
  | proceed => rfl
  | endLine => rfl
  | suppress t =>
    rw [hcontrol] at hnormal
    cases hnormal

theorem aligned_contextNext_of_ruled (regular : ∀ rule ∈ c.rules.all, rule.Regular)
    (htreat : Line.treatment ctx raw = .ruled) :
    Aligned (lines ++ [raw]) (c.contextNext ctx raw) := by
  obtain ⟨hcode, hmode⟩ := Line.treatment_eq_ruled.1 htreat
  rw [contextNext, htreat]
  dsimp only
  constructor
  · intro hnormal
    rw [statementStart_contextAfter hcode hnormal, Line.lastCode_concat_of_code hcode]
    simp
  · intro region hopen
    rw [mode_contextAfter] at hopen
    cases hcontrol : (c.pass ctx raw).control with
    | proceed => simp [hcontrol, hmode] at hopen
    | endLine => simp [hcontrol, hmode] at hopen
    | suppress t =>
      rw [hcontrol] at hopen
      obtain rfl := Mode.suppressing.inj hopen
      exact terminator_of_control_pass regular hcontrol

theorem aligned_contextNext (regular : ∀ rule ∈ c.rules.all, rule.Regular)
    (h : Aligned lines ctx) : Aligned (lines ++ [raw]) (c.contextNext ctx raw) := by
  cases htreat : Line.treatment ctx raw with
  | quiet =>
    have hcode := Line.treatment_eq_quiet.1 htreat
    rw [contextNext, htreat]
    refine ⟨fun hmode => ?_, h.terminator_eq⟩
    rw [Line.lastCode_concat_of_quiet hcode]
    exact h.statementStart_iff hmode
  | suppressed region => exact aligned_contextNext_of_suppressed htreat h
  | ruled => exact aligned_contextNext_of_ruled regular htreat

theorem aligned_contextBehind (regular : ∀ rule ∈ c.rules.all, rule.Regular)
    (name : Option String) (lines : List (List Char)) :
    Aligned lines (c.contextBehind (.start name) lines) := by
  induction lines using List.reverseRecOn with
  | nil => exact aligned_start name
  | append_singleton lines raw ih =>
    rw [contextBehind_append]
    exact aligned_contextNext regular ih

/-! ### The rule for `SET` -/

theorem statementStart_of_sessionSet {line : List Char} {edit : Edit}
    (h : Rule.sessionSet.edit? ctx line = some edit) : ctx.statementStart = true := by
  by_contra hstart
  rw [Rule.sessionSet] at h
  dsimp only at h
  rw [if_neg hstart] at h
  cases h

theorem sessionSet_eq_none_iff :
    (∀ line, Rule.sessionSet.edit? ctx line = none) ↔ ctx.statementStart = false := by
  constructor
  · intro h
    by_contra hstart
    rw [Bool.not_eq_false] at hstart
    -- at the start of a statement, there is a line that the rule discards
    have hline := h "SET a = 1;".toList
    rw [Rule.sessionSet] at hline
    dsimp only at hline
    rw [if_pos hstart] at hline
    revert hline
    decide +kernel
  · intro hstart line
    by_contra hedit
    obtain ⟨edit, hedit⟩ := Option.ne_none_iff_exists'.1 hedit
    rw [statementStart_of_sessionSet hedit] at hstart
    cases hstart

/-- Only at the start of a statement is a `SET` discarded. -/
theorem statementStart_of_hit {disabled : List String} {showRemarks : Bool}
    (h : Rule.sessionSet.id ∈
      ((⟨.without disabled, showRemarks⟩ : Converter).pass ctx raw).hits) :
    ctx.statementStart = true := by
  refine applyRules_induction (c := ⟨.without disabled, showRemarks⟩)
    (motive := fun _ _ hits => Rule.sessionSet.id ∈ hits → ctx.statementStart = true)
    ?_ (fun _ _ _ _ h => h) (fun h => absurd h List.not_mem_nil) h
  intro line remark hits rule hrule edit hedit hbefore hid
  rcases List.mem_append.1 hid with hid | hid
  · exact hbefore hid
  · obtain rfl : Rule.sessionSet = rule :=
      RuleSet.eq_of_id_eq (List.mem_append_left _ (by simp [RuleSet.standard]))
        (RuleSet.mem_standard_of_mem_without hrule) (List.mem_singleton.1 hid)
    exact statementStart_of_sessionSet hedit

/-- **When a `SET` behind an unfinished statement is left alone.**  Outside regions, a line counts as
the start of a statement if the last line of code above it, if any, has a semicolon outside its
literals; only then is a `SET` discarded.  So behind an unfinished statement the rule leaves every
line alone if and only if the last line of code has no such semicolon.  It may have one: before the
beginning of the unfinished statement, or in a literal that goes on from a line above. -/
theorem sessionSet_behind_pending (disabled : List String) (showRemarks : Bool)
    (name : Option String) (above : List (List Char)) :
    let c : Converter := ⟨.without disabled, showRemarks⟩
    let ctx := (c.runLines name above).context
    (ctx.mode = .normal →
      (ctx.statementStart = true ↔
        ∀ last ∈ Line.lastCode above, Line.endsStatement last = true)) ∧
    (∀ raw, Rule.sessionSet.id ∈ (c.pass ctx raw).hits → ctx.statementStart = true) ∧
    (ctx.mode = .normal →
      Line.isBlank (c.pendingBehind (.start name) .none above).text = false →
      ((∀ line, Rule.sessionSet.edit? ctx.advance line = none) ↔
        ∃ last, Line.lastCode above = some last ∧ Line.endsStatement last = false)) := by
  intro c ctx
  have hctx : ctx = c.contextBehind (.start name) above := by
    change (c.runLines name above).context = _
    rw [runLines_eq]
  have aligned : Aligned above ctx :=
    hctx ▸ aligned_contextBehind (fun _ => RuleSet.regular_of_mem_without) name above
  refine ⟨aligned.statementStart_iff, fun raw => statementStart_of_hit, ?_⟩
  intro hmode hpending
  obtain ⟨last, hlast⟩ : ∃ last, Line.lastCode above = some last := by
    rw [← Option.ne_none_iff_exists']
    intro hnone
    rw [pendingBehind_of_quiet (Line.forall_quiet_of_lastCode_eq_none hnone)] at hpending
    cases hpending
  have hstart := aligned.statementStart_iff hmode
  simp only [hlast, Option.mem_some_iff, forall_eq'] at hstart
  have hadvance : ctx.advance.statementStart = ctx.statementStart := rfl
  rw [sessionSet_eq_none_iff, hadvance, ← Bool.not_eq_true, hstart, Bool.not_eq_true]
  exact ⟨fun hends => ⟨last, hlast, hends⟩, fun ⟨own, hown, hends⟩ => by
    rwa [Option.some.inj (hlast.symm.trans hown)]⟩

/-- The `SET` of an `UPDATE` that has a line of its own is left alone. -/
theorem sessionSet_behind_update :
    let c : Converter := ⟨.without [], true⟩
    let above := ["SELECT 1;".toList, "UPDATE t".toList, "-- new prices".toList]
    Rule.sessionSet.edit? (c.runLines none above).context.advance "SET a = 1;".toList = none :=
  ((sessionSet_behind_pending [] true none
    ["SELECT 1;".toList, "UPDATE t".toList, "-- new prices".toList]).2.2
    (by decide +kernel) (by decide +kernel)).2
    ⟨"UPDATE t".toList, by decide +kernel, by decide +kernel⟩ "SET a = 1;".toList

/-- The `SET` of an `UPDATE` is discarded if a statement ends on the line where the `UPDATE` starts,
or if a literal with a semicolon goes on to that line. -/
theorem sessionSet_discards_update :
    let c : Converter := ⟨.standard, true⟩
    let set := "SET a = 1;".toList
    let sameLine := ["SELECT 1; UPDATE t".toList]
    let literal := ["UPDATE t".toList, "-- o'clock".toList, "FROM u WHERE b = 'x".toList,
      "y; z'".toList]
    (∀ above ∈ [sameLine, literal],
      (c.runLines none above).context.mode = .normal ∧
      Line.isBlank (c.pendingBehind (.start none) .none above).text = false ∧
      Rule.sessionSet.id ∈ (c.pass (c.runLines none above).context set).hits) ∧
    (c.convert ⟨none, sameLine ++ [set]⟩).texts =
      ["SELECT 1; UPDATE t".toList, "\t\t--// SET a = 1;".toList] := by
  decide +kernel

end Converter

end SqlDialect
