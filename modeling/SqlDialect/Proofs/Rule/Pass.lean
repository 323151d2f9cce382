import SqlDialect.Document.Converter
import SqlDialect.Proofs.Rule.Regular

/-!
# What the rules leave behind

* `Converter.hits_applyRules_eq_nil_iff` : the rules change nothing if and only if none of them
  has an edit for the line.
* `Pass.exists_of_mem_hits` : a rule that was hit has seen the line that the rules before it left.
* `Converter.line_applyRules_of_hits` : a line that no rule has changed is as it was.
* `Converter.isEmpty_remark_applyRules` : with regular rules, every change leaves something in the
  remark.
* `Converter.terminator_of_control_applyRules` : with regular rules, only the end of the statement
  ends a suppression region.
* `Converter.applyRules_congr` : contexts that no rule tells apart give the same line.

The first two and the last are inductions on the list of rules.  The others hold of what starts out
right and stays right with every edit (`Pass.run_induction`, `Repetition.run_induction`).
-/

namespace SqlDialect

/-! ### Remarks that grow -/

theorem Text.isSuffix_joinWith (separator : List Char) (pieces : List (List Char))
    (last : List Char) : last <:+ joinWith separator (pieces ++ [last]) := by
  induction pieces with
  | nil => exact List.suffix_refl _
  | cons piece pieces ih =>
    obtain ⟨next, rest, hnext⟩ : ∃ next rest, pieces ++ [last] = next :: rest :=
      List.exists_cons_of_ne_nil (by simp)
    rw [List.cons_append, hnext, joinWith, ← hnext]
    · exact ih.trans (List.suffix_append _ _)
    · simp

namespace Remark

theorem push_of_ne_nil {remark : Remark} {fragment : List Char} (h : fragment ≠ []) :
    remark.push fragment = ⟨remark.fragments ++ [fragment]⟩ := by
  rw [push, if_neg (by simpa using h)]

theorem isEmpty_push_of_ne_nil {remark : Remark} {fragment : List Char} (h : fragment ≠ []) :
    (remark.push fragment).isEmpty = false := by
  simp [push_of_ne_nil h, isEmpty]

/-- A remark with something in it does not become empty. -/
theorem isEmpty_push {remark : Remark} {fragment : List Char} (h : remark.isEmpty = false) :
    (remark.push fragment).isEmpty = false := by
  rw [push]
  split
  · exact h
  · simp [isEmpty]

/-- A remark ends with the last fragment that was added to it. -/
theorem isSuffix_text_push (remark : Remark) {fragment : List Char} (h : fragment ≠ []) :
    fragment <:+ (remark.push fragment).text := by
  rw [push_of_ne_nil h, text]
  exact Text.isSuffix_joinWith _ _ _

theorem ofFragments_singleton (fragment : List Char) :
    ofFragments [fragment] = empty.push fragment := rfl

end Remark

/-! ### Rules that see the line once -/

namespace Pass

variable {ctx : Context}

/-- What holds of a pass and stays so with every edit of the rules holds when they are through. -/
theorem run_induction {motive : Pass → Prop} {rules : List Rule}
    (edited : ∀ pass, ∀ rule ∈ rules, ∀ edit, rule.edit? ctx pass.line = some edit → motive pass →
      motive (pass.apply rule edit))
    {pass : Pass} (start : motive pass) : motive (run ctx pass rules) := by
  induction rules generalizing pass with
  | nil => exact start
  | cons rule rest ih =>
    have ih := @ih fun p r hr => edited p r (List.mem_cons_of_mem _ hr)
    rw [run]
    split
    · exact ih start
    · rename_i edit hedit
      have next := edited pass rule List.mem_cons_self edit hedit start
      split
      · exact ih next
      · exact next

theorem hits_run_eq_nil_iff (pass : Pass) (rules : List Rule) :
    (run ctx pass rules).hits = [] ↔
      pass.hits = [] ∧ ∀ rule ∈ rules, rule.edit? ctx pass.line = none := by
  induction rules generalizing pass with
  | nil => simp [run]
  | cons rule rest ih =>
    rw [run, List.forall_mem_cons]
    cases hedit : rule.edit? ctx pass.line with
    | none => simp [ih]
    | some edit =>
      -- an edit is recorded, and the rules after it take nothing back
      have hit : (pass.apply rule edit).hits ≠ [] := by simp [apply]
      by_cases hcontrol : edit.control = .proceed
      · simp [hcontrol, ih, hit]
      · simp [hcontrol, hit]

/-- A pass that changes nothing. -/
theorem run_eq_self {pass : Pass} {rules : List Rule}
    (h : ∀ rule ∈ rules, rule.edit? ctx pass.line = none) : run ctx pass rules = pass := by
  induction rules with
  | nil => rfl
  | cons rule rest ih =>
    rw [run, h rule List.mem_cons_self]
    exact ih fun r hr => h r (List.mem_cons_of_mem _ hr)

section Hits

variable {pass : Pass} {rule : Rule} {edit : Edit} (rest : List Rule)

theorem run_cons_of_none (h : rule.edit? ctx pass.line = none) :
    run ctx pass (rule :: rest) = run ctx pass rest := by
  rw [run, h]

theorem run_cons_of_proceed (h : rule.edit? ctx pass.line = some edit)
    (hcontrol : edit.control = .proceed) :
    run ctx pass (rule :: rest) = run ctx (pass.apply rule edit) rest := by
  rw [run, h]
  exact if_pos hcontrol

theorem run_cons_of_ne_proceed (h : rule.edit? ctx pass.line = some edit)
    (hcontrol : edit.control ≠ .proceed) :
    run ctx pass (rule :: rest) = pass.apply rule edit := by
  rw [run, h]
  exact if_neg hcontrol

/-- A rule that was hit has seen the line that the rules before it left, and no rule sees the line
behind an edit that ends it. -/
theorem exists_of_mem_hits {rules : List Rule} {id : String} (h : id ∈ (run ctx pass rules).hits)
    (hnew : id ∉ pass.hits) :
    ∃ before rule after edit, rules = before ++ rule :: after ∧ rule.id = id ∧
      rule.edit? ctx (run ctx pass before).line = some edit ∧
      (edit.control ≠ .proceed →
        run ctx pass rules = (run ctx pass before).apply rule edit) := by
  induction rules generalizing pass with
  | nil => exact absurd h hnew
  | cons rule rest ih =>
    cases hedit : rule.edit? ctx pass.line with
    | none =>
      rw [run_cons_of_none _ hedit] at h ⊢
      obtain ⟨before, own, after, edit, hrules, hid, hown, hlast⟩ := ih h hnew
      refine ⟨rule :: before, own, after, edit, by rw [hrules]; rfl, hid, ?_, ?_⟩
      · rwa [run_cons_of_none _ hedit]
      · rwa [run_cons_of_none _ hedit]
    | some edit =>
      -- the rule is this one, or it is one behind it in the line that this one leaves
      by_cases hid : rule.id = id
      · exact ⟨[], rule, rest, edit, rfl, hid, hedit, run_cons_of_ne_proceed _ hedit⟩
      · have hnext : id ∉ (pass.apply rule edit).hits := by
          rw [apply, List.mem_append, List.mem_singleton]
          rintro (hold | hown)
          · exact hnew hold
          · exact hid hown.symm
        have hcontrol : edit.control = .proceed := by
          by_contra hcontrol
          rw [run_cons_of_ne_proceed _ hedit hcontrol] at h
          exact hnext h
        rw [run_cons_of_proceed _ hedit hcontrol] at h ⊢
        obtain ⟨before, own, after, edit', hrules, hid, hown, hlast⟩ := ih h hnext
        refine ⟨rule :: before, own, after, edit', by rw [hrules]; rfl, hid, ?_, ?_⟩
        · rwa [run_cons_of_proceed _ hedit hcontrol]
        · rwa [run_cons_of_proceed _ hedit hcontrol]

end Hits

/-- Contexts in which all rules make the same edits give the same pass. -/
theorem run_congr {a b : Context} {rules : List Rule}
    (h : ∀ rule ∈ rules, rule.edit? a = rule.edit? b) (pass : Pass) :
    run a pass rules = run b pass rules := by
  induction rules generalizing pass with
  | nil => rfl
  | cons rule rest ih =>
    have ih := ih fun r hr => h r (List.mem_cons_of_mem _ hr)
    rw [run, run, h rule List.mem_cons_self]
    split
    · exact ih _
    · rw [ih]

end Pass

/-! ### Rules that see the line again and again -/

namespace Repetition

/-- The state after a rule has seen the line. -/
def visit (ctx : Context) (state : Repetition) (rule : Rule) : Repetition :=
  match rule.edit? ctx state.line with
  | none => state
  | some edit =>
    { state with
      line := edit.line
      remark := state.remark.push edit.note
      hits := state.hits ++ [rule.id] }

variable {ctx : Context}

theorem onePass_eq_foldl (rules : List Rule) (state : Repetition) :
    onePass ctx rules state =
      rules.foldl (visit ctx) { state with passes := state.passes + 1 } := rfl

section Induction

variable {motive : List Char → Remark → List String → Prop} {rules : List Rule}

theorem foldl_visit_induction
    (edited : ∀ line remark hits, ∀ rule ∈ rules, ∀ edit, rule.edit? ctx line = some edit →
      motive line remark hits → motive edit.line (remark.push edit.note) (hits ++ [rule.id]))
    {state : Repetition} (start : motive state.line state.remark state.hits) :
    motive (rules.foldl (visit ctx) state).line (rules.foldl (visit ctx) state).remark
      (rules.foldl (visit ctx) state).hits := by
  induction rules generalizing state with
  | nil => exact start
  | cons rule rest ih =>
    refine ih (fun line remark hits r hr =>
      edited line remark hits r (List.mem_cons_of_mem _ hr)) ?_
    rw [visit]
    split
    · exact start
    · rename_i edit hedit
      exact edited _ _ _ rule List.mem_cons_self edit hedit start

/-- What holds of a line, its remark and its hits, and stays so with every edit of the rules and
with the note on their limit, holds after any number of passes. -/
theorem run_induction
    (edited : ∀ line remark hits, ∀ rule ∈ rules, ∀ edit, rule.edit? ctx line = some edit →
      motive line remark hits → motive edit.line (remark.push edit.note) (hits ++ [rule.id]))
    (limited : ∀ line remark hits note, motive line remark hits →
      motive line (remark.push note) hits)
    {line : List Char} {remark : Remark} (start : motive line remark []) :
    motive (run ctx rules line remark).line (run ctx rules line remark).remark
      (run ctx rules line remark).hits := by
  rw [run]
  split
  · exact start
  · generalize passLimit rules.length line = remaining
    generalize hstate : (⟨line, remark, [], 0, true⟩ : Repetition) = state
    replace start : motive state.line state.remark state.hits := by rw [← hstate]; exact start
    clear hstate
    induction remaining generalizing state with
    | zero =>
      rw [passesUpTo]
      dsimp only
      exact limited _ _ _ _ start
    | succ remaining ih =>
      have next : motive (onePass ctx rules state).line (onePass ctx rules state).remark
          (onePass ctx rules state).hits := by
        rw [onePass_eq_foldl]
        exact foldl_visit_induction edited start
      rw [passesUpTo]
      split
      · exact next
      · exact ih _ next

end Induction

/-- The hits of a repetition are hits of its rules. -/
theorem mem_ids_of_mem_hits {rules : List Rule} {line : List Char}
    {remark : Remark} {id : String} (h : id ∈ (run ctx rules line remark).hits) :
    id ∈ rules.map Rule.id := by
  refine run_induction (motive := fun _ _ hits => ∀ id ∈ hits, id ∈ rules.map Rule.id)
    ?_ ?_ ?_ id h
  · intro line remark hits rule hrule edit _ hhits id hid
    rcases List.mem_append.1 hid with hid | hid
    · exact hhits id hid
    · rw [List.mem_singleton.1 hid]
      exact List.mem_map_of_mem hrule
  · intro line remark hits note hhits
    exact hhits
  · intro id hid
    cases hid

theorem hits_foldl_visit_eq_nil_iff (rules : List Rule) (state : Repetition) :
    (rules.foldl (visit ctx) state).hits = [] ↔
      state.hits = [] ∧ ∀ rule ∈ rules, rule.edit? ctx state.line = none := by
  induction rules generalizing state with
  | nil => simp
  | cons rule rest ih =>
    rw [List.foldl_cons, List.forall_mem_cons, ih]
    cases hedit : rule.edit? ctx state.line with
    | none => simp [visit, hedit]
    | some edit => simp [visit, hedit]

theorem hits_onePass_eq_nil_iff (rules : List Rule) (state : Repetition) :
    (onePass ctx rules state).hits = [] ↔
      state.hits = [] ∧ ∀ rule ∈ rules, rule.edit? ctx state.line = none := by
  rw [onePass_eq_foldl, hits_foldl_visit_eq_nil_iff]

theorem hits_eq_nil_of_passesUpTo {rules : List Rule} {remaining : Nat} {state : Repetition}
    (h : (passesUpTo ctx rules remaining state).hits = []) : state.hits = [] := by
  induction remaining generalizing state with
  | zero => exact h
  | succ remaining ih =>
    rw [passesUpTo] at h
    split at h
    · exact ((hits_onePass_eq_nil_iff rules state).1 h).1
    · exact ((hits_onePass_eq_nil_iff rules state).1 (ih h)).1

theorem passLimit_pos {ruleCount : Nat} (h : ruleCount ≠ 0) (line : List Char) :
    0 < passLimit ruleCount line := by
  have hmin : 0 < min (Text.octets line / ruleCount + 2) maxPasses :=
    Nat.lt_min.2 ⟨Nat.succ_pos _, by decide⟩
  simpa [passLimit, h] using hmin

theorem hits_run_eq_nil_iff (rules : List Rule) (line : List Char) (remark : Remark) :
    (run ctx rules line remark).hits = [] ↔ ∀ rule ∈ rules, rule.edit? ctx line = none := by
  rw [run]
  by_cases hrules : rules = []
  · simp [hrules]
  · rw [if_neg (by simpa using hrules)]
    -- the first pass already tells
    obtain ⟨remaining, hremaining⟩ := Nat.exists_eq_succ_of_ne_zero
      (passLimit_pos (fun h => hrules (List.length_eq_zero_iff.1 h)) line).ne'
    have first : (onePass ctx rules ⟨line, remark, [], 0, true⟩).hits = [] ↔
        ∀ rule ∈ rules, rule.edit? ctx line = none := by
      rw [hits_onePass_eq_nil_iff]
      simp
    rw [hremaining, passesUpTo]
    constructor
    · intro h
      split at h
      · exact first.1 h
      · exact first.1 (hits_eq_nil_of_passesUpTo h)
    · intro h
      rw [if_pos (by simp [first.2 h])]
      exact first.2 h

section Contexts

variable {a b : Context} {rules : List Rule}

theorem onePass_congr (h : ∀ rule ∈ rules, rule.edit? a = rule.edit? b) (state : Repetition) :
    onePass a rules state = onePass b rules state := by
  rw [onePass_eq_foldl, onePass_eq_foldl]
  refine List.foldl_ext _ _ _ fun state rule hrule => ?_
  rw [visit, visit, h rule hrule]

theorem passesUpTo_congr (h : ∀ rule ∈ rules, rule.edit? a = rule.edit? b) (remaining : Nat)
    (state : Repetition) :
    passesUpTo a rules remaining state = passesUpTo b rules remaining state := by
  induction remaining generalizing state with
  | zero => rfl
  | succ remaining ih => rw [passesUpTo, passesUpTo, onePass_congr h, ih]

/-- Contexts in which all rules make the same edits give the same repetition. -/
theorem run_congr (h : ∀ rule ∈ rules, rule.edit? a = rule.edit? b) (line : List Char)
    (remark : Remark) : run a rules line remark = run b rules line remark := by
  rw [run, run, passesUpTo_congr h]

end Contexts

end Repetition

/-! ### All rules -/

namespace Converter

variable {c : Converter} {ctx : Context} {code : List Char} {remark : Remark}

/-- The pass of the rules that are applied once. -/
def oncePass (c : Converter) (ctx : Context) (code : List Char) (remark : Remark) : Pass :=
  Pass.run ctx ⟨code, remark, [], .proceed, false⟩ c.rules.once

/-- The passes of the repeated rules behind it. -/
def repetition (c : Converter) (ctx : Context) (code : List Char) (remark : Remark) : Repetition :=
  Repetition.run ctx c.rules.repeated (c.oncePass ctx code remark).line
    (c.oncePass ctx code remark).remark

theorem applyRules_eq_ite : (c.applyRules ctx code remark).1 =
    if (c.oncePass ctx code remark).control = .proceed then
      { c.oncePass ctx code remark with
        line := (c.repetition ctx code remark).line
        remark := (c.repetition ctx code remark).remark
        hits := (c.oncePass ctx code remark).hits ++ (c.repetition ctx code remark).hits }
    else c.oncePass ctx code remark := by
  have once : Pass.run ctx ⟨code, remark, [], .proceed, false⟩ c.rules.once =
    c.oncePass ctx code remark := rfl
  rw [applyRules, once]
  split
  · rfl
  · rfl

/-- What holds of a line, its remark and its hits, and stays so with every edit and every note,
holds when all rules are through. -/
theorem applyRules_induction {motive : List Char → Remark → List String → Prop}
    (edited : ∀ line remark hits, ∀ rule ∈ c.rules.all, ∀ edit, rule.edit? ctx line = some edit →
      motive line remark hits → motive edit.line (remark.push edit.note) (hits ++ [rule.id]))
    (limited : ∀ line remark hits note, motive line remark hits →
      motive line (remark.push note) hits)
    (start : motive code remark []) :
    motive (c.applyRules ctx code remark).1.line (c.applyRules ctx code remark).1.remark
      (c.applyRules ctx code remark).1.hits := by
  have once : motive (c.oncePass ctx code remark).line (c.oncePass ctx code remark).remark
      (c.oncePass ctx code remark).hits :=
    Pass.run_induction (motive := fun pass => motive pass.line pass.remark pass.hits)
      (fun pass rule hrule => edited _ _ _ rule (List.mem_append_left _ hrule)) start
  rw [applyRules_eq_ite]
  split
  · refine Repetition.run_induction
      (motive := fun line remark' hits =>
        motive line remark' ((c.oncePass ctx code remark).hits ++ hits)) ?_ ?_ ?_
    · intro line remark' hits rule hrule edit hedit h
      rw [← List.append_assoc]
      exact edited _ _ _ rule (List.mem_append_right _ hrule) edit hedit h
    · intro line remark' hits note h
      exact limited _ _ _ _ h
    · rw [List.append_nil]
      exact once
  · exact once

/-- The rules change nothing if and only if none of them has an edit for the line. -/
theorem hits_applyRules_eq_nil_iff :
    (c.applyRules ctx code remark).1.hits = [] ↔
      ∀ rule ∈ c.rules.all, rule.edit? ctx code = none := by
  have once : (c.oncePass ctx code remark).hits = [] ↔
      ∀ rule ∈ c.rules.once, rule.edit? ctx code = none := by
    rw [oncePass, Pass.hits_run_eq_nil_iff]
    simp
  rw [RuleSet.all, List.forall_mem_append, ← once, applyRules_eq_ite]
  by_cases h : (c.oncePass ctx code remark).hits = []
  · -- the repeated rules see the line as it came
    have hpass : c.oncePass ctx code remark = ⟨code, remark, [], .proceed, false⟩ :=
      Pass.run_eq_self (once.1 h)
    have again : (c.repetition ctx code remark).hits = [] ↔
        ∀ rule ∈ c.rules.repeated, rule.edit? ctx code = none := by
      rw [repetition, Repetition.hits_run_eq_nil_iff, hpass]
    rw [if_pos (by rw [hpass]), List.append_eq_nil_iff, again]
  · split
    · simp [h]
    · simp [h]

/-- A line that no rule has changed is as it was. -/
theorem line_applyRules_of_hits (h : (c.applyRules ctx code remark).1.hits = []) :
    (c.applyRules ctx code remark).1.line = code :=
  applyRules_induction (motive := fun line _ hits => hits = [] → line = code)
    (fun _ _ _ _ _ _ _ _ h => absurd h (by simp)) (fun _ _ _ _ h => h) (fun _ => rfl) h

/-- With regular rules, every change leaves something in the remark. -/
theorem isEmpty_remark_applyRules (regular : ∀ rule ∈ c.rules.all, rule.Regular)
    (h : (c.applyRules ctx code remark).1.hits ≠ [] ∨ remark.isEmpty = false) :
    (c.applyRules ctx code remark).1.remark.isEmpty = false := by
  refine applyRules_induction (motive := fun _ now hits =>
    hits ≠ [] ∨ remark.isEmpty = false → now.isEmpty = false) ?_ ?_ ?_ h
  · intro line now hits rule hrule edit hedit _ _
    exact Remark.isEmpty_push_of_ne_nil
      (Line.ne_nil_of_isBlank_eq_false (regular rule hrule hedit).note_visible)
  · intro line now hits note hnow h
    exact Remark.isEmpty_push (hnow h)
  · rintro (h | h)
    · exact absurd rfl h
    · exact h

/-- Contexts in which all rules make the same edits give the same line. -/
theorem applyRules_congr {a b : Context} (h : ∀ rule ∈ c.rules.all, rule.edit? a = rule.edit? b)
    (code : List Char) (remark : Remark) :
    c.applyRules a code remark = c.applyRules b code remark := by
  have once : ∀ rule ∈ c.rules.once, rule.edit? a = rule.edit? b :=
    fun rule hrule => h rule (List.mem_append_left _ hrule)
  have repeated : ∀ rule ∈ c.rules.repeated, rule.edit? a = rule.edit? b :=
    fun rule hrule => h rule (List.mem_append_right _ hrule)
  simp only [applyRules, Pass.run_congr once, Repetition.run_congr repeated]

theorem control_applyRules :
    (c.applyRules ctx code remark).1.control = (c.oncePass ctx code remark).control := by
  rw [applyRules_eq_ite]
  split
  · rfl
  · rfl

/-- With regular rules, only the end of the statement ends a suppression region. -/
theorem terminator_of_control_applyRules (regular : ∀ rule ∈ c.rules.all, rule.Regular)
    {t : Terminator} (h : (c.applyRules ctx code remark).1.control = .suppress t) :
    t = .statement := by
  rw [control_applyRules] at h
  revert h
  refine Pass.run_induction
    (motive := fun pass => pass.control = .suppress t → t = .statement) ?_ ?_
  · intro pass rule hrule edit hedit _ h
    exact (regular rule (List.mem_append_left _ hrule) hedit).terminator_eq h
  · intro h
    cases h

end Converter

end SqlDialect
