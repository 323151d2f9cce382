import Mathlib.Data.Nat.Find
import Mathlib.Logic.Function.Iterate
import SqlDialect.Proofs.Rule.Pass

/-!
# When repeated rules come to rest

A pass of the repeated rules makes a `sweep` of the line.  The passes end with the first one that
finds the line at rest (`Repetition.passesUpTo_of_rests`) or, if there is none among those that the
limit allows, with the limit (`Repetition.passesUpTo_of_busy`).

`Repetition.converged_iff_rests` says when the passes are reported to have converged: no rule has an
edit for the line that they leave, and it was not the very last pass allowed that brought the line
to rest.  In that one case the limit is reported although nothing is left to be done.
-/

namespace SqlDialect

namespace Repetition

/-- The line after every rule has seen it once. -/
def sweep (ctx : Context) (rules : List Rule) (line : List Char) : List Char :=
  rules.foldl (fun line rule => ((rule.edit? ctx line).map Edit.line).getD line) line

/-- No rule has an edit for the line. -/
def Rests (ctx : Context) (rules : List Rule) (line : List Char) : Prop :=
  ∀ rule ∈ rules, rule.edit? ctx line = none

/-- The last pass that the limit allows is the one that brings the line to rest. -/
def RestsAtLimit (ctx : Context) (rules : List Rule) (line : List Char) : Prop :=
  ∃ last, passLimit rules.length line = last + 1 ∧
    ¬Rests ctx rules ((sweep ctx rules)^[last] line) ∧
    Rests ctx rules ((sweep ctx rules)^[last + 1] line)

/-- What a remark says when the limit has been reached. -/
def limitNote (limit : Nat) : List Char :=
  "repeat limit of ".toList ++ (toString limit).toList ++ " passes reached".toList

variable {ctx : Context} {rules : List Rule}

/-! ### One pass -/

theorem line_visit (state : Repetition) (rule : Rule) :
    (visit ctx state rule).line = ((rule.edit? ctx state.line).map Edit.line).getD state.line := by
  rw [visit]
  cases rule.edit? ctx state.line with
  | none => rfl
  | some edit => rfl

theorem line_foldl_visit (rules : List Rule) (state : Repetition) :
    (rules.foldl (visit ctx) state).line = sweep ctx rules state.line := by
  induction rules generalizing state with
  | nil => rfl
  | cons rule rest ih => rw [List.foldl_cons, ih, line_visit]; rfl

theorem line_onePass (state : Repetition) :
    (onePass ctx rules state).line = sweep ctx rules state.line := by
  rw [onePass_eq_foldl, line_foldl_visit]

theorem foldl_visit_frame (rules : List Rule) (state : Repetition) :
    (rules.foldl (visit ctx) state).passes = state.passes ∧
      (rules.foldl (visit ctx) state).converged = state.converged := by
  induction rules generalizing state with
  | nil => exact ⟨rfl, rfl⟩
  | cons rule rest ih =>
    have hvisit : (visit ctx state rule).passes = state.passes ∧
        (visit ctx state rule).converged = state.converged := by
      rw [visit]
      cases rule.edit? ctx state.line with
      | none => exact ⟨rfl, rfl⟩
      | some edit => exact ⟨rfl, rfl⟩
    rw [List.foldl_cons, (ih _).1, (ih _).2]
    exact hvisit

theorem passes_onePass (state : Repetition) :
    (onePass ctx rules state).passes = state.passes + 1 := by
  rw [onePass_eq_foldl, (foldl_visit_frame ..).1]

theorem converged_onePass (state : Repetition) :
    (onePass ctx rules state).converged = state.converged := by
  rw [onePass_eq_foldl, (foldl_visit_frame ..).2]

/-- Every edit is one more hit, with one note in the remark. -/
theorem exists_notes_foldl_visit (ctx : Context) (rules : List Rule) (state : Repetition) :
    ∃ notes : List (List Char),
      (rules.foldl (visit ctx) state).hits.length = state.hits.length + notes.length ∧
      (rules.foldl (visit ctx) state).remark = notes.foldl Remark.push state.remark ∧
      (notes = [] ↔ Rests ctx rules state.line) := by
  induction rules generalizing state with
  | nil => exact ⟨[], rfl, rfl, by simp [Rests]⟩
  | cons rule rest ih =>
    obtain ⟨notes, hhits, hremark, hnil⟩ := ih (visit ctx state rule)
    rw [List.foldl_cons, hhits, hremark]
    cases hedit : rule.edit? ctx state.line with
    | none =>
      have hvisit : visit ctx state rule = state := by rw [visit, hedit]
      rw [hvisit] at hnil ⊢
      exact ⟨notes, rfl, rfl, by simpa [Rests, hedit] using hnil⟩
    | some edit =>
      refine ⟨edit.note :: notes, ?_, ?_, ?_⟩
      · simp [visit, hedit]
        omega
      · simp [visit, hedit]
      · simp [Rests, hedit]

/-- A pass hits something unless it finds the line at rest. -/
theorem length_hits_onePass_eq_iff (state : Repetition) :
    (onePass ctx rules state).hits.length = state.hits.length ↔ Rests ctx rules state.line := by
  rw [onePass_eq_foldl]
  obtain ⟨notes, hhits, -, hnil⟩ :=
    exists_notes_foldl_visit ctx rules { state with passes := state.passes + 1 }
  rw [hhits, ← hnil]
  simp

theorem sweep_cons_of_eq_none {rule : Rule} {line : List Char} (h : rule.edit? ctx line = none) :
    sweep ctx (rule :: rules) line = sweep ctx rules line := by
  rw [sweep, List.foldl_cons, h]
  rfl

theorem sweep_cons_of_eq_some {rule : Rule} {line : List Char} {edit : Edit}
    (h : rule.edit? ctx line = some edit) :
    sweep ctx (rule :: rules) line = sweep ctx rules edit.line := by
  rw [sweep, List.foldl_cons, h]
  rfl

theorem sweep_of_rests {line : List Char} (h : Rests ctx rules line) :
    sweep ctx rules line = line := by
  induction rules with
  | nil => rfl
  | cons rule rest ih =>
    rw [sweep_cons_of_eq_none (h rule List.mem_cons_self)]
    exact ih fun r hr => h r (List.mem_cons_of_mem _ hr)

/-- What has come to rest stays at rest. -/
theorem iterate_sweep_of_rests {line : List Char} {n m : Nat} (hnm : n ≤ m)
    (h : Rests ctx rules ((sweep ctx rules)^[n] line)) :
    (sweep ctx rules)^[m] line = (sweep ctx rules)^[n] line := by
  induction m, hnm using Nat.le_induction with
  | base => rfl
  | succ m _ ih => rw [Function.iterate_succ_apply', ih, sweep_of_rests h]

/-! ### All passes -/

theorem passesUpTo_succ_of_rests {state : Repetition} (remaining : Nat)
    (h : Rests ctx rules state.line) :
    passesUpTo ctx rules (remaining + 1) state = onePass ctx rules state := by
  rw [passesUpTo]
  exact if_pos (beq_iff_eq.2 ((length_hits_onePass_eq_iff state).2 h))

theorem passesUpTo_succ_of_not_rests {state : Repetition} (remaining : Nat)
    (h : ¬Rests ctx rules state.line) :
    passesUpTo ctx rules (remaining + 1) state =
      passesUpTo ctx rules remaining (onePass ctx rules state) := by
  rw [passesUpTo]
  exact if_neg fun heq => h ((length_hits_onePass_eq_iff state).1 (beq_iff_eq.1 heq))

/-- The passes end with the first one that finds the line at rest. -/
theorem passesUpTo_of_rests {n remaining : Nat} {state : Repetition} (hn : n < remaining)
    (busy : ∀ k < n, ¬Rests ctx rules ((sweep ctx rules)^[k] state.line))
    (rests : Rests ctx rules ((sweep ctx rules)^[n] state.line)) :
    (passesUpTo ctx rules remaining state).line = (sweep ctx rules)^[n] state.line ∧
      (passesUpTo ctx rules remaining state).passes = state.passes + n + 1 ∧
      (passesUpTo ctx rules remaining state).converged = state.converged := by
  induction n generalizing remaining state with
  | zero =>
    obtain ⟨remaining, rfl⟩ := Nat.exists_eq_succ_of_ne_zero hn.ne'
    rw [passesUpTo_succ_of_rests _ rests, line_onePass, passes_onePass, converged_onePass]
    exact ⟨sweep_of_rests rests, rfl, rfl⟩
  | succ n ih =>
    obtain ⟨remaining, rfl⟩ := Nat.exists_eq_succ_of_ne_zero (Nat.ne_zero_of_lt hn)
    rw [passesUpTo_succ_of_not_rests _ (busy 0 n.succ_pos)]
    obtain ⟨hline, hpasses, hconverged⟩ := @ih remaining (onePass ctx rules state)
      (Nat.lt_of_succ_lt_succ hn)
      (fun k hk => by rw [line_onePass]; exact busy (k + 1) (Nat.succ_lt_succ hk))
      (by rw [line_onePass]; exact rests)
    refine ⟨?_, ?_, ?_⟩
    · rw [hline, line_onePass, Function.iterate_succ_apply]
    · rw [hpasses, passes_onePass]
      omega
    · rw [hconverged, converged_onePass]

/-- A single rule hits once in every pass but the last. -/
theorem hits_passesUpTo_of_rests {rule : Rule} {n remaining : Nat} {state : Repetition}
    (hn : n < remaining) (busy : ∀ k < n, ¬Rests ctx [rule] ((sweep ctx [rule])^[k] state.line))
    (rests : Rests ctx [rule] ((sweep ctx [rule])^[n] state.line)) :
    (passesUpTo ctx [rule] remaining state).hits = state.hits ++ List.replicate n rule.id := by
  have hits (state : Repetition) : (onePass ctx [rule] state).hits =
      state.hits ++ if (rule.edit? ctx state.line).isSome then [rule.id] else [] := by
    rw [onePass_eq_foldl, List.foldl_cons, List.foldl_nil, visit]
    cases rule.edit? ctx state.line with
    | none => exact (List.append_nil _).symm
    | some edit => rfl
  have rests_iff (line : List Char) : Rests ctx [rule] line ↔ rule.edit? ctx line = none := by
    simp [Rests]
  induction n generalizing remaining state with
  | zero =>
    obtain ⟨remaining, rfl⟩ := Nat.exists_eq_succ_of_ne_zero hn.ne'
    have hnone : rule.edit? ctx state.line = none := (rests_iff _).1 rests
    rw [passesUpTo_succ_of_rests _ rests, hits, hnone]
    rfl
  | succ n ih =>
    obtain ⟨remaining, rfl⟩ := Nat.exists_eq_succ_of_ne_zero (Nat.ne_zero_of_lt hn)
    have hnot : ¬Rests ctx [rule] state.line := busy 0 n.succ_pos
    rw [passesUpTo_succ_of_not_rests _ hnot, @ih remaining (onePass ctx [rule] state)
      (Nat.lt_of_succ_lt_succ hn)
      (fun k hk => by rw [line_onePass]; exact busy (k + 1) (Nat.succ_lt_succ hk))
      (by rw [line_onePass]; exact rests), hits]
    obtain ⟨edit, hedit⟩ := Option.ne_none_iff_exists'.1 ((rests_iff _).not.1 hnot)
    rw [hedit, List.append_assoc]
    rfl

/-- Passes of which none finds the line at rest end with the limit. -/
theorem passesUpTo_of_busy {remaining : Nat} {state : Repetition}
    (busy : ∀ k < remaining, ¬Rests ctx rules ((sweep ctx rules)^[k] state.line)) :
    (passesUpTo ctx rules remaining state).line = (sweep ctx rules)^[remaining] state.line ∧
      (passesUpTo ctx rules remaining state).passes = state.passes + remaining ∧
      (passesUpTo ctx rules remaining state).converged = false := by
  induction remaining generalizing state with
  | zero => exact ⟨rfl, rfl, rfl⟩
  | succ remaining ih =>
    rw [passesUpTo_succ_of_not_rests _ (busy 0 remaining.succ_pos)]
    obtain ⟨hline, hpasses, hconverged⟩ := @ih (onePass ctx rules state)
      (fun k hk => by rw [line_onePass]; exact busy (k + 1) (Nat.succ_lt_succ hk))
    refine ⟨?_, ?_, hconverged⟩
    · rw [hline, line_onePass, Function.iterate_succ_apply]
    · rw [hpasses, passes_onePass]
      omega

/-- One note for each hit, and behind them the one on the limit if the passes did not converge. -/
theorem exists_notes_passesUpTo (ctx : Context) (rules : List Rule) (remaining : Nat)
    {state : Repetition} (converged : state.converged = true) :
    ∃ notes : List (List Char),
      (passesUpTo ctx rules remaining state).hits.length = state.hits.length + notes.length ∧
      (passesUpTo ctx rules remaining state).remark =
        (notes ++ if (passesUpTo ctx rules remaining state).converged then []
          else [limitNote (state.passes + remaining)]).foldl Remark.push state.remark := by
  induction remaining generalizing state with
  | zero => exact ⟨[], rfl, rfl⟩
  | succ remaining ih =>
    obtain ⟨own, hown, hremark, -⟩ :=
      exists_notes_foldl_visit ctx rules { state with passes := state.passes + 1 }
    rw [← onePass_eq_foldl] at hown hremark
    by_cases h : Rests ctx rules state.line
    · rw [passesUpTo_succ_of_rests _ h]
      refine ⟨own, hown, ?_⟩
      rw [hremark, converged_onePass, converged, if_pos rfl, List.append_nil]
    · rw [passesUpTo_succ_of_not_rests _ h]
      obtain ⟨later, hlater, hlast⟩ := @ih (onePass ctx rules state)
        (by rw [converged_onePass, converged])
      refine ⟨own ++ later, ?_, ?_⟩
      · rw [hlater, hown, List.length_append]
        exact Nat.add_assoc ..
      · rw [hlast, hremark, passes_onePass, ← List.foldl_append, List.append_assoc,
          Nat.add_assoc state.passes, Nat.add_comm 1 remaining]

/-! ### The limit -/

theorem length_le_octets (text : List Char) : text.length ≤ Text.octets text := by
  induction text with
  | nil => exact Nat.le_refl 0
  | cons c text ih =>
    have hsize := c.utf8Size_pos
    have hoctets : Text.octets (c :: text) = c.utf8Size + Text.octets text := rfl
    rw [List.length_cons, hoctets]
    omega

theorem passLimit_eq {ruleCount : Nat} (h : ruleCount ≠ 0) (line : List Char) :
    passLimit ruleCount line = min (Text.octets line / ruleCount + 2) maxPasses := by
  simp [passLimit, h]

/-! ### From the start -/

theorem run_eq_passesUpTo (h : rules ≠ []) (line : List Char) (remark : Remark) :
    run ctx rules line remark =
      passesUpTo ctx rules (passLimit rules.length line) ⟨line, remark, [], 0, true⟩ := by
  rw [run, if_neg (by simpa using h)]

/-- Either some pass within the limit finds the line at rest, or none does. -/
theorem exists_first_rest_or_busy (ctx : Context) (rules : List Rule) (line : List Char)
    (limit : Nat) :
    (∃ n < limit, (∀ k < n, ¬Rests ctx rules ((sweep ctx rules)^[k] line)) ∧
      Rests ctx rules ((sweep ctx rules)^[n] line)) ∨
    ∀ k < limit, ¬Rests ctx rules ((sweep ctx rules)^[k] line) := by
  by_cases h : ∃ n < limit, Rests ctx rules ((sweep ctx rules)^[n] line)
  · classical
    refine .inl ⟨Nat.find h, (Nat.find_spec h).1, fun k hk hrests => ?_, (Nat.find_spec h).2⟩
    exact Nat.find_min h hk ⟨hk.trans (Nat.find_spec h).1, hrests⟩
  · exact .inr fun k hk hrests => h ⟨k, hk, hrests⟩

/-- The passes converge if and only if no rule has an edit for the line that they leave and it was
not the last pass allowed that brought it to rest. -/
theorem converged_run_iff (line : List Char) (remark : Remark) :
    (run ctx rules line remark).converged = true ↔
      Rests ctx rules (run ctx rules line remark).line ∧ ¬RestsAtLimit ctx rules line := by
  by_cases hrules : rules = []
  · subst hrules
    refine iff_of_true rfl ⟨by simp [Rests], ?_⟩
    rintro ⟨last, -, hbusy, -⟩
    exact hbusy (by simp [Rests])
  · rw [run_eq_passesUpTo hrules]
    generalize hstate : (⟨line, remark, [], 0, true⟩ : Repetition) = state
    obtain rfl : state.line = line := by rw [← hstate]
    have hconverged : state.converged = true := by rw [← hstate]
    rcases exists_first_rest_or_busy ctx rules state.line
      (passLimit rules.length state.line) with ⟨n, hn, hbusy, hrests⟩ | hbusy
    · obtain ⟨hline, -, hresult⟩ := passesUpTo_of_rests hn hbusy hrests
      rw [hresult, hline]
      refine iff_of_true hconverged ⟨hrests, ?_⟩
      -- at rest before the last pass, and so at rest when it starts
      rintro ⟨last, hlast, hnot, -⟩
      have hle : n ≤ last := by omega
      rw [iterate_sweep_of_rests hle hrests] at hnot
      exact hnot hrests
    · obtain ⟨hline, -, hresult⟩ := passesUpTo_of_busy hbusy
      rw [hresult, hline]
      refine iff_of_false (by simp) ?_
      rintro ⟨hrests, hnot⟩
      obtain ⟨last, hlast⟩ := Nat.exists_eq_add_one_of_ne_zero
        (passLimit_pos (fun h => hrules (List.length_eq_zero_iff.1 h)) state.line).ne'
      rw [hlast] at hrests
      exact hnot ⟨last, hlast, hbusy last (by omega), hrests⟩

theorem exists_notes_run (line : List Char) (remark : Remark) :
    ∃ notes : List (List Char),
      notes.length = (run ctx rules line remark).hits.length ∧
      (run ctx rules line remark).remark =
        (notes ++ if (run ctx rules line remark).converged then []
          else [limitNote (passLimit rules.length line)]).foldl Remark.push remark := by
  by_cases hrules : rules = []
  · subst hrules
    exact ⟨[], rfl, rfl⟩
  · rw [run_eq_passesUpTo hrules]
    have start : (⟨line, remark, [], 0, true⟩ : Repetition).converged = true := rfl
    obtain ⟨notes, hhits, hremark⟩ :=
      exists_notes_passesUpTo ctx rules (passLimit rules.length line) start
    exact ⟨notes, by simpa using hhits.symm, by simpa using hremark⟩

end Repetition

end SqlDialect
