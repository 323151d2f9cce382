import SqlDialect.Proofs.Rule.Settled.Call
import SqlDialect.Rule.FunctionCall

/-!
# Calls with a second argument

A call that has been given a second argument keeps it, and so does a call around it: plain text in an
argument list takes no argument away.
-/

namespace SqlDialect.Rule

open Pattern

variable {q : Pattern} {a w b s x y x' y' : List Char}

/-! ### Calls that are left alone -/

/-- The arguments are no single one, or a blank one. -/
def Padded (x : List Char) : Prop :=
  ∀ arg, Line.splitArgs x = [arg] → Line.isBlank arg = true

/-- What stands between the argument of a call and its closing parenthesis afterwards. -/
def padding : List Char := [',', ' ', 'n', 'u', 'l', 'l']

theorem padSingleArgument_of_padded (h : Padded x) :
    padSingleArgument (Call.of a w x y) = .keep := by
  rw [padSingleArgument, Call.args_of]
  split
  · rename_i arg harg
    rw [h arg harg, if_pos rfl]
  · rfl

theorem padSingleArgument_of_not_padded (h : ¬Padded x) :
    padSingleArgument (Call.of a w x y) =
      .replace (w ++ '(' :: x ++ padding ++ [')']) (a.length + w.length + 1 + x.length + 1) := by
  simp only [Padded, not_forall] at h
  obtain ⟨arg, harg, hblank⟩ := h
  have htext : ((Call.of a w x y).line.take (Call.of a w x y).closing).drop
      (Call.of a w x y).start = w ++ '(' :: x := by
    have hline : (Call.of a w x y).line = (a ++ (w ++ '(' :: x)) ++ ')' :: y := by simp [Call.of]
    rw [hline, List.take_left', Call.of, List.drop_left]
    simp [Call.of]
    omega
  rw [padSingleArgument, Call.args_of, harg]
  have hpadding : ", null)".toList = padding ++ [')'] := rfl
  dsimp only
  rw [if_neg hblank, htext, hpadding, ← List.append_assoc]
  rfl

theorem done_padSingleArgument_iff : Done padSingleArgument a w b ↔
    ∀ x y, b = x ++ ')' :: y → Line.Closes 0 none x → Padded x := by
  constructor
  · intro h x y hb hx
    by_contra hnot
    exact h x y _ _ hb hx (padSingleArgument_of_not_padded hnot)
  · intro h x y replacement stop hb hx hreplace
    rw [padSingleArgument_of_padded (h x y hb hx)] at hreplace
    cases hreplace

/-! ### Padding -/

theorem isPlain_padding : ∀ c ∈ padding, Line.isPlain c = true :=
  List.all_eq_true.1 (show padding.all Line.isPlain = true from rfl)

theorem padded_append_padding (h : Line.Closes 0 none x) : Padded (x ++ padding) := by
  intro arg harg
  have hlength : 1 < (Line.splitArgs (x ++ padding)).length := Line.one_lt_length_splitArgs h _
  rw [harg] at hlength
  exact absurd hlength (Nat.lt_irrefl 1)

theorem Padded.insert (h : Padded (x ++ y)) (hparen : ')' ∈ y) : Padded (x ++ (padding ++ y)) := by
  intro arg harg
  have hle := Line.length_splitArgs_insert isPlain_padding x y
  rw [harg] at hle
  obtain ⟨arg', args, hargs⟩ := List.exists_cons_of_ne_nil
    (Line.splitArgsFrom_ne_nil 0 none (x ++ y))
  obtain rfl : args = [] := by
    have hargs : Line.splitArgs (x ++ y) = arg' :: args := hargs
    rw [hargs] at hle
    exact List.eq_nil_of_length_eq_zero (Nat.le_zero.1 (Nat.le_of_succ_le_succ hle))
  -- the only argument is not blank
  have hblank := h arg' hargs
  rw [Line.eq_of_splitArgsFrom_eq_singleton hargs, Line.isBlank, List.all_eq_true] at hblank
  exact absurd (hblank ')' (List.mem_append_right x hparen)) (by decide)

/-- If all arguments that could be closed in front of the padding or behind it were padded, but for
those that end there, all of them are padded now. -/
theorem padded_of_insert
    (h : ∀ x' y', s ++ ')' :: y = x' ++ ')' :: y' → Line.Closes 0 none x' → Padded x' ∨ x' = s)
    (hline : s ++ (padding ++ ')' :: y) = x' ++ ')' :: y') (hx' : Line.Closes 0 none x') :
    Padded x' := by
  rcases append_cons_cases hline.symm with ⟨d, rfl, rfl⟩ | ⟨d, rfl, hd⟩
  · rcases h x' (d ++ ')' :: y) (by simp) hx' with hpadded | hsame
    · exact hpadded
    · simp at hsame
  · rcases append_cons_cases hd.symm with ⟨v, hv, -⟩ | ⟨v, rfl, hv⟩
    · have hmem : ')' ∈ padding := by simp [hv]
      exact absurd (isPlain_padding _ hmem) (by decide)
    · have hclosed := (Line.closes_insert isPlain_padding).1 hx'
      cases v with
      | nil =>
        rw [List.append_nil] at hclosed ⊢
        exact padded_append_padding hclosed
      | cons e v =>
        obtain ⟨rfl, rfl⟩ := List.cons_eq_cons.1 hv
        rcases h (s ++ ')' :: v) y' (by simp) hclosed with hpadded | hsame
        · exact hpadded.insert List.mem_cons_self
        · simp at hsame

/-! ### The rules -/

/-- A call of a line that padding has been put into, before a parenthesis, was there before. -/
theorem exists_of_padding {front a' w' b' : List Char} (hcomma : (q ++ char '(').avoids ',' = true)
    (hparen : (q ++ char '(').avoids ')' = true) (h' : Found q a' w')
    (hline : front ++ (padding ++ ')' :: y) = a' ++ (w' ++ '(' :: b')) :
    (∃ s, front = a' ++ (w' ++ '(' :: s) ∧ b' = s ++ (padding ++ ')' :: y)) ∨
      ∃ s, ')' :: y = s ++ (w' ++ '(' :: b') ∧ a' = front ++ (padding ++ s) ∧
        Found q (front ++ s) w' := by
  refine exists_of_insert hcomma (by decide) ?_ ?_ h' hline
  · -- what opens in the padding would have its parenthesis there, or hold the one behind it
    intro u v w₁ before rest hu hv hrest hreads
    rcases append_cons_cases hrest.symm with ⟨s, rfl, -⟩ | ⟨s, rfl, hs⟩
    · have hmem : '(' ∈ padding := by
        rw [padding, hu]
        simp
      exact absurd (isPlain_padding _ hmem) (by decide)
    · refine not_mem_of_avoids hparen hreads ?_
      simp [mem_of_cons_eq_append (by decide) hs]
  · intro w₁ rest hrest hreads
    refine absurd ?_ (not_mem_of_avoids hparen hreads)
    simp [mem_of_cons_eq_append (by decide) hrest]

/-- Padding gives rise to no calls, and none of the calls further right to a single argument. -/
theorem finishes_padSingleArgument (hq : IsOpening q) (hcomma : (q ++ char '(').avoids ',' = true)
    (hparen : (q ++ char '(').avoids ')' = true) : Finishes q padSingleArgument := by
  intro a w x y replacement stop hfound hx hreplace hright a' w' b' h' hline
  have hpadded : ¬Padded x := by
    intro hpadded
    rw [padSingleArgument_of_padded hpadded] at hreplace
    cases hreplace
  rw [padSingleArgument_of_not_padded hpadded] at hreplace
  obtain ⟨rfl, rfl⟩ := CallEdit.replace.inj hreplace
  have hnew : a ++ (w ++ '(' :: x) ++ (padding ++ ')' :: y) = a' ++ (w' ++ '(' :: b') := by
    rw [← hline, Call.drop_closing]
    simp
  have hold : (Call.of a w x y).line = a ++ (w ++ '(' :: x) ++ ')' :: y := by simp [Call.of]
  -- the other call starts in front of the padding or behind it, as the padding is part of no name
  rcases exists_of_padding hcomma hparen h' hnew with ⟨s, hs, rfl⟩ | ⟨s, hs, rfl, hfound'⟩
  · have hline' : (Call.of a w x y).line = a' ++ (w' ++ '(' :: (s ++ ')' :: y)) := by
      rw [hold, hs]
      simp
    rcases Nat.lt_or_ge a'.length a.length with hlt | hge
    · exact .inl ⟨hlt, _, hline'⟩
    · refine .inr ⟨hge, done_padSingleArgument_iff.2 fun x' y' hx' hclosed => ?_⟩
      refine padded_of_insert (fun x' y' hx' hclosed => ?_) hx' hclosed
      rcases Nat.lt_or_eq_of_le hge with hlt | heq
      · exact .inl (done_padSingleArgument_iff.1 (hright _ _ _ h' hline' hlt) x' y' hx' hclosed)
      · -- it is the padded call
        obtain ⟨rfl, rfl, hrest⟩ := hfound.eq_of_append_eq hq h' hline' heq
        obtain rfl := List.append_cancel_right hrest
        exact .inr (hclosed.eq_of_append_eq hx hx'.symm)
  · have hline' : (Call.of a w x y).line =
        a ++ (w ++ '(' :: x) ++ s ++ (w' ++ '(' :: b') := by
      rw [hold, hs]
      simp
    have hlt : a.length < (a ++ (w ++ '(' :: x) ++ s).length := by
      simp only [List.length_append, List.length_cons]
      omega
    have hdone := hright _ _ _ hfound' hline' hlt
    refine .inr ⟨?_, done_padSingleArgument_iff.2 (done_padSingleArgument_iff.1 hdone)⟩
    rw [List.append_assoc, List.length_append]
    exact Nat.le_add_right _ _

theorem isOpening_coalesce : IsOpening (callName "COALESCE") :=
  ⟨by decide, by decide, by decide, by decide⟩

theorem isOpening_nvl : IsOpening (callName "NVL") :=
  ⟨by decide, by decide, by decide, by decide⟩

theorem coalesce_settles : coalesce.Settles := fun _ _ _ _ h =>
  editCalls_eq_none isOpening_coalesce
    (finishes_padSingleArgument isOpening_coalesce (by decide) (by decide)) h

theorem nvl_settles : nvl.Settles := by
  refine settles_of_guarded (editCalls (callOf "NVL") padSingleArgument) (fun ctx line => ?_)
    fun line e _ h => ?_
  · unfold nvl
    dsimp only
    split
    · exact .inl rfl
    · exact .inr rfl
  · exact editCalls_eq_none isOpening_nvl
      (finishes_padSingleArgument isOpening_nvl (by decide) (by decide)) h

end SqlDialect.Rule
