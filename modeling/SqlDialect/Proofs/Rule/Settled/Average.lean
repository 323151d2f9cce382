import SqlDialect.Proofs.Rule.Settled.Call
import SqlDialect.Rule.FunctionCall

/-!
# Averages that are truncated

An average that has been truncated stands behind a call of `TRUNC`.  What the rule goes by for the
averages further right, the text in front of them and behind them, is not touched, and the new closing
parenthesis closes none of them: where it stands, they are closed already, or have a quote open
(`Line.quoteBehind_ne_of_nested`).
-/

namespace SqlDialect.Rule

open Pattern

variable {a b s u v w x y : List Char} {c : Char}

/-! ### What the rule goes by -/

/-- The text ends where a call of `TRUNC` has just been opened. -/
def Truncated (a : List Char) : Prop := (truncOpening ++ lineEnd).occursIn a = true

/-- The text starts with the clause that makes an aggregate a window function. -/
def Windowed (y : List Char) : Prop := overClause.occursIn y = true

theorem truncateAverage_of (h : Truncated a ∨ Windowed y) :
    truncateAverage (Call.of a w x y) = .keep := by
  rw [truncateAverage, Call.before_of, Call.after_of, if_pos]
  rwa [Bool.or_eq_true]

theorem truncateAverage_of_not (h : ¬(Truncated a ∨ Windowed y)) :
    truncateAverage (Call.of a w x y) =
      .replace ("TRUNC(".toList ++ (w ++ ['('] ++ x ++ [')']) ++ [')'])
        (a.length + w.length + 1 + x.length + 1) := by
  rw [truncateAverage, Call.before_of, Call.after_of, Call.text_of, if_neg]
  · rfl
  · rwa [Bool.or_eq_true]

theorem done_truncateAverage_iff : Done truncateAverage a w b ↔
    ∀ x y, b = x ++ ')' :: y → Line.Closes 0 none x → Truncated a ∨ Windowed y := by
  constructor
  · intro h x y hb hx
    by_contra hnot
    exact h x y _ _ hb hx (truncateAverage_of_not hnot)
  · intro h x y replacement stop hb hx hreplace
    rw [truncateAverage_of (h x y hb hx)] at hreplace
    cases hreplace

/-! ### In front of a call, and behind it -/

theorem truncated_iff :
    Truncated a ↔ ∃ s t, a = s ++ t ∧ truncOpening.Reads s.getLast? t none := by
  rw [Truncated, occursIn_iff]
  constructor
  · rintro ⟨s, t, rest, rfl, t, _, rfl, ht, rfl, hnone⟩
    obtain rfl := List.head?_eq_none_iff.1 hnone
    exact ⟨s, t, by simp, by simpa using ht⟩
  · rintro ⟨s, t, rfl, ht⟩
    exact ⟨s, t, [], by simp, t, [], by simp, ht, rfl, rfl⟩

/-- What stands in front of a character that no opening of `TRUNC` holds makes no difference. -/
theorem Truncated.of_append_cons {set : CharSet} (hset : truncOpening.lacks set = true)
    (hc : set.mem c = true) (h : Truncated (u ++ c :: s)) (v : List Char) :
    Truncated (v ++ c :: s) := by
  obtain ⟨a, t, hline, hreads⟩ := truncated_iff.1 h
  rcases append_cons_cases hline with ⟨d, rfl, rfl⟩ | ⟨d, rfl, rfl⟩
  · refine truncated_iff.2 ⟨v ++ c :: d, t, by simp, ?_⟩
    rwa [List.getLast?_append, List.getLast?_eq_getLast_of_ne_nil (List.cons_ne_nil c d),
      Option.some_or] at hreads ⊢
  · have := mem_eq_false_of_lacks hset hreads (c := c) (by simp)
    rw [hc] at this
    cases this

theorem windowed_iff :
    Windowed y ↔ ∃ t rest, y = t ++ rest ∧ overClause.Reads none t rest.head? := by
  rw [Windowed, occursIn_iff]
  constructor
  · rintro ⟨a, t, rest, rfl, hreads⟩
    obtain rfl : a = [] := by
      obtain ⟨_, _, rfl, ⟨_, _, rfl, ⟨_, _, rfl, ⟨-, hnone⟩, -⟩, -⟩, -⟩ := hreads
      exact List.getLast?_eq_none_iff.1 hnone
    exact ⟨t, rest, rfl, hreads⟩
  · rintro ⟨t, rest, rfl, hreads⟩
    exact ⟨[], t, rest, rfl, hreads⟩

/-- What stands behind a closing parenthesis makes no difference to the clause in front of it. -/
theorem Windowed.of_append_cons (h : Windowed (s ++ ')' :: u)) (v : List Char) :
    Windowed (s ++ ')' :: v) := by
  obtain ⟨t, rest, hline, hreads⟩ := windowed_iff.1 h
  have hparen : ')' ∉ t := not_mem_of_avoids (by decide) hreads
  rcases append_cons_cases hline with ⟨d, rfl, -⟩ | ⟨d, rfl, rfl⟩
  · simp at hparen
  · refine windowed_iff.2 ⟨t, d ++ ')' :: v, by simp, ?_⟩
    rwa [List.head?_append] at hreads ⊢

/-! ### Averages of a line -/

theorem isOpening_averageName : IsOpening (callName "AVG") :=
  ⟨by decide, by decide, by decide, by decide⟩

/-- An average starts a word with an A. -/
theorem exists_head_of_reads {before : Option Char}
    (h : ((callName "AVG") ++ char '(').Reads before (w ++ ['(']) none) :
    (∃ c v, w = c :: v ∧ (CharSet.caseless 'a').mem c = true) ∧
      before.any Text.isWordChar = false := by
  obtain ⟨_, _, heq, ⟨_, b, rfl, ⟨_, _, rfl, ⟨rfl, hboundary⟩, hword⟩, -⟩, hparen⟩ := h
  change List.Forall₂ _ [CharSet.caseless 'a', .caseless 'v', .caseless 'g'] _ at hword
  rw [reads_char_iff.1 hparen] at heq
  obtain rfl := List.append_cancel_right heq
  cases hword with
  | @cons _ c _ v hc _ =>
    refine ⟨⟨c, v ++ b, rfl, hc⟩, ?_⟩
    have hfold : Text.foldCase c = 'a' := by simpa [CharSet.mem] using hc
    have hwordChar : Text.isWordChar c = true := by
      rw [← Text.isWordChar_foldCase, hfold]
      rfl
    simpa [hwordChar] using hboundary

/-! ### The new text -/

/-- The text in front of a truncated average. -/
def opening : List Char := ['T', 'R', 'U', 'N', 'C', '(']

theorem truncated_opening (h : Found (callName "AVG") a w) : Truncated (a ++ opening) := by
  refine truncated_iff.2 ⟨a, opening, rfl, ?_⟩
  have hreads : truncOpening.Reads none opening none := by
    have hmatch : (truncOpening.matchAt ⟨none, 0, opening⟩).map Match.text = some opening := by
      decide
    obtain ⟨m, hm, htext⟩ := Option.map_eq_some_iff.1 hmatch
    obtain ⟨rest, hrest, hreads⟩ := reads_of_matchAt hm
    rw [htext] at hrest hreads
    obtain rfl : rest = [] := by simpa using hrest
    exact hreads
  -- the name of the average starts a word there, and so does that of the truncation
  have htells : ∀ side : Side, side.isWord = false →
      truncOpening.tells (.of none) side = false := by
    intro side hside
    cases side with
    | word => cases hside
    | edge | other => decide
  refine reads_of_tells (htells _ ?_) (tells_self _ _) hreads
  rw [Side.isWord_of]
  exact (exists_head_of_reads h.reads).2

/-- An average of a line that a truncation has been opened in was there before. -/
theorem exists_of_opening (hfound : Found (callName "AVG") a w) {a' w' b' : List Char}
    (h' : Found (callName "AVG") a' w')
    (hline : a ++ (opening ++ (w ++ '(' :: b)) = a' ++ (w' ++ '(' :: b')) :
    (∃ s, a = a' ++ (w' ++ '(' :: s) ∧ b' = s ++ (opening ++ (w ++ '(' :: b))) ∨
      ∃ s, w ++ '(' :: b = s ++ (w' ++ '(' :: b') ∧ a' = a ++ (opening ++ s) ∧
        Found (callName "AVG") (a ++ s) w' := by
  refine exists_of_insert (by decide) (by decide) ?_ ?_ h' hline
  · intro u v w₁ before rest hu hv hrest hreads
    obtain ⟨⟨c, w₁, rfl, hc⟩, -⟩ := exists_head_of_reads hreads
    have hnone : opening.all (fun c => !(CharSet.caseless 'a').mem c) = true := rfl
    obtain ⟨e, v, rfl⟩ := List.exists_cons_of_ne_nil hv
    obtain ⟨rfl, -⟩ := List.cons_eq_cons.1 hrest
    have hmem : e ∈ opening := by
      change e ∈ 'T' :: ['R', 'U', 'N', 'C', '(']
      rw [hu]
      simp
    have := List.all_eq_true.1 hnone e hmem
    rw [hc] at this
    cases this
  · intro w₁ rest hrest hreads
    -- the average stands right behind the new text
    have hsame : w ++ ['('] = w₁ ++ ['('] :=
      eq_of_reads_of_ends isOpening_averageName.avoids_paren hfound.reads hreads
        (u := b) (v := rest) (by simpa using hrest)
    rw [← hsame]
    exact hfound.reads

/-- An average of a line that a parenthesis has been put into, behind another one, was there before. -/
theorem exists_of_closing {z a' w' b' : List Char} (h' : Found (callName "AVG") a' w')
    (hline : z ++ [')'] ++ ([')'] ++ y) = a' ++ (w' ++ '(' :: b')) :
    (∃ s, z ++ [')'] = a' ++ (w' ++ '(' :: s) ∧ b' = s ++ ([')'] ++ y)) ∨
      ∃ s, y = s ++ (w' ++ '(' :: b') ∧ a' = z ++ [')'] ++ ([')'] ++ s) ∧
        Found (callName "AVG") (z ++ [')'] ++ s) w' := by
  refine exists_of_insert (by decide) (by decide) ?_ ?_ h' hline
  · intro u v w₁ before rest hu hv hrest hreads
    have hparen : ')' ∉ w₁ ++ ['('] := not_mem_of_avoids (by decide) hreads
    obtain ⟨e, v, rfl⟩ := List.exists_cons_of_ne_nil hv
    have he : e = ')' := by
      have : e ∈ [')'] := by
        rw [hu]
        simp
      simpa using this
    subst he
    refine hparen (List.mem_append_left _ ?_)
    exact mem_of_cons_eq_append (by decide) hrest
  · intro w₁ rest _ hreads
    simpa using hreads

/-! ### The rule -/

/-- The new parenthesis closes no average inside of the one that is truncated. -/
theorem done_of_nested {a₁ a₂ d : List Char} (hx : Line.Closes 0 none (d ++ '(' :: s))
    (hy : ¬Windowed y) (htruncated : Truncated a₁ → Truncated a₂)
    (hdone : Done truncateAverage a₁ w (s ++ ')' :: y)) :
    Done truncateAverage a₂ w (s ++ ')' :: ')' :: y) := by
  rw [done_truncateAverage_iff] at hdone ⊢
  intro x' y' hline hclosed
  rcases append_cons_cases hline.symm with ⟨e, rfl, rfl⟩ | ⟨e, rfl, he⟩
  · exact (hdone x' (e ++ ')' :: y) (by simp) hclosed).imp htruncated fun hwindowed =>
      hwindowed.of_append_cons _
  · cases e with
    | nil =>
      obtain ⟨-, rfl⟩ := List.cons_eq_cons.1 he
      rw [List.append_nil] at hclosed
      exact (hdone s y rfl hclosed).imp htruncated fun hwindowed => absurd hwindowed hy
    | cons e rest =>
      obtain ⟨rfl, -⟩ := List.cons_eq_cons.1 he
      have hrest : ')' :: y = rest ++ ')' :: y' := (List.cons_eq_cons.1 he).2
      -- the average is still open at the old parenthesis, so that it has a quote open there
      obtain ⟨depth, hdepth, -⟩ := Option.bind_eq_some_iff.1
        ((Line.depthBehind_append 0 none s (')' :: rest)).symm.trans hclosed.1)
      obtain ⟨quote, hquote⟩ := Option.ne_none_iff_exists'.1
        (Line.quoteBehind_ne_of_nested hx hdepth)
      rw [Line.closes_quoted hquote] at hclosed
      exact (hdone (s ++ rest) y' (by rw [hrest, List.append_assoc]) hclosed).imp htruncated
        fun hwindowed => hwindowed

/-- An average that starts further right than another one, and not behind it, is among its
arguments. -/
theorem exists_of_inside {w' t : List Char} (hfound : Found (callName "AVG") a w)
    (hfound' : Found (callName "AVG") (a ++ c :: s) w')
    (hline : w ++ '(' :: x = c :: s ++ (w' ++ '(' :: t)) : ∃ d, x = d ++ '(' :: t := by
  obtain ⟨v, hv, hparen⟩ := exists_of_reads_concat isOpening_averageName.avoids_paren hfound.reads
  obtain rfl := List.append_cancel_right hv
  rw [← List.append_assoc] at hline
  rcases append_cons_cases hline.symm with ⟨e, rfl, -⟩ | ⟨e, hw, he⟩
  · simp at hparen
  · cases e with
    | nil =>
      -- no average starts within the name of another one
      rw [List.append_nil] at hw
      have hreads := hfound.reads
      rw [← hw, List.append_assoc] at hreads
      have hreads' := hfound'.reads
      rw [List.getLast?_append] at hreads'
      have hline : w' ++ ['('] ++ [] = w' ++ ['('] ++ [] := rfl
      exact absurd hreads' (not_reads_of_startsWithin isOpening_averageName.startsWithin hreads
        (Side.mem_all _) (List.cons_ne_nil c s) (by simp) hline (by simp))
    | cons e d =>
      obtain ⟨rfl, rfl⟩ := List.cons_eq_cons.1 he
      exact ⟨d, rfl⟩

/-- The averages up to the closing parenthesis of the one that is truncated are left alone: that one, as
it is truncated now, and those among its arguments. -/
theorem done_of_inside {r w' : List Char} (hfound : Found (callName "AVG") a w)
    (hx : Line.Closes 0 none x) (hy : ¬Windowed y) (hfound' : Found (callName "AVG") (a ++ r) w')
    (hr : w ++ '(' :: (x ++ [')']) = r ++ (w' ++ '(' :: s))
    (hdone : r ≠ [] → Done truncateAverage (a ++ r) w' (s ++ y)) :
    Done truncateAverage (a ++ (opening ++ r)) w' (s ++ ([')'] ++ y)) := by
  cases r with
  | nil =>
    rw [List.append_nil]
    exact done_truncateAverage_iff.2 fun _ _ _ _ => .inl (truncated_opening hfound)
  | cons c r =>
    obtain ⟨⟨c, v, rfl, hc⟩, -⟩ := exists_head_of_reads hfound.reads
    obtain ⟨rfl, -⟩ := List.cons_eq_cons.1 hr
    have hdone := hdone (List.cons_ne_nil c r)
    have htruncated (h : Truncated (a ++ c :: r)) : Truncated (a ++ (opening ++ c :: r)) := by
      rw [← List.append_assoc]
      exact h.of_append_cons (by decide) hc _
    have hcut : c :: v ++ '(' :: x ++ [')'] = c :: r ++ w' ++ ['('] ++ s := by simpa using hr
    rcases List.eq_nil_or_concat' s with rfl | ⟨t, e, rfl⟩
    · rw [List.append_nil] at hcut
      exact absurd (List.append_inj_right' hcut rfl) (by decide)
    · rw [← List.append_assoc] at hcut
      obtain ⟨hinside, he⟩ := List.append_inj' hcut rfl
      obtain rfl := List.singleton_inj.1 he
      obtain ⟨d, rfl⟩ := exists_of_inside hfound hfound' (by simpa using hinside)
      rw [List.append_assoc] at hdone ⊢
      exact done_of_nested hx hy htruncated hdone

/-- The new text in front of an average, up to a parenthesis that was there before, does not make the
rule truncate it. -/
theorem done_of_behind {u v w' b' : List Char}
    (hdone : Done truncateAverage (u ++ ')' :: s) w' b') :
    Done truncateAverage (v ++ ')' :: s) w' b' := by
  refine done_truncateAverage_iff.2 fun x' y' hb' hclosed => ?_
  have hset : truncOpening.lacks (.exactly ')') = true := by decide
  exact (done_truncateAverage_iff.1 hdone x' y' hb' hclosed).imp_left fun htruncated =>
    htruncated.of_append_cons hset rfl v

theorem finishes_truncateAverage : Finishes (callName "AVG") truncateAverage := by
  intro a w x y replacement stop hfound hx hreplace hright a' w' b' h' hline
  have hnot : ¬(Truncated a ∨ Windowed y) := by
    intro htruncated
    rw [truncateAverage_of htruncated] at hreplace
    cases hreplace
  rw [truncateAverage_of_not hnot] at hreplace
  obtain ⟨rfl, rfl⟩ := CallEdit.replace.inj hreplace
  have hopening : "TRUNC(".toList = opening := rfl
  have hnew : a ++ (opening ++ (w ++ '(' :: x)) ++ [')'] ++ ([')'] ++ y) =
      a' ++ (w' ++ '(' :: b') := by
    rw [← hline, Call.drop_closing, hopening]
    simp
  have hold : (Call.of a w x y).line = a ++ (w ++ '(' :: (x ++ ')' :: y)) := rfl
  rcases exists_of_closing h' hnew with ⟨s, hs, rfl⟩ | ⟨s, rfl, rfl, hfound'⟩
  · have hmid : a ++ (opening ++ (w ++ '(' :: (x ++ [')']))) = a' ++ (w' ++ '(' :: s) := by
      simpa using hs
    rcases exists_of_opening hfound h' hmid with ⟨r, rfl, -⟩ | ⟨r, hr, rfl, hfound'⟩
    · refine .inl ⟨?_, r ++ (w ++ '(' :: (x ++ ')' :: y)), by rw [hold]; simp⟩
      simp only [List.length_append, List.length_cons]
      omega
    · refine .inr ⟨by simp, done_of_inside hfound hx (fun hy => hnot (.inr hy)) hfound' hr fun hne => ?_⟩
      refine hright (a ++ r) w' (s ++ y) hfound' ?_ (by simp [List.length_pos_iff.2 hne])
      rw [hold]
      simpa using congrArg (a ++ · ++ y) hr
  · -- the average stands behind the one that is truncated
    have hfound' : Found (callName "AVG") (a ++ (w ++ '(' :: x) ++ ')' :: s) w' := by
      refine Found.of_append_cons (u := a ++ (opening ++ (w ++ '(' :: x))) (by simpa using hfound') ?_
      have hquote : opening.count '\'' = 0 := rfl
      simp only [List.count_append, hquote, Nat.zero_add]
    have hlt : a.length < (a ++ (w ++ '(' :: x) ++ ')' :: s).length := by
      simp only [List.length_append, List.length_cons]
      omega
    have hdone := hright _ w' b' hfound' (by rw [hold]; simp) hlt
    refine .inr ⟨by simp, ?_⟩
    simpa using done_of_behind (v := a ++ (opening ++ (w ++ '(' :: x)) ++ [')']) hdone

theorem truncatedAverage_settles : truncatedAverage.Settles := by
  refine settles_of_guarded (editCalls ((callName "AVG") ++ char '(') truncateAverage)
    (fun ctx line => ?_) fun line e _ h => ?_
  · unfold truncatedAverage
    dsimp only
    split
    · exact .inl rfl
    · exact .inr rfl
  · exact editCalls_eq_none isOpening_averageName finishes_truncateAverage h

end SqlDialect.Rule
