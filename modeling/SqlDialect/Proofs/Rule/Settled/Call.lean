import SqlDialect.Proofs.Line.Paren
import SqlDialect.Proofs.Pattern.Preference
import SqlDialect.Proofs.Rule.Settled
import SqlDialect.Rule.Call

/-!
# Rules about calls

Such a rule visits the calls of a line from right to left, and settles if what it makes of a call keeps
the calls further right as they should be, and gives rise to no others (`Rule.Finishes`).  The visits
keep the invariant `Rule.Visited`: the calls that have not been visited are still where they were, and
the rule leaves every other call alone.
-/

namespace SqlDialect

open Pattern

variable {q : Pattern} {edit : Call → CallEdit} {a b w x y line : List Char}

/-! ### Calls -/

/-- The call whose name starts behind `a`: the name and white space `w`, the arguments `x`, and `y`
behind the closing parenthesis. -/
def Call.of (a w x y : List Char) : Call :=
  ⟨a ++ (w ++ '(' :: (x ++ ')' :: y)), a.length, a.length + w.length,
    a.length + w.length + 1 + x.length⟩

namespace Call

theorem line_eq : (of a w x y).line = (a ++ w ++ ['('] ++ x ++ [')']) ++ y := by
  simp [of]

theorem before_of : (of a w x y).before = a := List.take_left

theorem drop_closing :
    (of a w x y).line.drop (a.length + w.length + 1 + x.length + 1) = y := by
  rw [line_eq, List.drop_left']
  simp
  omega

theorem after_of : (of a w x y).after = y := drop_closing

theorem text_of : (of a w x y).text = w ++ ['('] ++ x ++ [')'] := by
  rw [text, line_eq, List.take_left']
  · simp [of]
  · simp [of]
    omega

theorem args_of : (of a w x y).args = x := by
  have hline : (of a w x y).line = (a ++ w ++ ['('] ++ x) ++ ')' :: y := by simp [of]
  rw [args, hline, List.take_left']
  · rw [List.drop_left']
    simp [of]
    omega
  · simp [of]
    omega

end Call

/-! ### Calls of a line -/

namespace Rule

/-- The pattern ends with its only opening parenthesis, holds no quote, and no text of it starts within
another. -/
structure IsOpening (q : Pattern) : Prop where
  avoids_paren : q.avoids '(' = true
  avoids_quote : (q ++ char '(').avoids '\'' = true
  startsWithin : startsWithin Side.all (q ++ char '(') (q ++ char '(') = true
  readsEmpty : (q ++ char '(').readsEmpty = false

/-- A call in code starts behind `a`. -/
structure Found (q : Pattern) (a w : List Char) : Prop where
  reads : (q ++ char '(').Reads a.getLast? (w ++ ['(']) none
  even : a.count '\'' % 2 = 0

/-- The calls that a rule visits. -/
def calls (q : Pattern) (line : List Char) : List Match :=
  ((q ++ char '(').matchesIn line).filter fun m => Literal.inCode line m.start

theorem exists_found_of_mem_calls (hq : IsOpening q) {m : Match} (h : m ∈ calls q line) :
    ∃ a w b, line = a ++ (w ++ '(' :: b) ∧ m.start = a.length ∧ m.stop = a.length + w.length + 1 ∧
      Found q a w := by
  obtain ⟨hm, hcode⟩ := List.mem_filter.1 h
  obtain ⟨a, b, rfl, hmatch, -⟩ := exists_matchAt_of_mem_matchesIn hm
  obtain ⟨rest, hrest, hreads⟩ := reads_of_matchAt hmatch
  obtain ⟨w, hw, -⟩ := exists_of_reads_concat hq.avoids_paren hreads
  have hstart : m.start = a.length := start_eq_of_matchAt hmatch
  have hb : b = w ++ '(' :: rest := by
    have hb : b = m.text ++ rest := hrest
    rw [hb, hw, List.append_assoc]
    rfl
  refine ⟨a, w, rest, by rw [hb], hstart, ?_, ?_, ?_⟩
  · rw [Match.stop, hstart, hw, List.length_append, List.length_singleton, Nat.add_assoc]
  · exact hw ▸ reads_behind hreads
  · rw [Literal.inCode, hstart, List.drop_left, List.take_left] at hcode
    split at hcode
    · cases hcode
    · simpa using (Bool.and_eq_true _ _).mp hcode |>.2

theorem exists_mem_calls_of_found (hq : IsOpening q) (h : Found q a w)
    (hline : line = a ++ (w ++ '(' :: b)) : ∃ m ∈ calls q line, m.start = a.length := by
  have hline' : line = a ++ ((w ++ ['(']) ++ b) := by simp [hline]
  obtain ⟨m, hm, hmatch⟩ := exists_mem_matchesIn_of_reads hq.startsWithin hq.readsEmpty hline'
    (reads_behind h.reads)
  have hstart : m.start = a.length := start_eq_of_matchAt hmatch
  refine ⟨m, List.mem_filter.2 ⟨hm, ?_⟩, hstart⟩
  have hquote := not_mem_of_avoids hq.avoids_quote h.reads
  rw [hline', Literal.inCode, hstart, List.drop_left, List.take_left]
  cases w with
  | nil => simp [h.even]
  | cons c w =>
    have hc : c ≠ '\'' := by
      rintro rfl
      simp at hquote
    simp [h.even, hc]

/-- There is one call at most at a place. -/
theorem Found.eq_of_append_eq {a' w' b' : List Char} (hq : IsOpening q) (h : Found q a w)
    (h' : Found q a' w') (hline : a ++ (w ++ '(' :: b) = a' ++ (w' ++ '(' :: b'))
    (hlength : a.length = a'.length) : a = a' ∧ w = w' ∧ b = b' := by
  obtain ⟨rfl, hrest⟩ := List.append_inj hline hlength
  have hw : w ++ ['('] = w' ++ ['('] := eq_of_reads_of_ends hq.avoids_paren h.reads h'.reads
    (u := b) (v := b') (by simpa using hrest)
  obtain rfl := List.append_cancel_right hw
  simpa using hrest

/-! ### Text put into a line -/

theorem mem_of_cons_eq_append {c d : Char} {s u v : List Char} (hne : c ≠ d)
    (h : c :: u = s ++ d :: v) : c ∈ s := by
  cases s with
  | nil => exact absurd (List.head_eq_of_cons_eq h) hne
  | cons e s =>
    rw [(List.cons_eq_cons.1 h).1]
    exact List.mem_cons_self

/-- What stands in front of a character that stays makes no difference, but for its quotes. -/
theorem Found.of_append_cons {c : Char} {s u v : List Char} (h : Found q (u ++ c :: s) w)
    (hcount : v.count '\'' = u.count '\'') : Found q (v ++ c :: s) w := by
  obtain ⟨hreads, heven⟩ := h
  refine ⟨?_, ?_⟩
  · rwa [List.getLast?_append, List.getLast?_eq_getLast_of_ne_nil (List.cons_ne_nil c s),
      Option.some_or] at hreads ⊢
  · rwa [List.count_append, ← hcount, ← List.count_append] at heven

/-- A call of a line that text has been put into was there before, in front of the text or behind
it. -/
theorem exists_of_insert {c : Char} {text a' w' b' : List Char}
    (hinto : (q ++ char '(').avoids c = true) (hquote : '\'' ∉ c :: text)
    (hfrom : ∀ u v w before rest, c :: text = u ++ v → v ≠ [] → v ++ b = w ++ '(' :: rest →
      ¬(q ++ char '(').Reads before (w ++ ['(']) none)
    (hedge : ∀ w rest, b = w ++ '(' :: rest →
      (q ++ char '(').Reads (c :: text).getLast? (w ++ ['(']) none →
      (q ++ char '(').Reads a.getLast? (w ++ ['(']) none)
    (h : Found q a' w') (hline : a ++ (c :: text ++ b) = a' ++ (w' ++ '(' :: b')) :
    (∃ s, a = a' ++ (w' ++ '(' :: s) ∧ b' = s ++ (c :: text ++ b)) ∨
      ∃ s, b = s ++ (w' ++ '(' :: b') ∧ a' = a ++ (c :: text ++ s) ∧ Found q (a ++ s) w' := by
  have hbehind (s : List Char) (ha' : a' = a ++ (c :: text ++ s))
      (hb : b = s ++ (w' ++ '(' :: b')) : Found q (a ++ s) w' := by
    subst ha'
    refine ⟨?_, ?_⟩
    · have hreads := h.reads
      rw [List.getLast?_append, List.getLast?_append] at hreads
      rw [List.getLast?_append]
      cases hs : s.getLast? with
      | some d => simpa [hs] using hreads
      | none =>
        obtain rfl := List.getLast?_eq_none_iff.1 hs
        refine hedge w' b' hb ?_
        rwa [List.getLast?_nil, Option.none_or,
          List.getLast?_eq_getLast_of_ne_nil (List.cons_ne_nil c text), Option.some_or,
          ← List.getLast?_eq_getLast_of_ne_nil] at hreads
    · have heven := h.even
      rwa [List.count_append, List.count_append, List.count_eq_zero.2 hquote, Nat.zero_add,
        ← List.count_append] at heven
  rcases List.append_eq_append_iff.1 hline with ⟨d, rfl, hd⟩ | ⟨d, rfl, hd⟩
  · rcases List.append_eq_append_iff.1 hd with ⟨s, rfl, hs⟩ | ⟨v, hv, hs⟩
    · exact .inr ⟨s, hs, rfl, hbehind s rfl hs⟩
    · cases v with
      | nil =>
        rw [List.append_nil] at hv
        subst hv
        exact .inr ⟨[], hs.symm, by simp, hbehind [] (by simp) hs.symm⟩
      | cons e v => exact absurd h.reads (hfrom d (e :: v) w' _ b' hv (by simp) hs.symm)
  · have hd' : (w' ++ ['(']) ++ b' = d ++ (c :: text ++ b) := by
      rw [← hd]
      simp
    rcases List.append_eq_append_iff.1 hd' with ⟨s, rfl, hs⟩ | ⟨v, hv, hs⟩
    · exact .inl ⟨s, by simp, hs⟩
    · cases v with
      | nil =>
        rw [List.append_nil] at hv
        subst hv
        exact .inl ⟨[], by simp, hs.symm⟩
      | cons e v =>
        -- the call would go on into the text
        obtain ⟨rfl, -⟩ := List.cons_eq_cons.1 hs
        refine absurd ?_ (not_mem_of_avoids hinto h.reads)
        rw [hv]
        simp

/-! ### One visit -/

/-- The rule leaves the call alone. -/
def Done (edit : Call → CallEdit) (a w b : List Char) : Prop :=
  ∀ x y replacement stop, b = x ++ ')' :: y → Line.Closes 0 none x →
    edit (Call.of a w x y) ≠ .replace replacement stop

/-- A call that is not closed is passed over. -/
theorem visit_of_open {seen : CallVisit} (hline : seen.line = a ++ (w ++ '(' :: b))
    (hopen : ∀ x y, b = x ++ ')' :: y → ¬Line.Closes 0 none x) :
    seen.visit edit a.length (a.length + w.length) = seen := by
  rw [CallVisit.visit]
  split
  · rfl
  · rename_i closing hclosing
    have hline' : seen.line = (a ++ w) ++ '(' :: b := by rw [hline, List.append_assoc]
    rw [hline', ← List.length_append, Line.matchingParen_eq_some_iff] at hclosing
    obtain ⟨x, y, hb, -, hx⟩ := hclosing
    exact absurd hx (hopen x y hb)

/-- A call that is closed becomes what the rule makes of it. -/
theorem visit_of_closed {seen : CallVisit} (hline : seen.line = (Call.of a w x y).line)
    (hx : Line.Closes 0 none x) :
    seen.visit edit a.length (a.length + w.length) =
      match edit (Call.of a w x y) with
      | .keep => seen
      | .flag => { seen with flagged := seen.flagged.or (some (Text.trim (Call.of a w x y).text)) }
      | .replace replacement stop =>
        { seen with
          line := a ++ replacement ++ (Call.of a w x y).line.drop stop
          note := some (Text.trim (Call.of a w x y).text) } := by
  have hclosing : Line.matchingParen seen.line (a.length + w.length) =
      some (a.length + w.length + 1 + x.length) := by
    have hline' : seen.line = (a ++ w) ++ '(' :: (x ++ ')' :: y) := by
      rw [hline, List.append_assoc]
      rfl
    rw [hline', ← List.length_append]
    exact Line.matchingParen_eq_some_iff.2 ⟨x, y, rfl, rfl, hx⟩
  have hcall : (⟨seen.line, a.length, a.length + w.length,
      a.length + w.length + 1 + x.length⟩ : Call) = Call.of a w x y := by
    rw [hline, Call.of]
  rw [CallVisit.visit, hclosing]
  dsimp only
  rw [hcall, hline]
  cases edit (Call.of a w x y) with
  | keep | flag => rfl
  | replace replacement stop =>
    dsimp only
    rw [Call.before_of]

theorem visit_of_done {seen : CallVisit} (hline : seen.line = a ++ (w ++ '(' :: b))
    (h : Done edit a w b) :
    (seen.visit edit a.length (a.length + w.length)).line = seen.line ∧
      (seen.visit edit a.length (a.length + w.length)).note = seen.note := by
  by_cases hclosed : ∃ x y, b = x ++ ')' :: y ∧ Line.Closes 0 none x
  · obtain ⟨x, y, rfl, hx⟩ := hclosed
    rw [visit_of_closed hline hx]
    cases hedit : edit (Call.of a w x y) with
    | keep => exact ⟨rfl, rfl⟩
    | flag => exact ⟨rfl, rfl⟩
    | replace replacement stop => exact absurd hedit (h x y replacement stop rfl hx)
  · simp only [not_exists, not_and] at hclosed
    rw [visit_of_open hline hclosed]
    exact ⟨rfl, rfl⟩

theorem visit_of_replace {seen : CallVisit} (hline : seen.line = (Call.of a w x y).line)
    (hx : Line.Closes 0 none x) {replacement : List Char} {stop : Nat}
    (hedit : edit (Call.of a w x y) = .replace replacement stop) :
    seen.visit edit a.length (a.length + w.length) =
      { seen with
        line := a ++ replacement ++ (Call.of a w x y).line.drop stop
        note := some (Text.trim (Call.of a w x y).text) } := by
  rw [visit_of_closed hline hx, hedit]

theorem line_visit_of_replace {seen : CallVisit} (hline : seen.line = (Call.of a w x y).line)
    (hx : Line.Closes 0 none x) {replacement : List Char} {stop : Nat}
    (hedit : edit (Call.of a w x y) = .replace replacement stop) :
    (seen.visit edit a.length (a.length + w.length)).line =
      a ++ replacement ++ (Call.of a w x y).line.drop stop :=
  congrArg CallVisit.line (visit_of_replace hline hx hedit)

/-! ### All visits -/

/-- A call that is replaced keeps the calls further right alone, if they have been left alone, and gives
rise to no others. -/
def Finishes (q : Pattern) (edit : Call → CallEdit) : Prop :=
  ∀ a w x y replacement stop, Found q a w → Line.Closes 0 none x →
    edit (Call.of a w x y) = .replace replacement stop →
    (∀ a' w' b', Found q a' w' → (Call.of a w x y).line = a' ++ (w' ++ '(' :: b') →
      a.length < a'.length → Done edit a' w' b') →
    ∀ a' w' b', Found q a' w' →
      a ++ replacement ++ (Call.of a w x y).line.drop stop = a' ++ (w' ++ '(' :: b') →
      (a'.length < a.length ∧ ∃ b'', (Call.of a w x y).line = a' ++ (w' ++ '(' :: b'')) ∨
        (a.length ≤ a'.length ∧ Done edit a' w' b')

/-- When the calls in `left` have still to be visited, the line is as it came up to the last of them,
and the rule leaves all other calls alone. -/
structure Visited (q : Pattern) (edit : Call → CallEdit) (line : List Char) (left : List Match)
    (seen : CallVisit) : Prop where
  agrees : ∀ m ∈ left, seen.line.take m.stop = line.take m.stop
  found : ∀ {a w b}, Found q a w → seen.line = a ++ (w ++ '(' :: b) →
    (∃ m ∈ left, m.start = a.length) ∨ (Done edit a w b ∧ ∀ m ∈ left, m.start < a.length)

/-- Calls stand one behind the other. -/
theorem pairwise_calls (hq : IsOpening q) (line : List Char) :
    (calls q line).Pairwise fun m m' => m.start < m'.start ∧ m.stop ≤ m'.start := by
  refine ((pairwise_matchesIn (q ++ char '(') line).filter _).imp_of_mem fun hm _ hle => ?_
  obtain ⟨a, w, b, -, hstart, hstop, -⟩ := exists_found_of_mem_calls hq hm
  omega

theorem visited_init (hq : IsOpening q) (edit : Call → CallEdit) (line : List Char) :
    Visited q edit line (calls q line) ⟨line, none, none⟩ where
  agrees _ _ := rfl
  found h hline := .inl (exists_mem_calls_of_found hq h hline)

namespace Visited

variable {left : List Match} {m : Match} {seen : CallVisit}

/-- The last of the calls that have still to be visited is where it was. -/
theorem exists_call (hq : IsOpening q) (hm : m ∈ calls q line)
    (h : Visited q edit line (left ++ [m]) seen) :
    ∃ a w b, m.start = a.length ∧ m.stop = a.length + w.length + 1 ∧ Found q a w ∧
      seen.line = a ++ (w ++ '(' :: b) := by
  obtain ⟨a, w, b, hline, hstart, hstop, hfound⟩ := exists_found_of_mem_calls hq hm
  refine ⟨a, w, seen.line.drop m.stop, hstart, hstop, hfound, ?_⟩
  have htake : line.take m.stop = a ++ (w ++ ['(']) := by
    have hline : line = (a ++ (w ++ ['('])) ++ b := by simp [hline]
    rw [hline, List.take_left']
    simp [hstop]
    omega
  calc seen.line = line.take m.stop ++ seen.line.drop m.stop := by
        rw [← h.agrees m (by simp), List.take_append_drop]
    _ = a ++ (w ++ '(' :: seen.line.drop m.stop) := by
        rw [htake]
        simp

/-- The calls further right have been left alone. -/
theorem done_of_right {a' w' b' : List Char} (hleft : ∀ m' ∈ left, m'.start < m.start)
    (h : Visited q edit line (left ++ [m]) seen) (hfound : Found q a' w')
    (hline : seen.line = a' ++ (w' ++ '(' :: b')) (hlt : m.start < a'.length) :
    Done edit a' w' b' := by
  rcases h.found hfound hline with ⟨m', hm', hstart⟩ | ⟨hdone, -⟩
  · rcases List.mem_append.1 hm' with hm' | hm'
    · have := hleft m' hm'
      omega
    · obtain rfl := List.mem_singleton.1 hm'
      omega
  · exact hdone

/-- A call need not be visited if the rule leaves it alone. -/
theorem of_done (hq : IsOpening q) (hstart : m.start = a.length) (hfound : Found q a w)
    (hleft : ∀ m' ∈ left, m'.start < m.start) (hline : seen.line = a ++ (w ++ '(' :: b))
    (hdone : Done edit a w b) (h : Visited q edit line (left ++ [m]) seen) :
    Visited q edit line left seen where
  agrees m' hm' := h.agrees m' (List.mem_append_left _ hm')
  found h' hline' := by
    rcases h.found h' hline' with ⟨m', hm', hstart'⟩ | ⟨hdone', hfar⟩
    · rcases List.mem_append.1 hm' with hm' | hm'
      · exact .inl ⟨m', hm', hstart'⟩
      · -- it is the call in question
        obtain rfl := List.mem_singleton.1 hm'
        obtain ⟨rfl, rfl, rfl⟩ := hfound.eq_of_append_eq hq h' (hline.symm.trans hline')
          (hstart.symm.trans hstart')
        exact .inr ⟨hdone, fun m' hm' => hstart ▸ hleft m' hm'⟩
    · exact .inr ⟨hdone', fun m' hm' => hfar m' (List.mem_append_left _ hm')⟩

/-- A call that is replaced leaves the calls further left to be visited. -/
theorem of_replace (hedit : Finishes q edit) (hstart : m.start = a.length) (hfound : Found q a w)
    (hleft : ∀ m' ∈ left, m'.start < m.start ∧ m'.stop ≤ m.start)
    (hline : seen.line = (Call.of a w x y).line) (hx : Line.Closes 0 none x)
    {replacement : List Char} {stop : Nat}
    (hreplace : edit (Call.of a w x y) = .replace replacement stop)
    (h : Visited q edit line (left ++ [m]) seen) {new : CallVisit}
    (hnew : new.line = a ++ replacement ++ (Call.of a w x y).line.drop stop) :
    Visited q edit line left new where
  agrees m' hm' := by
    have hle : m'.stop ≤ a.length := hstart ▸ (hleft m' hm').2
    have hold := h.agrees m' (List.mem_append_left _ hm')
    have hcall : (Call.of a w x y).line = a ++ (w ++ '(' :: (x ++ ')' :: y)) := rfl
    rw [hline, hcall, List.take_append_of_le_length hle] at hold
    rw [hnew, List.append_assoc, List.take_append_of_le_length hle, hold]
  found {a' w' b'} h' hline' := by
    rw [hnew] at hline'
    have hright (a' w' b' : List Char) (h' : Found q a' w')
        (hline' : (Call.of a w x y).line = a' ++ (w' ++ '(' :: b')) (hlt : a.length < a'.length) :
        Done edit a' w' b' :=
      h.done_of_right (fun m' hm' => (hleft m' hm').1) h' (hline.trans hline') (hstart ▸ hlt)
    rcases hedit a w x y _ _ hfound hx hreplace hright a' w' b' h' hline' with
      ⟨hlt, b'', hline''⟩ | ⟨hle, hdone⟩
    · rcases h.found h' (hline.trans hline'') with ⟨m', hm', hstart'⟩ | ⟨-, hfar⟩
      · rcases List.mem_append.1 hm' with hm' | hm'
        · exact .inl ⟨m', hm', hstart'⟩
        · obtain rfl := List.mem_singleton.1 hm'
          omega
      · have := hfar m (by simp)
        omega
    · refine .inr ⟨hdone, fun m' hm' => ?_⟩
      have := (hleft m' hm').1
      omega

/-- Every visit keeps the invariant. -/
theorem visit (hq : IsOpening q) (hedit : Finishes q edit) (hm : m ∈ calls q line)
    (hleft : ∀ m' ∈ left, m'.start < m.start ∧ m'.stop ≤ m.start)
    (h : Visited q edit line (left ++ [m]) seen) :
    Visited q edit line left (seen.visit edit m.start (m.stop - 1)) := by
  obtain ⟨a, w, b, hstart, hstop, hfound, hline⟩ := h.exists_call hq hm
  have hopening : m.stop - 1 = a.length + w.length := by omega
  by_cases hdone : Done edit a w b
  · have hsame := (visit_of_done hline hdone).1
    have hpassed := h.of_done hq hstart hfound (fun m' hm' => (hleft m' hm').1) hline hdone
    rw [hopening, hstart]
    exact ⟨fun m' hm' => hsame ▸ hpassed.agrees m' hm',
      fun h' hline' => hpassed.found h' (hsame ▸ hline')⟩
  · simp only [Done, not_forall, not_not] at hdone
    obtain ⟨x, y, replacement, stop, rfl, hx, hreplace⟩ := hdone
    have hnew := line_visit_of_replace hline hx hreplace
    rw [hopening, hstart]
    exact h.of_replace hedit hstart hfound hleft hline hx hreplace hnew

end Visited

/-- The line behind visits to these calls, from right to left. -/
def visitAll (edit : Call → CallEdit) (line : List Char) (visits : List Match) : CallVisit :=
  visits.foldr (fun m seen => seen.visit edit m.start (m.stop - 1)) ⟨line, none, none⟩

theorem visited_visitAll (hq : IsOpening q) (hedit : Finishes q edit) {left right : List Match}
    (h : calls q line = left ++ right) :
    Visited q edit line left (visitAll edit line right) := by
  induction right generalizing left with
  | nil =>
    rw [List.append_nil] at h
    exact h ▸ visited_init hq edit line
  | cons m right ih =>
    have hpairs := pairwise_calls hq line
    rw [h, List.pairwise_append] at hpairs
    have hleft : calls q line = (left ++ [m]) ++ right := by simp [h]
    refine (ih hleft).visit hq hedit (by simp [h]) fun m' hm' => ?_
    exact hpairs.2.2 m' hm' m List.mem_cons_self

/-- Where all calls have been left alone, they are left alone again. -/
theorem visitAll_of_done {visits : List Match}
    (h : ∀ m ∈ visits, ∃ a w b, line = a ++ (w ++ '(' :: b) ∧ m.start = a.length ∧
      m.stop - 1 = a.length + w.length ∧ Done edit a w b) :
    (visitAll edit line visits).line = line ∧ (visitAll edit line visits).note = none := by
  induction visits with
  | nil => exact ⟨rfl, rfl⟩
  | cons m visits ih =>
    rw [List.forall_mem_cons] at h
    obtain ⟨⟨a, w, b, hline, hstart, hopening, hdone⟩, hrest⟩ := h
    obtain ⟨hsame, hnote⟩ := ih hrest
    rw [visitAll, List.foldr_cons, ← visitAll, hstart, hopening]
    obtain ⟨hline', hnote'⟩ := visit_of_done (hsame.trans hline) hdone
    exact ⟨hline'.trans hsame, hnote'.trans hnote⟩

theorem editCalls_eq_none (hq : IsOpening q) (hedit : Finishes q edit) {e : Edit}
    (h : editCalls (q ++ char '(') edit line = some e) :
    editCalls (q ++ char '(') edit e.line = none := by
  obtain ⟨note, -, rfl⟩ := Option.map_eq_some_iff.1 h
  have hvisited : Visited q edit line [] (CallVisit.run (q ++ char '(') edit line) :=
    visited_visitAll hq hedit rfl
  rw [editCalls, Option.map_eq_none_iff]
  refine (visitAll_of_done fun m hm => ?_).2
  obtain ⟨a, w, b, hline, hstart, hstop, hfound⟩ := exists_found_of_mem_calls hq hm
  refine ⟨a, w, b, hline, hstart, by omega, ?_⟩
  rcases hvisited.found hfound hline with ⟨m, hm, -⟩ | ⟨hdone, -⟩
  · cases hm
  · exact hdone

end Rule

end SqlDialect
