import SqlDialect.Proofs.Line.Insertion
import SqlDialect.Proofs.Pattern.Word
import SqlDialect.Proofs.Rule.Settled.Padding

/-!
# Calls with a single argument

The rules about `COALESCE` and `NVL` give a second argument to the calls that have one only.  What they
do to a line is said here of the line as it came: `PadsSingle` looks for the calls that end with a single
argument, at every depth, and puts the padding in front of their parentheses all at once.

The rules visit the calls from right to left, and change the line as they go.  `PaddedBehind` is what holds
of the line behind every visit (`PaddedBehind.visit`): the calls further left are closed by the same
parentheses as before, and have as many arguments.
-/

namespace SqlDialect

open Pattern

/-! ### Calls of a function -/

/-- The call is one of the function, and starts in the code of the line: white space may stand between
the name, in whatever case, and the parenthesis, and no word goes on in the name. -/
structure Call.IsOf (name : String) (call : Call) : Prop where
  code : Literal.isClosed call.before = true
  apart : call.before.getLast?.any Text.isWordChar = false
  named : ∃ word space, (call.line.take call.opening).drop call.start = word ++ space ∧
    Spells name word ∧ ∀ c ∈ space, Text.isBlank c = true
  closed : Line.matchingParen call.line call.opening = some call.closing

/-- The call has one argument, which is not blank. -/
def Call.IsSingle (call : Call) : Prop :=
  ∃ arg, Line.splitArgs call.args = [arg] ∧ Line.isBlank arg = false

namespace Rule

/-- A call of the function with a single argument ends at the place `i` of the line. -/
def EndsSingle (name : String) (line : List Char) (i : Nat) : Prop :=
  ∃ call : Call, call.line = line ∧ call.IsOf name ∧ call.IsSingle ∧ call.closing = i

/-- The edit pads the calls of the function that have a single argument, and no others: there is none if
the line has no such call, it changes nothing else, and it leaves no such call behind. -/
structure PadsSingle (name : String) (line : List Char) (edit? : Option Edit) : Prop where
  eq_none_iff : edit? = none ↔ ∀ i, ¬EndsSingle name line i
  line_eq : ∀ edit, edit? = some edit → ∃ places : Finset Nat,
    (∀ i, i ∈ places ↔ EndsSingle name line i) ∧
      edit = .changed (Line.insertAt padding places line) edit.note
  settled : ∀ edit, edit? = some edit → ∀ i, ¬EndsSingle name edit.line i

variable {name : String} {q : Pattern} {a b b₀ w x x₀ y y₀ line : List Char} {i : Nat} {call : Call}

theorem found_callName_iff (hname : isName name = true) :
    Found (callName name) a w ↔ a.count '\'' % 2 = 0 ∧ a.getLast?.any Text.isWordChar = false ∧
      ∃ word space, w = word ++ space ∧ Spells name word ∧ ∀ c ∈ space, Text.isBlank c = true := by
  have hreads : (callName name ++ char '(').Reads a.getLast? (w ++ ['(']) none ↔ _ :=
    reads_callStart_iff hname
  constructor
  · rintro ⟨h, heven⟩
    obtain ⟨hapart, hnamed⟩ := hreads.1 h
    exact ⟨heven, hapart, hnamed⟩
  · rintro ⟨heven, hapart, hnamed⟩
    exact ⟨hreads.2 ⟨hapart, hnamed⟩, heven⟩

theorem isOf_of_found (hname : isName name = true) (h : Found (callName name) a w)
    (hx : Line.Closes 0 none x) : (Call.of a w x y).IsOf name := by
  obtain ⟨heven, hapart, hnamed⟩ := (found_callName_iff hname).1 h
  have hline : (Call.of a w x y).line = (a ++ w) ++ '(' :: (x ++ ')' :: y) := by simp [Call.of]
  have hopening : (Call.of a w x y).opening = (a ++ w).length := by simp [Call.of]
  refine ⟨?_, ?_, ?_, ?_⟩
  · rw [Call.before_of]
    exact beq_iff_eq.2 heven
  · rw [Call.before_of]
    exact hapart
  · rw [hline, hopening, List.take_left, Call.of, List.drop_left]
    exact hnamed
  · rw [hline, hopening]
    refine Line.matchingParen_eq_some_iff.2 ⟨x, y, rfl, ?_, hx⟩
    rw [Call.of, List.length_append]

theorem exists_found_of_isOf (hname : isName name = true) (h : call.IsOf name) :
    ∃ a w x y, call = Call.of a w x y ∧ Found (callName name) a w ∧ Line.Closes 0 none x := by
  obtain ⟨line, start, opening, closing⟩ := call
  obtain ⟨hcode, hapart, ⟨word, space, hnamed, hword, hspace⟩, hclosed⟩ := h
  simp only [Call.before] at hcode hapart hnamed hclosed
  obtain ⟨rest, hrest⟩ := Line.drop_of_matchingParen hclosed
  have hlength : (line.take opening).length = opening := by
    refine List.length_take_of_le ?_
    by_contra hlt
    rw [List.drop_eq_nil_of_le (by omega)] at hrest
    cases hrest
  -- the name is not empty, so it starts before the parenthesis
  have hstart : start ≤ opening := by
    by_contra hlt
    rw [List.drop_eq_nil_of_le (by omega)] at hnamed
    exact hword.ne_nil hname (List.append_eq_nil_iff.1 hnamed.symm).1
  have hbefore : (line.take opening).take start = line.take start := by
    rw [List.take_take, Nat.min_eq_left hstart]
  have hsplit : line.take opening = line.take start ++ (word ++ space) := by
    rw [← hbefore, ← hnamed, List.take_append_drop]
  have hline : line = line.take opening ++ '(' :: rest := by
    rw [← hrest, List.take_append_drop]
  have hclosed' : Line.matchingParen (line.take opening ++ '(' :: rest) (line.take opening).length =
      some closing := by
    rw [← hline, hlength]
    exact hclosed
  obtain ⟨x, y, rfl, rfl, hx⟩ := Line.matchingParen_eq_some_iff.1 hclosed'
  refine ⟨line.take start, word ++ space, x, y, ?_,
    (found_callName_iff hname).2 ⟨beq_iff_eq.1 hcode, hapart, word, space, rfl, hword, hspace⟩, hx⟩
  have hopening : opening = (line.take start).length + (word ++ space).length := by
    rw [← List.length_append, ← hsplit, hlength]
  have hfront : start = (line.take start).length := by
    rw [← hbefore, List.length_take, hlength, Nat.min_eq_left hstart]
  have hwhole : line = line.take start ++ ((word ++ space) ++ '(' :: (x ++ ')' :: y)) := by
    rw [← List.append_assoc, ← hsplit, ← hline]
  rw [Call.of, hlength, ← hopening, ← hfront, ← hwhole]

/-! ### Single arguments -/

theorem isSingle_iff : (Call.of a w x y).IsSingle ↔ ¬Padded x := by
  simp [Call.IsSingle, Padded, Call.args_of]

/-- Arguments are a single one if no comma separates them. -/
theorem padded_iff : Padded x ↔ (Line.splitArgs x).length = 1 → Line.isBlank x = true := by
  constructor
  · intro h hlength
    obtain ⟨arg, hargs⟩ := List.length_eq_one_iff.1 hlength
    exact Line.eq_of_splitArgsFrom_eq_singleton hargs ▸ h arg hargs
  · intro h arg hargs
    rw [Line.eq_of_splitArgsFrom_eq_singleton hargs]
    exact h (by rw [hargs]; rfl)

theorem isBlank_of_widened (h : Line.Widened padding x₀ x) :
    Line.isBlank x = Line.isBlank x₀ := by
  have hvisible {s : List Char} (hs : ')' ∈ s) : Line.isBlank s = false := by
    rw [← Bool.not_eq_true, Line.isBlank, List.all_eq_true]
    exact fun hall => absurd (hall ')' hs) (by decide)
  by_cases hparen : ')' ∈ x₀
  · rw [hvisible hparen, hvisible (h.mem_of_mem hparen)]
  · rw [h.eq_of_not_mem hparen]

/-- Padding in an argument list is in one of the calls in it. -/
theorem padded_iff_of_widened (h : Line.Widened padding x₀ x) (hx₀ : Line.Closes 0 none x₀) :
    Padded x ↔ Padded x₀ := by
  have hlength : (Line.splitArgs x).length = (Line.splitArgs x₀).length := by
    refine h.length_splitArgsFrom_eq isPlain_padding (fun q hq => by cases hq) ?_
    rw [hx₀.1]
    simp
  rw [padded_iff, padded_iff, hlength, isBlank_of_widened h]

/-! ### Places of closing parentheses -/

/-- A call that starts behind `start` characters and has a single argument ends at the place `i`. -/
def EndsSingleAt (q : Pattern) (line : List Char) (start i : Nat) : Prop :=
  ∃ a w x y, line = a ++ (w ++ '(' :: (x ++ ')' :: y)) ∧ a.length = start ∧ Found q a w ∧
    Line.Closes 0 none x ∧ ¬Padded x ∧ i = a.length + w.length + 1 + x.length

theorem endsSingle_iff (hname : isName name = true) :
    EndsSingle name line i ↔ ∃ start, EndsSingleAt (callName name) line start i := by
  constructor
  · rintro ⟨call, rfl, hof, hsingle, rfl⟩
    obtain ⟨a, w, x, y, rfl, hfound, hx⟩ := exists_found_of_isOf hname hof
    exact ⟨a.length, a, w, x, y, rfl, rfl, hfound, hx, isSingle_iff.1 hsingle, rfl⟩
  · rintro ⟨_, a, w, x, y, hline, rfl, hfound, hx, hsingle, rfl⟩
    exact ⟨Call.of a w x y, hline.symm, isOf_of_found hname hfound hx, isSingle_iff.2 hsingle, rfl⟩

theorem EndsSingleAt.getElem?_eq {start : Nat} (h : EndsSingleAt q line start i) :
    (line)[i]? = some ')' := by
  obtain ⟨a, w, x, y, rfl, -, -, -, -, rfl⟩ := h
  have hline : a ++ (w ++ '(' :: (x ++ ')' :: y)) = (a ++ w ++ '(' :: x) ++ ')' :: y := by simp
  have hlength : a.length + w.length + 1 + x.length = (a ++ w ++ '(' :: x).length := by
    simp only [List.length_append, List.length_cons]
    omega
  rw [hline, hlength, List.getElem?_append_right (Nat.le_refl _), Nat.sub_self]
  rfl

theorem EndsSingleAt.start_lt {start : Nat} (h : EndsSingleAt q line start i) : start < i := by
  obtain ⟨a, w, x, y, -, rfl, -, -, -, rfl⟩ := h
  omega

/-- A call that starts behind the parenthesis of another does not end with it. -/
theorem EndsSingleAt.ne_of_nested {start : Nat} (h : EndsSingleAt q line start i)
    (hline : line = (b ++ ['(']) ++ (x₀ ++ ')' :: y₀)) (hx₀ : Line.Closes 0 none x₀)
    (hstart : (b ++ ['(']).length ≤ start) : i ≠ (b ++ ['(']).length + x₀.length := by
  rintro rfl
  obtain ⟨a, w, x, y, hline', rfl, -, hx, -, hplace⟩ := h
  have hsame : ((b ++ ['(']) ++ x₀) ++ ')' :: y₀ = (a ++ (w ++ '(' :: x)) ++ ')' :: y := by
    rw [List.append_assoc, ← hline, hline']
    simp
  have hfront := (List.append_inj hsame (by
    rw [List.length_append, hplace, List.length_append, List.length_append, List.length_cons]
    omega)).1
  have hopening : b ++ ['('] <+: a ++ (w ++ '(' :: x) := by
    rw [← hfront]
    exact List.prefix_append _ _
  obtain ⟨c, rfl⟩ := List.prefix_of_prefix_length_le hopening (List.prefix_append _ _) hstart
  rw [List.append_assoc (b ++ ['(']), List.append_cancel_left_eq, ← List.append_assoc] at hfront
  rw [hfront] at hx₀
  exact Line.quoteBehind_ne_of_nested hx₀ hx.1 hx.2

/-- There is one call at most at a place. -/
theorem EndsSingleAt.exists_of_found (hq : IsOpening q) (hfound : Found q a w)
    (h : EndsSingleAt q (a ++ (w ++ '(' :: b₀)) a.length i) :
    ∃ x y, b₀ = x ++ ')' :: y ∧ Line.Closes 0 none x ∧ ¬Padded x ∧
      i = a.length + w.length + 1 + x.length := by
  obtain ⟨a', w', x, y, hline, hlength, hfound', hx, hsingle, rfl⟩ := h
  obtain ⟨rfl, rfl, hrest⟩ := hfound.eq_of_append_eq hq hfound' hline hlength.symm
  exact ⟨x, y, hrest, hx, hsingle, rfl⟩

/-! ### The visits -/

/-- Behind visits to the calls in `right`, those of them that have a single argument are padded. -/
structure PaddedBehind (q : Pattern) (line : List Char) (right : List Match) (seen : CallVisit)
    (places : Finset Nat) : Prop where
  mem_iff : ∀ i, i ∈ places ↔ ∃ m ∈ right, EndsSingleAt q line m.start i
  line_eq : seen.line = Line.insertAt padding places line
  note_iff : seen.note = none ↔ places = ∅

namespace PaddedBehind

theorem init (q : Pattern) (line : List Char) : PaddedBehind q line [] ⟨line, none, none⟩ ∅ where
  mem_iff i := by simp
  line_eq := (Line.insertFrom_empty padding 0 line).symm
  note_iff := by simp

variable {m : Match} {right : List Match} {seen seen' : CallVisit} {places : Finset Nat}

/-- The padding stands in front of closing parentheses. -/
theorem getElem?_eq (h : PaddedBehind q line right seen places) (hi : i ∈ places) :
    (line)[i]? = some ')' := by
  obtain ⟨m, -, hends⟩ := (h.mem_iff i).1 hi
  exact hends.getElem?_eq

/-- The padding stands behind the first of the calls. -/
theorem le_of_mem (h : PaddedBehind q line right seen places)
    (hright : ∀ m ∈ right, a.length ≤ m.start) (hi : i ∈ places) : a.length ≤ i := by
  obtain ⟨m, hm, hends⟩ := (h.mem_iff i).1 hi
  exact (hright m hm).trans hends.start_lt.le

/-- A visit that changes nothing, to a call without a single argument. -/
theorem keep (h : PaddedBehind q line right seen places)
    (hnone : ∀ i, ¬EndsSingleAt q line m.start i)
    (hsame : seen'.line = seen.line ∧ seen'.note = seen.note) :
    PaddedBehind q line (m :: right) seen' places where
  mem_iff i := by simp [h.mem_iff, hnone]
  line_eq := hsame.1.trans h.line_eq
  note_iff := by rw [hsame.2, h.note_iff]

/-- A visit to a call that is not closed. -/
theorem visit_of_open (hq : IsOpening q) (hfound : Found q a w) (hstart : m.start = a.length)
    (hopen : ∀ x y, b₀ = x ++ ')' :: y → ¬Line.Closes 0 none x)
    (hright : ∀ m' ∈ right, (a ++ w ++ ['(']).length ≤ m'.start)
    (h : PaddedBehind q (a ++ (w ++ '(' :: b₀)) right seen places) :
    PaddedBehind q (a ++ (w ++ '(' :: b₀)) (m :: right)
      (seen.visit padSingleArgument a.length (a.length + w.length)) places := by
  have hsplit : a ++ (w ++ '(' :: b₀) = (a ++ w ++ ['(']) ++ b₀ := by simp
  have hline : seen.line =
      a ++ (w ++ '(' :: Line.insertFrom padding places (a ++ w ++ ['(']).length b₀) := by
    rw [h.line_eq, hsplit, Line.insertAt_append fun i hi => h.le_of_mem hright hi]
    simp
  have hwidened : Line.Widened padding b₀
      (Line.insertFrom padding places (a ++ w ++ ['(']).length b₀) :=
    Line.widened_of_getElem? (b := []) fun i hi => by
      rw [List.append_nil, ← hsplit]
      exact h.getElem?_eq hi
  refine h.keep (fun i hends => ?_) (visit_of_done hline (done_padSingleArgument_iff.2 ?_))
  · obtain ⟨x, y, hb₀, hx, -, -⟩ := (hstart ▸ hends).exists_of_found hq hfound
    exact hopen x y hb₀ hx
  · intro x y hb hx
    have hnone := Line.depthBehind_eq_none_iff.2 ⟨x, y, hb, hx⟩
    rw [hwidened.depthBehind_eq isPlain_padding fun q hq => by cases hq] at hnone
    obtain ⟨x₀, y₀, hb₀, hx₀⟩ := Line.depthBehind_eq_none_iff.1 hnone
    exact absurd hx₀ (hopen x₀ y₀ hb₀)

/-- A visit to a call that is closed. -/
theorem visit_of_closed (hq : IsOpening q) (hfound : Found q a w) (hstart : m.start = a.length)
    (hx₀ : Line.Closes 0 none x₀) (hright : ∀ m' ∈ right, (a ++ w ++ ['(']).length ≤ m'.start)
    (h : PaddedBehind q (a ++ (w ++ '(' :: (x₀ ++ ')' :: y₀))) right seen places) :
    ∃ places', PaddedBehind q (a ++ (w ++ '(' :: (x₀ ++ ')' :: y₀))) (m :: right)
      (seen.visit padSingleArgument a.length (a.length + w.length)) places' := by
  have hsplit : a ++ (w ++ '(' :: (x₀ ++ ')' :: y₀)) =
      (a ++ w ++ ['(']) ++ (x₀ ++ ')' :: y₀) := by simp
  have hlength : (a ++ w ++ ['(']).length = a.length + w.length + 1 := by simp; omega
  have hplaces : ∀ i ∈ places, (a ++ w ++ ['(']).length ≤ i := fun i => h.le_of_mem hright
  -- the calls further right end elsewhere
  have hfresh : (a ++ w ++ ['(']).length + x₀.length ∉ places := by
    intro hmem
    obtain ⟨m', hm', hends⟩ := (h.mem_iff _).1 hmem
    exact hends.ne_of_nested hsplit hx₀ (hright m' hm') rfl
  have hwidened : Line.Widened padding x₀
      (Line.insertFrom padding places (a ++ w ++ ['(']).length x₀) :=
    Line.widened_of_getElem? fun i hi => hsplit ▸ h.getElem?_eq hi
  obtain ⟨x, hx⟩ : ∃ x, x = Line.insertFrom padding places (a ++ w ++ ['(']).length x₀ := ⟨_, rfl⟩
  obtain ⟨y, hy⟩ : ∃ y, y = Line.insertFrom padding places
    ((a ++ w ++ ['(']).length + x₀.length + 1) y₀ := ⟨_, rfl⟩
  rw [← hx] at hwidened
  have hcall : seen.line = (Call.of a w x y).line := by
    rw [h.line_eq, hsplit, Line.insertAt_append hplaces, Line.insertFrom_append, Line.insertFrom,
      if_neg hfresh, ← hx, ← hy]
    simp [Call.of]
  have hclosed : Line.Closes 0 none x := (hwidened.closes_iff isPlain_padding).2 hx₀
  have hpadded := padded_iff_of_widened hwidened hx₀
  by_cases hsingle : Padded x₀
  · refine ⟨places, h.keep (fun i hends => ?_) (visit_of_done hcall
      (done_padSingleArgument_iff.2 fun x' y' hb hx' => ?_))⟩
    · obtain ⟨x', y', hb, hx', hsingle', -⟩ := (hstart ▸ hends).exists_of_found hq hfound
      exact hsingle' (hx₀.eq_of_append_eq hx' hb ▸ hsingle)
    · exact hclosed.eq_of_append_eq hx' hb ▸ hpadded.2 hsingle
  · have hreplace := padSingleArgument_of_not_padded (a := a) (w := w) (y := y) (mt hpadded.1 hsingle)
    refine ⟨insert ((a ++ w ++ ['(']).length + x₀.length) places, fun i => ?_, ?_, ?_⟩
    · rw [Finset.mem_insert, h.mem_iff, List.exists_mem_cons_iff, hstart, hlength]
      refine or_congr_left ⟨?_, fun hends => ?_⟩
      · rintro rfl
        exact ⟨a, w, x₀, y₀, rfl, rfl, hfound, hx₀, hsingle, rfl⟩
      · obtain ⟨x', y', hb, hx', -, rfl⟩ := hends.exists_of_found hq hfound
        rw [hx₀.eq_of_append_eq hx' hb]
    · rw [visit_of_replace hcall hclosed hreplace, Call.drop_closing, hsplit,
        Line.insertAt_append (Finset.forall_mem_insert _ _ _ |>.2 ⟨Nat.le_add_right _ _, hplaces⟩),
        Line.insertFrom_insert, ← hx, ← hy]
      simp
    · rw [visit_of_replace hcall hclosed hreplace]
      simp

end PaddedBehind

variable {m : Match} {right : List Match} {seen : CallVisit} {places : Finset Nat}

/-- **One visit.** -/
theorem PaddedBehind.visit (hq : IsOpening q) (hm : m ∈ calls q line)
    (hright : ∀ m' ∈ right, m.stop ≤ m'.start) (h : PaddedBehind q line right seen places) :
    ∃ places', PaddedBehind q line (m :: right)
      (seen.visit padSingleArgument m.start (m.stop - 1)) places' := by
  obtain ⟨a, w, b, rfl, hstart, hstop, hfound⟩ := exists_found_of_mem_calls hq hm
  have hopening : m.stop - 1 = a.length + w.length := by omega
  have hright' : ∀ m' ∈ right, (a ++ w ++ ['(']).length ≤ m'.start := by
    intro m' hm'
    have := hright m' hm'
    rw [List.length_append, List.length_append, List.length_singleton]
    omega
  rw [hopening, hstart]
  by_cases hclosed : ∃ x y, b = x ++ ')' :: y ∧ Line.Closes 0 none x
  · obtain ⟨x, y, rfl, hx⟩ := hclosed
    exact h.visit_of_closed hq hfound hstart hx hright'
  · exact ⟨places, h.visit_of_open hq hfound hstart
      (fun x y hb hx => hclosed ⟨x, y, hb, hx⟩) hright'⟩

/-- **All visits.** -/
theorem exists_paddedBehind (hq : IsOpening q) {left : List Match} (h : calls q line = left ++ right) :
    ∃ places, PaddedBehind q line right (visitAll padSingleArgument line right) places := by
  induction right generalizing left with
  | nil => exact ⟨∅, .init q line⟩
  | cons m right ih =>
    obtain ⟨places, hplaces⟩ := @ih (left ++ [m]) (by simp [h])
    have hpairs := pairwise_calls hq line
    rw [h, List.pairwise_append, List.pairwise_cons] at hpairs
    exact hplaces.visit hq (by simp [h]) fun m' hm' => (hpairs.2.1.1 m' hm').2

/-! ### The rules -/

theorem padsSingle_editCalls (hname : isName name = true) (hq : IsOpening (callName name))
    (hcomma : (callOf name).avoids ',' = true) (hparen : (callOf name).avoids ')' = true)
    (line : List Char) :
    PadsSingle name line (editCalls (callOf name) padSingleArgument line) := by
  obtain ⟨places, hmem, hline, hnote⟩ := exists_paddedBehind hq
    (List.nil_append (calls (callName name) line)).symm
  have hends (i : Nat) : i ∈ places ↔ EndsSingle name line i := by
    rw [hmem, endsSingle_iff hname]
    refine ⟨fun ⟨m, _, h⟩ => ⟨m.start, h⟩, ?_⟩
    rintro ⟨_, a, w, x, y, hline, rfl, hfound, h⟩
    obtain ⟨m, hm, hstart⟩ := exists_mem_calls_of_found hq hfound hline
    exact ⟨m, hm, hstart ▸ ⟨a, w, x, y, hline, rfl, hfound, h⟩⟩
  have hnone : editCalls (callOf name) padSingleArgument line = none ↔ places = ∅ := by
    rw [editCalls, Option.map_eq_none_iff]
    exact hnote
  have hedit {edit : Edit} (h : editCalls (callOf name) padSingleArgument line = some edit) :
      edit.line = (visitAll padSingleArgument line (calls (callName name) line)).line ∧
        edit = .changed edit.line edit.note := by
    obtain ⟨note, -, rfl⟩ := Option.map_eq_some_iff.1 h
    exact ⟨rfl, rfl⟩
  -- no edit without such a call; the new line; and no such call in the new line
  refine ⟨?_, fun edit h => ⟨places, hends, ?_⟩, fun edit h i => ?_⟩
  · rw [hnone, Finset.eq_empty_iff_forall_notMem]
    exact forall_congr' fun i => not_congr (hends i)
  · rw [← hline, ← (hedit h).1]
    exact (hedit h).2
  · rw [endsSingle_iff hname, (hedit h).1]
    rintro ⟨start, a, w, x, y, hnew, -, hfound, hx, hsingle, -⟩
    have hvisited := visited_visitAll hq (finishes_padSingleArgument hq hcomma hparen)
      (List.nil_append (calls (callName name) line)).symm
    rcases hvisited.found hfound hnew with ⟨m, hm, -⟩ | ⟨hdone, -⟩
    · cases hm
    · exact hsingle (done_padSingleArgument_iff.1 hdone x y rfl hx)

/-- **The rules pad the calls with a single argument, and nothing else.**  That about `NVL` leaves lines
alone that have `ORDER BY` or `UNKNOWN` in their code. -/
theorem padSingleArgument_exact (ctx : Context) (line : List Char) :
    PadsSingle "COALESCE" line (coalesce.edit? ctx line) ∧
      if Literal.codeMatches (boundary ++ phrase ["ORDER", "BY"] ++ boundary) line ||
          Literal.codeMatches (wholeWord "UNKNOWN") line then
        nvl.edit? ctx line = none
      else PadsSingle "NVL" line (nvl.edit? ctx line) := by
  refine ⟨padsSingle_editCalls (by decide) isOpening_coalesce (by decide) (by decide) line, ?_⟩
  unfold nvl
  dsimp only
  split
  · rfl
  · exact padsSingle_editCalls (by decide) isOpening_nvl (by decide) (by decide) line

/-- Calls in calls, a comma in a quote, and a call without an argument. -/
example : (coalesce.edit? (.start none) "COALESCE(COALESCE(f(a, ',')), COALESCE( ))".toList).map
    Edit.line = some "COALESCE(COALESCE(f(a, ','), null), COALESCE( ))".toList := by
  decide

end Rule

end SqlDialect
