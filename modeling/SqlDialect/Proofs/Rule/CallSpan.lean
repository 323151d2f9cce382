import SqlDialect.Proofs.Line.Nesting
import SqlDialect.Proofs.Rule.Settled.Call
import SqlDialect.Rule.CallSpan

/-!
# The places of calls stay right

The calls of a line are changed from right to left, at places that were found in the line as it came.
What holds between two visits is `CallTour.Intact`: up to the calls that have still to be visited, the line
is as it came.  One visit keeps it (`CallTour.Intact.visit`), since whatever it replaces starts with the
call (`CallTour.exists_visit?`), and so do all visits (`CallTour.exists_intact`).
-/

namespace SqlDialect

open Text (octets toUtf8 slice?)

namespace Text

variable {text front s t : List Char} {n : Nat}

/-! ### The front of a text -/

theorem octets_eq_zero_iff : octets text = 0 ↔ text = [] := by
  rw [← Nat.le_zero, ← not_lt, octets_pos_iff, not_not]

theorem slice?_zero_eq_some_iff : slice? text 0 n = some front ↔ front <+: text ∧ octets front = n := by
  rw [slice?_eq_some_iff]
  constructor
  · rintro ⟨before, behind, rfl, hbefore, rfl⟩
    obtain rfl := octets_eq_zero_iff.1 hbefore.symm
    exact ⟨⟨behind, rfl⟩, rfl⟩
  · rintro ⟨⟨behind, rfl⟩, rfl⟩
    exact ⟨[], behind, rfl, rfl, rfl⟩

/-- Fronts of a text are told apart by their octets. -/
theorem isPrefix_of_octets_le (hs : s <+: text) (ht : t <+: text) (h : octets s ≤ octets t) : s <+: t := by
  rcases List.prefix_or_prefix_of_prefix hs ht with hst | ⟨more, rfl⟩
  · exact hst
  · rw [octets_append] at h
    obtain rfl : more = [] := octets_eq_zero_iff.1 (by omega)
    exact ⟨[], by simp⟩

theorem eq_of_isPrefix (hs : s <+: text) (ht : t <+: text) (h : octets s = octets t) : s = t :=
  (isPrefix_of_octets_le hs ht h.le).eq_of_length_le (isPrefix_of_octets_le ht hs h.ge).length_le

theorem take_toUtf8_of_isPrefix (h : front <+: text) (hn : n ≤ octets front) :
    (toUtf8 text).take n = (toUtf8 front).take n := by
  obtain ⟨behind, rfl⟩ := h
  rw [toUtf8_append, List.take_append_of_le_length (by rwa [length_toUtf8])]

/-- The two texts have the same first `n` octets, and a character ends there. -/
def AgreeUpTo (n : Nat) (s t : List Char) : Prop :=
  ∃ front, slice? s 0 n = some front ∧ slice? t 0 n = some front

theorem agreeUpTo_iff : AgreeUpTo n s t ↔ ∃ front, front <+: s ∧ front <+: t ∧ octets front = n := by
  simp only [AgreeUpTo, slice?_zero_eq_some_iff]
  constructor
  · rintro ⟨front, ⟨hs, hn⟩, ht, -⟩
    exact ⟨front, hs, ht, hn⟩
  · rintro ⟨front, hs, ht, hn⟩
    exact ⟨front, ⟨hs, hn⟩, ht, hn⟩

/-- Other text in the middle of a text. -/
theorem replaceOctets?_append (a old behind new : List Char) :
    replaceOctets? (a ++ old ++ behind) (octets a) (octets (a ++ old)) new = some (a ++ new ++ behind) := by
  have hbefore : slice? (a ++ old ++ behind) 0 (octets a) = some a :=
    slice?_zero_eq_some_iff.2 ⟨⟨old ++ behind, by simp⟩, rfl⟩
  have hbehind := slice?_append (a ++ old) behind []
  rw [List.append_nil] at hbehind
  rw [replaceOctets?, hbefore, slice?_append, hbehind]
  rfl

end Text

/-! ### A parenthesis behind some text -/

theorem Line.closingPlace_append_eq_found_iff {a b : List Char} {stop : Nat} :
    closingPlace (a ++ '(' :: b) (octets a) = .found stop ↔
      ∃ x y, b = x ++ ')' :: y ∧ stop = octets a + 1 + octets x ∧ Closes 0 none x := by
  rw [closingPlace_eq_found_iff]
  constructor
  · rintro ⟨before, x, y, hline, hoctets, rfl, hx⟩
    obtain rfl := Text.eq_of_isPrefix (List.prefix_append a _) ⟨_, hline.symm⟩ hoctets
    rw [List.append_cancel_left_eq, List.cons_eq_cons] at hline
    exact ⟨x, y, hline.2, rfl, hx⟩
  · rintro ⟨x, y, rfl, rfl, hx⟩
    exact ⟨a, x, y, rfl, rfl, rfl, hx⟩

/-! ### Calls by octets -/

variable {σ : Type} {p : Pattern} {f : CallRewriter σ} {a b w x y line : List Char} {place : CallPlace}
  {tour : CallTour σ}

namespace CallSpan

/-- The call whose name starts behind `a`: the name and white space `w`, the arguments `x`, and `y` behind
the closing parenthesis. -/
def of (a w x y : List Char) : CallSpan :=
  ⟨a ++ (w ++ '(' :: (x ++ ')' :: y)), octets a, octets (a ++ w), octets (a ++ w) + 1 + octets x⟩

theorem before?_of : (of a w x y).before? = some a :=
  Text.slice?_zero_eq_some_iff.2 ⟨List.prefix_append _ _, rfl⟩

theorem octets_paren : octets ['('] = 1 ∧ octets [')'] = 1 := by decide

/-- The end of a call. -/
theorem octets_closed (a w x : List Char) :
    octets (a ++ (w ++ ['('] ++ x ++ [')'])) = octets (a ++ w) + 1 + octets x + 1 := by
  rw [← List.append_assoc, ← List.append_assoc, ← List.append_assoc, Text.octets_append _ [')'],
    Text.octets_append _ x, Text.octets_append _ ['('], octets_paren.1, octets_paren.2]

theorem args?_of : (of a w x y).args? = some x := by
  have h := Text.slice?_append (a ++ w ++ ['(']) x (')' :: y)
  rw [Text.octets_append _ x, Text.octets_append _ ['('], octets_paren.1] at h
  simpa [args?, of] using h

theorem text?_of : (of a w x y).text? = some (w ++ ['('] ++ x ++ [')']) := by
  have h := Text.slice?_append a (w ++ ['('] ++ x ++ [')']) y
  rw [octets_closed] at h
  simpa [text?, of] using h

theorem after?_of : (of a w x y).after? = some y := by
  have h := Text.slice?_append (a ++ (w ++ ['('] ++ x ++ [')'])) y []
  rw [octets_closed] at h
  simpa [after?, of] using h

/-- The place of a call is a character of the line, and the parenthesis is closed. -/
structure IsProper (call : CallSpan) : Prop where
  starts : ∃ before, call.before? = some before
  start_le : call.start ≤ call.opening
  closed : Line.closingPlace call.line call.opening = .found call.closing

theorem isProper_iff {call : CallSpan} :
    call.IsProper ↔ ∃ a w x y, call = of a w x y ∧ Line.Closes 0 none x := by
  constructor
  · obtain ⟨line, start, opening, closing⟩ := call
    rintro ⟨⟨a, ha⟩, hle, hclosed⟩
    dsimp only at hle hclosed
    obtain ⟨before, x, y, rfl, rfl, rfl, hx⟩ := Line.closingPlace_eq_found_iff.1 hclosed
    obtain ⟨hhead, rfl⟩ := Text.slice?_zero_eq_some_iff.1 ha
    obtain ⟨w, rfl⟩ := Text.isPrefix_of_octets_le hhead (List.prefix_append _ _) hle
    exact ⟨a, w, x, y, by simp [of], hx⟩
  · rintro ⟨a, w, x, y, rfl, hx⟩
    refine ⟨⟨a, before?_of⟩, ?_,
      Line.closingPlace_eq_found_iff.2 ⟨a ++ w, x, y, by simp [of], rfl, rfl, hx⟩⟩
    rw [of, Text.octets_append]
    exact Nat.le_add_right _ _

end CallSpan

/-- The rule gives a result for every call, and what it replaces goes on behind the call, up to a character
of the line. -/
def CallRewriter.Contained (f : CallRewriter σ) : Prop :=
  ∀ kept call, call.IsProper → ∃ replacement? kept', f kept call = some (replacement?, kept') ∧
    ∀ replacement, replacement? = some replacement → call.closing < replacement.stop ∧
      ∃ front, slice? call.line 0 replacement.stop = some front

namespace CallTour

/-! ### One visit -/

theorem visit?_of_open (hline : tour.line = a ++ (w ++ '(' :: b))
    (hopen : ∀ x y, b = x ++ ')' :: y → ¬Line.Closes 0 none x) :
    tour.visit? f ⟨octets a, octets (a ++ w)⟩ =
      some { tour with turns := ⟨tour.line, ⟨octets a, octets (a ++ w)⟩, none⟩ :: tour.turns } := by
  have hline' : tour.line = (a ++ w) ++ '(' :: b := by rw [hline, List.append_assoc]
  rw [visit?]
  cases h : Line.closingPlace tour.line (octets (a ++ w)) with
  | underflow => exact absurd h (Line.closingPlace_ne_underflow _ _)
  | missing => rfl
  | found closing =>
    rw [hline', Line.closingPlace_append_eq_found_iff] at h
    obtain ⟨x, y, hb, -, hx⟩ := h
    exact absurd hx (hopen x y hb)

theorem visit?_of_closed (hline : tour.line = (CallSpan.of a w x y).line) (hx : Line.Closes 0 none x) :
    tour.visit? f ⟨octets a, octets (a ++ w)⟩ =
      (f tour.kept (CallSpan.of a w x y)).bind fun (replacement?, kept) =>
        match replacement? with
        | none => some ⟨tour.line, kept, ⟨tour.line, ⟨octets a, octets (a ++ w)⟩, none⟩ :: tour.turns⟩
        | some replacement =>
          (Text.replaceOctets? tour.line (octets a) replacement.stop replacement.text).map fun line =>
            ⟨line, kept, ⟨tour.line, ⟨octets a, octets (a ++ w)⟩,
              some (Text.trim (w ++ ['('] ++ x ++ [')']))⟩ :: tour.turns⟩ := by
  have hclosing := (CallSpan.isProper_iff.2 ⟨a, w, x, y, rfl, hx⟩).closed
  have hcall : (⟨tour.line, octets a, octets (a ++ w), (CallSpan.of a w x y).closing⟩ : CallSpan) =
      CallSpan.of a w x y := by
    rw [hline, CallSpan.of]
  rw [visit?, show Line.closingPlace tour.line (octets (a ++ w)) = _ from hline ▸ hclosing]
  dsimp only
  rw [hcall]
  refine congrArg _ (funext fun ⟨replacement?, kept⟩ => ?_)
  cases replacement? with
  | none => rfl
  | some replacement =>
    dsimp only
    rw [CallSpan.text?_of]
    cases Text.replaceOctets? tour.line (octets a) replacement.stop replacement.text <;> rfl

/-- A visit leaves the line alone, or replaces text that starts with the call. -/
theorem exists_visit? (hf : f.Contained) (hline : tour.line = a ++ (w ++ '(' :: b)) :
    ∃ line kept note, tour.visit? f ⟨octets a, octets (a ++ w)⟩ =
        some ⟨line, kept, ⟨tour.line, ⟨octets a, octets (a ++ w)⟩, note⟩ :: tour.turns⟩ ∧
      (note = none ∧ line = tour.line ∨ note.isSome = true ∧ a <+: line) := by
  by_cases hclosed : ∃ x y, b = x ++ ')' :: y ∧ Line.Closes 0 none x
  · obtain ⟨x, y, rfl, hx⟩ := hclosed
    have hproper := CallSpan.isProper_iff.2 ⟨a, w, x, y, rfl, hx⟩
    obtain ⟨replacement?, kept, hresult, hstop⟩ := hf tour.kept _ hproper
    rw [visit?_of_closed hline hx, hresult]
    cases replacement? with
    | none => exact ⟨_, _, _, rfl, .inl ⟨rfl, rfl⟩⟩
    | some replacement =>
      obtain ⟨hlt, front, hfront⟩ := hstop replacement rfl
      obtain ⟨hhead, hoctets⟩ := Text.slice?_zero_eq_some_iff.1 hfront
      -- the text up to the end of what is replaced is not shorter than `a`
      obtain ⟨old, rfl⟩ : a <+: front := by
        refine Text.isPrefix_of_octets_le ⟨_, rfl⟩ hhead ?_
        have hle := hproper.start_le
        rw [hoctets]
        simp only [CallSpan.of] at hlt hle
        omega
      obtain ⟨behind, hbehind⟩ := hhead
      have hline' : tour.line = a ++ old ++ behind := hline.trans hbehind.symm
      have hnew := Text.replaceOctets?_append a old behind replacement.text
      rw [← hline', hoctets] at hnew
      refine ⟨a ++ replacement.text ++ behind, kept, some (Text.trim (w ++ ['('] ++ x ++ [')'])), ?_,
        .inr ⟨rfl, ⟨replacement.text ++ behind, (List.append_assoc _ _ _).symm⟩⟩⟩
      rw [Option.bind_some]
      dsimp only
      rw [hnew]
      rfl
  · simp only [not_exists, not_and] at hclosed
    exact ⟨_, _, _, visit?_of_open hline hclosed, .inl ⟨rfl, rfl⟩⟩

end CallTour

/-! ### Places -/

/-- The place of a match that ends with a parenthesis. -/
def CallPlace.ofMatch (line : List Char) (m : Match) : CallPlace :=
  ⟨octets (line.take m.start), octets (line.take m.stop) - 1⟩

theorem callPlaces_eq (p : Pattern) (line : List Char) :
    callPlaces p line =
      ((p.matchesIn line).filter fun m => Literal.inCode line m.start).map (.ofMatch line) := by
  have hcode : (fun place : CallPlace => Literal.isCodeAt line place.start) ∘ CallPlace.ofMatch line =
      fun m => Literal.inCode line m.start :=
    funext fun m => Literal.isCodeAt_octets line m.start
  rw [← hcode, ← List.filter_map]
  rfl

/-- A match that ends with a parenthesis starts a call. -/
theorem exists_of_mem_matchesIn {m : Match} (hm : m ∈ p.matchesIn line)
    (hopen : m.text.getLast? = some '(') :
    ∃ a w b, m.text = w ++ ['('] ∧ m.start = a.length ∧ m.stop = a.length + w.length + 1 ∧
      line = a ++ (w ++ '(' :: b) ∧ CallPlace.ofMatch line m = ⟨octets a, octets (a ++ w)⟩ := by
  obtain ⟨a, rest, rfl, hmatch, -⟩ := Pattern.exists_matchAt_of_mem_matchesIn hm
  obtain ⟨b, hb, -⟩ := Pattern.reads_of_matchAt hmatch
  obtain ⟨w, hw⟩ := List.getLast?_eq_some_iff.1 hopen
  have hstart : m.start = a.length := Pattern.start_eq_of_matchAt hmatch
  have hstop : m.stop = a.length + w.length + 1 := by
    rw [Match.stop, hstart, hw, List.length_append, List.length_singleton, Nat.add_assoc]
  have hrest : rest = w ++ '(' :: b := by
    have hrest : rest = m.text ++ b := hb
    rw [hrest, hw, List.append_assoc]
    rfl
  refine ⟨a, w, b, hw, hstart, hstop, by rw [hrest], ?_⟩
  have hfront : (a ++ rest).take m.stop = a ++ w ++ ['('] := by
    have hline : a ++ rest = (a ++ w ++ ['(']) ++ b := by simp [hrest]
    rw [hline, List.take_left']
    simp only [List.length_append, List.length_singleton]
    omega
  rw [CallPlace.ofMatch, hstart, List.take_left, hfront, Text.octets_append _ ['('],
    CallSpan.octets_paren.1, Nat.add_sub_cancel]

/-- A call ends in front of the next one. -/
theorem pairwise_callPlaces (hp : ∀ m ∈ p.matchesIn line, m.text.getLast? = some '(') :
    (callPlaces p line).Pairwise fun u v => u.opening < v.start := by
  rw [callPlaces_eq, List.pairwise_map]
  refine ((Pattern.pairwise_matchesIn p line).filter _).imp_of_mem fun {m m'} hm hm' hle => ?_
  obtain ⟨a, w, b, -, -, hstop, hline, hplace⟩ :=
    exists_of_mem_matchesIn (List.mem_filter.1 hm).1 (hp m (List.mem_filter.1 hm).1)
  obtain ⟨a', w', b', -, hstart', -, hline', hplace'⟩ :=
    exists_of_mem_matchesIn (List.mem_filter.1 hm').1 (hp m' (List.mem_filter.1 hm').1)
  -- the first call is in front of the name of the second
  have hhead : a ++ w ++ ['('] <+: a' := by
    have h₁ : a ++ w ++ ['('] <+: line := ⟨b, by simp [hline]⟩
    have h₂ : a' <+: line := ⟨_, hline'.symm⟩
    refine List.prefix_of_prefix_length_le h₁ h₂ ?_
    simp only [List.length_append, List.length_singleton]
    omega
  obtain ⟨more, rfl⟩ := hhead
  rw [hplace, hplace', Text.octets_append _ more, Text.octets_append _ ['('], CallSpan.octets_paren.1]
  dsimp only
  omega

/-! ### All visits -/

/-- At the visit, the line is as it came up to the parenthesis of the call, the place is that of a match,
and every slice at the call is one of the line. -/
structure CallTurn.Holds (p : Pattern) (line : List Char) (turn : CallTurn) : Prop where
  agrees : Text.AgreeUpTo (turn.place.opening + 1) turn.line line
  named : ∃ m ∈ p.matchesIn line, turn.place.start = octets (line.take m.start) ∧
    slice? turn.line turn.place.start (turn.place.opening + 1) = some m.text
  sliced : ∀ closing, Line.closingPlace turn.line turn.place.opening = .found closing →
    let call : CallSpan := ⟨turn.line, turn.place.start, turn.place.opening, closing⟩
    call.text?.isSome ∧ call.args?.isSome ∧ call.before?.isSome ∧ call.after?.isSome

theorem CallTurn.holds_of {m : Match} {note : Option (List Char)} (hm : m ∈ p.matchesIn line)
    (hname : m.text = w ++ ['(']) (hstart : m.start = a.length) (hline : line = a ++ (w ++ '(' :: b))
    {b' : List Char} :
    CallTurn.Holds p line ⟨a ++ (w ++ '(' :: b'), ⟨octets a, octets (a ++ w)⟩, note⟩ where
  agrees := by
    rw [Text.agreeUpTo_iff]
    refine ⟨a ++ w ++ ['('], ⟨b', by simp⟩, ⟨b, by simp [hline]⟩, ?_⟩
    rw [Text.octets_append _ ['('], CallSpan.octets_paren.1]
  named := by
    have hslice := Text.slice?_append a (w ++ ['(']) b'
    rw [← List.append_assoc a w, Text.octets_append _ ['('], CallSpan.octets_paren.1] at hslice
    refine ⟨m, hm, by rw [hstart, hline, List.take_left], ?_⟩
    rw [hname]
    simpa using hslice
  sliced closing hclosing := by
    have hproper : CallSpan.IsProper ⟨a ++ (w ++ '(' :: b'), octets a, octets (a ++ w), closing⟩ := by
      refine ⟨⟨a, Text.slice?_zero_eq_some_iff.2 ⟨List.prefix_append _ _, rfl⟩⟩, ?_, hclosing⟩
      dsimp only
      rw [Text.octets_append]
      exact Nat.le_add_right _ _
    obtain ⟨a', w', x, y, hcall, -⟩ := CallSpan.isProper_iff.1 hproper
    dsimp only
    rw [hcall, CallSpan.text?_of, CallSpan.args?_of, CallSpan.before?_of, CallSpan.after?_of]
    exact ⟨rfl, rfl, rfl, rfl⟩

namespace CallTour

/-- What holds when the calls in `left` have still to be visited. -/
structure Intact (p : Pattern) (line : List Char) (left : List CallPlace) (tour : CallTour σ) : Prop where
  /-- The calls are visited from right to left. -/
  places : left ++ tour.turns.map (·.place) = callPlaces p line
  /-- Up to the calls that have still to be visited, the line is as it came. -/
  ahead : ∀ place ∈ left, Text.AgreeUpTo (place.opening + 1) tour.line line
  /-- So it was at every visit. -/
  turns : ∀ turn ∈ tour.turns, turn.Holds p line
  /-- In front of the calls that have been replaced, the line is as it came. -/
  before : ∀ n, (∀ turn ∈ tour.turns, turn.note.isSome = true → n ≤ turn.place.start) →
    (toUtf8 tour.line).take n = (toUtf8 line).take n

theorem intact_init (p : Pattern) (kept : σ) (line : List Char)
    (hp : ∀ m ∈ p.matchesIn line, m.text.getLast? = some '(') :
    Intact p line (callPlaces p line) ⟨line, kept, []⟩ where
  places := List.append_nil _
  ahead place hplace := by
    rw [callPlaces_eq] at hplace
    obtain ⟨m, hm, rfl⟩ := List.mem_map.1 hplace
    have hm := (List.mem_filter.1 hm).1
    obtain ⟨a, w, b, hname, hstart, -, hline, hplace⟩ := exists_of_mem_matchesIn hm (hp m hm)
    have hholds : CallTurn.Holds p line ⟨a ++ (w ++ '(' :: b), ⟨octets a, octets (a ++ w)⟩, none⟩ :=
      CallTurn.holds_of hm hname hstart hline
    rw [← hline, ← hplace] at hholds
    exact hholds.agrees
  turns _ h := absurd h List.not_mem_nil
  before _ _ := rfl

/-- The next call is still where it was. -/
theorem Intact.exists_call {left : List CallPlace} {m : Match} (hm : m ∈ p.matchesIn line)
    (hopen : m.text.getLast? = some '(') (h : Intact p line (left ++ [.ofMatch line m]) tour) :
    ∃ a w b b', m.text = w ++ ['('] ∧ m.start = a.length ∧ m.stop = a.length + w.length + 1 ∧
      line = a ++ (w ++ '(' :: b) ∧ tour.line = a ++ (w ++ '(' :: b') ∧
      CallPlace.ofMatch line m = ⟨octets a, octets (a ++ w)⟩ := by
  obtain ⟨a, w, b, hname, hstart, hstop, hline, hplace⟩ := exists_of_mem_matchesIn hm hopen
  obtain ⟨front, ⟨b', hb'⟩, hfront, hoctets⟩ := Text.agreeUpTo_iff.1
    (h.ahead _ (List.mem_append_right left (List.mem_singleton_self _)))
  rw [hplace, ← CallSpan.octets_paren.1, ← Text.octets_append] at hoctets
  obtain rfl := Text.eq_of_isPrefix hfront ⟨b, by simp [hline]⟩ hoctets
  exact ⟨a, w, b, b', hname, hstart, hstop, hline, by simp [← hb'], hplace⟩

/-- **One visit.** -/
theorem Intact.visit {left : List CallPlace} (hp : ∀ m ∈ p.matchesIn line, m.text.getLast? = some '(')
    (hf : f.Contained) (h : Intact p line (left ++ [place]) tour) :
    ∃ tour', tour.visit? f place = some tour' ∧ Intact p line left tour' := by
  have hpairwise := pairwise_callPlaces hp
  have hplace : place ∈ callPlaces p line := by simp [← h.places]
  rw [← h.places] at hpairwise
  rw [callPlaces_eq] at hplace
  obtain ⟨m, hm, rfl⟩ := List.mem_map.1 hplace
  have hm := (List.mem_filter.1 hm).1
  obtain ⟨a, w, b, b', hname, hstart, -, hline, hline', hplace⟩ := h.exists_call hm (hp m hm)
  rw [hplace] at h hpairwise ⊢
  obtain ⟨line', kept, note, hvisit, hafter⟩ := exists_visit? hf hline'
  -- both lines start with the text in front of the call
  have ha : a <+: line := ⟨_, hline.symm⟩
  have ha' : a <+: line' := by
    rcases hafter with ⟨-, rfl⟩ | ⟨-, hhead⟩
    · exact ⟨_, hline'.symm⟩
    · exact hhead
  refine ⟨_, hvisit, ?_, fun place hplace => ?_, ?_, fun n hn => ?_⟩
  · simpa using h.places
  · -- the other calls are in front of `a`
    have hlt : place.opening < octets a :=
      (List.pairwise_append.1 (List.pairwise_append.1 hpairwise).1).2.2 place hplace _
        (List.mem_singleton_self _)
    obtain ⟨front, -, hfront, hoctets⟩ := Text.agreeUpTo_iff.1
      (h.ahead place (List.mem_append_left _ hplace))
    have hfront' : front <+: a := Text.isPrefix_of_octets_le hfront ha (by omega)
    exact Text.agreeUpTo_iff.2 ⟨front, hfront'.trans ha', hfront, hoctets⟩
  · rw [List.forall_mem_cons]
    refine ⟨?_, h.turns⟩
    rw [hline']
    exact CallTurn.holds_of hm hname hstart hline
  · rw [List.forall_mem_cons] at hn
    rcases hafter with ⟨-, rfl⟩ | ⟨hnote, -⟩
    · exact h.before n hn.2
    · rw [Text.take_toUtf8_of_isPrefix ha' (hn.1 hnote), Text.take_toUtf8_of_isPrefix ha (hn.1 hnote)]

/-- **All visits** to the calls further right. -/
theorem exists_intact (hp : ∀ m ∈ p.matchesIn line, m.text.getLast? = some '(') (hf : f.Contained)
    (kept : σ) {left right : List CallPlace} (hplaces : left ++ right = callPlaces p line) :
    ∃ tour, right.foldrM (visit? f) ⟨line, kept, []⟩ = some tour ∧ Intact p line left tour := by
  -- the induction is on the calls that have been visited
  induction right generalizing left with
  | nil =>
    rw [List.append_nil] at hplaces
    exact ⟨_, rfl, hplaces ▸ intact_init p kept line hp⟩
  | cons place right ih =>
    have hplaces' : (left ++ [place]) ++ right = callPlaces p line := by simpa using hplaces
    obtain ⟨tour, htour, hintact⟩ := ih hplaces'
    obtain ⟨tour', hvisit, hintact'⟩ := hintact.visit hp hf
    exact ⟨tour', by rw [List.foldrM_cons, htour]; exact hvisit, hintact'⟩

end CallTour

end SqlDialect
