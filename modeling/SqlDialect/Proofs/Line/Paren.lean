import SqlDialect.Proofs.Line.Scan

/-!
# Parentheses and arguments

Both scans that count parentheses keep the same two things: how many parentheses are open, and which
quote.  `Line.depthBehind` follows the first of them behind an opening parenthesis, as long as that is
not closed.

* `Line.matchingParen_eq_some_iff` : what stands between an opening parenthesis and the one that closes
  it.
* `Line.eq_add_netDepth` : the number of open parentheses goes up by what a text opens and does not
  close.
* `Line.quoteBehind_ne_of_nested` : two parentheses are not closed by the same one.
* `Line.one_lt_length_splitArgs`, `Line.length_splitArgs_insert` : how text without parentheses and quotes
  changes the number of arguments.
-/

namespace SqlDialect.Line

variable {depth depth' index stop : Nat} {open? : Option Char} {c : Char}
  {a b rest text : List Char}

/-! ### Depth -/

/-- The number of open parentheses behind a character. -/
def nextDepth (depth : Nat) (open? : Option Char) (c : Char) : Nat :=
  if open?.isSome then depth
  else if c == '(' then depth + 1 else if c == ')' then depth - 1 else depth

/-- Whether the character closes the parenthesis in front, when `depth` more are open. -/
def closes (depth : Nat) (open? : Option Char) (c : Char) : Bool :=
  open?.isNone && c == ')' && depth == 0

/-- The number of parentheses that are open behind the text, besides the one in front of it; none if
that is closed in the text. -/
def depthBehind : Nat → Option Char → List Char → Option Nat
  | depth, _, [] => some depth
  | depth, open?, c :: rest =>
    if closes depth open? c then none
    else depthBehind (nextDepth depth open? c) (quoteAfter open? c) rest

/-- A parenthesis in front of the text is closed by one right behind it. -/
def Closes (depth : Nat) (open? : Option Char) (text : List Char) : Prop :=
  depthBehind depth open? text = some 0 ∧ quoteBehind open? text = none

theorem closes_iff : closes depth open? c = true ↔ open? = none ∧ c = ')' ∧ depth = 0 := by
  simp [closes, and_assoc]

theorem depth_ne_zero_of_closes (h : closes depth open? c = false) (hopen : open? = none)
    (hc : c = ')') : depth ≠ 0 := by
  rintro rfl
  rw [closes_iff.2 ⟨hopen, hc, rfl⟩] at h
  cases h

theorem nextDepth_succ (h : closes depth open? c = false) :
    nextDepth (depth + 1) open? c = nextDepth depth open? c + 1 := by
  unfold nextDepth
  split_ifs with hquote hopen hclose
  · rfl
  · rfl
  · have hpos := depth_ne_zero_of_closes h (by simpa using hquote) (beq_iff_eq.1 hclose)
    omega
  · rfl

theorem depthBehind_append (depth : Nat) (open? : Option Char) (a b : List Char) :
    depthBehind depth open? (a ++ b) =
      (depthBehind depth open? a).bind fun depth => depthBehind depth (quoteBehind open? a) b := by
  induction a generalizing depth open? with
  | nil => rfl
  | cons c a ih =>
    rw [List.cons_append, depthBehind, depthBehind]
    split
    · rfl
    · exact ih _ _

/-- More parentheses in front of the text stay open behind it. -/
theorem depthBehind_add (h : depthBehind depth open? text = some depth') (more : Nat) :
    depthBehind (depth + more) open? text = some (depth' + more) := by
  induction more with
  | zero => exact h
  | succ more ih =>
    rw [← Nat.add_assoc, ← Nat.add_assoc]
    generalize depth + more = depth, depth' + more = depth' at ih
    clear h
    induction text generalizing depth open? with
    | nil => exact congrArg (some <| · + 1) (Option.some.inj ih)
    | cons c text hind =>
      rw [depthBehind] at ih ⊢
      split at ih
      · cases ih
      · rename_i hstay
        rw [Bool.not_eq_true] at hstay
        have hstay' : closes (depth + 1) open? c = false := by
          rw [← Bool.not_eq_true, closes_iff]
          omega
        rw [hstay', nextDepth_succ hstay, if_neg (by simp)]
        exact hind _ ih

/-! ### Net depth -/

/-- One for an opening parenthesis outside quotes, minus one for a closing one. -/
def depthStep (open? : Option Char) (c : Char) : Int :=
  if open?.isSome then 0 else if c == '(' then 1 else if c == ')' then -1 else 0

/-- How many more parentheses the text opens than it closes, outside quotes. -/
def netDepth : Option Char → List Char → Int
  | _, [] => 0
  | open?, c :: rest => depthStep open? c + netDepth (quoteAfter open? c) rest

theorem netDepth_append (open? : Option Char) (a b : List Char) :
    netDepth open? (a ++ b) = netDepth open? a + netDepth (quoteBehind open? a) b := by
  induction a generalizing open? with
  | nil => exact (Int.zero_add _).symm
  | cons c a ih =>
    rw [List.cons_append, netDepth, netDepth, ih, Int.add_assoc]
    rfl

theorem nextDepth_eq_add (h : closes depth open? c = false) :
    (nextDepth depth open? c : Int) = depth + depthStep open? c := by
  unfold nextDepth depthStep
  split_ifs with hquote hopen hclose
  · simp
  · simp
  · have hpos := depth_ne_zero_of_closes h (by simpa using hquote) (beq_iff_eq.1 hclose)
    omega
  · simp

/-- The number of open parentheses goes up by what the text opens and does not close. -/
theorem eq_add_netDepth (h : depthBehind depth open? text = some depth') :
    (depth' : Int) = depth + netDepth open? text := by
  induction text generalizing depth open? with
  | nil => simpa [netDepth] using (congrArg Int.ofNat (Option.some.inj h)).symm
  | cons c text ih =>
    rw [depthBehind] at h
    split at h
    · cases h
    · rename_i hstay
      rw [ih h, nextDepth_eq_add (by simpa using hstay), netDepth, Int.add_assoc]

/-! ### The closing parenthesis -/

theorem Closes.cons_iff (h : closes depth open? c = false) :
    Closes depth open? (c :: text) ↔
      Closes (nextDepth depth open? c) (quoteAfter open? c) text := by
  rw [Closes, Closes, depthBehind, h, if_neg (by simp)]
  rfl

theorem closingParen_of_closes (h : closes depth open? c = true) :
    closingParen (depth + 1) open? index (c :: text) = some index := by
  obtain ⟨rfl, rfl, rfl⟩ := closes_iff.1 h
  rfl

theorem closingParen_of_stays (h : closes depth open? c = false) :
    closingParen (depth + 1) open? index (c :: text) =
      closingParen (nextDepth depth open? c + 1) (quoteAfter open? c) (index + 1) text := by
  rw [← nextDepth_succ h]
  refine if_neg ?_
  change ¬(open?.isNone && c == ')' && nextDepth (depth + 1) open? c == 0) = true
  rw [nextDepth_succ h]
  simp

theorem closingParen_eq_some_iff :
    closingParen (depth + 1) open? index text = some stop ↔
      ∃ x y, text = x ++ ')' :: y ∧ stop = index + x.length ∧ Closes depth open? x := by
  induction text generalizing depth open? index with
  | nil =>
    refine iff_of_false (by simp [closingParen]) ?_
    rintro ⟨x, y, h, -⟩
    simp at h
  | cons c rest ih =>
    cases hcloses : closes depth open? c with
    | true =>
      rw [closingParen_of_closes hcloses, Option.some.injEq]
      obtain ⟨rfl, rfl, rfl⟩ := closes_iff.1 hcloses
      constructor
      · rintro rfl
        exact ⟨[], rest, rfl, rfl, rfl, rfl⟩
      · rintro ⟨x, y, h, rfl, hx⟩
        cases x with
        | nil => rfl
        | cons d x =>
          obtain ⟨rfl, -⟩ := List.cons_eq_cons.1 h
          cases hx.1
    | false =>
      rw [closingParen_of_stays hcloses, ih]
      constructor
      · rintro ⟨x, y, rfl, rfl, hx⟩
        exact ⟨c :: x, y, rfl, by simp; omega, (Closes.cons_iff hcloses).2 hx⟩
      · rintro ⟨x, y, h, rfl, hx⟩
        cases x with
        | nil =>
          have hclose := (List.cons_eq_cons.1 h).1
          have hnone : open? = none := hx.2
          rw [closes_iff.2 ⟨hnone, hclose, Option.some.inj hx.1⟩] at hcloses
          cases hcloses
        | cons d x =>
          obtain ⟨rfl, rfl⟩ := List.cons_eq_cons.1 h
          exact ⟨x, y, rfl, by simp; omega, (Closes.cons_iff hcloses).1 hx⟩

/-- What stands between an opening parenthesis and the one that closes it. -/
theorem matchingParen_eq_some_iff :
    matchingParen (a ++ '(' :: b) a.length = some stop ↔
      ∃ x y, b = x ++ ')' :: y ∧ stop = a.length + 1 + x.length ∧ Closes 0 none x := by
  rw [matchingParen, List.drop_left]
  exact closingParen_eq_some_iff

/-- A parenthesis is closed by one parenthesis only. -/
theorem Closes.eq_of_append_eq {x x' y y' : List Char} (h : Closes depth open? x)
    (h' : Closes depth open? x') (heq : x ++ ')' :: y = x' ++ ')' :: y') : x = x' := by
  have hx := closingParen_eq_some_iff.2 ⟨x, y, rfl, Nat.zero_add _ |>.symm, h⟩
  have hx' := closingParen_eq_some_iff.2 ⟨x', y', heq, Nat.zero_add _ |>.symm, h'⟩
  have hlength : x.length = x'.length := Option.some.inj (hx.symm.trans hx')
  exact (List.append_inj heq hlength).1

/-! ### Nested parentheses -/

theorem quoteAfter_injective {other? : Option Char} (h : IsQuote open?) (h' : IsQuote other?)
    (heq : quoteAfter open? c = quoteAfter other? c) : open? = other? := by
  cases open? with
  | none =>
    cases other? with
    | none => rfl
    | some q =>
      have hq := h' q rfl
      grind [quoteAfter]
  | some p =>
    have hp := h p rfl
    cases other? with
    | none => grind [quoteAfter]
    | some q => grind [quoteAfter]

/-- Scans of the same text that end with the same quote open have started so. -/
theorem quoteBehind_injective {other? : Option Char} (h : IsQuote open?) (h' : IsQuote other?)
    (heq : quoteBehind open? text = quoteBehind other? text) : open? = other? := by
  induction text generalizing open? other? with
  | nil => exact heq
  | cons c text ih => exact quoteAfter_injective h h' (ih (h.quoteAfter c) (h'.quoteAfter c) heq)

/-- Two parentheses are not closed by the same one: where one is closed, a parenthesis further in that
is still open has a quote open as well. -/
theorem quoteBehind_ne_of_nested (h : Closes 0 none (a ++ '(' :: b))
    (hb : depthBehind 0 none b = some depth) : quoteBehind none b ≠ none := by
  intro hnone
  obtain ⟨hdepth, hquote⟩ := h
  have hsame : quoteBehind (quoteBehind none (a ++ ['('])) b = quoteBehind none b := by
    rw [← quoteBehind_append, List.append_assoc, hnone]
    exact hquote
  have hopen : quoteBehind none (a ++ ['(']) = none :=
    quoteBehind_injective (isQuote_quoteBehind _) (fun q hq => by cases hq) hsame
  have hbefore : quoteBehind none a = none := by
    rw [quoteBehind_append] at hopen
    exact quoteAfter_injective (isQuote_quoteBehind a) (fun q hq => by cases hq) hopen
  rw [depthBehind_append, hbefore] at hdepth
  obtain ⟨outer, -, hdepth⟩ := Option.bind_eq_some_iff.1 hdepth
  -- the outer parenthesis leaves the inner one open
  have hadd := depthBehind_add hb (outer + 1)
  rw [Nat.zero_add] at hadd
  have : depthBehind (outer + 1) none b = some 0 := hdepth
  rw [hadd] at this
  cases this

/-- In a quote, a closing parenthesis closes nothing. -/
theorem closes_quoted {q : Char} (hquote : quoteBehind none a = some q) :
    Closes 0 none (a ++ ')' :: b) ↔ Closes 0 none (a ++ b) := by
  have hsame : quoteAfter (some q) ')' = some q := by
    rcases isQuote_quoteBehind a q hquote with rfl | rfl <;> rfl
  have hskip (depth : Nat) : depthBehind depth (some q) (')' :: b) = depthBehind depth (some q) b := by
    rw [depthBehind, hsame]
    rfl
  rw [Closes, Closes, depthBehind_append, depthBehind_append, quoteBehind_append,
    quoteBehind_append, hquote, quoteBehind, List.foldl_cons, hsame, ← quoteBehind]
  simp only [hskip]

/-! ### Plain text -/

/-- Whether the character is neither a parenthesis nor a quote. -/
def isPlain (c : Char) : Bool :=
  c != '(' && c != ')' && c != '\'' && c != '"'

theorem quoteAfter_of_isPlain (hc : isPlain c = true) (hopen : IsQuote open?) :
    quoteAfter open? c = open? := by
  simp only [isPlain, Bool.and_eq_true, bne_iff_ne] at hc
  exact quoteAfter_of_ne hopen hc.1.2 hc.2

theorem nextDepth_of_isPlain (hc : isPlain c = true) (depth : Nat) (open? : Option Char) :
    nextDepth depth open? c = depth := by
  simp only [isPlain, Bool.and_eq_true, bne_iff_ne] at hc
  simp [nextDepth, hc]

theorem closes_of_isPlain (hc : isPlain c = true) (depth : Nat) (open? : Option Char) :
    closes depth open? c = false := by
  rw [← Bool.not_eq_true, closes_iff]
  rintro ⟨-, rfl, -⟩
  cases hc

theorem quoteBehind_of_isPlain (h : ∀ c ∈ text, isPlain c = true) (hopen : IsQuote open?) :
    quoteBehind open? text = open? := by
  have hnot {c : Char} (hc : isPlain c = false) : c ∉ text := by
    intro hmem
    rw [h c hmem] at hc
    cases hc
  exact quoteBehind_of_not_mem hopen (hnot rfl) (hnot rfl)

theorem depthBehind_of_isPlain (h : ∀ c ∈ text, isPlain c = true) (hopen : IsQuote open?) :
    depthBehind depth open? text = some depth := by
  induction text with
  | nil => rfl
  | cons c text ih =>
    rw [List.forall_mem_cons] at h
    rw [depthBehind, closes_of_isPlain h.1, nextDepth_of_isPlain h.1,
      quoteAfter_of_isPlain h.1 hopen]
    exact ih h.2

/-- Plain text changes nothing about what a parenthesis is closed by. -/
theorem closes_insert (h : ∀ c ∈ text, isPlain c = true) :
    Closes 0 none (a ++ (text ++ b)) ↔ Closes 0 none (a ++ b) := by
  have hquote := quoteBehind_of_isPlain h (isQuote_quoteBehind a)
  have hdepth (depth : Nat) : depthBehind depth (quoteBehind none a) (text ++ b) =
      depthBehind depth (quoteBehind none a) b := by
    rw [depthBehind_append, depthBehind_of_isPlain h (isQuote_quoteBehind a), hquote]
    rfl
  rw [Closes, Closes, depthBehind_append, depthBehind_append, quoteBehind_append,
    quoteBehind_append, quoteBehind_append, hquote]
  simp only [hdepth]

/-! ### Arguments -/

/-- Whether the character separates two arguments. -/
def separates (depth : Nat) (open? : Option Char) (c : Char) : Bool :=
  open?.isNone && c == ',' && depth == 0

theorem splitArgsFrom_cons (depth : Nat) (open? : Option Char) (c : Char) (rest : List Char) :
    splitArgsFrom depth open? (c :: rest) =
      if separates depth open? c then [] :: splitArgsFrom depth open? rest
      else match splitArgsFrom (nextDepth depth open? c) (quoteAfter open? c) rest with
        | [] => [[c]]
        | arg :: args => (c :: arg) :: args := rfl

theorem splitArgsFrom_ne_nil (depth : Nat) (open? : Option Char) (text : List Char) :
    splitArgsFrom depth open? text ≠ [] := by
  cases text with
  | nil => exact List.cons_ne_nil _ _
  | cons c rest =>
    rw [splitArgsFrom_cons]
    split
    · exact List.cons_ne_nil _ _
    · split <;> exact List.cons_ne_nil _ _

theorem splitArgsFrom_of_separates (h : separates depth open? c = true) :
    splitArgsFrom depth open? (c :: rest) =
      [] :: splitArgsFrom (nextDepth depth open? c) (quoteAfter open? c) rest := by
  rw [splitArgsFrom_cons, if_pos h]
  simp only [separates, Bool.and_eq_true, Option.isNone_iff_eq_none, beq_iff_eq] at h
  obtain ⟨⟨rfl, rfl⟩, rfl⟩ := h
  rfl

theorem exists_splitArgsFrom (h : separates depth open? c = false) (rest : List Char) :
    ∃ arg args, splitArgsFrom (nextDepth depth open? c) (quoteAfter open? c) rest = arg :: args ∧
      splitArgsFrom depth open? (c :: rest) = (c :: arg) :: args := by
  obtain ⟨arg, args, hrest⟩ := List.exists_cons_of_ne_nil
    (splitArgsFrom_ne_nil (nextDepth depth open? c) (quoteAfter open? c) rest)
  exact ⟨arg, args, hrest, by rw [splitArgsFrom_cons, h, hrest]; rfl⟩

theorem length_splitArgsFrom_cons (depth : Nat) (open? : Option Char) (c : Char)
    (rest : List Char) :
    (splitArgsFrom depth open? (c :: rest)).length =
      (splitArgsFrom (nextDepth depth open? c) (quoteAfter open? c) rest).length +
        if separates depth open? c then 1 else 0 := by
  cases hc : separates depth open? c with
  | true =>
    rw [splitArgsFrom_of_separates hc]
    rfl
  | false =>
    obtain ⟨arg, args, hrest, hcons⟩ := exists_splitArgsFrom hc rest
    rw [hrest, hcons]
    rfl

/-- Plain text that is put into an argument list takes no argument away. -/
theorem length_splitArgs_insert (h : ∀ c ∈ text, isPlain c = true) (a b : List Char) :
    (splitArgs (a ++ b)).length ≤ (splitArgs (a ++ (text ++ b))).length := by
  have hopen : IsQuote none := fun q hq => by cases hq
  rw [splitArgs, splitArgs]
  generalize none = open? at hopen
  generalize 0 = depth
  induction a generalizing depth open? with
  | nil =>
    induction text with
    | nil => exact Nat.le_refl _
    | cons c text ih =>
      rw [List.forall_mem_cons] at h
      have hmore := ih h.2
      simp only [List.nil_append] at hmore ⊢
      rw [List.cons_append, length_splitArgsFrom_cons, nextDepth_of_isPlain h.1,
        quoteAfter_of_isPlain h.1 hopen]
      exact hmore.trans (Nat.le_add_right _ _)
  | cons c a ih =>
    rw [List.cons_append, List.cons_append, length_splitArgsFrom_cons, length_splitArgsFrom_cons]
    exact Nat.add_le_add_right (ih _ (hopen.quoteAfter c) _) _

/-- A comma in front of the closing parenthesis stands between two arguments. -/
theorem one_lt_length_splitArgs (h : Closes 0 none a) (b : List Char) :
    1 < (splitArgs (a ++ ',' :: b)).length := by
  rw [splitArgs]
  generalize hzero : 0 = depth at h ⊢
  generalize hnone : none = open? at h ⊢
  clear hzero hnone
  induction a generalizing depth open? with
  | nil =>
    obtain ⟨hdepth, hquote⟩ := h
    obtain rfl : open? = none := hquote
    obtain rfl : depth = 0 := Option.some.inj hdepth
    rw [List.nil_append, length_splitArgsFrom_cons]
    exact Nat.lt_add_of_pos_left
      (List.length_pos_of_ne_nil (splitArgsFrom_ne_nil _ _ _))
  | cons c a ih =>
    cases hc : closes depth open? c with
    | true =>
      obtain ⟨hdepth, -⟩ := h
      rw [depthBehind, hc] at hdepth
      cases hdepth
    | false =>
      rw [List.cons_append, length_splitArgsFrom_cons]
      exact Nat.lt_add_right _ (ih _ _ ((Closes.cons_iff hc).1 h))

theorem eq_of_splitArgsFrom_eq_singleton {arg : List Char}
    (h : splitArgsFrom depth open? text = [arg]) : arg = text := by
  induction text generalizing depth open? arg with
  | nil => exact (List.head_eq_of_cons_eq h).symm
  | cons c rest ih =>
    cases hc : separates depth open? c with
    | true =>
      rw [splitArgsFrom_of_separates hc] at h
      exact absurd (List.tail_eq_of_cons_eq h) (splitArgsFrom_ne_nil _ _ _)
    | false =>
      obtain ⟨own, args, hrest, hcons⟩ := exists_splitArgsFrom hc rest
      rw [hcons] at h
      obtain ⟨rfl, rfl⟩ := List.cons_eq_cons.1 h
      rw [ih hrest]

end SqlDialect.Line
