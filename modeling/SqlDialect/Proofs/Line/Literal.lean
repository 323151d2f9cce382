import SqlDialect.Line.Literal
import SqlDialect.Proofs.Text.Lines
import SqlDialect.Proofs.Text.Trim

/-!
# Where code begins and ends

A line is read from the left with one flag, which tells whether a literal is open: `occursFrom`
looks for a character in code that way, `Literal.codeContains_eq` says that it finds the same as
the cut into pieces, and `Literal.codeContains_append` where the second half of a line is code.
-/

namespace SqlDialect.Literal

/-- Whether the character occurs in the code of the rest of a line, where `inside` tells whether a
literal is open. -/
def occursFrom (inside : Bool) (c : Char) : List Char → Bool
  | [] => false
  | x :: rest =>
    if x == '\'' then occursFrom (!inside) c rest
    else (!inside && x == c) || occursFrom inside c rest

/-- Whether a literal is open behind the text, if `inside` tells whether one is open before it. -/
def insideAfter (inside : Bool) (text : List Char) : Bool :=
  inside ^^ decide (text.count '\'' % 2 = 1)

theorem insideAfter_cons (inside : Bool) (x : Char) (rest : List Char) :
    insideAfter inside (x :: rest) = insideAfter (if x == '\'' then !inside else inside) rest := by
  rw [insideAfter, insideAfter, List.count_cons]
  by_cases hx : x = '\''
  · subst hx
    simp only [beq_self_eq_true, if_true]
    rcases Nat.mod_two_eq_zero_or_one (rest.count '\'') with h | h
    · rw [show (rest.count '\'' + 1) % 2 = 1 by omega, h]; simp
    · rw [show (rest.count '\'' + 1) % 2 = 0 by omega, h]; simp
  · simp [hx]

theorem insideAfter_append (inside : Bool) (a b : List Char) :
    insideAfter inside (a ++ b) = insideAfter (insideAfter inside a) b := by
  induction a generalizing inside with
  | nil => simp [insideAfter]
  | cons x a ih => rw [List.cons_append, insideAfter_cons, ih, insideAfter_cons]

theorem insideAfter_of_not_mem {text : List Char} (h : '\'' ∉ text) (inside : Bool) :
    insideAfter inside text = inside := by
  rw [insideAfter, List.count_eq_zero_of_not_mem h]
  exact Bool.xor_false inside

theorem occursFrom_append (inside : Bool) (c : Char) (a b : List Char) :
    occursFrom inside c (a ++ b) =
      (occursFrom inside c a || occursFrom (insideAfter inside a) c b) := by
  induction a generalizing inside with
  | nil => simp [occursFrom, insideAfter]
  | cons x a ih =>
    rw [List.cons_append, occursFrom, occursFrom, insideAfter_cons]
    split
    · exact ih _
    · rw [ih, Bool.or_assoc]

theorem occursFrom_of_not_mem {inside : Bool} {c : Char} {text : List Char} (h : c ∉ text) :
    occursFrom inside c text = false := by
  induction text generalizing inside with
  | nil => rfl
  | cons x text ih =>
    rw [List.mem_cons, not_or] at h
    rw [occursFrom, ih h.2, ih h.2]
    simp [Ne.symm h.1]

/-! ### The pieces of a line -/

theorem any_filter_contains (c : Char) (pieces : List (List Char)) :
    (pieces.filter (!·.isEmpty)).any (·.contains c) = pieces.any (·.contains c) := by
  induction pieces with
  | nil => rfl
  | cons piece pieces ih =>
    cases piece with
    | nil => simpa using ih
    | cons x piece => rw [List.filter_cons_of_pos rfl, List.any_cons, List.any_cons, ih]

/-- Reading from the left finds what the cut into pieces finds, in code and in literals. -/
theorem any_everyOther_pieces (c : Char) (line : List Char) :
    (everyOther (pieces line)).any (·.contains c) = occursFrom false c line ∧
      (everyOther ((pieces line).drop 1)).any (·.contains c) = occursFrom true c line := by
  induction line with
  | nil => exact ⟨rfl, rfl⟩
  | cons x rest ih =>
    obtain ⟨first, others, hpieces⟩ := List.exists_cons_of_ne_nil (Text.cutAt_ne_nil '\'' rest)
    rw [pieces, hpieces] at ih
    obtain ⟨hcode, hliteral⟩ := ih
    rw [occursFrom, occursFrom, pieces]
    by_cases hx : x = '\''
    · -- behind a quote, what was code is literal, and the other way round
      subst hx
      rw [Text.cutAt_cons_self, hpieces]
      exact ⟨by simpa [everyOther] using hliteral, by simpa using hcode⟩
    · rw [Text.cutAt_cons_of_ne hx, hpieces]
      rw [if_neg (by simpa using hx), if_neg (by simpa using hx), ← hcode, ← hliteral]
      have hflip : (x == c) = decide (c = x) := by
        rw [Bool.eq_iff_iff, beq_iff_eq, decide_eq_true_eq, eq_comm]
      constructor
      · cases others <;> simp [everyOther, hflip, Bool.or_assoc]
      · simp

/-- The character occurs in the code of a line if and only if it does so from the start. -/
theorem codeContains_eq (c : Char) (line : List Char) :
    codeContains c line = occursFrom false c line := by
  rw [codeContains, codePieces, any_filter_contains]
  exact (any_everyOther_pieces c line).1

theorem codeContains_append (c : Char) (a b : List Char) :
    codeContains c (a ++ b) =
      (codeContains c a || occursFrom (decide (a.count '\'' % 2 = 1)) c b) := by
  rw [codeContains_eq, codeContains_eq, occursFrom_append, insideAfter, Bool.false_xor]

/-- Whether the literals of the text are all closed. -/
def isClosed (text : List Char) : Bool :=
  text.count '\'' % 2 == 0

theorem isClosed_append_of_not_mem {text : List Char} (h : '\'' ∉ text) (front : List Char) :
    isClosed (front ++ text) = isClosed front := by
  rw [isClosed, List.count_append, List.count_eq_zero.2 h, Nat.add_zero]
  rfl

/-- A quote opens a literal, or closes it. -/
theorem isClosed_append_quote (front : List Char) : isClosed (front ++ ['\'']) = !isClosed front := by
  rw [isClosed, isClosed, List.count_append, List.count_singleton_self]
  rcases Nat.mod_two_eq_zero_or_one (front.count '\'') with h | h
  · simp [h, Nat.add_mod]
  · simp [h, Nat.add_mod]

/-- No literal is open behind a text if and only if its literals are closed. -/
theorem insideAfter_eq_false_iff {text : List Char} :
    insideAfter false text = false ↔ isClosed text = true := by
  rw [insideAfter, Bool.false_xor, decide_eq_false_iff_not, isClosed, beq_iff_eq]
  omega

/-- A character behind a text is code if the literals of the text are closed. -/
theorem codeContains_concat {c : Char} (h : c ≠ '\'') (text : List Char) :
    codeContains c (text ++ [c]) = (codeContains c text || isClosed text) := by
  rw [codeContains_append, isClosed]
  rcases Nat.mod_two_eq_zero_or_one (text.count '\'') with hcount | hcount
  · simp [hcount, occursFrom, h]
  · simp [hcount, occursFrom, h]

theorem codeContains_trimEnd {c : Char} (h : Text.isBlank c = false) (text : List Char) :
    codeContains c (Text.trimEnd text) = codeContains c text := by
  obtain ⟨blanks, htext, hblanks⟩ := Text.exists_eq_trimEnd_append text
  have hc : c ∉ blanks := by
    intro hmem
    rw [hblanks c hmem] at h
    cases h
  conv_rhs => rw [htext, codeContains_append, occursFrom_of_not_mem hc, Bool.or_false]

theorem isClosed_trimEnd (text : List Char) : isClosed (Text.trimEnd text) = isClosed text := by
  obtain ⟨blanks, htext, hblanks⟩ := Text.exists_eq_trimEnd_append text
  have hcount : blanks.count '\'' = 0 := by
    rw [List.count_eq_zero]
    intro hmem
    have := hblanks _ hmem
    revert this
    decide
  conv_rhs => rw [htext, isClosed, List.count_append, hcount, Nat.add_zero]
  rfl

/-- A text that ends with the character has it in code if its literals are closed. -/
theorem codeContains_of_endsWith {c : Char} (h : c ≠ '\'') {text : List Char}
    (hend : Text.endsWith text c = true) (hclosed : isClosed text = true) :
    codeContains c text = true := by
  obtain ⟨init, rfl⟩ := List.getLast?_eq_some_iff.1 (beq_iff_eq.1 hend)
  have hinit : isClosed init = true := by
    rw [isClosed, List.count_append, List.count_singleton, if_neg (by simpa using h)] at hclosed
    exact hclosed
  rw [codeContains_concat h, hinit, Bool.or_true]

end SqlDialect.Literal
