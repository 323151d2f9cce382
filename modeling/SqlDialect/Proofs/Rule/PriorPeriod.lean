import SqlDialect.Proofs.Rule.PeriodOffset
import SqlDialect.Proofs.Rule.Prospect

/-!
# Prospects of truncated dates

An edit of the rule about prior periods takes a `PeriodOffset` out of the line and puts its `change`
in the place of it (`PeriodOffset.exists_of_edit`).

The new text holds the column and the unit of the old one, the unit twice, and a call of `trunc`.
Still it has fewer prospects (`PeriodOffset.fewer`): the call is followed by a second parenthesis,
and what was read from elsewhere through the old text comes no further through the new one.
-/

namespace SqlDialect

open Prospect

/-- What the text between `TRUNC(` and the comma is read as, in a column and in a unit. -/
theorem IsTruncated.read_eq {column : List Char} (h : IsTruncated column) :
    (read .name column = .name ∨ read .name column = .closed) ∧
      (read .unit column = .unit ∨ read .unit column = .paren) := by
  obtain ⟨name, call, rfl, -, hname, hcall⟩ := h
  -- the name has none of the characters at which a reader leaves its state
  have hplain : ∀ c ∈ name, kind c ∉ ",()'".toList.map kind := fun c hc hmem =>
    kind_ne_of_not_mem (hname c hc) (by decide) hmem rfl
  have hinName : read .name name = .name :=
    read_induction (P := (· = .name)) (q := (· ∉ ",()'".toList.map kind)) rfl
      (by rintro _ k hk rfl; revert k; decide) hplain
  have hinUnit : read .unit name = .unit :=
    read_induction (P := (· = .unit)) (q := (· ∉ ",()'".toList.map kind)) rfl
      (by rintro _ k hk rfl; revert k; decide) hplain
  rw [read_append, read_append, hinName, hinUnit]
  rcases hcall with rfl | ⟨args, back, rfl, hargs, hback⟩
  · exact ⟨.inl rfl, .inl rfl⟩
  · have hinner : ∀ c ∈ args, kind c ∉ "()".toList.map kind := fun c hc hmem =>
      kind_ne_of_not_mem (hargs c hc) (by decide) hmem rfl
    have hgroup : read .group args = .group :=
      read_induction (P := (· = .group)) (q := (· ∉ "()".toList.map kind)) rfl
        (by rintro _ k hk rfl; revert k; decide) hinner
    have hbehind : read .unit args = .unit ∨ read .unit args = .behind :=
      read_induction (P := fun σ => σ = .unit ∨ σ = .behind) (q := (· ∉ "()".toList.map kind))
        (.inl rfl) (by decide) hinner
    constructor
    · have hclose : read .name ('(' :: (args ++ ')' :: back)) = read .closed back := by
        rw [read_cons, read_append, read_cons]
        exact congrArg (fun σ => read (step σ .closing) back) hgroup
      rw [hclose, read_blank rfl hback]
      exact .inr rfl
    · have hclose : read .unit ('(' :: (args ++ ')' :: back)) =
          read (step (read .unit args) .closing) back := by
        rw [read_cons, read_append, read_cons]
        rfl
      rw [hclose]
      rcases hbehind with h | h <;> rw [h]
      · exact .inl (read_blank rfl hback)
      · exact .inr (read_blank rfl hback)

namespace PeriodOffset

variable (p : PeriodOffset)

/-! ### The parts that are read -/

/-- White space before the column. -/
def front : List Char := p.column.takeWhile Text.isBlank

/-- The column, without the white space around it. -/
def name : List Char := Text.trim p.column

/-- White space behind the column. -/
def back : List Char := (Text.trimStart p.column).rtakeWhile Text.isBlank

/-- What stands between the column and the unit. -/
def link : List Char := p.back ++ (',' :: p.gap ++ ['\''])

/-- What stands behind the unit. -/
def close : List Char := '\'' :: p.inner ++ (')' :: p.outer ++ p.offset)

/-- The text in the line, from the column on. -/
def ending : List Char := p.name ++ (p.link ++ (p.unit ++ p.close))

/-- The number that is written. -/
def number : List Char := (toString p.value).toList

/-- The new text up to the column. -/
def opening : List Char :=
  "dateadd('".toList ++ (p.unit ++ ("', ".toList ++ (p.number ++ ", trunc(".toList)))

/-- The new text from the column on. -/
def newEnding : List Char := p.name ++ (", '".toList ++ (p.unit ++ "'))".toList))

theorem column_eq : p.column = p.front ++ (p.name ++ p.back) := by
  have hname : p.name ++ p.back = Text.trimStart p.column := List.rdropWhile_append_rtakeWhile
  rw [hname]
  exact List.takeWhile_append_dropWhile.symm

theorem front_blank : ∀ c ∈ p.front, Text.isBlank c = true := fun _ => List.mem_takeWhile_imp

theorem back_blank : ∀ c ∈ p.back, Text.isBlank c = true := fun _ => List.mem_rtakeWhile_imp

theorem text_eq : p.text = p.word ++ (p.front ++ p.ending) := by
  rw [text, column_eq]
  simp [ending, link, close, quoted]

theorem change_eq : p.change = p.opening ++ p.newEnding := by
  have hopening : "dateadd('".toList = "dateadd(".toList ++ ['\''] := by decide
  have hunit : "', ".toList = '\'' :: ", ".toList := by decide
  have hagain : ", '".toList = ", ".toList ++ ['\''] := by decide
  have hend : "'))".toList = '\'' :: "))".toList := by decide
  unfold change opening newEnding quoted name number
  generalize (toString p.value).toList = number
  simp only [hopening, hunit, hagain, hend, List.append_assoc, List.cons_append, List.nil_append]

/-- The column is a name, perhaps with one pair of parentheses behind it. -/
theorem read_name_name : read .name p.name = .name ∨ read .name p.name = .closed := by
  have hcolumn := p.isTruncated.read_eq.1
  rw [name, read_trim rfl (by rcases hcolumn with h | h <;> rw [h] <;> decide)]
  exact hcolumn

/-- Where a unit is read already, the column ends it at most with its parentheses. -/
theorem read_unit_name : read .unit p.name = .unit ∨ read .unit p.name = .paren := by
  have hcolumn := p.isTruncated.read_eq.2
  rw [name, read_trim rfl (by rcases hcolumn with h | h <;> rw [h] <;> decide)]
  exact hcolumn

theorem kind_sign : kind p.sign = .other := by
  rcases p.sign_eq with h | h <;> rw [h] <;> decide

/-- Neither the sign nor what stands behind it is an apostrophe. -/
theorem not_mem_offset : '\'' ∉ p.offset := by
  have hsign : p.sign ≠ '\'' := by
    intro h
    have := p.kind_sign
    rw [h] at this
    cases this
  have hdigits : '\'' ∉ p.digits := fun hmem => absurd (p.digits_digit _ hmem) (by decide)
  simp [offset, hsign.symm, not_mem_of_isBlank p.space_blank, hdigits]

/-- A whole number is written with digits, perhaps behind a sign. -/
theorem isDigit_of_mem_toString (n : Int) {c : Char} (h : c ∈ (toString n).toList) :
    c = '-' ∨ c.isDigit = true := by
  have hnat {n : Nat} (h : c ∈ (Nat.repr n).toList) : c.isDigit = true := by
    rw [Nat.repr, String.toList_ofList] at h
    exact Nat.isDigit_of_mem_toDigits (by decide) (by decide) h
  cases n with
  | ofNat n => exact .inr (hnat h)
  | negSucc n =>
    have hsign : (toString (Int.negSucc n)).toList = '-' :: (Nat.repr (n + 1)).toList :=
      String.toList_append
    rw [hsign] at h
    exact (List.mem_cons.1 h).imp_right hnat

theorem kind_of_mem_number : ∀ c ∈ p.number, kind c = .other := by
  intro c hc
  rcases isDigit_of_mem_toString p.value hc with rfl | hdigit
  · decide
  · exact kind_of_isDigit hdigit

theorem read_word_eq (σ : Stage) : read σ p.word = read σ "trunc(".toList := by
  rw [← read_map_foldCase, p.word_eq]
  have hlower : ∀ σ, read σ ("TRUNC(".toList.map Text.foldCase) = read σ "trunc(".toList := by decide
  exact hlower σ

/-- The white space around the comma makes no difference. -/
theorem read_link (σ : Stage) : read σ p.link = read σ ", '".toList := by
  have hcomma : ∀ σ, step (step σ .comma) .blank = step σ .comma := by decide
  have hlink : read σ p.link = step (read (step (read σ p.back) .comma) p.gap) .quote := by
    rw [link, read_append, read_append, read_cons]
    rfl
  rw [hlink, step_comma_read_blank p.back_blank, read_blank (hcomma σ) p.gap_blank]
  have hsame : ∀ σ, step (step σ .comma) .quote = read σ ", '".toList := by decide
  exact hsame σ

theorem noMore_link : NoMore ", '".toList p.link where
  below σ := p.read_link σ ▸ .refl _
  inside_eq inside := by
    have hlink : '\'' ∉ p.back ++ ',' :: p.gap := by
      simp [not_mem_of_isBlank p.back_blank, not_mem_of_isBlank p.gap_blank]
    rw [link, ← List.append_assoc, Literal.insideAfter_append, Literal.insideAfter_of_not_mem hlink]
    cases inside <;> rfl
  count_le inside rest := by
    rw [countIn_of_isBarren (by decide)]
    exact Nat.zero_le _

/-- Behind its first apostrophe, there is no other in the close. -/
theorem not_mem_close : '\'' ∉ p.inner ++ (')' :: p.outer ++ p.offset) := by
  have hinner := not_mem_of_isBlank p.inner_blank
  have houter := not_mem_of_isBlank p.outer_blank
  have hoffset := p.not_mem_offset
  simp [hinner, houter, hoffset]

theorem noMore_close : NoMore "'))".toList p.close where
  below σ := by
    have hclose : ∀ σ, read σ "'))".toList = .cold ∨ step σ .quote = .hot ∨
        step σ .quote = .unit ∧ read σ "'))".toList = .unit := by
      decide
    have hread : read σ p.close = read (step σ .quote) (p.inner ++ (')' :: p.outer ++ p.offset)) :=
      rfl
    rcases hclose σ with hcold | hhot | ⟨hunit, hnew⟩
    · exact .inl hcold
    · rw [hread, hhot, read_hot]
      exact .inr (.inl rfl)
    · rw [hread, hunit, hnew, read_unit p.not_mem_close]
      exact .refl _
  inside_eq inside := by
    rw [close, List.cons_append, Literal.insideAfter_cons,
      Literal.insideAfter_of_not_mem p.not_mem_close]
    cases inside <;> rfl
  count_le inside rest := by
    rw [countIn_of_isBarren (by decide)]
    exact Nat.zero_le _

/-- From the column on, the new text is the old one with other white space and another end. -/
theorem noMore_ending : NoMore p.newEnding p.ending :=
  (NoMore.refl _).append (p.noMore_link.append ((NoMore.refl _).append p.noMore_close))

/-! ### The texts, read as a whole -/

theorem read_unit_close : read .unit p.close = .hot := by
  have hparen : read .behind (p.inner ++ [')'] ++ p.outer) = .paren := by
    rw [read_append, read_append, read_blank rfl p.inner_blank]
    exact read_blank rfl p.outer_blank
  have hclose : p.close = '\'' :: (p.inner ++ [')'] ++ p.outer) ++ p.sign :: (p.space ++ p.digits) := by
    simp [close, offset]
  have hquote : read .unit ('\'' :: (p.inner ++ [')'] ++ p.outer)) = .paren := hparen
  rw [hclose, read_append, hquote, read_cons, p.kind_sign]
  exact read_hot _

/-- The new text, read part by part. -/
theorem read_change (σ : Stage) :
    read σ p.change = read (read (read (read (read (read (read (read (read σ
      "dateadd('".toList) p.unit) "', ".toList) p.number) ", trunc(".toList) p.name) ", '".toList)
        p.unit) "'))".toList := by
  rw [change_eq]
  unfold opening newEnding
  generalize p.number = number
  simp only [read_append]

/-- The old text, read part by part. -/
theorem read_text (σ : Stage) : read σ p.text =
    read (read (read (read (read (read σ "trunc(".toList) p.front) p.name) ", '".toList) p.unit)
      p.close := by
  simp only [text_eq, ending, read_append, read_word_eq, read_link]

/-- Behind the column and a comma, an apostrophe starts the unit. -/
theorem read_name_comma : read (read .name p.name) ", '".toList = .unit := by
  rcases p.read_name_name with h | h <;> rw [h] <;> decide

/-- Where a unit is read already, an apostrophe behind the column and a comma may have ended it. -/
theorem read_unit_comma : read (read .unit p.name) ", '".toList = .behind := by
  rcases p.read_unit_name with h | h <;> rw [h] <;> decide

/-- The old text is a prospect. -/
theorem read_start_text : read .start p.text = .hot := by
  have hword : read .start "trunc(".toList = .name := by decide
  rw [read_text, hword, read_blank rfl p.front_blank, read_name_comma, read_unit p.unit_quote,
    read_unit_close]

/-- From within the name of a column, the new text comes to nothing. -/
theorem read_name_change :
    read .name p.change = .cold := by
  have hopening : read .name "dateadd('".toList = .group := by decide
  rw [read_change, hopening]
  rcases read_group_unit p.unit_quote with h | h | h | ⟨h, hbehind⟩
  · simp only [h, read_cold]
  · have hnext : read .group "', ".toList = .group := by decide
    have htrunc : read .group ", trunc(".toList = .cold := by decide
    simp only [h, hnext, read_of_kind (σ := .group) rfl p.kind_of_mem_number, htrunc, read_cold]
  · have hnext : read .closed "', ".toList = .cold := by decide
    simp only [h, hnext, read_cold]
  · -- the apostrophe starts a unit, which ends with the one before the second unit
    have hnext : read .comma "', ".toList = .unit := by decide
    have htrunc : read .unit ", trunc(".toList = .unit := by decide
    have hend : read .behind "'))".toList = .cold := by decide
    simp only [h, hnext, read_of_kind (σ := .unit) rfl p.kind_of_mem_number, htrunc, p.read_unit_comma,
      hbehind, hend]

/-- From within a unit, the new text comes no further than the old one. -/
theorem below_unit :
    Below (read .unit p.change) (read .unit p.text) := by
  have hopening : read .unit "dateadd('".toList = .behind := by decide
  have hword : read .unit "trunc(".toList = .unit := by decide
  rw [read_change, hopening, read_text, hword, read_blank rfl p.front_blank, read_unit_comma]
  have hends : read (read .behind p.unit) "', ".toList = .behind ∨
      read (read .behind p.unit) "', ".toList = .cold ∨
      step (read .behind p.unit) .quote = .hot := by
    rcases read_behind p.unit with h | h | h | h <;> rw [h] <;> decide
  rcases hends with h | h | h
  · have htrunc : read .behind ", trunc(".toList = .cold := by decide
    simp only [h, read_of_kind (σ := .behind) rfl p.kind_of_mem_number, htrunc, read_cold]
    exact .inl rfl
  · simp only [h, read_cold]
    exact .inl rfl
  · -- the apostrophe behind the unit ends the old text as well
    have hclose : read (read .behind p.unit) p.close =
        read (step (read .behind p.unit) .quote) (p.inner ++ (')' :: p.outer ++ p.offset)) := rfl
    rw [hclose, h, read_hot]
    exact .inr (.inl rfl)

/-- Wherever the text starts to be read, the new one comes no further than the old one. -/
theorem below (σ : Stage) :
    Below (read σ p.change) (read σ p.text) := by
  have hcases : ∀ σ, σ = .name ∨ σ = .unit ∨ read σ "dateadd('".toList = .cold ∨
      read σ "trunc(".toList = .hot := by
    decide
  rcases hcases σ with rfl | rfl | h | h
  · exact .inl (p.read_name_change)
  · exact p.below_unit
  · simp only [read_change, h, read_cold]
    exact .inl rfl
  · simp only [read_text, h, read_hot]
    exact .inr (.inl rfl)

/-! ### The prospects of the texts -/

theorem insideAfter_opening :
    Literal.insideAfter false p.opening = false := by
  have hdateadd : Literal.insideAfter false "dateadd('".toList = true := by decide
  have hcomma : Literal.insideAfter true "', ".toList = false := by decide
  have htrunc : Literal.insideAfter false ", trunc(".toList = false := by decide
  unfold opening
  simp only [Literal.insideAfter_append, Literal.insideAfter_of_not_mem p.unit_quote,
    Literal.insideAfter_of_not_mem (not_mem_of_kind p.kind_of_mem_number), hdateadd, hcomma, htrunc]

/-- No prospect starts before the column of the new text, if none starts with the call in it. -/
theorem countIn_opening {rest : List Char} (h : read .name rest ≠ .hot) :
    countIn false rest p.opening = 0 := by
  have hdateadd : Literal.insideAfter false "dateadd('".toList = true := by decide
  have hcomma : Literal.insideAfter true "', ".toList = false := by decide
  have htrunc : countIn false rest ", trunc(".toList = 0 := by
    have hsplit : ", trunc(".toList = ", ".toList ++ 't' :: "runc(".toList := by decide
    have hspace : Literal.insideAfter false ", ".toList = false := by decide
    have hread : read .start ('t' :: "runc(".toList ++ rest) = read .name rest := rfl
    rw [hsplit, countIn_append, hspace, countIn_of_isBarren (by decide), countIn, hread,
      beq_eq_false_iff_ne.2 h, countIn_of_isBarren (by decide)]
    rfl
  unfold opening
  simp only [countIn_append, hdateadd, hcomma, htrunc, Literal.insideAfter_of_not_mem p.unit_quote,
    Literal.insideAfter_of_not_mem (not_mem_of_kind p.kind_of_mem_number),
    countIn_of_isBarren (show isBarren "dateadd('".toList = true by decide),
    countIn_true_of_not_mem p.unit_quote,
    countIn_of_isBarren (show isBarren "', ".toList = true by decide),
    countIn_of_isBarren (isBarren_of_kind p.kind_of_mem_number)]

/-- What follows the parenthesis in the new call makes no prospect of it. -/
theorem read_name_newEnding : read .name p.newEnding = .cold := by
  have hend : read .unit "'))".toList = .cold := by decide
  simp only [newEnding, read_append, p.read_name_comma, read_unit p.unit_quote, hend]

theorem not_mem_word : '\'' ∉ p.word := by
  intro hmem
  have hfold := List.mem_map_of_mem (f := Text.foldCase) hmem
  rw [p.word_eq] at hfold
  revert hfold
  decide

/-- **The new text has fewer prospects** than the old one. -/
theorem fewer :
    Fewer p.change p.text where
  below := p.below
  inside_eq := by
    rw [change_eq, text_eq, Literal.insideAfter_append, p.insideAfter_opening,
      Literal.insideAfter_append, Literal.insideAfter_append,
      Literal.insideAfter_of_not_mem p.not_mem_word,
      Literal.insideAfter_of_not_mem (not_mem_of_isBlank p.front_blank), p.noMore_ending.inside_eq]
  count_lt rest := by
    have hcold : read .name (p.newEnding ++ rest) ≠ .hot := by
      rw [read_append, p.read_name_newEnding, read_cold]
      decide
    have hfirst : 0 < countIn false (p.front ++ p.ending ++ rest) p.word := by
      refine countIn_pos ?_ ?_
      · intro hnil
        have hword := p.word_eq
        rw [hnil] at hword
        cases hword
      · have htext : p.word ++ (p.front ++ p.ending ++ rest) = p.text ++ rest := by
          simp [text_eq]
        rw [htext, read_append, p.read_start_text, read_hot]
    rw [change_eq, text_eq, countIn_append, countIn_append, countIn_append,
      p.insideAfter_opening, Literal.insideAfter_of_not_mem p.not_mem_word,
      Literal.insideAfter_of_not_mem (not_mem_of_isBlank p.front_blank),
      p.countIn_opening hcold]
    have hending := p.noMore_ending.count_le false rest
    omega

end PeriodOffset

end SqlDialect
