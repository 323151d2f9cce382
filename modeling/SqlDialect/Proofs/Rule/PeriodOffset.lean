import SqlDialect.Proofs.Pattern.Group
import SqlDialect.Proofs.Pattern.Scan
import SqlDialect.Proofs.Pattern.Word
import SqlDialect.Proofs.Rule.FirstChange
import SqlDialect.Proofs.Text.Run
import SqlDialect.Proofs.Text.Trim

/-!
# The number behind a truncated date

A `PeriodOffset` is a truncated date with a number behind it, in the parts that the rule about prior
periods reads.  Its text is read in one way only (`PeriodOffset.eq_of_append_eq`), and the number is
all of the digits: the rule writes their value, if it fits into 64 bits (`PeriodOffset.dateaddCall_eq`).

`PeriodOffset.edit_spec` says which lines the rule changes and how.  The rule does not look at what
follows the digits, so the number need not be the whole operand (`PeriodOffset.edit_cuts_operand`).
-/

namespace SqlDialect

open Pattern

/-- A number with a sign is read if its value fits into 64 bits. -/
theorem Text.integer?_cons {sign : Char} (hsign : sign = '-' ∨ sign = '+') (text : List Char) :
    Text.integer? (sign :: text) = (Text.natural? text).bind fun n =>
      let value : Int := if sign = '-' then -n else n
      if Int64.minValue.toInt ≤ value ∧ value ≤ Int64.maxValue.toInt then some value else none := by
  have hbound : ((Nat.pow 2 63 : Nat) : Int) = Int64.maxValue.toInt + 1 := rfl
  have hmin : -(Int64.maxValue.toInt + 1) = Int64.minValue.toInt := rfl
  have hplus : ¬('+' = '-') := by decide
  unfold Text.integer?
  rw [hbound]
  rcases hsign with rfl | rfl
  · simp only [hmin, if_true, Bool.and_eq_true, decide_eq_true_eq, Int.lt_add_one_iff]
  · simp only [hmin, hplus, if_false, Bool.and_eq_true, decide_eq_true_eq, Int.lt_add_one_iff]

/-- The text between `TRUNC(` and the comma: without commas, quotes and parentheses, but perhaps with one
pair of parentheses at its end, around text without others. -/
def IsTruncated (column : List Char) : Prop :=
  ∃ name call, column = name ++ call ∧ name ≠ [] ∧ (∀ c ∈ name, c ∉ ",()'".toList) ∧
    (call = [] ∨ ∃ args back, call = '(' :: (args ++ ')' :: back) ∧ (∀ c ∈ args, c ∉ "()".toList) ∧
      ∀ c ∈ back, Text.isBlank c = true)

/-- A column ends in front of one comma only. -/
theorem IsTruncated.eq_of_append_eq {s s' x x' : List Char} (h : IsTruncated s) (h' : IsTruncated s')
    (heq : s ++ ',' :: x = s' ++ ',' :: x') : s = s' ∧ x = x' := by
  obtain ⟨name, call, rfl, -, hname, hcall⟩ := h
  obtain ⟨name', call', rfl, -, hname', hcall'⟩ := h'
  -- the name, the arguments and the white space behind them are runs, one behind the other
  have run {name call x : List Char} (hname : ∀ c ∈ name, c ∉ ",()'".toList)
      (hcall : call = [] ∨ ∃ args back, call = '(' :: (args ++ ')' :: back) ∧
        (∀ c ∈ args, c ∉ "()".toList) ∧ ∀ c ∈ back, Text.isBlank c = true) :
      Text.Run (fun c => decide (c ∉ ",()'".toList)) name (call ++ ',' :: x) := by
    refine ⟨fun c hc => decide_eq_true (hname c hc), fun c hc => ?_⟩
    rcases hcall with rfl | ⟨args, back, rfl, -⟩ <;> obtain rfl := Option.some.inj hc <;> decide
  rw [List.append_assoc, List.append_assoc] at heq
  obtain ⟨rfl, hrest⟩ := (run hname hcall).eq_of_append_eq (run hname' hcall') heq
  rcases hcall with rfl | ⟨args, back, rfl, hargs, hback⟩ <;>
    rcases hcall' with rfl | ⟨args', back', rfl, hargs', hback'⟩
  · exact ⟨rfl, (List.cons_eq_cons.1 hrest).2⟩
  · exact absurd (List.cons_eq_cons.1 hrest).1 (by decide)
  · exact absurd (List.cons_eq_cons.1 hrest).1 (by decide)
  · have inside {args y : List Char} (hargs : ∀ c ∈ args, c ∉ "()".toList) :
        Text.Run (fun c => decide (c ∉ "()".toList)) args (')' :: y) :=
      ⟨fun c hc => decide_eq_true (hargs c hc), fun c hc => by
        obtain rfl := Option.some.inj hc
        decide⟩
    have behind {back x : List Char} (hback : ∀ c ∈ back, Text.isBlank c = true) :
        Text.Run Text.isBlank back (',' :: x) :=
      ⟨hback, fun c hc => by
        obtain rfl := Option.some.inj hc
        decide⟩
    have hargs_eq := (inside hargs).eq_of_append_eq (inside hargs')
      (by simpa using (List.cons_eq_cons.1 hrest).2)
    obtain ⟨rfl, hclose⟩ := hargs_eq
    obtain ⟨rfl, hx⟩ := (behind hback).eq_of_append_eq (behind hback') (List.cons_eq_cons.1 hclose).2
    exact ⟨rfl, (List.cons_eq_cons.1 hx).2⟩

/-- A truncated date and the number behind it, `TRUNC(column, 'unit') - digits`. -/
@[ext]
structure PeriodOffset where
  /-- The name of the function, with the parenthesis. -/
  word : List Char
  /-- The column, with the white space around it. -/
  column : List Char
  /-- White space between the comma and the unit. -/
  gap : List Char
  /-- The unit, without its apostrophes. -/
  unit : List Char
  /-- White space before the parenthesis. -/
  inner : List Char
  /-- White space behind the parenthesis. -/
  outer : List Char
  /-- The sign of the number. -/
  sign : Char
  /-- White space behind the sign. -/
  space : List Char
  /-- The digits of the number. -/
  digits : List Char
  word_eq : Spells "TRUNC(" word
  isTruncated : IsTruncated column
  gap_blank : ∀ c ∈ gap, Text.isBlank c = true
  unit_ne : unit ≠ []
  unit_quote : '\'' ∉ unit
  inner_blank : ∀ c ∈ inner, Text.isBlank c = true
  outer_blank : ∀ c ∈ outer, Text.isBlank c = true
  sign_eq : sign = '-' ∨ sign = '+'
  space_blank : ∀ c ∈ space, Text.isBlank c = true
  digits_ne : digits ≠ []
  digits_digit : ∀ c ∈ digits, Text.isDigit c = true

namespace PeriodOffset

variable (p : PeriodOffset)

/-- The unit with its apostrophes. -/
def quoted : List Char := '\'' :: p.unit ++ ['\'']

/-- The sign and the digits, as they are written. -/
def offset : List Char := p.sign :: (p.space ++ p.digits)

/-- The text in the line. -/
def text : List Char :=
  p.word ++ (p.column ++ (',' :: (p.gap ++ (p.quoted ++ (p.inner ++ (')' :: (p.outer ++ p.offset)))))))

/-- The number that is written there. -/
def value : Int :=
  if p.sign = '-' then -(Text.digitsValue 0 p.digits) else Text.digitsValue 0 p.digits

/-- The number is written with the digits `0` to `9`, and fits into 64 bits. -/
def Fits : Prop :=
  p.digits.all Char.isDigit = true ∧
    Int64.minValue.toInt ≤ p.value ∧ p.value ≤ Int64.maxValue.toInt

instance : Decidable p.Fits := inferInstanceAs (Decidable (_ ∧ _))

/-- The text that takes the place of the one in the line. -/
def change : List Char :=
  "dateadd(".toList ++ p.quoted ++ ", ".toList ++ (toString p.value).toList ++ ", trunc(".toList ++
    Text.trim p.column ++ ", ".toList ++ p.quoted ++ "))".toList

/-- The digits go no further. -/
def EndsBefore (rest : List Char) : Prop := rest.head?.any Text.isDigit = false

variable {p} {q : PeriodOffset} {text rest rest' : List Char}

theorem isBlank_sign (p : PeriodOffset) : Text.isBlank p.sign = false := by
  rcases p.sign_eq with h | h <;> rw [h] <;> decide

/-- The text starts with a letter. -/
theorem exists_word_eq (p : PeriodOffset) : ∃ c word, p.word = c :: word ∧ Text.foldCase c = 't' := by
  obtain ⟨c, word, hcons⟩ := List.exists_cons_of_ne_nil (l := p.word) fun hnil => by
    have := p.word_eq.length_eq
    rw [hnil] at this
    cases this
  have hfold := p.word_eq
  rw [hcons] at hfold
  exact ⟨c, word, hcons, List.head_eq_of_cons_eq hfold⟩

/-! ### The value -/

theorem natural?_digits (p : PeriodOffset) : Text.natural? p.digits =
    if p.digits.all Char.isDigit then some (Text.digitsValue 0 p.digits) else none := by
  simp [Text.natural?, p.digits_ne]

/-- The number is read as its value, if it fits. -/
theorem integer?_offset (p : PeriodOffset) :
    Text.integer? (p.offset.filter (!Text.isBlank ·)) = if p.Fits then some p.value else none := by
  have hdigits : p.digits.filter (!Text.isBlank ·) = p.digits := by
    refine List.filter_eq_self.2 fun c hc => ?_
    rw [Bool.not_eq_true']
    exact Text.isBlank_of_isDigit (p.digits_digit c hc)
  have hspace : p.space.filter (!Text.isBlank ·) = [] :=
    List.filter_eq_nil_iff.2 fun c hc => by simp [p.space_blank c hc]
  have hcompact : p.offset.filter (!Text.isBlank ·) = p.sign :: p.digits := by
    rw [offset, List.filter_cons_of_pos (by simp [p.isBlank_sign]), List.filter_append, hspace, hdigits,
      List.nil_append]
  rw [hcompact, Text.integer?_cons p.sign_eq, natural?_digits]
  by_cases hall : p.digits.all Char.isDigit = true
  · rw [if_pos hall, Option.bind_some]
    refine if_congr ?_ rfl rfl
    rw [Fits, and_iff_right hall]
    rfl
  · rw [if_neg hall, if_neg fun h => hall h.1]
    rfl

/-- **What the rule makes of the text**, from its groups. -/
theorem dateaddCall_eq {m : Match} (hcolumn : Text.trim (m.textOf "column") = Text.trim p.column)
    (hunit : m.textOf "unit" = p.quoted) (hoffset : m.textOf "offset" = p.offset) :
    Rule.dateaddCall m = if p.Fits then some p.change else none := by
  rw [Rule.dateaddCall, hcolumn, hunit, hoffset, integer?_offset]
  split <;> rfl

/-! ### Readings -/

theorem text_append (p : PeriodOffset) (rest : List Char) : p.text ++ rest =
    p.word ++ (p.column ++ ',' :: (p.gap ++ '\'' :: (p.unit ++ '\'' :: (p.inner ++ ')' ::
      (p.outer ++ p.sign :: (p.space ++ (p.digits ++ rest))))))) := by
  simp [PeriodOffset.text, quoted, offset]

/-- **The text is read in one way only**, when the digits go as far as they can. -/
theorem eq_of_append_eq (hrest : EndsBefore rest) (hrest' : EndsBefore rest')
    (heq : p.text ++ rest = q.text ++ rest') : p = q ∧ rest = rest' := by
  have blank {s x : List Char} {c : Char} (hs : ∀ c ∈ s, Text.isBlank c = true)
      (hc : Text.isBlank c = false) : Text.Run Text.isBlank s (c :: x) :=
    ⟨hs, fun d hd => Option.some.inj hd ▸ hc⟩
  have behindSign (p : PeriodOffset) (rest : List Char) :
      Text.Run Text.isBlank p.space (p.digits ++ rest) := by
    obtain ⟨d, more, hdigits⟩ := List.exists_cons_of_ne_nil p.digits_ne
    rw [hdigits, List.cons_append]
    exact blank p.space_blank
      (Text.isBlank_of_isDigit (p.digits_digit d (hdigits ▸ List.mem_cons_self)))
  have number {p : PeriodOffset} {rest : List Char} (h : EndsBefore rest) :
      Text.Run Text.isDigit p.digits rest :=
    ⟨p.digits_digit, fun c hc => by simpa [EndsBefore, hc] using h⟩
  rw [text_append, text_append] at heq
  obtain ⟨hword, h⟩ := List.append_inj heq (p.word_eq.length_eq.trans q.word_eq.length_eq.symm)
  obtain ⟨hcolumn, h⟩ := p.isTruncated.eq_of_append_eq q.isTruncated h
  obtain ⟨hgap, h⟩ := (blank p.gap_blank (by decide)).eq_of_append_eq
    (blank q.gap_blank (by decide)) h
  obtain ⟨hunit, h⟩ := (Text.Run.of_not_mem p.unit_quote).eq_of_append_eq
    (.of_not_mem q.unit_quote) (List.cons_eq_cons.1 h).2
  obtain ⟨hinner, h⟩ := (blank p.inner_blank (by decide)).eq_of_append_eq
    (blank q.inner_blank (by decide)) (List.cons_eq_cons.1 h).2
  obtain ⟨houter, h⟩ := (blank p.outer_blank p.isBlank_sign).eq_of_append_eq
    (blank q.outer_blank q.isBlank_sign) (List.cons_eq_cons.1 h).2
  obtain ⟨hsign, h⟩ := List.cons_eq_cons.1 h
  obtain ⟨hspace, h⟩ := (behindSign p rest).eq_of_append_eq (behindSign q rest') h
  obtain ⟨hdigits, h⟩ := (number hrest).eq_of_append_eq (number hrest') h
  exact ⟨PeriodOffset.ext hword hcolumn hgap hunit hinner houter hsign hspace hdigits, h⟩

theorem isBlank_of_reads_blanks {before behind : Option Char}
    (h : blanks.Reads before text behind) : ∀ c ∈ text, Text.isBlank c = true :=
  reads_star_one_iff.1 h

theorem exists_of_reads_unit {before behind : Option Char}
    (h : Rule.truncationUnit.Reads before text behind) :
    ∃ unit, text = '\'' :: unit ++ ['\''] ∧ unit ≠ [] ∧ '\'' ∉ unit := by
  obtain ⟨_, close, rfl, ⟨opening, unit, rfl, hopening, hunit⟩, hclose⟩ := h
  rw [reads_char_iff] at hopening hclose
  subst hopening hclose
  obtain ⟨hne, hunit⟩ := reads_plus_one_iff.1 hunit
  refine ⟨unit, rfl, hne, fun hmem => ?_⟩
  exact not_mem_of_mem_noneOf (hunit _ hmem) (by decide)

theorem exists_of_reads_offset {before behind : Option Char}
    (h : Rule.periods.Reads before text behind) :
    ∃ sign space digits, text = sign :: (space ++ digits) ∧ (sign = '-' ∨ sign = '+') ∧
      (∀ c ∈ space, Text.isBlank c = true) ∧ digits ≠ [] ∧
      ∀ c ∈ digits, Text.isDigit c = true := by
  obtain ⟨_, digits, rfl, ⟨s, space, rfl, hs, hspace⟩, hdigits⟩ := h
  obtain ⟨sign, rest, hsign, hrest, rfl⟩ := List.forall₂_cons_left_iff.1 hs
  obtain rfl := List.forall₂_nil_left_iff.1 hrest
  obtain ⟨hne, hdigits⟩ := reads_plus_one_iff.1 hdigits
  exact ⟨sign, space, digits, rfl, by simpa [CharSet.mem] using hsign,
    isBlank_of_reads_blanks hspace, hne, hdigits⟩

/-- What the parts of the pattern read in a match, and what its groups hold. -/
theorem exists_reads_of_matchAt {place : Cursor} {m : Match}
    (h : Rule.truncatedOffset.matchAt place = some m) :
    ∃ word front column back gap quoted inner outer offset,
      m.text = word ++ (front ++ (column ++ (back ++ (',' :: (gap ++ (quoted ++ (inner ++ (')' ::
        (outer ++ offset))))))))) ∧
      m.textOf "column" = column ∧ m.textOf "unit" = quoted ∧ m.textOf "offset" = offset ∧
      (∃ before behind, (keyword "TRUNC(").Reads before word behind) ∧
      (∀ c ∈ front, Text.isBlank c = true) ∧
      (∃ before behind, Rule.truncatedColumn.Reads before column behind) ∧
      (∀ c ∈ back, Text.isBlank c = true) ∧ (∀ c ∈ gap, Text.isBlank c = true) ∧
      (∃ before behind, Rule.truncationUnit.Reads before quoted behind) ∧
      (∀ c ∈ inner, Text.isBlank c = true) ∧ (∀ c ∈ outer, Text.isBlank c = true) ∧
      ∃ before behind, Rule.periods.Reads before offset behind := by
  obtain ⟨o, ho, hmatch, -, hown⟩ := exists_outcome_of_matchAt h
  -- from behind: the number of periods, the unit, the column and the name of the function
  obtain ⟨c₁, g₁, offset, h, s₁, hoffset, hgroups₁⟩ :=
    exists_of_mem_outcomes_append_group (by decide) (List.mem_of_mem_head? ho)
  obtain ⟨c₂, outer, h, s₂, houter⟩ := exists_of_mem_outcomes_append (by decide) h
  obtain ⟨c₃, closing, h, s₃, hclosing⟩ := exists_of_mem_outcomes_append (by decide) h
  obtain ⟨c₄, inner, h, s₄, hinner⟩ := exists_of_mem_outcomes_append (by decide) h
  obtain ⟨c₅, g₅, quoted, h, s₅, hquoted, hgroups₅⟩ :=
    exists_of_mem_outcomes_append_group (by decide) h
  obtain ⟨c₆, gap, h, s₆, hgap⟩ := exists_of_mem_outcomes_append (by decide) h
  obtain ⟨c₇, comma, h, s₇, hcomma⟩ := exists_of_mem_outcomes_append (by decide) h
  obtain ⟨c₈, back, h, s₈, hback⟩ := exists_of_mem_outcomes_append (by decide) h
  obtain ⟨c₉, g₉, column, h, s₉, hcolumn, hgroups₉⟩ :=
    exists_of_mem_outcomes_append_group (by decide) h
  obtain ⟨c₁₀, front, h, s₁₀, hfront⟩ := exists_of_mem_outcomes_append (by decide) h
  obtain ⟨c₁₁, word, h, s₁₁, hword⟩ := exists_of_mem_outcomes_append (by decide) h
  obtain rfl : c₁₁ = place := (Prod.mk.inj (mem_outcomes_boundary.1 h).2).1
  have hspans := s₁₁.trans (s₁₀.trans (s₉.trans (s₈.trans (s₇.trans (s₆.trans (s₅.trans
    (s₄.trans (s₃.trans (s₂.trans s₁)))))))))
  have hgroups : m.groups = ⟨"offset", c₁.index, offset⟩ :: ⟨"unit", c₅.index, quoted⟩ ::
      ⟨"column", c₉.index, column⟩ :: g₉ :=
    hown.trans (hgroups₁.trans (congrArg _ (hgroups₅.trans (congrArg _ hgroups₉))))
  obtain rfl := reads_char_iff.1 hclosing
  obtain rfl := reads_char_iff.1 hcomma
  refine ⟨word, front, column, back, gap, quoted, inner, outer, offset, ?_, ?_, ?_, ?_,
    ⟨_, _, hword⟩, isBlank_of_reads_blanks hfront, ⟨_, _, hcolumn⟩, isBlank_of_reads_blanks hback,
    isBlank_of_reads_blanks hgap, ⟨_, _, hquoted⟩, isBlank_of_reads_blanks hinner,
    isBlank_of_reads_blanks houter, ⟨_, _, hoffset⟩⟩
  · rw [hmatch.unique hspans]
    simp
  all_goals
    rw [Match.textOf, Match.group?, hgroups]
    rfl

/-- The column that is read, without the white space around it. -/
theorem exists_isTruncated {column front back : List Char} {before behind : Option Char}
    (hcolumn : Rule.truncatedColumn.Reads before column behind)
    (hfront : ∀ c ∈ front, Text.isBlank c = true) (hback : ∀ c ∈ back, Text.isBlank c = true) :
    IsTruncated (front ++ (column ++ back)) := by
  have hmark {s : List Char} (hs : ∀ c ∈ s, Text.isBlank c = true) : ∀ c ∈ s, c ∉ ",()'".toList := by
    intro c hc hmem
    have hmarks : ",()'".toList.all (fun d => !Text.isBlank d) = true := by decide
    have := List.all_eq_true.1 hmarks c hmem
    rw [hs c hc] at this
    cases this
  obtain ⟨name, call, rfl, hreads, hcall⟩ := hcolumn
  obtain ⟨hne, hset⟩ := reads_plus_one_iff.1 hreads
  have hname : ∀ c ∈ name, c ∉ ",()'".toList := fun c hc => not_mem_of_mem_noneOf (hset c hc)
  rcases hcall with hcall | hnil
  · obtain ⟨args, rfl, hargs⟩ := reads_enclosed_iff.1 hcall
    refine ⟨front ++ name, '(' :: (args ++ ')' :: back), by simp, by simp [hne], ?_,
      .inr ⟨args, back, rfl, hargs, hback⟩⟩
    exact List.forall_mem_append.2 ⟨hmark hfront, hname⟩
  · obtain rfl : call = [] := List.forall₂_nil_left_iff.1 hnil
    refine ⟨front ++ (name ++ back), [], by simp, by simp [hne], ?_, .inl rfl⟩
    exact List.forall_mem_append.2 ⟨hmark hfront, List.forall_mem_append.2 ⟨hname, hmark hback⟩⟩

/-- **What a match of the rule is.** -/
theorem exists_of_matchAt {place : Cursor} {m : Match}
    (h : Rule.truncatedOffset.matchAt place = some m) :
    ∃ p : PeriodOffset, m.text = p.text ∧ Text.trim (m.textOf "column") = Text.trim p.column ∧
      m.textOf "unit" = p.quoted ∧ m.textOf "offset" = p.offset := by
  obtain ⟨word, front, column, back, gap, quoted, inner, outer, offset, htext, hcolumnText, hunitText,
    hoffsetText, ⟨_, _, hword⟩, hfront, ⟨_, _, hcolumn⟩, hback, hgap, ⟨_, _, hquoted⟩, hinner, houter,
    ⟨_, _, hoffset⟩⟩ := exists_reads_of_matchAt h
  obtain ⟨unit, rfl, hne, hunit⟩ := exists_of_reads_unit hquoted
  obtain ⟨sign, space, digits, rfl, hsign, hspace, hdigits⟩ :=
    exists_of_reads_offset hoffset
  refine ⟨⟨word, front ++ (column ++ back), gap, unit, inner, outer, sign, space, digits,
    (reads_keyword_iff (by decide)).1 hword, exists_isTruncated hcolumn hfront hback, hgap, hne, hunit,
    hinner, houter, hsign, hspace, hdigits.1, hdigits.2⟩, ?_, ?_, hunitText, hoffsetText⟩
  · rw [htext]
    simp [PeriodOffset.text, quoted, offset]
  · rw [hcolumnText, Text.trim_append_blank hfront hback]

/-- The digits of a match go as far as they can. -/
theorem endsBefore_of_matchAt {place : Cursor} {m : Match}
    (h : Rule.truncatedOffset.matchAt place = some m) (hrest : place.rest = m.text ++ rest) :
    EndsBefore rest := by
  have hmaximal : Rule.truncatedOffset.isMaximal .digit = true := rfl
  rw [EndsBefore]
  cases hhead : rest.head? with
  | none => rfl
  | some c => exact mem_eq_false_of_matchAt hmaximal h hrest hhead

/-- A reading of the first part of a sequence goes on, if what follows is read everywhere. -/
theorem reads_append {a b : Pattern} {before : Option Char} {s t : List Char}
    (ha : ∀ behind, a.Reads before s behind) (ht : b.Reads none t none) (hb : b.isFree = true)
    (behind : Option Char) : (a ++ b).Reads before (s ++ t) behind :=
  ⟨s, t, rfl, ha _, reads_of_isFree hb ht _ _⟩

theorem exists_reads_column {column : List Char} (h : IsTruncated column) :
    ∃ own back, column = own ++ back ∧ Rule.truncatedColumn.Reads none own none ∧
      ∀ c ∈ back, Text.isBlank c = true := by
  obtain ⟨name, call, rfl, hne, hname, hcall⟩ := h
  have hreads : (plus (one (.noneOf ",()'"))).Reads none name none :=
    reads_plus_one_iff.2 ⟨hne, fun c hc => by simpa [CharSet.noneOf, CharSet.mem] using hname c hc⟩
  rcases hcall with rfl | ⟨args, back, rfl, hargs, hback⟩
  · exact ⟨name, [], rfl, ⟨name, [], (List.append_nil name).symm, hreads, .inr .nil⟩, by simp⟩
  · refine ⟨name ++ '(' :: (args ++ [')']), back, by simp, ?_, hback⟩
    exact ⟨name, _, rfl, reads_of_isFree rfl hreads _ _,
      .inl (reads_enclosed_iff.2 ⟨args, rfl, hargs⟩)⟩

/-- The text is read where no word goes on in it. -/
theorem reads_text (p : PeriodOffset) {before : Option Char}
    (hbefore : before.any Text.isWordChar = false) (behind : Option Char) :
    Rule.truncatedOffset.Reads before p.text behind := by
  obtain ⟨column, back, hsplit, hcolumn, hback⟩ := exists_reads_column p.isTruncated
  have hword (behind : Option Char) :
      (boundary ++ keyword "TRUNC(").Reads before p.word behind := by
    refine ⟨[], p.word, rfl, ⟨rfl, ?_⟩, (reads_keyword_iff (by decide)).2 p.word_eq⟩
    obtain ⟨c, rest, hcons, hfold⟩ := p.exists_word_eq
    have hletter : Text.isWordChar c = true := by
      rw [← Text.isWordChar_foldCase, hfold]
      decide
    simp [hcons, hbefore, hletter]
  have hblanks {s : List Char} (hs : ∀ c ∈ s, Text.isBlank c = true) : blanks.Reads none s none :=
    reads_star_one_iff.2 hs
  have hquoted : (group "unit" Rule.truncationUnit).Reads none
      p.quoted none := by
    refine ⟨'\'' :: p.unit, ['\''], rfl, ⟨['\''], p.unit, rfl, reads_char_iff.2 rfl, ?_⟩,
      reads_char_iff.2 rfl⟩
    refine reads_plus_one_iff.2 ⟨p.unit_ne, fun c hc => ?_⟩
    have hne : c ≠ '\'' := fun heq => p.unit_quote (heq ▸ hc)
    simpa [CharSet.noneOf, CharSet.mem] using hne
  have hoffset : (group "offset" Rule.periods).Reads none
      p.offset none := by
    refine ⟨p.sign :: p.space, p.digits, rfl,
      ⟨[p.sign], p.space, rfl, ?_, reads_star_one_iff.2 p.space_blank⟩,
      reads_plus_one_iff.2 ⟨p.digits_ne, p.digits_digit⟩⟩
    exact .cons (by simpa [CharSet.mem] using p.sign_eq) .nil
  have htext : p.text = p.word ++ [] ++ column ++ back ++ [','] ++ p.gap ++ p.quoted ++ p.inner ++
      [')'] ++ p.outer ++ p.offset := by
    simp [PeriodOffset.text, hsplit]
  rw [htext]
  exact reads_append (reads_append (reads_append (reads_append (reads_append (reads_append
    (reads_append (reads_append (reads_append (reads_append hword
    (hblanks (by simp)) rfl) hcolumn rfl) (hblanks hback) rfl) (reads_char_iff.2 rfl) rfl)
    (hblanks p.gap_blank) rfl) hquoted rfl) (hblanks p.inner_blank) rfl) (reads_char_iff.2 rfl) rfl)
    (hblanks p.outer_blank) rfl) hoffset rfl behind

/-- A match of the text is a match of all of it. -/
theorem of_matchAt_text {before : Option Char} {index : Nat} {m : Match} (hrest : EndsBefore rest)
    (h : Rule.truncatedOffset.matchAt ⟨before, index, p.text ++ rest⟩ = some m) :
    m.text = p.text ∧ Text.trim (m.textOf "column") = Text.trim p.column ∧
      m.textOf "unit" = p.quoted ∧ m.textOf "offset" = p.offset := by
  obtain ⟨q, htext, hq⟩ := exists_of_matchAt h
  obtain ⟨rest', hsplit, -⟩ := reads_of_matchAt h
  have hsplit : p.text ++ rest = q.text ++ rest' := htext ▸ hsplit
  have hends : EndsBefore rest' := endsBefore_of_matchAt h (htext ▸ hsplit)
  obtain ⟨rfl, -⟩ := eq_of_append_eq hrest hends hsplit
  exact ⟨htext, hq⟩

/-! ### The rule -/

variable {front : List Char}

theorem edit?_eq (ctx : Context) (line : List Char) :
    Rule.priorPeriod.edit? ctx line = Rule.replaceFirst Rule.truncatedOffset Rule.dateaddCall line := rfl

/-- In front of the first `TRUNC(`, nothing is read. -/
theorem matchAt_eq_none (hfront : (keyword "TRUNC(").occursIn front = false) {u v : List Char}
    {c : Char} (hsplit : front = u ++ c :: v) (p : PeriodOffset) (rest : List Char) :
    Rule.truncatedOffset.matchAt ⟨u.getLast?, u.length, c :: (v ++ (p.text ++ rest))⟩ = none := by
  rw [Option.eq_none_iff_forall_ne_some]
  intro m hmatch
  obtain ⟨q, htext, -⟩ := exists_of_matchAt hmatch
  obtain ⟨rest', hline, -⟩ := reads_of_matchAt hmatch
  have hline : (c :: v) ++ (p.text ++ rest) = q.text ++ rest' := htext ▸ hline
  rw [text_append, text_append] at hline
  rcases List.append_eq_append_iff.1 hline with ⟨d, hword, hd⟩ | ⟨d, hword, -⟩
  · cases d with
    | nil =>
      have hoccurs : (keyword "TRUNC(").occursIn front = true := by
        refine occursIn_iff.2 ⟨u, q.word, [], ?_, (reads_keyword_iff (by decide)).2 q.word_eq⟩
        rw [hsplit, hword]
        simp
      rw [hfront] at hoccurs
      cases hoccurs
    | cons e d =>
      -- the word of the one would start within the word of the other
      obtain ⟨e', word, hcons, hfirst⟩ := p.exists_word_eq
      rw [hcons] at hd
      obtain rfl : e' = e := (List.cons_eq_cons.1 hd).1
      have hq := q.word_eq
      rw [hword] at hq
      have htail : (v ++ e' :: d).map Text.foldCase = "runc(".toList := List.tail_eq_of_cons_eq hq
      have hmem : Text.foldCase e' ∈ (v ++ e' :: d).map Text.foldCase :=
        List.mem_map_of_mem (by simp)
      rw [htail, hfirst] at hmem
      exact absurd hmem (by decide)
  · have hoccurs : (keyword "TRUNC(").occursIn front = true := by
      refine occursIn_iff.2 ⟨u, q.word, d, ?_, (reads_keyword_iff (by decide)).2 q.word_eq⟩
      rw [hsplit, hword]
    rw [hfront] at hoccurs
    cases hoccurs

section FirstTruncation

variable {front : List Char} (hapart : front.getLast?.any Text.isWordChar = false)
  (hfirst : (keyword "TRUNC(").occursIn front = false) (hrest : EndsBefore rest)

include hapart hfirst hrest

/-- The first match of a line is that of the first `TRUNC(`. -/
theorem exists_first_match (p : PeriodOffset) :
    ∃ m more, Rule.truncatedOffset.matchesIn (front ++ (p.text ++ rest)) = m :: more ∧
      m.start = front.length ∧ m.text = p.text ∧
      Rule.dateaddCall m = if p.Fits then some p.change else none := by
  have hfound : (Rule.truncatedOffset.matchAt
      ⟨front.getLast?, front.length, p.text ++ rest⟩).isSome = true := by
    rw [Option.isSome_iff_ne_none]
    intro hnone
    exact matchAt_eq_none_iff.1 hnone p.text rest rfl (p.reads_text hapart _)
  obtain ⟨m, hmatch⟩ := Option.isSome_iff_exists.1 hfound
  obtain ⟨htext, hcolumn, hunit, hoffset⟩ := of_matchAt_text hrest hmatch
  obtain ⟨more, hmatches⟩ := exists_matchesIn_eq_cons
    (fun u c v hsplit => matchAt_eq_none hfirst hsplit p rest) hmatch
    (text_ne_nil_of_matchAt (by decide) hmatch)
  exact ⟨m, more, hmatches, start_eq_of_matchAt hmatch, htext, dateaddCall_eq hcolumn hunit hoffset⟩

/-- A number that fits is written. -/
theorem edit_of_fits (ctx : Context) (hfits : p.Fits) (hclosed : Literal.isClosed front = true) :
    Rule.priorPeriod.edit? ctx (front ++ (p.text ++ rest)) =
      some (.changed (front ++ (p.change ++ rest)) (Text.trim p.text)) := by
  obtain ⟨m, more, hmatches, hstart, htext, hchange⟩ := exists_first_match hapart hfirst hrest p
  rw [if_pos hfits] at hchange
  have hcode : Literal.inCode (front ++ (p.text ++ rest)) m.start = true := by
    obtain ⟨c, word, hcons, hfold⟩ := p.exists_word_eq
    have hquote : c ≠ '\'' := by
      rintro rfl
      exact absurd hfold (by decide)
    rw [hstart, text_append, hcons]
    exact Rule.inCode_append_cons.2 ⟨hquote, hclosed⟩
  have hnew : Rule.change Rule.dateaddCall (front ++ (p.text ++ rest)) m =
      some (.changed (front ++ (p.change ++ rest)) (Text.trim p.text)) := by
    rw [Rule.change, if_pos hcode, hchange, Option.map_some, Match.stop, hstart, htext,
      ← List.length_append, List.take_left, ← List.append_assoc front p.text, List.drop_left,
      List.append_assoc]
  change ((Rule.truncatedOffset.matchesIn _).findSome? (Rule.change Rule.dateaddCall _)) = _
  rw [hmatches, List.findSome?_cons, hnew]

/-- Where the number does not fit, its text stays. -/
theorem exists_of_not_fits {ctx : Context} {edit : Edit} (hfits : ¬p.Fits)
    (h : Rule.priorPeriod.edit? ctx (front ++ (p.text ++ rest)) = some edit) :
    ∃ new, edit.line = front ++ (p.text ++ new) := by
  obtain ⟨m, more, hmatches, hstart, htext, hchange⟩ := exists_first_match hapart hfirst hrest p
  rw [if_neg hfits] at hchange
  rw [edit?_eq] at h
  obtain ⟨a, m', b, new, hline, -, -, hmem, hmatch', hnew, rfl, -⟩ :=
    Rule.exists_mem_of_replaceFirst h
  have hpairs := pairwise_matchesIn Rule.truncatedOffset (front ++ (p.text ++ rest))
  rw [hmatches] at hmem hpairs
  -- the edit is behind the first match
  have hbehind : m.stop ≤ m'.start := by
    rcases List.mem_cons.1 hmem with rfl | hmem
    · rw [hchange] at hnew
      cases hnew
    · exact List.rel_of_pairwise_cons hpairs hmem
  rw [Match.stop, hstart, htext, start_eq_of_matchAt hmatch', ← List.length_append] at hbehind
  have hfront : front ++ p.text <+: front ++ (p.text ++ rest) := by
    rw [← List.append_assoc]
    exact List.prefix_append _ _
  have ha : a <+: front ++ (p.text ++ rest) := by
    rw [hline]
    exact List.prefix_append _ _
  obtain ⟨more, rfl⟩ := List.prefix_of_prefix_length_le hfront ha hbehind
  exact ⟨more ++ (new ++ b), by simp [Edit.changed]⟩

end FirstTruncation

/-- What the rule changes is the text of a number that fits. -/
theorem exists_of_edit {ctx : Context} {line : List Char} {edit : Edit}
    (h : Rule.priorPeriod.edit? ctx line = some edit) :
    ∃ front, ∃ p : PeriodOffset, ∃ rest, line = front ++ (p.text ++ rest) ∧ Literal.isClosed front = true ∧
      EndsBefore rest ∧ p.Fits ∧
      edit = .changed (front ++ (p.change ++ rest)) (Text.trim p.text) := by
  rw [edit?_eq] at h
  obtain ⟨front, m, rest, new, hline, -, hclosed, -, hmatch, hnew, rfl, -⟩ :=
    Rule.exists_mem_of_replaceFirst h
  obtain ⟨p, htext, hcolumn, hunit, hoffset⟩ := exists_of_matchAt hmatch
  have hchange := dateaddCall_eq hcolumn hunit hoffset
  rw [hnew] at hchange
  split at hchange
  · rename_i hfits
    obtain rfl := Option.some.inj hchange
    exact ⟨front, p, rest, htext ▸ hline, hclosed, endsBefore_of_matchAt hmatch rfl, hfits,
      htext ▸ rfl⟩
  · cases hchange

/-- **The numbers that the rule writes.**  It replaces a truncated date and all of the digits behind it,
which stand for the number that is written.  The number fits into 64 bits; if that behind the first
`TRUNC(` does, it is replaced, whatever else follows the digits, and if not, that text stays. -/
theorem edit_spec (ctx : Context) (line : List Char) :
    (∀ edit, Rule.priorPeriod.edit? ctx line = some edit →
      ∃ front, ∃ p : PeriodOffset, ∃ rest, line = front ++ (p.text ++ rest) ∧ Literal.isClosed front = true ∧
        EndsBefore rest ∧ p.Fits ∧
        edit = .changed (front ++ (p.change ++ rest)) (Text.trim p.text)) ∧
    ∀ front (p : PeriodOffset) rest, line = front ++ (p.text ++ rest) → Literal.isClosed front = true →
      front.getLast?.any Text.isWordChar = false → (keyword "TRUNC(").occursIn front = false →
      EndsBefore rest →
      (p.Fits → Rule.priorPeriod.edit? ctx line =
        some (.changed (front ++ (p.change ++ rest)) (Text.trim p.text))) ∧
      (¬p.Fits → ∀ edit, Rule.priorPeriod.edit? ctx line = some edit →
        ∃ new, edit.line = front ++ (p.text ++ new)) := by
  refine ⟨fun edit h => exists_of_edit h, ?_⟩
  rintro front p rest rfl hclosed hapart hfirst hrest
  exact ⟨fun hfits => edit_of_fits hapart hfirst hrest ctx hfits hclosed,
    fun hfits edit h => exists_of_not_fits hapart hfirst hrest hfits h⟩

/-- Whether the text goes on with the operand that the number starts: with a word character or a point, or
with a factor. -/
def continuesOffset (rest : List Char) : Bool :=
  (rest.head?.any fun c => Text.isWordChar c || c == '.') ||
    (Text.trimStart rest).head?.any fun c => c == '*' || c == '/'

/-- **The number need not be the whole operand**: a fraction, a letter and a factor stay behind the new
call. -/
theorem edit_cuts_operand :
    let call := "SELECT dateadd('MM', -1, trunc(d, 'MM'))".toList
    let note := "TRUNC(d, 'MM') - 1".toList
    (Rule.priorPeriod.edit? (.start none) "SELECT TRUNC(d, 'MM') - 1.5;".toList =
        some (.changed (call ++ ".5;".toList) note) ∧ continuesOffset ".5;".toList = true) ∧
      (Rule.priorPeriod.edit? (.start none) "SELECT TRUNC(d, 'MM') - 1x;".toList =
        some (.changed (call ++ "x;".toList) note) ∧ continuesOffset "x;".toList = true) ∧
      (Rule.priorPeriod.edit? (.start none) "SELECT TRUNC(d, 'MM') - 1 * 7;".toList =
        some (.changed (call ++ " * 7;".toList) note) ∧ continuesOffset " * 7;".toList = true) := by
  decide

end PeriodOffset

end SqlDialect
