import SqlDialect.Proofs.Pattern.Renaming
import SqlDialect.Proofs.Pattern.Word
import SqlDialect.Proofs.Rule.FirstChange
import SqlDialect.Proofs.Rule.Repetition
import SqlDialect.Proofs.Text.Run

/-!
# Display widths of integer types

One rule takes the width from `INT(n)` and writes `INTEGER`, the next one writes `NUMERIC(18,0)` for
`INTEGER` and `BIGINT`.  Only `INT` loses its width: `DisplayWidth.width_stays_iff` says behind which of
the types that are written a parenthesis is left, and `DisplayWidth.bigint_keeps_width` shows one.
-/

namespace SqlDialect.DisplayWidth

open Pattern

variable {front text rest line result u v w a b : List Char} {before next : Option Char}
  {behind : List (List Char)}

/-- Whether a parenthesis is opened behind white space. -/
def opensParen (text : List Char) : Bool := (Text.trimStart text).head? == some '('

/-- What the first rule writes. -/
abbrev integerWord : List Char := "INTEGER".toList

/-- What the second rule writes. -/
abbrev numericType : List Char := "NUMERIC(18,0)".toList

/-- The text `INT(n)`, with white space around its parts. -/
def IsWidth (text : List Char) : Prop :=
  ∃ word gap inner number outer, text = word ++ (gap ++ '(' :: (inner ++ (number ++ (outer ++ [')'])))) ∧
    Spells "INT" word ∧ (∀ c ∈ gap, Text.isBlank c = true) ∧ (∀ c ∈ inner, Text.isBlank c = true) ∧
    number ≠ [] ∧ (∀ c ∈ number, Text.isDigit c = true) ∧ ∀ c ∈ outer, Text.isBlank c = true

/-- The text `INTEGER` or `BIGINT`. -/
def IsType (text : List Char) : Prop := Spells "INTEGER" text ∨ Spells "BIGINT" text

/-- `INT(n)` in the code of a line, behind `front`. -/
structure WidthAt (front text : List Char) : Prop where
  isClosed : Literal.isClosed front = true
  apart : front.getLast?.any Text.isWordChar = false
  isWidth : IsWidth text

/-- `INTEGER` or `BIGINT` as a word in the code of a line, between `front` and `rest`. -/
structure TypeAt (front text rest : List Char) : Prop where
  isClosed : Literal.isClosed front = true
  apart : front.getLast?.any Text.isWordChar = false
  isType : IsType text
  ends : rest.head?.any Text.isWordChar = false

/-- The text ends with `INT(n)` in code. -/
def EndsWithWidth (front : List Char) : Prop := ∃ u text, front = u ++ text ∧ WidthAt u text

/-! ### Readings -/

theorem reads_width_iff : Rule.intWithWidth.Reads before text next ↔
    before.any Text.isWordChar = false ∧ IsWidth text := by
  constructor
  · rintro ⟨_, close, rfl, ⟨_, outer, rfl, ⟨_, number, rfl, ⟨_, inner, rfl, ⟨_, paren, rfl,
      ⟨_, gap, rfl, hword, hgap⟩, hparen⟩, hinner⟩, hnumber⟩, houter⟩, hclose⟩
    obtain ⟨hbefore, hword⟩ := (reads_nameStart_iff (by decide)).1 hword
    obtain ⟨hne, hdigits⟩ := reads_plus_one_iff.1 hnumber
    rw [reads_char_iff.1 hparen, reads_char_iff.1 hclose]
    exact ⟨hbefore, _, gap, inner, number, outer, by simp, hword, reads_star_one_iff.1 hgap,
      reads_star_one_iff.1 hinner, hne, hdigits, reads_star_one_iff.1 houter⟩
  · rintro ⟨hbefore, word, gap, inner, number, outer, rfl, hword, hgap, hinner, hne, hdigits, houter⟩
    refine ⟨word ++ gap ++ ['('] ++ inner ++ number ++ outer, [')'], by simp,
      ⟨word ++ gap ++ ['('] ++ inner ++ number, outer, rfl,
        ⟨word ++ gap ++ ['('] ++ inner, number, rfl, ⟨word ++ gap ++ ['('], inner, rfl,
          ⟨word ++ gap, ['('], rfl, ⟨word, gap, rfl, ?_, reads_star_one_iff.2 hgap⟩,
            reads_char_iff.2 rfl⟩, reads_star_one_iff.2 hinner⟩, reads_plus_one_iff.2 ⟨hne, hdigits⟩⟩,
        reads_star_one_iff.2 houter⟩, reads_char_iff.2 rfl⟩
    exact (reads_nameStart_iff (by decide)).2 ⟨hbefore, hword⟩

theorem reads_type_iff : Rule.integerType.Reads before text next ↔
    before.any Text.isWordChar = false ∧ IsType text ∧ next.any Text.isWordChar = false := by
  have hwords : Rule.integerType.Reads before text next ↔
      (wholeWord "INTEGER").Reads before text next ∨ (wholeWord "BIGINT").Reads before text next := by
    constructor
    · rintro ⟨_, last, rfl, ⟨first, word, rfl, hfirst, hword | hword⟩, hlast⟩
      · exact .inl ⟨_, last, rfl, ⟨first, word, rfl, hfirst, hword⟩, hlast⟩
      · exact .inr ⟨_, last, rfl, ⟨first, word, rfl, hfirst, hword⟩, hlast⟩
    · rintro (⟨_, last, rfl, ⟨first, word, rfl, hfirst, hword⟩, hlast⟩ |
        ⟨_, last, rfl, ⟨first, word, rfl, hfirst, hword⟩, hlast⟩)
      · exact ⟨_, last, rfl, ⟨first, word, rfl, hfirst, .inl hword⟩, hlast⟩
      · exact ⟨_, last, rfl, ⟨first, word, rfl, hfirst, .inr hword⟩, hlast⟩
  rw [hwords, reads_wholeWord_iff (by decide), reads_wholeWord_iff (by decide), IsType]
  tauto

theorem readsInCode_width_iff : Rule.intWithWidth.ReadsInCode front text rest ↔ WidthAt front text := by
  constructor
  · rintro ⟨hclosed, hreads⟩
    obtain ⟨hapart, hwidth⟩ := reads_width_iff.1 hreads
    exact ⟨hclosed, hapart, hwidth⟩
  · rintro ⟨hclosed, hapart, hwidth⟩
    exact ⟨hclosed, reads_width_iff.2 ⟨hapart, hwidth⟩⟩

theorem readsInCode_type_iff : Rule.integerType.ReadsInCode front text rest ↔ TypeAt front text rest := by
  constructor
  · rintro ⟨hclosed, hreads⟩
    obtain ⟨hapart, htype, hends⟩ := reads_type_iff.1 hreads
    exact ⟨hclosed, hapart, htype, hends⟩
  · rintro ⟨hclosed, hapart, htype, hends⟩
    exact ⟨hclosed, reads_type_iff.2 ⟨hapart, htype, hends⟩⟩

namespace IsType

theorem isWordChar (h : IsType text) : ∀ c ∈ text, Text.isWordChar c = true :=
  h.elim (fun h => h.isWordChar (by decide)) fun h => h.isWordChar (by decide)

/-- A type is a run of word characters. -/
theorem run (h : IsType text) (hends : rest.head?.any Text.isWordChar = false) :
    Text.Run Text.isWordChar text rest :=
  ⟨h.isWordChar, fun c hc => by simpa [hc] using hends⟩

/-- A type at the place where the first rule has written one is that one. -/
theorem eq_of_append_eq (h : IsType text) (heq : text ++ rest = integerWord ++ v) :
    text = integerWord ∧ rest = v := by
  rcases h with h | h
  · exact List.append_inj heq h.length_eq
  · obtain ⟨c, text, rfl⟩ := List.exists_cons_of_ne_nil (h.ne_nil (by decide))
    obtain rfl : c = 'I' := (List.cons_eq_cons.1 heq).1
    exact absurd (List.head_eq_of_cons_eq h) (by decide)

end IsType

namespace IsWidth

/-- A width starts with a word that is a run of three letters. -/
theorem exists_run (h : IsWidth text) : ∃ word tail, text = word ++ tail ∧ word.length = 3 ∧
    ∀ rest, Text.Run Text.isWordChar word (tail ++ rest) := by
  obtain ⟨word, gap, inner, number, outer, rfl, hword, hgap, -⟩ := h
  refine ⟨word, _, rfl, hword.length_eq, fun rest => ⟨hword.isWordChar (by decide), fun c hc => ?_⟩⟩
  cases gap with
  | nil =>
    obtain rfl := Option.some.inj hc
    decide
  | cons d gap =>
    obtain rfl := Option.some.inj hc
    exact Text.isWordChar_of_isBlank (hgap _ List.mem_cons_self)

/-- A width ends with its only closing parenthesis. -/
theorem exists_concat (h : IsWidth text) : ∃ init, text = init ++ [')'] ∧ ')' ∉ init := by
  obtain ⟨word, gap, inner, number, outer, rfl, hword, hgap, hinner, -, hnumber, houter⟩ := h
  refine ⟨word ++ (gap ++ '(' :: (inner ++ (number ++ outer))), by simp, ?_⟩
  have hblank {s : List Char} (hs : ∀ c ∈ s, Text.isBlank c = true) : ')' ∉ s := fun hmem =>
    absurd (hs _ hmem) (by decide)
  have hletters : ')' ∉ word := fun hmem =>
    absurd (hword.isWordChar (by decide) _ hmem) (by decide)
  have hdigits : ')' ∉ number := fun hmem => absurd (hnumber _ hmem) (by decide)
  simp [hletters, hblank hgap, hblank hinner, hdigits, hblank houter]

end IsWidth

theorem isRenamable_width : Rule.intWithWidth.IsRenamable where
  avoids := by decide
  blind := by decide
  visible := by decide
  apart := by decide
  eq_of_reads {_ s s' r r'} heq h h' := by
    obtain ⟨init, rfl, hinit⟩ := (reads_width_iff.1 h).2.exists_concat
    obtain ⟨init', rfl, hinit'⟩ := (reads_width_iff.1 h').2.exists_concat
    rw [Text.eq_of_concat_eq hinit hinit' heq]

theorem isRenamable_type : Rule.integerType.IsRenamable where
  avoids := by decide
  blind := by decide
  visible := by decide
  apart := by decide
  eq_of_reads {_ s s' r r'} heq h h' := by
    obtain ⟨-, htype, hends⟩ := reads_type_iff.1 h
    obtain ⟨-, htype', hends'⟩ := reads_type_iff.1 h'
    exact ((htype.run hends).eq_of_append_eq (htype'.run hends') heq).1

/-! ### Parentheses behind white space -/

theorem opensParen_cons (c : Char) (rest : List Char) :
    opensParen (c :: rest) = if Text.isBlank c then opensParen rest else c == '(' := by
  rw [opensParen, Text.trimStart]
  by_cases hc : Text.isBlank c = true
  · rw [List.dropWhile_cons_of_pos hc, if_pos hc]
    rfl
  · rw [List.dropWhile_cons_of_neg hc, if_neg hc]
    rfl

/-- No parenthesis is opened where a word starts. -/
theorem opensParen_of_head? (h : text.head?.any Text.isWordChar = true) : opensParen text = false := by
  cases text with
  | nil => cases h
  | cons c text =>
    have hblank : ¬Text.isBlank c = true := fun hc => by
      rw [List.head?_cons, Option.any_some, Text.isWordChar_of_isBlank hc] at h
      cases h
    rw [opensParen_cons, if_neg hblank, beq_eq_false_iff_ne]
    rintro rfl
    have hword : Text.isWordChar '(' = true := h
    exact absurd hword (by decide)

theorem head?_eq_false_of_opensParen (h : opensParen text = true) :
    text.head?.any Text.isWordChar = false :=
  Bool.eq_false_iff.2 fun hword => by
    rw [opensParen_of_head? hword] at h
    cases h

section Words

variable {p : Pattern} {new : List Char} (hnew : new.head?.any Text.isWordChar = true)
  (htext : ∀ {front text rest}, p.ReadsInCode front text rest → text.head?.any Text.isWordChar = true)

theorem head?_append_of_head? (h : text.head?.any Text.isWordChar = true) (rest : List Char) :
    (text ++ rest).head?.any Text.isWordChar = true := by
  cases text with
  | nil => cases h
  | cons c text => exact h

include hnew htext

/-- If words take the place of words, a line starts with one as it did before. -/
theorem any_head?_eq (h : Renamed p new front line result behind) :
    result.head?.any Text.isWordChar = line.head?.any Text.isWordChar := by
  rcases h.head?_eq_or with hhead | ⟨text, rest, result', hreads, rfl, rfl⟩
  · rw [hhead]
  · rw [head?_append_of_head? hnew, head?_append_of_head? (htext hreads)]

/-- If words take the place of words, a parenthesis is opened where one was before. -/
theorem opensParen_eq (h : Renamed p new front line result behind) :
    opensParen result = opensParen line := by
  induction h with
  | nil => rfl
  | keep _ _ ih => rw [opensParen_cons, opensParen_cons, ih]
  | swap hreads _ _ =>
    rw [opensParen_of_head? (head?_append_of_head? hnew _),
      opensParen_of_head? (head?_append_of_head? (htext hreads) _)]

end Words

theorem head?_of_width (h : Rule.intWithWidth.ReadsInCode front text rest) :
    text.head?.any Text.isWordChar = true := by
  obtain ⟨word, tail, rfl, hlength, hrun⟩ := (readsInCode_width_iff.1 h).isWidth.exists_run
  obtain ⟨c, word, rfl⟩ := List.exists_cons_of_length_eq_add_one hlength
  exact (hrun []).all c List.mem_cons_self

theorem head?_of_type (h : Rule.integerType.ReadsInCode front text rest) :
    text.head?.any Text.isWordChar = true := by
  have htype := (readsInCode_type_iff.1 h).isType
  obtain ⟨c, text, rfl⟩ := List.exists_cons_of_ne_nil (h.ne_nil isRenamable_type.toIsPiecewise)
  exact htype.isWordChar c List.mem_cons_self

/-! ### The line behind the first rule -/

theorem any_head?_eq_of_width (h : Renamed Rule.intWithWidth integerWord front line result behind) :
    result.head?.any Text.isWordChar = line.head?.any Text.isWordChar :=
  any_head?_eq (by decide) head?_of_width h

theorem opensParen_eq_of_width (h : Renamed Rule.intWithWidth integerWord front line result behind) :
    opensParen result = opensParen line := opensParen_eq (by decide) head?_of_width h

theorem isType_integerWord : IsType integerWord := .inl rfl

/-- Behind a word character, no width starts. -/
theorem not_width_of_word {c : Char} (hc : Text.isWordChar c = true) :
    ¬Rule.intWithWidth.ReadsInCode (u ++ [c]) text rest := by
  intro hreads
  have hapart := (readsInCode_width_iff.1 hreads).apart
  rw [List.getLast?_concat, Option.any_some, hc] at hapart
  cases hapart

/-- No width starts at a type, or within it. -/
theorem not_width_in_type (htype : IsType w) (hends : v.head?.any Text.isWordChar = false) {x y : List Char}
    {c : Char} (hw : w = x ++ c :: y) (heq : c :: (y ++ v) = text ++ rest) :
    ¬Rule.intWithWidth.ReadsInCode (u ++ x) text rest := by
  intro hreads
  rcases List.eq_nil_or_concat' x with rfl | ⟨init, last, rfl⟩
  · obtain ⟨word, tail, rfl, hlength, hrun⟩ := (readsInCode_width_iff.1 hreads).isWidth.exists_run
    rw [List.nil_append] at hw
    rw [← List.cons_append, ← hw, List.append_assoc] at heq
    obtain ⟨rfl, -⟩ := (htype.run hends).eq_of_append_eq (hrun rest) heq
    rcases htype with h | h
    · exact absurd (h.length_eq.symm.trans hlength) (by decide)
    · exact absurd (h.length_eq.symm.trans hlength) (by decide)
  · rw [← List.append_assoc] at hreads
    exact not_width_of_word (htype.isWordChar last (by simp [hw])) hreads

variable {mid : List Char}

/-- A place behind which a word starts corresponds to one that is behind no width. -/
theorem apart_of_aligned {more : List (List Char)}
    (h : Renamed Rule.intWithWidth integerWord [] (u ++ v) (a ++ b) behind)
    (haligned : Aligned Rule.intWithWidth integerWord [] u v a b more) :
    a.getLast?.any Text.isWordChar = false ↔
      u.getLast?.any Text.isWordChar = false ∧ ¬EndsWithWidth u := by
  have hword (y : List Char) : ¬(y ++ integerWord).getLast?.any Text.isWordChar = false := by
    have hlast : integerWord.getLast? = some 'R' := rfl
    rw [List.getLast?_append, hlast, Option.some_or]
    decide
  constructor
  · intro ha
    refine ⟨?_, ?_⟩
    · rcases haligned.last with hlast | ⟨x, text, y, -, rfl, -⟩
      · have := hlast none
        rw [Option.or_none, Option.or_none] at this
        rwa [← this]
      · exact absurd ha (hword y)
    · rintro ⟨x, text, rfl, hwidth⟩
      rw [List.append_assoc] at h
      obtain ⟨y, rfl⟩ := h.exists_append_of_aligned isRenamable_width (by decide)
        (readsInCode_width_iff.2 hwidth) haligned
      exact hword y ha
  · rintro ⟨hu, hwidth⟩
    rcases haligned.last with hlast | ⟨x, text, y, rfl, -, hreads⟩
    · have := hlast none
      rw [Option.or_none, Option.or_none] at this
      rwa [this]
    · exact absurd ⟨x, text, rfl, readsInCode_width_iff.1 hreads⟩ hwidth

/-- A type in the line behind the first rule stood there before, or has been written for a width. -/
theorem TypeAt.exists_before (h : Renamed Rule.intWithWidth integerWord [] line (a ++ (w ++ b)) behind)
    (htypeAt : TypeAt a w b) (hb : opensParen b = true) :
    (∃ u v, line = u ++ (w ++ v) ∧ TypeAt u w v ∧ ¬EndsWithWidth u ∧ opensParen v = true) ∨
      ∃ u text v, line = u ++ (text ++ v) ∧ WidthAt u text ∧ ¬EndsWithWidth u ∧
        opensParen v = true := by
  obtain ⟨hclosed, hapart, htype, hends⟩ := htypeAt
  obtain ⟨u, v, more, rfl, haligned⟩ := h.exists_cut_result isRenamable_width.toIsPiecewise
    (by decide) rfl fun x s t y ha _ hs _ hword => by
      obtain ⟨init, last, rfl⟩ := (List.eq_nil_or_concat' s).resolve_left hs
      have hlast := isType_integerWord.isWordChar last (by simp [hword])
      rw [ha, ← List.append_assoc, List.getLast?_concat, Option.any_some, hlast] at hapart
      cases hapart
  obtain ⟨hu, hwidth⟩ := (apart_of_aligned h haligned).1 hapart
  have hrest := haligned.renamed
  rw [List.nil_append] at hrest
  by_cases hread : ∃ text rest, v = text ++ rest ∧ Rule.intWithWidth.ReadsInCode u text rest
  · -- the type has been written there
    obtain ⟨text, rest, rfl, hreads⟩ := hread
    obtain ⟨result, more, hresult, rfl, hmore⟩ := hrest.of_reads isRenamable_width hreads
    obtain rfl : b = result := (htype.eq_of_append_eq hresult).2
    exact .inr ⟨u, text, rest, rfl, readsInCode_width_iff.1 hreads, hwidth,
      (opensParen_eq_of_width hmore).symm.trans hb⟩
  · obtain ⟨v, rfl, hmore⟩ := hrest.exists_keeping fun x c y text rest hw hv hreads => by
      rcases List.eq_nil_or_concat' x with rfl | ⟨init, last, rfl⟩
      · rw [List.append_nil] at hreads
        exact hread ⟨text, rest, hv, hreads⟩
      · rw [← List.append_assoc] at hreads
        exact not_width_of_word (htype.isWordChar last (by simp [hw])) hreads
    exact .inl ⟨u, v, rfl, ⟨haligned.isClosed_eq.symm.trans hclosed, hu, htype,
      (any_head?_eq_of_width hmore).symm.trans hends⟩, hwidth,
      (opensParen_eq_of_width hmore).symm.trans hb⟩

/-- A type that is not right behind a width stands in the line behind the first rule. -/
theorem TypeAt.exists_behind
    (h : Renamed Rule.intWithWidth integerWord [] (u ++ (w ++ v)) mid behind) (htypeAt : TypeAt u w v)
    (hwidth : ¬EndsWithWidth u) (hv : opensParen v = true) :
    ∃ a b, mid = a ++ (w ++ b) ∧ TypeAt a w b ∧ opensParen b = true := by
  obtain ⟨a, b, more, rfl, -, haligned⟩ := h.exists_cut isRenamable_width.toIsPiecewise
    (by decide) rfl fun x s t y hu hv hs ht hreads => hreads.not_within (q := Rule.integerType) (by decide)
      isRenamable_type.visible hs ht hv.symm (readsInCode_type_iff.2 (hu ▸ htypeAt))
  obtain ⟨b, rfl, hmore⟩ := haligned.renamed.exists_kept fun x c y text rest hw heq =>
    not_width_in_type htypeAt.isType htypeAt.ends hw heq
  exact ⟨a, b, rfl, ⟨haligned.isClosed_eq.trans htypeAt.isClosed,
    (apart_of_aligned h haligned).2 ⟨htypeAt.apart, hwidth⟩, htypeAt.isType,
    (any_head?_eq_of_width hmore).trans htypeAt.ends⟩, (opensParen_eq_of_width hmore).trans hv⟩

/-- A width that is not right behind another one is a type in the line behind the first rule. -/
theorem WidthAt.exists_behind
    (h : Renamed Rule.intWithWidth integerWord [] (u ++ (text ++ v)) mid behind)
    (hwidthAt : WidthAt u text) (hwidth : ¬EndsWithWidth u) (hv : opensParen v = true) :
    ∃ a b, mid = a ++ (integerWord ++ b) ∧ TypeAt a integerWord b ∧ opensParen b = true := by
  obtain ⟨a, b, more, more', rfl, -, haligned, hmore⟩ :=
    h.exists_append_of_reads isRenamable_width (by decide) (readsInCode_width_iff.2 hwidthAt)
  have hb : opensParen b = true := (opensParen_eq_of_width hmore).trans hv
  exact ⟨a, b, rfl, ⟨haligned.isClosed_eq.trans hwidthAt.isClosed,
    (apart_of_aligned h haligned).2 ⟨hwidthAt.apart, hwidth⟩, isType_integerWord,
    head?_eq_false_of_opensParen hb⟩, hb⟩

/-- **The types in the line behind the first rule** are those that were there before, and those that it
has written, unless they are right behind one that it has written. -/
theorem exists_typeAt_iff (h : Renamed Rule.intWithWidth integerWord [] line mid behind) :
    (∃ a w b, mid = a ++ (w ++ b) ∧ TypeAt a w b ∧ opensParen b = true) ↔
      (∃ u w v, line = u ++ (w ++ v) ∧ TypeAt u w v ∧ ¬EndsWithWidth u ∧ opensParen v = true) ∨
        ∃ u text v, line = u ++ (text ++ v) ∧ WidthAt u text ∧ ¬EndsWithWidth u ∧
          opensParen v = true := by
  constructor
  · rintro ⟨a, w, b, rfl, htypeAt, hb⟩
    rcases htypeAt.exists_before h hb with ⟨u, v, hkept⟩ | hwritten
    · exact .inl ⟨u, w, v, hkept⟩
    · exact .inr hwritten
  · rintro (⟨u, w, v, rfl, htypeAt, hwidth, hv⟩ | ⟨u, text, v, rfl, hwidthAt, hwidth, hv⟩)
    · obtain ⟨a, b, hmid⟩ := htypeAt.exists_behind h hwidth hv
      exact ⟨a, w, b, hmid⟩
    · obtain ⟨a, b, hmid⟩ := hwidthAt.exists_behind h hwidth hv
      exact ⟨a, integerWord, b, hmid⟩

/-! ### The line behind both rules -/

/-- The types that are written with a parenthesis behind them are those that had one before. -/
theorem exists_numeric_iff {numerics : List (List Char)}
    (h : Renamed Rule.integerType numericType [] mid result numerics) :
    (∃ rest ∈ numerics, opensParen rest = true) ↔
      ∃ a w b, mid = a ++ (w ++ b) ∧ TypeAt a w b ∧ opensParen b = true := by
  have hnew : '\'' ∉ numericType := by decide
  constructor
  · rintro ⟨rest, hmem, hopens⟩
    obtain ⟨a, w, b, more, rfl, hreads, hmore⟩ := (h.mem_behind_iff isRenamable_type hnew).1 hmem
    exact ⟨a, w, b, rfl, readsInCode_type_iff.1 hreads,
      (opensParen_eq (by decide) head?_of_type hmore).symm.trans hopens⟩
  · rintro ⟨a, w, b, rfl, htype, hopens⟩
    obtain ⟨-, rest, -, more, -, hmem, -, hmore⟩ :=
      h.exists_append_of_reads isRenamable_type hnew (readsInCode_type_iff.2 htype)
    exact ⟨rest, hmem, (opensParen_eq (by decide) head?_of_type hmore).trans hopens⟩

/-- No parenthesis that is closed in code has one that is opened behind it. -/
def ParensApart (text : List Char) : Prop :=
  ∀ i < text.length, text[i]? = some ')' → Literal.inCode text i = true →
    opensParen (text.drop (i + 1)) = false

instance (text : List Char) : Decidable (ParensApart text) :=
  inferInstanceAs (Decidable (∀ i < text.length, text[i]? = some ')' → Literal.inCode text i = true →
    opensParen (text.drop (i + 1)) = false))

/-- No width has a parenthesis behind it then. -/
theorem ParensApart.opensParen_eq_false (h : ParensApart (u ++ (text ++ v))) (hwidth : WidthAt u text) :
    opensParen v = false := by
  obtain ⟨init, rfl, -⟩ := hwidth.isWidth.exists_concat
  have hreads : Rule.intWithWidth.ReadsInCode u (init ++ [')']) v := readsInCode_width_iff.2 hwidth
  have hquote : '\'' ∉ init := fun hmem =>
    hreads.not_mem isRenamable_width.toIsPiecewise (List.mem_append_left _ hmem)
  have hline : u ++ (init ++ [')'] ++ v) = (u ++ init) ++ ')' :: v := by simp
  rw [hline] at h
  have hplace := h (u ++ init).length (by simp) (by simp)
    (Rule.inCode_append_cons.2 ⟨by decide, by
      rw [Literal.isClosed_append_of_not_mem hquote, hwidth.isClosed]⟩)
  rwa [List.drop_length_add_append, List.drop_one, List.tail_cons] at hplace

/-- **Which of the types that are written have a parenthesis behind them.**  Where no parenthesis is
closed in front of one that is opened, these are the types `INTEGER` and `BIGINT` that had one behind
them before: the width of `INT` is gone, and theirs stays. -/
theorem width_stays_iff (ctx : Context) (line : List Char) (hline : ParensApart line) :
    ∃ mid result integers numerics, Renamed Rule.intWithWidth integerWord [] line mid integers ∧
      Renamed Rule.integerType numericType [] mid result numerics ∧
      Repetition.sweep ctx [.intDisplayWidth, .integer] line = result ∧
      ((∃ rest ∈ numerics, opensParen rest = true) ↔
        ∃ front type rest, line = front ++ (type ++ rest) ∧ TypeAt front type rest ∧
          ¬EndsWithWidth front ∧ opensParen rest = true) := by
  obtain ⟨integers, hfirst⟩ := exists_renamed_substitute isRenamable_width integerWord line
  obtain ⟨numerics, hsecond⟩ := exists_renamed_substitute isRenamable_type numericType
    (((Rule.substitute Rule.intWithWidth (fun _ => integerWord) line).map Edit.line).getD line)
  refine ⟨_, _, integers, numerics, hfirst, hsecond, rfl, ?_⟩
  rw [exists_numeric_iff hsecond, exists_typeAt_iff hfirst, or_iff_left]
  rintro ⟨front, text, rest, rfl, hwidth, -, hopens⟩
  rw [hline.opensParen_eq_false hwidth] at hopens
  cases hopens

theorem width_stays_iff_of_mixed :
    let line := "CREATE TABLE t (a INT ( 11 ), b BIGINT, c Integer(4));".toList
    ParensApart line ∧ ∃ mid result integers numerics,
      Renamed Rule.intWithWidth integerWord [] line mid integers ∧
      Renamed Rule.integerType numericType [] mid result numerics ∧
      Repetition.sweep (.start none) [.intDisplayWidth, .integer] line = result ∧
      ((∃ rest ∈ numerics, opensParen rest = true) ↔
        ∃ front type rest, line = front ++ (type ++ rest) ∧ TypeAt front type rest ∧
          ¬EndsWithWidth front ∧ opensParen rest = true) :=
  ⟨by decide, width_stays_iff _ _ (by decide)⟩

/-- **The width of `BIGINT` stays**, behind the type that is written. -/
theorem bigint_keeps_width :
    let line := "CREATE TABLE t (id BIGINT(20));".toList
    ParensApart line ∧
      Repetition.sweep (.start none) [.intDisplayWidth, .integer] line =
        "CREATE TABLE t (id ".toList ++ numericType ++ "(20));".toList ∧
      opensParen "(20));".toList = true := by
  decide

end SqlDialect.DisplayWidth
