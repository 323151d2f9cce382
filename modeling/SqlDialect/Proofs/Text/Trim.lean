import Mathlib.Data.List.DropRight
import SqlDialect.Line.Comment

/-!
# Trimming

White space at the ends of a text can go without anything visible going with it.

* `Text.mem_blanks_iff` : `Text.blanks` lists the white space characters.
* `Text.trimEnd_append_cons`, `Text.isSuffix_trim` : trimming reaches no further than the last
  visible character.
* `Line.isBlank_trim` : a text is blank if and only if its trimmed form is.
-/

namespace SqlDialect

namespace Text

/-- The white space characters. -/
def blanks : List Char :=
  [9, 10, 11, 12, 13, 0x20, 0x85, 0xA0, 0x1680, 0x2000, 0x2001, 0x2002, 0x2003, 0x2004, 0x2005,
    0x2006, 0x2007, 0x2008, 0x2009, 0x200A, 0x2028, 0x2029, 0x202F, 0x205F, 0x3000].map Char.ofNat

theorem mem_blanks_iff (c : Char) : c ∈ blanks ↔ isBlank c = true := by
  constructor
  · intro h
    have every : blanks.all isBlank = true := rfl
    exact List.all_eq_true.1 every c h
  · intro h
    have code : c = Char.ofNat c.toNat := (Char.ofNat_toNat c).symm
    simp only [isBlank, Bool.or_eq_true, Bool.and_eq_true, decide_eq_true_eq, beq_iff_eq] at h
    -- the property bounds the code point, and every code point within the bounds is listed
    have listed : c.toNat ∈ [9, 10, 11, 12, 13, 0x20, 0x85, 0xA0, 0x1680, 0x2000, 0x2001, 0x2002,
        0x2003, 0x2004, 0x2005, 0x2006, 0x2007, 0x2008, 0x2009, 0x200A, 0x2028, 0x2029, 0x202F,
        0x205F, 0x3000] := by
      simp only [List.mem_cons, List.not_mem_nil, or_false]
      omega
    rw [code]
    exact List.mem_map_of_mem listed

/-! ### Trimming at the end -/

theorem trimEnd_eq (text : List Char) : trimEnd text = text.rdropWhile isBlank := rfl

@[simp] theorem trimEnd_trimEnd (text : List Char) : trimEnd (trimEnd text) = trimEnd text :=
  List.rdropWhile_idempotent _ _

theorem trimEnd_append_blank {a b : List Char} (h : ∀ c ∈ b, isBlank c = true) :
    trimEnd (a ++ b) = trimEnd a := by
  induction b using List.reverseRecOn with
  | nil => rw [List.append_nil]
  | append_singleton b c ih =>
    have hc : isBlank c = true := h c (by simp)
    rw [← List.append_assoc, trimEnd_eq, List.rdropWhile_concat_pos _ _ _ hc, ← trimEnd_eq]
    exact ih fun d hd => h d (List.mem_append_left _ hd)

theorem trimEnd_concat {a : List Char} {c : Char} (h : isBlank c = false) :
    trimEnd (a ++ [c]) = a ++ [c] := by
  rw [trimEnd_eq, List.rdropWhile_concat_neg]
  simpa using h

/-- A text is its trimmed form and white space behind it. -/
theorem exists_eq_trimEnd_append (text : List Char) :
    ∃ b : List Char, text = trimEnd text ++ b ∧ ∀ c ∈ b, isBlank c = true :=
  ⟨text.rtakeWhile isBlank, List.rdropWhile_append_rtakeWhile.symm,
    fun _ hc => List.mem_rtakeWhile_imp hc⟩

theorem trimEnd_append_cons {a b : List Char} {c : Char} (h : isBlank c = false) :
    trimEnd (a ++ c :: b) = a ++ c :: trimEnd b := by
  obtain ⟨blank, hb, hblank⟩ := exists_eq_trimEnd_append b
  have shift : a ++ c :: b = (a ++ c :: trimEnd b) ++ blank := by
    conv_lhs => rw [hb]
    simp
  rw [shift, trimEnd_append_blank hblank]
  -- what is left ends with the last visible character of `b`, or with `c`
  rcases List.eq_nil_or_concat' (trimEnd b) with hnil | ⟨init, last, hlast⟩
  · rw [hnil, trimEnd_concat h]
  · have visible : isBlank last = false := by
      have hne : trimEnd b ≠ [] := by rw [hlast]; simp
      have := List.rdropWhile_last_not isBlank b hne
      simp only [← trimEnd_eq, hlast, List.getLast_concat] at this
      simpa using this
    have regroup : a ++ c :: (init ++ [last]) = (a ++ c :: init) ++ [last] := by simp
    rw [hlast, regroup, trimEnd_concat visible]

/-! ### Trimming at both ends -/

/-- A text is its trimmed form and white space around it. -/
theorem exists_eq_append_trim (text : List Char) :
    ∃ a b : List Char, text = a ++ (trim text ++ b) ∧ (∀ c ∈ a, isBlank c = true) ∧
      ∀ c ∈ b, isBlank c = true := by
  obtain ⟨b, htext, hb⟩ := exists_eq_trimEnd_append (trimStart text)
  refine ⟨text.takeWhile isBlank, b, ?_, fun c hc => List.mem_takeWhile_imp hc, hb⟩
  rw [trim, ← htext]
  exact List.takeWhile_append_dropWhile.symm

/-- White space around a text is trimmed away. -/
theorem trim_append_blank {a b : List Char} (ha : ∀ c ∈ a, isBlank c = true)
    (hb : ∀ c ∈ b, isBlank c = true) (text : List Char) : trim (a ++ (text ++ b)) = trim text := by
  have hstart : trimStart (a ++ (text ++ b)) = trimStart (text ++ b) :=
    List.dropWhile_append_of_pos ha
  have hb' : b.dropWhile isBlank = [] := List.dropWhile_eq_nil_iff.2 hb
  rw [trim, trim, hstart, trimStart, trimStart, List.dropWhile_append]
  split
  · rename_i hempty
    rw [hb', List.isEmpty_iff.1 hempty]
  · exact trimEnd_append_blank hb

/-- Trimming takes nothing visible away. -/
theorem mem_trim {text : List Char} {c : Char} (h : c ∈ text) (hc : isBlank c = false) :
    c ∈ trim text := by
  have hstart : c ∈ trimStart text := by
    rw [← List.takeWhile_append_dropWhile (p := isBlank) (l := text), List.mem_append] at h
    refine h.resolve_left fun hblank => ?_
    rw [List.mem_takeWhile_imp hblank] at hc
    cases hc
  obtain ⟨blanks, htext, hblanks⟩ := exists_eq_trimEnd_append (trimStart text)
  rw [htext, List.mem_append] at hstart
  refine hstart.resolve_right fun hblank => ?_
  rw [hblanks c hblank] at hc
  cases hc

/-- What stands behind a visible character stays behind it, without the white space at its end. -/
theorem isSuffix_trim {a b : List Char} {c : Char} (h : isBlank c = false) :
    c :: trimEnd b <:+ trim (a ++ c :: b) := by
  obtain ⟨front, hfront⟩ : ∃ front, trimStart (a ++ c :: b) = front ++ c :: b := by
    induction a with
    | nil => exact ⟨[], List.dropWhile_cons_of_neg (by simp [h])⟩
    | cons x a ih =>
      rw [List.cons_append, trimStart, List.dropWhile_cons]
      split
      · exact ih
      · exact ⟨x :: a, rfl⟩
  rw [trim, hfront, trimEnd_append_cons h]
  exact List.suffix_append _ _

/-- A text that shows something ends as its trimmed form does. -/
theorem getLast?_trim {text : List Char} (h : ∃ c ∈ text, isBlank c = false) :
    (trim text).getLast? = (trimEnd text).getLast? := by
  have split : text.takeWhile isBlank ++ trimStart text = text := List.takeWhile_append_dropWhile
  have hne : trimStart text ≠ [] := by
    obtain ⟨c, hmem, hc⟩ := h
    intro hnil
    rw [trimStart, List.dropWhile_eq_nil_iff] at hnil
    rw [hnil c hmem] at hc
    cases hc
  obtain ⟨first, rest, hrest⟩ := List.exists_cons_of_ne_nil hne
  have hfirst : isBlank first = false := by
    have hhead : (trimStart text).head hne = first := by simp only [hrest, List.head_cons]
    rw [← hhead]
    exact List.head_dropWhile_not isBlank hne
  have hend : trimEnd text = text.takeWhile isBlank ++ trim text := by
    have htrim : trim text = first :: trimEnd rest := by
      rw [trim, hrest]
      exact trimEnd_append_cons (a := []) hfirst
    conv_lhs => rw [← split, hrest, trimEnd_append_cons hfirst]
    rw [htrim]
  have htrim : trim text ≠ [] := by
    obtain ⟨c, hmem, hc⟩ := h
    exact List.ne_nil_of_mem (mem_trim hmem hc)
  rw [hend, List.getLast?_append_of_ne_nil _ htrim]

/-! ### Characters of a trimmed text -/

theorem trimStart_subset (text : List Char) : trimStart text ⊆ text :=
  (List.dropWhile_suffix isBlank).subset

theorem trimEnd_subset (text : List Char) : trimEnd text ⊆ text := by
  obtain ⟨blank, htext, -⟩ := exists_eq_trimEnd_append text
  conv_rhs => rw [htext]
  exact List.subset_append_left _ _

theorem trim_subset (text : List Char) : trim text ⊆ text :=
  List.Subset.trans (trimEnd_subset _) (trimStart_subset text)

end Text

namespace Line

theorem isBlank_iff {text : List Char} : isBlank text = true ↔ ∀ c ∈ text, Text.isBlank c = true :=
  List.all_eq_true

theorem isBlank_eq_false_iff {text : List Char} :
    isBlank text = false ↔ ∃ c ∈ text, Text.isBlank c = false := by
  simp [isBlank, List.all_eq_false]

theorem isBlank_append (a b : List Char) : isBlank (a ++ b) = (isBlank a && isBlank b) :=
  List.all_append

theorem isBlank_trimStart (text : List Char) : isBlank (Text.trimStart text) = isBlank text := by
  have split : text = text.takeWhile Text.isBlank ++ Text.trimStart text :=
    List.takeWhile_append_dropWhile.symm
  have blank : isBlank (text.takeWhile Text.isBlank) = true :=
    isBlank_iff.2 fun _ hc => List.mem_takeWhile_imp hc
  conv_rhs => rw [split, isBlank_append, blank, Bool.true_and]

@[simp] theorem isBlank_trimEnd (text : List Char) :
    isBlank (Text.trimEnd text) = isBlank text := by
  obtain ⟨b, hb, hblank⟩ := Text.exists_eq_trimEnd_append text
  conv_rhs => rw [hb, isBlank_append, isBlank_iff.2 hblank, Bool.and_true]

/-- Trimming takes nothing visible away. -/
@[simp] theorem isBlank_trim (text : List Char) : isBlank (Text.trim text) = isBlank text := by
  rw [Text.trim, isBlank_trimEnd, isBlank_trimStart]

theorem ne_nil_of_isBlank_eq_false {text : List Char} (h : isBlank text = false) : text ≠ [] := by
  rintro rfl
  cases h

theorem trimEnd_eq_nil_iff {text : List Char} : Text.trimEnd text = [] ↔ isBlank text = true := by
  rw [isBlank_iff, Text.trimEnd_eq, List.rdropWhile_eq_nil_iff]

end Line

end SqlDialect
