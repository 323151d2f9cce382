import SqlDialect.Proofs.Pattern.Reading
import SqlDialect.Proofs.Text.Case

/-!
# Words

What a keyword reads is said here by its letters, without the sets of characters that it is made of.

* `Pattern.reads_keyword_iff` : a keyword reads the texts that are equal to it, case ignored.
* `Pattern.reads_nameStart_iff` : behind a boundary, it reads them where no word goes on.
* `Pattern.reads_wholeWord_iff` : between two boundaries, it reads them where they are words.
-/

namespace SqlDialect.Pattern

variable {word : String} {text w s : List Char} {before behind : Option Char}

/-- Whether the text is equal to the word, case ignored. -/
def Spells (word : String) (text : List Char) : Prop :=
  text.map Text.foldCase = word.toList.map Text.foldCase

instance : Decidable (Spells word text) := inferInstanceAs (Decidable (_ = _))

/-- Whether the text is made of letters, and of other characters that have no case. -/
def isLettered (word : String) : Bool :=
  word.toList.all fun c => c.isAlpha || Text.foldCase c == c

/-- Whether the text is a word that is made so. -/
def isName (word : String) : Bool :=
  isLettered word && !word.toList.isEmpty && word.toList.all Text.isWordChar

/-- Whether the text has no letters, and no other characters with a case. -/
def isUncased (word : String) : Bool :=
  word.toList.all fun c => Text.foldCase c == c && !c.isAlpha

/-- The set that a character of a keyword asks for. -/
def letterSet (c : Char) : CharSet := if c.isAlpha then .caseless c.toLower else .exactly c

theorem mem_letterSet_iff {c d : Char} (hc : c.isAlpha = true ∨ Text.foldCase c = c) :
    (letterSet c).mem d = true ↔ Text.foldCase d = Text.foldCase c := by
  by_cases halpha : c.isAlpha = true
  · have hlong : c ≠ '\u017F' := by
      rintro rfl
      exact absurd halpha (by decide)
    have hkelvin : c ≠ '\u212A' := by
      rintro rfl
      exact absurd halpha (by decide)
    simp [letterSet, halpha, CharSet.mem, Text.foldCase, hlong, hkelvin]
  · have hfold : Text.foldCase c = c := hc.resolve_left halpha
    have hset : (letterSet c).mem d = true ↔ d = c := by
      simp [letterSet, halpha, CharSet.exactly, CharSet.mem]
    rw [hset, hfold]
    refine ⟨fun h => h ▸ hfold, fun h => ?_⟩
    by_contra hne
    -- only a letter is equal to another character, case ignored
    have := Text.isAlpha_of_foldCase_ne (c := d) (by rw [h]; exact Ne.symm hne)
    rw [h] at this
    exact halpha this

theorem forall₂_letterSet_iff {letters : List Char}
    (h : ∀ c ∈ letters, c.isAlpha = true ∨ Text.foldCase c = c) :
    List.Forall₂ (fun set c => CharSet.mem set c = true) (letters.map letterSet) text ↔
      text.map Text.foldCase = letters.map Text.foldCase := by
  induction letters generalizing text with
  | nil => simp
  | cons c letters ih =>
    rw [List.forall_mem_cons] at h
    cases text <;> simp [mem_letterSet_iff h.1, ih h.2]

/-- **A keyword reads the texts that are equal to it, case ignored.** -/
theorem reads_keyword_iff (hword : isLettered word = true) :
    (keyword word).Reads before text behind ↔ Spells word text :=
  forall₂_letterSet_iff fun c hc => by simpa using List.all_eq_true.1 hword c hc

theorem isLettered_of_isName (h : isName word = true) : isLettered word = true :=
  ((Bool.and_eq_true _ _).mp ((Bool.and_eq_true _ _).mp h).1).1

namespace Spells

theorem length_eq (h : Spells word text) : text.length = word.toList.length := by
  have := congrArg List.length h
  rwa [List.length_map, List.length_map] at this

/-- A text without letters is spelled in one way. -/
theorem eq_of_isUncased (h : Spells word text) (hword : isUncased word = true) :
    text = word.toList := by
  have hplain : ∀ c ∈ word.toList, Text.foldCase c = c ∧ c.isAlpha = false := fun c hc => by
    simpa using List.all_eq_true.1 hword c hc
  have hfold : ∀ c ∈ text, Text.foldCase c = c := by
    intro c hc
    by_contra hne
    have halpha := Text.isAlpha_of_foldCase_ne hne
    obtain ⟨d, hd, hcd⟩ := List.mem_map.1 (h ▸ List.mem_map_of_mem hc)
    rw [← hcd, (hplain d hd).1, (hplain d hd).2] at halpha
    cases halpha
  rw [Spells, List.map_congr_left hfold, List.map_congr_left fun c hc => (hplain c hc).1,
    List.map_id'] at h
  simpa using h

theorem ne_nil (h : Spells word text) (hword : isName word = true) : text ≠ [] := by
  rintro rfl
  rw [isName, List.isEmpty_iff_length_eq_zero.2 h.length_eq.symm] at hword
  simp at hword

theorem isWordChar (h : Spells word text) (hword : isName word = true) :
    ∀ c ∈ text, Text.isWordChar c = true := by
  intro c hc
  have hmem : Text.foldCase c ∈ word.toList.map Text.foldCase := h ▸ List.mem_map_of_mem hc
  obtain ⟨d, hd, hfold⟩ := List.mem_map.1 hmem
  rw [← Text.isWordChar_foldCase, ← hfold, Text.isWordChar_foldCase]
  exact List.all_eq_true.1 ((Bool.and_eq_true _ _).mp hword).2 d hd

theorem head?_isWordChar (h : Spells word text) (hword : isName word = true) (next : Option Char) :
    (text.head?.or next).any Text.isWordChar = true := by
  obtain ⟨c, text, rfl⟩ := List.exists_cons_of_ne_nil (h.ne_nil hword)
  exact h.isWordChar hword c List.mem_cons_self

theorem getLast?_isWordChar (h : Spells word text) (hword : isName word = true)
    (previous : Option Char) : (text.getLast?.or previous).any Text.isWordChar = true := by
  rw [List.getLast?_eq_getLast_of_ne_nil (h.ne_nil hword), Option.some_or]
  exact h.isWordChar hword _ (List.getLast_mem _)

end Spells

/-- Behind a boundary, a keyword is read where no word goes on. -/
theorem reads_nameStart_iff (hword : isName word = true) :
    (boundary ++ keyword word).Reads before text behind ↔
      before.any Text.isWordChar = false ∧ Spells word text := by
  constructor
  · rintro ⟨_, text, rfl, ⟨rfl, hstart⟩, htext⟩
    rw [reads_keyword_iff (isLettered_of_isName hword)] at htext
    rw [htext.head?_isWordChar hword] at hstart
    exact ⟨by simpa using hstart, htext⟩
  · rintro ⟨hbefore, htext⟩
    refine ⟨[], text, rfl, ⟨rfl, ?_⟩, (reads_keyword_iff (isLettered_of_isName hword)).2 htext⟩
    rw [htext.head?_isWordChar hword, hbefore]
    rfl

/-- Between two boundaries, a keyword is read where it is a word. -/
theorem reads_wholeWord_iff (hword : isName word = true) :
    (wholeWord word).Reads before text behind ↔
      before.any Text.isWordChar = false ∧ Spells word text ∧
        behind.any Text.isWordChar = false := by
  constructor
  · rintro ⟨text, _, rfl, hstart, rfl, hend⟩
    obtain ⟨hbefore, htext⟩ := (reads_nameStart_iff hword).1 hstart
    rw [htext.getLast?_isWordChar hword] at hend
    rw [List.append_nil]
    exact ⟨hbefore, htext, by simpa using hend⟩
  · rintro ⟨hbefore, htext, hbehind⟩
    refine ⟨text, [], (List.append_nil text).symm,
      (reads_nameStart_iff hword).2 ⟨hbefore, htext⟩, rfl, ?_⟩
    rw [htext.getLast?_isWordChar hword, hbehind]
    rfl

/-- A name, white space and an opening parenthesis. -/
theorem reads_callStart_iff (hword : isName word = true) :
    (boundary ++ keyword word ++ blanks ++ char '(').Reads before (text ++ ['(']) behind ↔
      before.any Text.isWordChar = false ∧
        ∃ w s, text = w ++ s ∧ Spells word w ∧ ∀ c ∈ s, Text.isBlank c = true := by
  constructor
  · rintro ⟨_, close, htext, ⟨w, s, rfl, hw, hs⟩, hclose⟩
    rw [reads_char_iff.1 hclose] at htext
    obtain ⟨hbefore, hw⟩ := (reads_nameStart_iff hword).1 hw
    exact ⟨hbefore, w, s, List.append_cancel_right htext, hw, reads_star_one_iff.1 hs⟩
  · rintro ⟨hbefore, w, s, rfl, hw, hs⟩
    exact ⟨w ++ s, ['('], rfl, ⟨w, s, rfl, (reads_nameStart_iff hword).2 ⟨hbefore, hw⟩,
      reads_star_one_iff.2 hs⟩, reads_char_iff.2 rfl⟩

end SqlDialect.Pattern
