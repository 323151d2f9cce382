import Mathlib.Data.List.Basic
import SqlDialect.Document.Transcript
import SqlDialect.Proofs.Text.Lines

/-!
# Texts and their octets

A text and its octets in UTF-8 determine each other, and a stream of octets has the same lines as
the text that they stand for.

* `Text.toUtf8_eq_flatMap` : the octets of a text are those of its characters, one after another;
  `Text.length_toUtf8` : `Text.octets` is their number.
* `Text.ofUtf8?_toUtf8`, `Text.ofUtf8Lossy_toUtf8` : the text is read back from them, strictly or
  leniently.
* `Text.lines_toUtf8` : cutting octets into lines and cutting the text into lines come to the same,
  since an octet below 128 stands for a character by itself (`Text.eq_of_mem_utf8EncodeChar`).
-/

namespace SqlDialect.Text

/-! ### Octets of a text -/

theorem toList_byteArray (octets : ByteArray) : octets.toList = octets.data.toList := by
  have general : ∀ i done, ByteArray.toList.loop octets i done =
      done.reverse ++ octets.data.toList.drop i := by
    intro i done
    fun_induction ByteArray.toList.loop octets i done with
    | case1 i done hi ih =>
      have hi' : i < octets.data.toList.length := by simpa using hi
      have hget : octets.get! i = octets.data.toList[i] := by
        obtain ⟨data⟩ := octets
        change data[i]! = _
        rw [getElem!_pos data i hi, Array.getElem_toList]
      rw [ih, List.drop_eq_getElem_cons hi', List.reverse_cons, List.append_assoc, hget,
        List.singleton_append]
    | case2 i done hi =>
      have hi' : octets.data.toList.length ≤ i := by simpa using hi
      rw [List.drop_eq_nil_of_le hi', List.append_nil]
  exact general 0 []

theorem toUtf8_eq_flatMap (text : List Char) :
    toUtf8 text = text.flatMap String.utf8EncodeChar := by
  rw [toUtf8, toList_byteArray, String.toUTF8_eq_toByteArray, String.toByteArray_ofList,
    List.utf8Encode, List.toList_data_toByteArray]

@[simp] theorem toUtf8_nil : toUtf8 [] = [] := by
  rw [toUtf8_eq_flatMap, List.flatMap_nil]

theorem toUtf8_cons (c : Char) (rest : List Char) :
    toUtf8 (c :: rest) = String.utf8EncodeChar c ++ toUtf8 rest := by
  simp only [toUtf8_eq_flatMap, List.flatMap_cons]

theorem toUtf8_append (a b : List Char) : toUtf8 (a ++ b) = toUtf8 a ++ toUtf8 b := by
  simp only [toUtf8_eq_flatMap, List.flatMap_append]

theorem toUtf8_concat (text : List Char) (c : Char) :
    toUtf8 (text ++ [c]) = toUtf8 text ++ String.utf8EncodeChar c := by
  rw [toUtf8_append, toUtf8_cons, toUtf8_nil, List.append_nil]

theorem toUtf8_eq_nil_iff {text : List Char} : toUtf8 text = [] ↔ text = [] := by
  cases text with
  | nil => simp
  | cons c rest => simp [toUtf8_cons, String.utf8EncodeChar_ne_nil]

theorem octets_append (a b : List Char) : octets (a ++ b) = octets a + octets b := by
  induction a with
  | nil => exact (Nat.zero_add _).symm
  | cons c a ih =>
    change c.utf8Size + octets (a ++ b) = c.utf8Size + octets a + octets b
    rw [ih, Nat.add_assoc]

theorem length_toUtf8 (text : List Char) : (toUtf8 text).length = octets text := by
  induction text with
  | nil => rw [toUtf8_nil]; rfl
  | cons c rest ih =>
    rw [toUtf8_cons, List.length_append, String.length_utf8EncodeChar, ih]
    rfl

/-- A text is read back from its octets. -/
theorem ofUtf8?_toUtf8 (text : List Char) : ofUtf8? (toUtf8 text) = some text := by
  have hoctets : (⟨(toUtf8 text).toArray⟩ : ByteArray) = (String.ofList text).toByteArray := by
    rw [toUtf8, toList_byteArray, String.toUTF8_eq_toByteArray]
  rw [ofUtf8?, hoctets, String.fromUTF8?, dif_pos (String.ofList text).isValidUTF8, Option.map_some]
  exact congrArg some String.toList_ofList

/-- Nothing is replaced in the octets of a text. -/
theorem ofUtf8Lossy_toUtf8 (text : List Char) : ofUtf8Lossy (toUtf8 text) = text := by
  rw [ofUtf8Lossy, ofUtf8?_toUtf8]

/-- The start of a character that is never finished counts as one broken piece. -/
example : ofUtf8Lossy [0x61, 0xF1, 0x80, 0x80, 0xE1, 0x80, 0xC2, 0x62] =
    ['a', replacement, replacement, replacement, 'b'] := by decide +kernel

theorem decodeLines_map_toUtf8 (texts : List (List Char)) :
    decodeLines (texts.map toUtf8) = (texts, true) := by
  induction texts with
  | nil => rfl
  | cons text rest ih => rw [List.map_cons, decodeLines, ofUtf8?_toUtf8, ih]

/-! ### Lines of octets -/

/-- An octet below 128 stands for a character by itself. -/
theorem eq_of_mem_utf8EncodeChar {c : Char} {b : UInt8} (h : b ∈ String.utf8EncodeChar c)
    (hb : b.toNat < 0x80) : c.toNat = b.toNat := by
  have hc : c.val.toNat = c.toNat := rfl
  rw [String.utf8EncodeChar, hc] at h
  split at h
  · rw [List.mem_singleton] at h
    subst h
    rw [UInt8.toNat_ofNat']
    omega
  -- every octet of a longer character is too large
  · exfalso
    split at h
    · simp only [List.mem_cons, List.not_mem_nil, or_false] at h
      rcases h with rfl | rfl <;> rw [UInt8.toNat_ofNat'] at hb <;> omega
    split at h
    · simp only [List.mem_cons, List.not_mem_nil, or_false] at h
      rcases h with rfl | rfl | rfl <;> rw [UInt8.toNat_ofNat'] at hb <;> omega
    · simp only [List.mem_cons, List.not_mem_nil, or_false] at h
      rcases h with rfl | rfl | rfl | rfl <;> rw [UInt8.toNat_ofNat'] at hb <;> omega

theorem linesFrom_block {α : Type} [DecidableEq α] {lf : α} {block : List α} (h : lf ∉ block)
    (cr : α) (current : List α) (done : List (List α)) (rest : List α) :
    linesFrom lf cr current done (block ++ rest) =
      linesFrom lf cr (block.reverse ++ current) done rest := by
  induction block generalizing current with
  | nil => rfl
  | cons x block ih =>
    rw [List.mem_cons, not_or] at h
    rw [List.cons_append, linesFrom, if_neg (Ne.symm h.1), ih h.2]
    simp

theorem endLine_cons_of_ne {α : Type} [DecidableEq α] {cr x : α} (h : x ≠ cr) (rest : List α) :
    endLine cr (x :: rest) = (x :: rest).reverse := by
  rw [endLine, if_neg h]

theorem endLine_toUtf8 (current : List Char) :
    endLine 0x0D (toUtf8 current.reverse).reverse = toUtf8 (endLine '\r' current) := by
  cases current with
  | nil => rw [endLine, List.reverse_nil, toUtf8_nil, List.reverse_nil, endLine]
  | cons x rest =>
    rw [List.reverse_cons, toUtf8_concat, List.reverse_append]
    by_cases hx : x = '\r'
    · subst hx
      have hcr : (String.utf8EncodeChar '\r').reverse = [0x0D] := by decide
      rw [hcr, List.singleton_append, endLine, if_pos rfl, endLine, if_pos rfl,
        List.reverse_reverse]
    · obtain ⟨last, more, hlast⟩ := List.exists_cons_of_ne_nil
        (List.reverse_ne_nil_iff.2 (String.utf8EncodeChar_ne_nil (c := x)))
      have hne : last ≠ 0x0D := by
        rintro rfl
        have hmem : 0x0D ∈ String.utf8EncodeChar x := by
          rw [← List.mem_reverse, hlast]
          exact List.mem_cons_self
        exact hx (Char.toNat_inj.1 (eq_of_mem_utf8EncodeChar hmem (by decide)))
      rw [hlast, List.cons_append, endLine_cons_of_ne hne, endLine_cons_of_ne hx,
        ← List.cons_append, ← hlast, List.reverse_append, List.reverse_reverse,
        List.reverse_reverse, List.reverse_cons, toUtf8_concat]

theorem linesFrom_toUtf8 (text current : List Char) (done : List (List Char)) :
    linesFrom 0x0A 0x0D (toUtf8 current.reverse).reverse (done.map toUtf8) (toUtf8 text) =
      (linesFrom '\n' '\r' current done text).map toUtf8 := by
  induction text generalizing current done with
  | nil =>
    have hempty : (toUtf8 current.reverse).reverse.isEmpty = current.isEmpty := by
      rw [Bool.eq_iff_iff, List.isEmpty_iff, List.isEmpty_iff, List.reverse_eq_nil_iff,
        toUtf8_eq_nil_iff, List.reverse_eq_nil_iff]
    rw [toUtf8_nil, linesFrom, linesFrom, hempty, List.reverse_reverse]
    split <;> simp
  | cons x rest ih =>
    rw [toUtf8_cons]
    by_cases hx : x = '\n'
    · subst hx
      have hlf : String.utf8EncodeChar '\n' = [0x0A] := by decide
      rw [hlf, List.singleton_append, linesFrom, if_pos rfl, endLine_toUtf8, linesFrom, if_pos rfl,
        ← ih [] (endLine '\r' current :: done), List.reverse_nil, toUtf8_nil, List.reverse_nil,
        List.map_cons]
    · have hblock : (0x0A : UInt8) ∉ String.utf8EncodeChar x := fun hmem =>
        hx (Char.toNat_inj.1 (eq_of_mem_utf8EncodeChar hmem (by decide)))
      rw [linesFrom_block hblock, linesFrom, if_neg hx, ← ih (x :: current) done,
        List.reverse_cons, toUtf8_concat, List.reverse_append]

/-- A stream has the lines of its text. -/
theorem lines_toUtf8 (text : List Char) :
    lines 0x0A 0x0D (toUtf8 text) = (lines '\n' '\r' text).map toUtf8 := by
  have h := linesFrom_toUtf8 text [] []
  rwa [List.reverse_nil, toUtf8_nil, List.reverse_nil, List.map_nil] at h

end SqlDialect.Text
