import SqlDialect.Proofs.Text.Trim

/-!
# Classes of characters

White space, digits and word characters do not depend on the case of a letter, digits are word
characters, and white space is not (`Text.isWordChar_foldCase`, `Text.isWordChar_of_isDigit`,
`Text.isWordChar_of_isBlank`).
-/

namespace SqlDialect.Text

/-! ### Ranges -/

/-- The ranges stand in order, with gaps between them. -/
def areOrdered : List (Nat × Nat) → Bool
  | [] | [_] => true
  | a :: b :: rest => a.2 < b.1 && areOrdered (b :: rest)

theorem exists_of_inRanges {n : Nat} {ranges : List (Nat × Nat)} (h : inRanges n ranges = true) :
    ∃ r ∈ ranges, r.1 ≤ n ∧ n ≤ r.2 := by
  induction ranges with
  | nil => cases h
  | cons r ranges ih =>
    rw [inRanges] at h
    split at h
    · cases h
    · rename_i hlow
      rcases (Bool.or_eq_true _ _).mp h with h | h
      · exact ⟨r, List.mem_cons_self, Nat.le_of_not_lt hlow, of_decide_eq_true h⟩
      · obtain ⟨r', hr', hn⟩ := ih h
        exact ⟨r', List.mem_cons_of_mem _ hr', hn⟩

theorem lt_of_areOrdered {r r' : Nat × Nat} {ranges : List (Nat × Nat)}
    (hranges : ∀ r ∈ ranges, r.1 ≤ r.2) (h : areOrdered (r :: ranges) = true)
    (hr' : r' ∈ ranges) : r.2 < r'.1 := by
  induction ranges generalizing r with
  | nil => cases hr'
  | cons b ranges ih =>
    rw [areOrdered, Bool.and_eq_true, decide_eq_true_eq] at h
    rcases List.mem_cons.1 hr' with rfl | hr'
    · exact h.1
    · have hb := hranges b List.mem_cons_self
      have := ih (fun r hr => hranges r (List.mem_cons_of_mem _ hr)) h.2 hr'
      omega

theorem inRanges_of_mem {n : Nat} {ranges : List (Nat × Nat)}
    (hranges : ∀ r ∈ ranges, r.1 ≤ r.2) (h : areOrdered ranges = true)
    {r : Nat × Nat} (hr : r ∈ ranges) (hlow : r.1 ≤ n) (hhigh : n ≤ r.2) :
    inRanges n ranges = true := by
  induction ranges with
  | nil => cases hr
  | cons a ranges ih =>
    rcases List.mem_cons.1 hr with rfl | hr
    · rw [inRanges, if_neg (Nat.not_lt.2 hlow), decide_eq_true hhigh, Bool.true_or]
    · -- the range of `n` stands behind the first one
      have hlt := lt_of_areOrdered (fun r hr => hranges r (List.mem_cons_of_mem _ hr)) h hr
      have ha := hranges a List.mem_cons_self
      have hrest : areOrdered ranges = true := by
        cases ranges with
        | nil => rfl
        | cons b ranges => exact ((Bool.and_eq_true _ _).mp h).2
      rw [inRanges, if_neg (by omega),
        ih (fun r hr => hranges r (List.mem_cons_of_mem _ hr)) hrest hr, Bool.or_true]

/-- Whether every one of `ranges` lies in one of the covering ranges, in the same order. -/
def areCovered (ranges : List (Nat × Nat)) : (covering : List (Nat × Nat)) → Bool
  | [] => ranges.isEmpty
  | w :: covering => areCovered (ranges.dropWhile fun r => w.1 ≤ r.1 && r.2 ≤ w.2) covering

theorem exists_of_areCovered {ranges covering : List (Nat × Nat)}
    (h : areCovered ranges covering = true) {r : Nat × Nat} (hr : r ∈ ranges) :
    ∃ w ∈ covering, w.1 ≤ r.1 ∧ r.2 ≤ w.2 := by
  induction covering generalizing ranges with
  | nil =>
    rw [List.isEmpty_iff.1 h] at hr
    cases hr
  | cons w covering ih =>
    rw [← List.takeWhile_append_dropWhile (p := fun r => w.1 ≤ r.1 && r.2 ≤ w.2) (l := ranges),
      List.mem_append] at hr
    rcases hr with hr | hr
    · have := List.mem_takeWhile_imp hr
      exact ⟨w, List.mem_cons_self, by simpa using this⟩
    · obtain ⟨w', hw', hcover⟩ := ih h hr
      exact ⟨w', List.mem_cons_of_mem _ hw', hcover⟩

/-! ### Classes -/

/-- Digits of every script are word characters. -/
theorem isWordChar_of_isDigit {c : Char} (h : isDigit c = true) : isWordChar c = true := by
  rw [isDigit] at h
  rw [isWordChar]
  split
  · rename_i hascii
    rw [if_pos hascii] at h
    rw [Char.isAlphanum, h, Bool.or_true, Bool.true_or]
  · rename_i hascii
    rw [if_neg hascii] at h
    obtain ⟨r, hr, hlow, hhigh⟩ := exists_of_inRanges h
    -- every range of digits lies in a range of word characters
    have hcovered : areCovered digitRanges wordRanges = true := by decide +kernel
    obtain ⟨w, hw, hr⟩ := exists_of_areCovered hcovered hr
    have hranges : (wordRanges.all fun r => r.1 ≤ r.2) = true := by decide +kernel
    exact inRanges_of_mem (fun r hr => of_decide_eq_true (List.all_eq_true.1 hranges r hr))
      (by decide +kernel) hw (hr.1.trans hlow) (hhigh.trans hr.2)

/-- White space is no part of a word. -/
theorem isWordChar_of_isBlank {c : Char} (h : isBlank c = true) : isWordChar c = false := by
  have hall : (blanks.all fun c => !isWordChar c) = true := by decide +kernel
  simpa using List.all_eq_true.1 hall c ((mem_blanks_iff c).2 h)

/-- Digits are visible. -/
theorem isBlank_of_isDigit {c : Char} (h : isDigit c = true) : isBlank c = false := by
  rw [← Bool.not_eq_true]
  intro hblank
  have hword := isWordChar_of_isDigit h
  rw [isWordChar_of_isBlank hblank] at hword
  cases hword

/-! ### Case -/

/-- What holds of every ASCII character, code by code, and of all characters that have no case, holds
of every character, if it also holds of the two that fold to an ASCII letter. -/
theorem foldCase_induction {motive : Char → Char → Prop}
    (ascii : ∀ n, n < 128 → motive (Char.ofNat n) (foldCase (Char.ofNat n)))
    (longS : motive '\u017F' 's') (kelvin : motive '\u212A' 'k')
    (other : ∀ c : Char, 128 ≤ c.toNat → motive c c) (c : Char) : motive c (foldCase c) := by
  by_cases hascii : c.toNat < 128
  · have := ascii c.toNat hascii
    rwa [Char.ofNat_toNat] at this
  · rw [foldCase]
    split
    · rename_i h
      rw [beq_iff_eq.1 h]
      exact longS
    · split
      · rename_i h
        rw [beq_iff_eq.1 h]
        exact kelvin
      · have hupper : ¬(c.val ≥ 'A'.val ∧ c.val ≤ 'Z'.val) := by
          intro hupper
          exact hascii (Nat.lt_of_le_of_lt (UInt32.le_iff_toNat_le.1 hupper.2) (by decide))
        have hsame : c.toLower = c := dif_neg hupper
        rw [hsame]
        exact other c (Nat.le_of_not_lt hascii)

/-- What holds of every ASCII character and its upper case, code by code, and of every other character
and itself, holds of every character and its upper case. -/
theorem toUpper_induction {motive : Char → Char → Prop}
    (ascii : ∀ n, n < 128 → motive (Char.ofNat n) (Char.ofNat n).toUpper)
    (other : ∀ c : Char, 128 ≤ c.toNat → motive c c) (c : Char) : motive c c.toUpper := by
  by_cases hascii : c.toNat < 128
  · have := ascii c.toNat hascii
    rwa [Char.ofNat_toNat] at this
  · have hlower : ¬(c.val ≥ 'a'.val ∧ c.val ≤ 'z'.val) := by
      intro hlower
      exact hascii (Nat.lt_of_le_of_lt (UInt32.le_iff_toNat_le.1 hlower.2) (by decide))
    have hsame : c.toUpper = c := dif_neg hlower
    rw [hsame]
    exact other c (Nat.le_of_not_lt hascii)

/-- What a change of case from `c` to `d` leaves as it was: the classes are the same, only letters
have changed, and nothing is left to be changed. -/
def SameClasses (c d : Char) : Prop :=
  isWordChar d = isWordChar c ∧ isBlank d = isBlank c ∧ isDigit d = isDigit c ∧
    (d ≠ c → d.isAlpha = true) ∧ (foldCase c = d → foldCase d = d)

instance : DecidableRel SameClasses := fun c d => by unfold SameClasses; infer_instance

theorem sameClasses_foldCase (c : Char) : SameClasses c (foldCase c) :=
  foldCase_induction (by decide +kernel) (by decide +kernel) (by decide +kernel)
    (fun _ _ => ⟨rfl, rfl, rfl, fun h => absurd rfl h, fun h => h⟩) c

theorem isWordChar_foldCase (c : Char) : isWordChar (foldCase c) = isWordChar c :=
  (sameClasses_foldCase c).1

theorem isBlank_foldCase (c : Char) : isBlank (foldCase c) = isBlank c :=
  (sameClasses_foldCase c).2.1

theorem isDigit_foldCase (c : Char) : isDigit (foldCase c) = isDigit c :=
  (sameClasses_foldCase c).2.2.1

/-- Only letters have a case. -/
theorem isAlpha_of_foldCase_ne {c : Char} (h : foldCase c ≠ c) : (foldCase c).isAlpha = true :=
  (sameClasses_foldCase c).2.2.2.1 h

@[simp] theorem foldCase_foldCase (c : Char) : foldCase (foldCase c) = foldCase c :=
  (sameClasses_foldCase c).2.2.2.2 rfl

end SqlDialect.Text
