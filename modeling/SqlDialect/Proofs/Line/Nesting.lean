import SqlDialect.Line.Nesting
import SqlDialect.Proofs.Line.Paren
import SqlDialect.Proofs.Line.Segment

/-!
# Matching parentheses and arguments agree

The scan for a closing parenthesis starts in front of the opening one, so that behind it one parenthesis
more is open (`Nesting.deeper`) than for the scan of the arguments.  As long as the latter has not met a
closing parenthesis with none open (`Nesting.Stays`), the two keep in step (`Nesting.behind_deeper`); the
first place where it would is the place that the former is looking for
(`closingPlaceFrom_deeper_eq_found_iff`).

* `Line.closingPlace_eq_found_iff`, `Line.closingPlace_eq_found_iff_matchingParen` : the search by octets
  finds what the search by characters finds.
* `Line.argumentTexts?_eq`, `Line.joinWith_splitArgsFrom` : the arguments by octets are those by
  characters, and they and the commas between them are the whole text.
* `Line.closingPlace_delimits` : which place the search finds, and what it says of the arguments.
-/

namespace SqlDialect

namespace Text

/-! ### Octets below 128 -/

/-- A character has one octet, or only large ones. -/
theorem utf8EncodeChar_cases (c : Char) :
    (∃ octet, String.utf8EncodeChar c = [octet] ∧ octet.toNat = c.toNat) ∨
      (0x80 ≤ c.toNat ∧ ∀ octet ∈ String.utf8EncodeChar c, 0x80 ≤ octet.toNat) := by
  by_cases hc : c.toNat < 0x80
  · have hvalue : c.val.toNat = c.toNat := rfl
    refine .inl ⟨UInt8.ofNat c.toNat, ?_, ?_⟩
    · rw [String.utf8EncodeChar, hvalue, if_pos (by omega)]
    · rw [UInt8.toNat_ofNat']
      omega
  · refine .inr ⟨by omega, fun octet hoctet => ?_⟩
    by_contra hlt
    have := eq_of_mem_utf8EncodeChar hoctet (by omega)
    omega

/-- An octet below 128 is a character. -/
theorem exists_of_toUtf8_eq {line : List Char} {a b : List UInt8} {octet : UInt8}
    (hoctet : octet.toNat < 0x80) (h : toUtf8 line = a ++ octet :: b) :
    ∃ before c behind, line = before ++ c :: behind ∧ toUtf8 before = a ∧ toUtf8 behind = b ∧
      c.toNat = octet.toNat := by
  induction line generalizing a with
  | nil => simp at h
  | cons c rest ih =>
    have further (a' : List UInt8) (ha : a = String.utf8EncodeChar c ++ a')
        (hrest : toUtf8 rest = a' ++ octet :: b) : ∃ before d behind, c :: rest = before ++ d :: behind ∧
          toUtf8 before = a ∧ toUtf8 behind = b ∧ d.toNat = octet.toNat := by
      obtain ⟨before, d, behind, rfl, hbefore, hbehind, hd⟩ := ih hrest
      exact ⟨c :: before, d, behind, rfl, by rw [toUtf8_cons, hbefore, ha], hbehind, hd⟩
    rw [toUtf8_cons] at h
    rcases List.append_eq_append_iff.1 h with ⟨a', ha, hrest⟩ | ⟨own, hown, hrest⟩
    · exact further a' ha hrest
    · cases own with
      | nil => exact further [] (by simpa using hown.symm) (by simpa using hrest.symm)
      | cons first own =>
        obtain ⟨rfl, rfl⟩ := List.cons.inj hrest
        have hmem : octet ∈ String.utf8EncodeChar c := by simp [hown]
        have hc := eq_of_mem_utf8EncodeChar hmem hoctet
        obtain ⟨only, honly, -⟩ := (utf8EncodeChar_cases c).resolve_right fun hlarge => by
          have := hlarge.1
          omega
        obtain ⟨rfl, rfl⟩ : a = [] ∧ own = [] := by
          rw [honly] at hown
          have := congrArg List.length hown
          simp only [List.length_append, List.length_cons, List.length_nil] at this
          exact ⟨List.length_eq_zero_iff.1 (by omega), List.length_eq_zero_iff.1 (by omega)⟩
        exact ⟨[], c, rest, rfl, toUtf8_nil, rfl, hc⟩

end Text

namespace Line

open Text (toUtf8)

variable {n : Nesting} {octet : UInt8} {octets rest : List UInt8} {place start stop : Nat}

namespace Nesting

/-! ### One octet -/

/-- One parenthesis more is open. -/
def deeper (n : Nesting) : Nesting := { n with depth := n.depth + 1 }

theorem underflows_iff : n.underflows octet = true ↔ n = flat ∧ octet = 0x29 := by
  obtain ⟨depth, quote⟩ := n
  simp [underflows, marks, flat, and_comm, and_left_comm]

theorem separates_iff : n.separates octet = true ↔ n = flat ∧ octet = 0x2C := by
  obtain ⟨depth, quote⟩ := n
  simp [separates, marks, flat, and_comm, and_left_comm]

theorem after_deeper (h : n.underflows octet = false) :
    n.deeper.after octet = (n.after octet).deeper := by
  obtain ⟨depth, quote⟩ := n
  cases quote with
  | some quote =>
    simp only [deeper, after]
    split <;> rfl
  | none =>
    simp only [deeper, after]
    split_ifs with hquote hopen hclose
    · rfl
    · rfl
    · have hdepth : depth ≠ 0 := by
        rintro rfl
        rw [← Bool.not_eq_true, underflows_iff] at h
        exact h ⟨rfl, by simpa using hclose⟩
      obtain ⟨depth, rfl⟩ := Nat.exists_eq_succ_of_ne_zero hdepth
      rfl
    · rfl

theorem depth_after_deeper_eq_zero_iff :
    (n.deeper.after octet).depth = 0 ↔ n.underflows octet = true := by
  cases h : n.underflows octet with
  | true =>
    obtain ⟨rfl, rfl⟩ := underflows_iff.1 h
    exact iff_of_true rfl rfl
  | false =>
    rw [after_deeper h]
    exact iff_of_false (Nat.succ_ne_zero _) (by simp)

theorem underflows_deeper : n.deeper.underflows octet = false := by
  rw [← Bool.not_eq_true, underflows_iff]
  rintro ⟨h, -⟩
  exact Nat.succ_ne_zero _ (congrArg depth h)

/-! ### More octets -/

theorem behind_append (n : Nesting) (a b : List UInt8) : n.behind (a ++ b) = (n.behind a).behind b :=
  List.foldl_append

/-- No octet closes a parenthesis when none is open. -/
def Stays : Nesting → List UInt8 → Prop
  | _, [] => True
  | n, octet :: rest => n.underflows octet = false ∧ (n.after octet).Stays rest

theorem stays_append (n : Nesting) (a b : List UInt8) :
    n.Stays (a ++ b) ↔ n.Stays a ∧ (n.behind a).Stays b := by
  induction a generalizing n with
  | nil => exact (true_and _).symm.to_iff
  | cons octet a ih =>
    rw [List.cons_append, Stays, Stays, ih, and_assoc]
    rfl

theorem Stays.underflows_eq_false (h : n.Stays octets) {i : Nat} (hi : octets[i]? = some octet) :
    (n.behind (octets.take i)).underflows octet = false := by
  obtain ⟨hlt, rfl⟩ := List.getElem?_eq_some_iff.1 hi
  rw [← List.take_append_drop i octets, stays_append, List.drop_eq_getElem_cons hlt] at h
  exact h.2.1

/-- **The two scans keep in step.** -/
theorem behind_deeper (h : n.Stays octets) : n.deeper.behind octets = (n.behind octets).deeper := by
  induction octets generalizing n with
  | nil => rfl
  | cons octet rest ih =>
    obtain ⟨hoctet, hrest⟩ := h
    rw [behind, List.foldl_cons, after_deeper hoctet]
    exact ih hrest

/-- The scan that starts deeper does not come back to where nothing is open. -/
theorem stays_iff_depth_ne_zero :
    n.Stays octets ↔ ∀ i < octets.length, (n.deeper.behind (octets.take (i + 1))).depth ≠ 0 := by
  induction octets generalizing n with
  | nil => simp [Stays]
  | cons octet rest ih =>
    have hfirst : (n.deeper.behind [octet]).depth ≠ 0 ↔ n.underflows octet = false := by
      rw [← Bool.not_eq_true, ← depth_after_deeper_eq_zero_iff]
      rfl
    constructor
    · rintro ⟨hoctet, hrest⟩ i hi
      cases i with
      | zero => exact hfirst.2 hoctet
      | succ i =>
        have := ih.1 hrest i (Nat.lt_of_succ_lt_succ hi)
        rwa [← after_deeper hoctet] at this
    · intro h
      have hoctet := hfirst.1 (h 0 (Nat.succ_pos _))
      refine ⟨hoctet, ih.2 fun i hi => ?_⟩
      rw [← after_deeper hoctet]
      exact h (i + 1) (Nat.succ_lt_succ hi)

end Nesting

/-! ### The closing parenthesis -/

open Nesting (flat)

theorem closingPlaceFrom_deeper_cons (n : Nesting) (octet : UInt8) (rest : List UInt8) (place : Nat) :
    closingPlaceFrom n.deeper place (octet :: rest) =
      if n.underflows octet then .found place
      else closingPlaceFrom (n.after octet).deeper (place + 1) rest := by
  rw [closingPlaceFrom, Nesting.underflows_deeper, if_neg (by simp)]
  cases h : n.underflows octet with
  | true =>
    obtain ⟨rfl, rfl⟩ := Nesting.underflows_iff.1 h
    rfl
  | false =>
    have hdepth : (n.deeper.after octet).depth ≠ 0 := by
      rw [Ne, Nesting.depth_after_deeper_eq_zero_iff, h]
      simp
    rw [if_neg (by simp [hdepth]), Nesting.after_deeper h]
    rfl

theorem closingPlaceFrom_deeper_ne_underflow (n : Nesting) (octets : List UInt8) (place : Nat) :
    closingPlaceFrom n.deeper place octets ≠ .underflow := by
  induction octets generalizing n place with
  | nil => simp [closingPlaceFrom]
  | cons octet rest ih =>
    rw [closingPlaceFrom_deeper_cons]
    split
    · simp
    · exact ih _ _

/-- What stands between an opening parenthesis and the one that closes it. -/
theorem closingPlaceFrom_deeper_eq_found_iff :
    closingPlaceFrom n.deeper place octets = .found stop ↔
      ∃ args behind, octets = args ++ 0x29 :: behind ∧ stop = place + args.length ∧
        n.Stays args ∧ n.behind args = flat := by
  induction octets generalizing n place with
  | nil =>
    refine iff_of_false (by simp [closingPlaceFrom]) ?_
    rintro ⟨args, behind, h, -⟩
    simp at h
  | cons octet rest ih =>
    rw [closingPlaceFrom_deeper_cons]
    cases h : n.underflows octet with
    | true =>
      obtain ⟨rfl, rfl⟩ := Nesting.underflows_iff.1 h
      rw [if_pos rfl, Closing.found.injEq]
      constructor
      · rintro rfl
        exact ⟨[], rest, rfl, rfl, trivial, rfl⟩
      · rintro ⟨args, behind, hargs, rfl, hstays, -⟩
        cases args with
        | nil => rfl
        | cons first args =>
          obtain ⟨rfl, -⟩ := List.cons.inj hargs
          rw [hstays.1] at h
          cases h
    | false =>
      rw [if_neg (by simp), ih]
      constructor
      · rintro ⟨args, behind, rfl, rfl, hstays, hflat⟩
        exact ⟨octet :: args, behind, rfl, by simp; omega, ⟨h, hstays⟩, hflat⟩
      · rintro ⟨args, behind, hargs, rfl, hstays, hflat⟩
        cases args with
        | nil =>
          obtain ⟨rfl, -⟩ := List.cons.inj hargs
          obtain rfl : n = flat := hflat
          cases h
        | cons first args =>
          obtain ⟨rfl, rfl⟩ := List.cons.inj hargs
          exact ⟨args, behind, rfl, by simp; omega, hstays.2, hflat⟩

/-- The parenthesis that is found is the first that brings the scan back to where nothing is open. -/
theorem closingPlaceFrom_deeper_eq_found_iff_least :
    closingPlaceFrom n.deeper place octets = .found stop ↔
      ∃ k < octets.length, stop = place + k ∧ (n.deeper.behind (octets.take (k + 1))).depth = 0 ∧
        ∀ i < k, (n.deeper.behind (octets.take (i + 1))).depth ≠ 0 := by
  rw [closingPlaceFrom_deeper_eq_found_iff]
  constructor
  · rintro ⟨args, behind, rfl, rfl, hstays, hflat⟩
    refine ⟨args.length, by simp, rfl, ?_, fun i hi => ?_⟩
    · rw [List.take_length_add_append, List.take_succ_cons, List.take_zero, Nesting.behind_append,
        Nesting.behind_deeper hstays, hflat]
      rfl
    · rw [List.take_append_of_le_length (Nat.succ_le_of_lt hi)]
      exact Nesting.stays_iff_depth_ne_zero.1 hstays i hi
  · rintro ⟨k, hk, rfl, hzero, hfirst⟩
    have hlength : (octets.take k).length = k := List.length_take_of_le (Nat.le_of_lt hk)
    have hstays : n.Stays (octets.take k) := by
      refine Nesting.stays_iff_depth_ne_zero.2 fun i hi => ?_
      rw [hlength] at hi
      rw [List.take_take, Nat.min_eq_left (Nat.succ_le_of_lt hi)]
      exact hfirst i hi
    rw [List.take_succ_eq_append_getElem hk, Nesting.behind_append, Nesting.behind_deeper hstays] at hzero
    obtain ⟨hflat, hoctet⟩ := Nesting.underflows_iff.1 (Nesting.depth_after_deeper_eq_zero_iff.1 hzero)
    refine ⟨octets.take k, octets.drop (k + 1), ?_, by rw [hlength], hstays, hflat⟩
    rw [← hoctet, ← List.drop_eq_getElem_cons hk, List.take_append_drop]

/-- Behind an opening parenthesis, one parenthesis is open. -/
theorem closingPlace_of_getElem? {line : List Char} {opening : Nat}
    (h : (toUtf8 line)[opening]? = some 0x28) :
    closingPlace line opening =
      closingPlaceFrom flat.deeper (opening + 1) ((toUtf8 line).drop (opening + 1)) := by
  obtain ⟨hlt, hoctet⟩ := List.getElem?_eq_some_iff.1 h
  rw [closingPlace, if_pos h, List.drop_eq_getElem_cons hlt, hoctet]
  rfl

/-! ### Characters -/

variable {depth depth' : Nat} {open? : Option Char} {c : Char} {text : List Char}

/-- What a scan by characters keeps, for a scan by octets. -/
def Nesting.of (depth : Nat) (open? : Option Char) : Nesting :=
  ⟨depth, open?.map fun quote => UInt8.ofNat quote.toNat⟩

theorem beq_ofNat (hoctet : octet.toNat = c.toNat) (mark : Char) (hmark : mark.toNat < 0x80) :
    (octet == UInt8.ofNat mark.toNat) = (c == mark) := by
  have hvalue : (UInt8.ofNat mark.toNat).toNat = mark.toNat := by
    rw [UInt8.toNat_ofNat']
    omega
  rw [Bool.eq_iff_iff, beq_iff_eq, beq_iff_eq, ← UInt8.toNat_inj, hvalue, hoctet, Char.toNat_inj]

namespace Nesting

theorem of_zero_none : of 0 none = flat := rfl

/-- A character of one octet. -/
theorem after_of_eq (hopen : IsQuote open?) (depth : Nat) (hoctet : octet.toNat = c.toNat) :
    (of depth open?).after octet = of (nextDepth depth open? c) (quoteAfter open? c) ∧
      (of depth open?).underflows octet = closes depth open? c ∧
      (of depth open?).separates octet = Line.separates depth open? c := by
  have hsingle : (octet == 0x27) = (c == '\'') := beq_ofNat hoctet '\'' (by decide)
  have hdouble : (octet == 0x22) = (c == '"') := beq_ofNat hoctet '"' (by decide)
  have hopening : (octet == 0x28) = (c == '(') := beq_ofNat hoctet '(' (by decide)
  have hclosing : (octet == 0x29) = (c == ')') := beq_ofNat hoctet ')' (by decide)
  have hcomma : (octet == 0x2C) = (c == ',') := beq_ofNat hoctet ',' (by decide)
  cases open? with
  | some quote =>
    have hquote : (octet == UInt8.ofNat quote.toNat) = (c == quote) := by
      refine beq_ofNat hoctet quote ?_
      rcases hopen quote rfl with rfl | rfl <;> decide
    refine ⟨?_, rfl, rfl⟩
    simp only [after, of, Option.map_some, hquote, nextDepth, quoteAfter]
    cases c == quote <;> rfl
  | none =>
    refine ⟨?_, ?_, ?_⟩
    · have hown : octet = UInt8.ofNat c.toNat := by rw [← hoctet, UInt8.ofNat_toNat]
      simp only [after, of, Option.map_none, hsingle, hdouble, hopening, hclosing, nextDepth, quoteAfter]
      by_cases hquote : (c == '\'' || c == '"') = true
      · have hparens : (c == '(') = false ∧ (c == ')') = false := by
          rw [Bool.or_eq_true, beq_iff_eq, beq_iff_eq] at hquote
          rcases hquote with rfl | rfl <;> decide
        simp [hquote, hparens, hown]
      · rw [if_neg hquote, if_neg hquote]
        simp only [Option.map_none, Option.isSome_none, Bool.false_eq_true, if_false]
        split_ifs <;> rfl
    · simp [underflows, marks, of, hclosing, closes]
    · simp [Nesting.separates, marks, of, hcomma, Line.separates]

/-- An octet of a longer character. -/
theorem after_of_large (hopen : IsQuote open?) (depth : Nat) (hlarge : 0x80 ≤ octet.toNat) :
    (of depth open?).after octet = of depth open? ∧ (of depth open?).underflows octet = false ∧
      (of depth open?).separates octet = false := by
  have hne (mark : UInt8) (hmark : mark.toNat < 0x80) : (octet == mark) = false := by
    rw [beq_eq_false_iff_ne]
    rintro rfl
    omega
  cases open? with
  | some quote =>
    have hquote : (octet == UInt8.ofNat quote.toNat) = false := by
      rcases hopen quote rfl with rfl | rfl <;> exact hne _ (by decide)
    refine ⟨?_, rfl, rfl⟩
    simp [after, of, hquote]
  | none =>
    refine ⟨?_, ?_, ?_⟩
    · simp [after, of, hne]
    · simp [underflows, marks, of, hne]
    · simp [Nesting.separates, marks, of, hne]

/-- Octets of longer characters. -/
theorem behind_of_large (hopen : IsQuote open?) (depth : Nat)
    (hlarge : ∀ octet ∈ octets, 0x80 ≤ octet.toNat) :
    (of depth open?).behind octets = of depth open? ∧ (of depth open?).Stays octets := by
  induction octets with
  | nil => exact ⟨rfl, trivial⟩
  | cons octet rest ih =>
    rw [List.forall_mem_cons] at hlarge
    obtain ⟨hafter, hunderflow, -⟩ := after_of_large hopen depth hlarge.1
    obtain ⟨hbehind, hstays⟩ := ih hlarge.2
    rw [behind, List.foldl_cons, hafter, Stays, hafter]
    exact ⟨hbehind, hunderflow, hstays⟩

theorem isPlain_of_large (hc : 0x80 ≤ c.toNat) : isPlain c = true := by
  have hne (mark : Char) (hmark : mark.toNat < 0x80) : c ≠ mark := by
    rintro rfl
    omega
  simp [isPlain, hne]

/-- **One character.** -/
theorem behind_character (hopen : IsQuote open?) (depth : Nat) (c : Char) :
    (of depth open?).behind (String.utf8EncodeChar c) =
        of (nextDepth depth open? c) (quoteAfter open? c) ∧
      ((of depth open?).Stays (String.utf8EncodeChar c) ↔ closes depth open? c = false) := by
  rcases Text.utf8EncodeChar_cases c with ⟨octet, hc, hoctet⟩ | ⟨hc, hlarge⟩
  · obtain ⟨hafter, hunderflow, -⟩ := after_of_eq hopen depth hoctet
    rw [hc, Stays, hunderflow]
    exact ⟨hafter, and_iff_left trivial⟩
  · have hplain := isPlain_of_large hc
    obtain ⟨hbehind, hstays⟩ := behind_of_large hopen depth hlarge
    rw [nextDepth_of_isPlain hplain, quoteAfter_of_isPlain hplain hopen, closes_of_isPlain hplain]
    exact ⟨hbehind, iff_of_true hstays rfl⟩

/-- **The scan of characters and that of their octets** keep the same. -/
theorem behind_toUtf8 (hopen : IsQuote open?) (h : depthBehind depth open? text = some depth') :
    (of depth open?).behind (toUtf8 text) = of depth' (quoteBehind open? text) := by
  induction text generalizing depth open? with
  | nil =>
    obtain rfl := Option.some.inj h
    rw [Text.toUtf8_nil]
    rfl
  | cons c text ih =>
    rw [depthBehind] at h
    split at h
    · cases h
    · rw [Text.toUtf8_cons, behind_append, (behind_character hopen depth c).1]
      exact ih (hopen.quoteAfter c) h

theorem stays_toUtf8_iff (hopen : IsQuote open?) :
    (of depth open?).Stays (toUtf8 text) ↔ ∃ depth', depthBehind depth open? text = some depth' := by
  induction text generalizing depth open? with
  | nil => exact iff_of_true (by rw [Text.toUtf8_nil]; trivial) ⟨depth, rfl⟩
  | cons c text ih =>
    obtain ⟨hbehind, hstays⟩ := behind_character hopen depth c
    rw [Text.toUtf8_cons, stays_append, hstays, hbehind, ih (hopen.quoteAfter c), depthBehind]
    cases closes depth open? c with
    | true => simp
    | false => simp

/-- An opening parenthesis in front of the text is closed by a closing one right behind it. -/
theorem stays_and_behind_iff :
    flat.Stays (toUtf8 text) ∧ flat.behind (toUtf8 text) = flat ↔ Closes 0 none text := by
  have hopen : IsQuote none := fun quote hquote => by cases hquote
  rw [← of_zero_none, stays_toUtf8_iff hopen, Closes]
  constructor
  · rintro ⟨⟨depth', hdepth⟩, hflat⟩
    rw [behind_toUtf8 hopen hdepth, of_zero_none, of, flat, Nesting.mk.injEq, Option.map_eq_none_iff]
      at hflat
    exact ⟨hflat.1 ▸ hdepth, hflat.2⟩
  · rintro ⟨hdepth, hquote⟩
    refine ⟨⟨0, hdepth⟩, ?_⟩
    rw [behind_toUtf8 hopen hdepth, hquote]

end Nesting

/-! ### The search by characters -/

/-- **What the search finds.** -/
theorem closingPlace_eq_found_iff {line : List Char} {opening : Nat} :
    closingPlace line opening = .found stop ↔
      ∃ before args behind, line = before ++ '(' :: (args ++ ')' :: behind) ∧
        opening = Text.octets before ∧ stop = Text.octets before + 1 + Text.octets args ∧
        Closes 0 none args := by
  constructor
  · intro h
    have hopening : (toUtf8 line)[opening]? = some 0x28 := by
      by_contra hnot
      rw [closingPlace, if_neg hnot] at h
      cases h
    rw [closingPlace_of_getElem? hopening, closingPlaceFrom_deeper_eq_found_iff] at h
    obtain ⟨args, behind, hargs, rfl, hstays, hflat⟩ := h
    obtain ⟨hlt, hoctet⟩ := List.getElem?_eq_some_iff.1 hopening
    have hline : toUtf8 line = (toUtf8 line).take opening ++ 0x28 :: (args ++ 0x29 :: behind) := by
      rw [← hargs, ← hoctet, ← List.drop_eq_getElem_cons hlt, List.take_append_drop]
    -- both parentheses are characters of one octet, so the octets are cut between characters
    obtain ⟨front, c, rest, rfl, hfront, hrest, hc⟩ := Text.exists_of_toUtf8_eq (by decide) hline
    obtain ⟨inner, d, tail, rfl, rfl, -, hd⟩ := Text.exists_of_toUtf8_eq (by decide) hrest
    obtain rfl : c = '(' := Char.toNat_inj.1 hc
    obtain rfl : d = ')' := Char.toNat_inj.1 hd
    have hlength : opening = Text.octets front := by
      rw [← Text.length_toUtf8, hfront, List.length_take_of_le (Nat.le_of_lt hlt)]
    exact ⟨front, inner, tail, rfl, hlength, by rw [hlength, Text.length_toUtf8],
      Nesting.stays_and_behind_iff.1 ⟨hstays, hflat⟩⟩
  · rintro ⟨before, args, behind, rfl, rfl, rfl, hargs⟩
    obtain ⟨hstays, hflat⟩ := Nesting.stays_and_behind_iff.2 hargs
    have hopening : String.utf8EncodeChar '(' = [0x28] := by decide
    have hclosing : String.utf8EncodeChar ')' = [0x29] := by decide
    have hline : toUtf8 (before ++ '(' :: (args ++ ')' :: behind)) =
        toUtf8 before ++ 0x28 :: (toUtf8 args ++ 0x29 :: toUtf8 behind) := by
      rw [Text.toUtf8_append, Text.toUtf8_cons, hopening, Text.toUtf8_append, Text.toUtf8_cons, hclosing]
      rfl
    have hplace : (toUtf8 (before ++ '(' :: (args ++ ')' :: behind)))[Text.octets before]? =
        some 0x28 := by
      rw [hline, ← Text.length_toUtf8, List.getElem?_append_right (Nat.le_refl _), Nat.sub_self]
      rfl
    have hbehind : (toUtf8 before ++ 0x28 :: (toUtf8 args ++ 0x29 :: toUtf8 behind)).drop
        (Text.octets before + 1) = toUtf8 args ++ 0x29 :: toUtf8 behind := by
      rw [← Text.length_toUtf8, List.drop_append]
      simp
    rw [closingPlace_of_getElem? hplace, hline, hbehind, closingPlaceFrom_deeper_eq_found_iff]
    exact ⟨toUtf8 args, toUtf8 behind, rfl, by rw [Text.length_toUtf8], hstays, hflat⟩

theorem exists_of_matchingParen {line : List Char} {i j : Nat} (h : matchingParen line i = some j) :
    ∃ before args behind, line = before ++ '(' :: (args ++ ')' :: behind) ∧ i = before.length ∧
      j = (before ++ '(' :: args).length ∧ Closes 0 none args := by
  obtain ⟨rest, hrest⟩ := drop_of_matchingParen h
  have hlt : i < line.length := by
    by_contra hge
    rw [List.drop_eq_nil_of_le (by omega)] at hrest
    cases hrest
  have hlength : (line.take i).length = i := List.length_take_of_le (Nat.le_of_lt hlt)
  have hline : line = line.take i ++ '(' :: rest := by rw [← hrest, List.take_append_drop]
  have h' : matchingParen (line.take i ++ '(' :: rest) (line.take i).length = some j := by
    rw [← hline, hlength]
    exact h
  obtain ⟨args, behind, rfl, rfl, hargs⟩ := matchingParen_eq_some_iff.1 h'
  refine ⟨line.take i, args, behind, hline, hlength.symm, ?_, hargs⟩
  simp only [List.length_append, List.length_cons]
  omega

/-- **The search by octets finds what the search by characters finds.** -/
theorem closingPlace_eq_found_iff_matchingParen {line : List Char} {opening : Nat} :
    closingPlace line opening = .found stop ↔
      ∃ i j, matchingParen line i = some j ∧ opening = Text.octets (line.take i) ∧
        stop = Text.octets (line.take j) := by
  have hplaces (before args behind : List Char) :
      Text.octets ((before ++ '(' :: (args ++ ')' :: behind)).take (before ++ '(' :: args).length) =
        Text.octets before + 1 + Text.octets args := by
    have hsplit : before ++ '(' :: (args ++ ')' :: behind) =
        (before ++ '(' :: args) ++ ')' :: behind := by simp
    have hsize : ('(').utf8Size = 1 := by decide
    rw [hsplit, List.take_left, Text.octets_append, Text.octets_cons, hsize, Nat.add_assoc]
  rw [closingPlace_eq_found_iff]
  constructor
  · rintro ⟨before, args, behind, rfl, rfl, rfl, hargs⟩
    refine ⟨before.length, (before ++ '(' :: args).length, ?_, by rw [List.take_left],
      (hplaces before args behind).symm⟩
    refine matchingParen_eq_some_iff.2 ⟨args, behind, rfl, ?_, hargs⟩
    simp only [List.length_append, List.length_cons]
    omega
  · rintro ⟨i, j, hmatch, rfl, rfl⟩
    obtain ⟨before, args, behind, rfl, rfl, rfl, hargs⟩ := exists_of_matchingParen hmatch
    exact ⟨before, args, behind, rfl, by rw [List.take_left], hplaces before args behind, hargs⟩

/-! ### Arguments -/

theorem eq_comma_of_separates (h : separates depth open? c = true) : c = ',' := by
  simp only [separates, Bool.and_eq_true, beq_iff_eq] at h
  exact h.1.2

theorem argumentsFrom_of_large (hopen : IsQuote open?) (hlarge : ∀ octet ∈ octets, 0x80 ≤ octet.toNat)
    (start place : Nat) (rest : List UInt8) :
    argumentsFrom (.of depth open?) start place (octets ++ rest) =
      argumentsFrom (.of depth open?) start (place + octets.length) rest := by
  induction octets generalizing place with
  | nil => rfl
  | cons octet octets ih =>
    rw [List.forall_mem_cons] at hlarge
    obtain ⟨hafter, -, hcomma⟩ := Nesting.after_of_large hopen depth hlarge.1
    rw [List.cons_append, argumentsFrom, hcomma, if_neg (by simp), hafter, ih hlarge.2, List.length_cons,
      Nat.add_assoc, Nat.add_comm 1]

/-- One character of an argument list. -/
theorem argumentsFrom_character (hopen : IsQuote open?) (c : Char) (start place : Nat)
    (rest : List UInt8) :
    argumentsFrom (.of depth open?) start place (String.utf8EncodeChar c ++ rest) =
      if separates depth open? c then
        ⟨start, place⟩ :: argumentsFrom (.of depth open?) (place + 1) (place + 1) rest
      else
        argumentsFrom (.of (nextDepth depth open? c) (quoteAfter open? c)) start (place + c.utf8Size)
          rest := by
  have hsize : (String.utf8EncodeChar c).length = c.utf8Size := String.length_utf8EncodeChar c
  rcases Text.utf8EncodeChar_cases c with ⟨octet, hc, hoctet⟩ | ⟨hc, hlarge⟩
  · obtain ⟨hafter, -, hcomma⟩ := Nesting.after_of_eq hopen depth hoctet
    rw [hc, List.length_singleton] at hsize
    rw [hc, List.singleton_append, argumentsFrom, hcomma, hafter, ← hsize]
  · have hplain := Nesting.isPlain_of_large hc
    have hcomma : separates depth open? c = false := by
      rw [← Bool.not_eq_true]
      intro h
      obtain rfl := eq_comma_of_separates h
      exact absurd hc (by decide)
    rw [argumentsFrom_of_large hopen hlarge, hcomma, if_neg (by simp), nextDepth_of_isPlain hplain,
      quoteAfter_of_isPlain hplain hopen, hsize]

/-- The texts of the arguments are the arguments, behind text that belongs to the first of them. -/
theorem map_text?_argumentsFrom (hopen : IsQuote open?) (depth : Nat) (before pending text : List Char) :
    (argumentsFrom (.of depth open?) (Text.octets before) (Text.octets (before ++ pending))
        (toUtf8 text)).map (·.text? (before ++ pending ++ text)) =
      ((splitArgsFrom depth open? text).modifyHead (pending ++ ·)).map some := by
  induction text generalizing depth open? before pending with
  | nil =>
    have hslice := Text.slice?_append before pending []
    rw [Text.toUtf8_nil, argumentsFrom, splitArgsFrom, List.map_singleton, Literal.Segment.text?, hslice,
      List.modifyHead_cons, List.append_nil]
    rfl
  | cons c text ih =>
    rw [Text.toUtf8_cons, argumentsFrom_character hopen]
    -- a comma ends the argument, and any other character goes to the text that is pending
    cases hc : separates depth open? c with
    | true =>
      have hslice := Text.slice?_append before pending (',' :: text)
      obtain rfl := eq_comma_of_separates hc
      have hnext := ih hopen depth (before ++ pending ++ [',']) []
      have hplace : Text.octets (before ++ pending ++ [',']) = Text.octets (before ++ pending) + 1 := by
        rw [Text.octets_append _ [',']]
        rfl
      rw [List.append_nil, List.append_assoc _ [','], List.singleton_append, hplace] at hnext
      rw [if_pos rfl, List.map_cons, hnext, splitArgsFrom_cons, hc, if_pos rfl, Literal.Segment.text?,
        hslice]
      obtain ⟨arg, args, hargs⟩ := List.exists_cons_of_ne_nil (splitArgsFrom_ne_nil depth open? text)
      rw [hargs, List.modifyHead_cons, List.modifyHead_cons, List.append_nil]
      rfl
    | false =>
      obtain ⟨arg, args, hrest, hcons⟩ := exists_splitArgsFrom hc text
      have hnext := ih (hopen.quoteAfter c) (nextDepth depth open? c) before (pending ++ [c])
      have hplace : Text.octets (before ++ (pending ++ [c])) =
          Text.octets (before ++ pending) + c.utf8Size := by
        rw [← List.append_assoc, Text.octets_append _ [c]]
        rfl
      rw [hplace, ← List.append_assoc, List.append_assoc _ [c], List.singleton_append, hrest] at hnext
      rw [if_neg (by simp), hnext, hcons]
      simp

theorem mapM_eq_some_of_map_eq {α β : Type} {f : α → Option β} {l : List α} {values : List β}
    (h : l.map f = values.map some) : l.mapM f = some values := by
  induction l generalizing values with
  | nil =>
    obtain rfl := List.map_eq_nil_iff.1 h.symm
    rfl
  | cons a l ih =>
    obtain ⟨value, rest, rfl, hvalue, hrest⟩ := List.map_eq_cons_iff.1 h.symm
    rw [List.mapM_cons, ← hvalue, ih hrest.symm]
    rfl

/-- **The arguments by octets are the arguments by characters.** -/
theorem argumentTexts?_eq (args : List Char) : argumentTexts? args = some (splitArgs args) := by
  have hopen : IsQuote none := fun quote hquote => by cases hquote
  have h := map_text?_argumentsFrom hopen 0 [] [] args
  obtain ⟨arg, rest, hargs⟩ := List.exists_cons_of_ne_nil (splitArgsFrom_ne_nil 0 none args)
  rw [hargs] at h
  rw [argumentTexts?, splitArgs, hargs]
  exact mapM_eq_some_of_map_eq h

/-- The arguments with the commas between them are the whole text. -/
theorem joinWith_splitArgsFrom (depth : Nat) (open? : Option Char) (text : List Char) :
    Text.joinWith [','] (splitArgsFrom depth open? text) = text := by
  induction text generalizing depth open? with
  | nil => rfl
  | cons c text ih =>
    cases hc : separates depth open? c with
    | true =>
      obtain rfl := eq_comma_of_separates hc
      obtain ⟨arg, args, hrest⟩ := List.exists_cons_of_ne_nil (splitArgsFrom_ne_nil depth open? text)
      have hjoin := ih depth open?
      rw [hrest] at hjoin
      rw [splitArgsFrom_cons, hc, if_pos rfl, hrest, Text.joinWith, hjoin]
      · rfl
      · exact List.cons_ne_nil _ _
    | false =>
      obtain ⟨arg, args, hrest, hcons⟩ := exists_splitArgsFrom hc text
      have hjoin := ih (nextDepth depth open? c) (quoteAfter open? c)
      rw [hrest, Literal.joinWith_cons] at hjoin
      rw [hcons, Literal.joinWith_cons, List.cons_append, hjoin]

/-! ### Commas -/

theorem argumentsFrom_ne_nil (n : Nesting) (start place : Nat) (octets : List UInt8) :
    argumentsFrom n start place octets ≠ [] := by
  induction octets generalizing n start place with
  | nil => exact List.cons_ne_nil _ _
  | cons octet rest ih =>
    rw [argumentsFrom]
    split
    · exact List.cons_ne_nil _ _
    · exact ih _ _ _

/-- The places at which an argument list is cut are those of the commas that stand outside quotes with no
parenthesis open. -/
theorem map_stop_dropLast_argumentsFrom (n : Nesting) (start place : Nat) (octets : List UInt8) :
    (argumentsFrom n start place octets).dropLast.map (·.stop) =
      ((List.range octets.length).filter fun i =>
        octets[i]?.any (n.behind (octets.take i)).separates).map (place + ·) := by
  induction octets generalizing n start place with
  | nil => rfl
  | cons octet rest ih =>
    have hshift : (fun i => (octet :: rest)[i]?.any (n.behind ((octet :: rest).take i)).separates) ∘
        Nat.succ = fun i => rest[i]?.any ((n.after octet).behind (rest.take i)).separates := rfl
    have hplaces : (place + ·) ∘ Nat.succ = (place + 1 + ·) := by
      funext i
      simp only [Function.comp_apply]
      omega
    have hfirst : (octet :: rest)[0]?.any (n.behind ((octet :: rest).take 0)).separates =
        n.separates octet := rfl
    rw [List.length_cons, List.range_succ_eq_map, List.filter_cons, List.filter_map, hshift, hfirst,
      argumentsFrom]
    cases hcomma : n.separates octet with
    | true =>
      obtain ⟨rfl, rfl⟩ := Nesting.separates_iff.1 hcomma
      rw [if_pos rfl, if_pos rfl, List.dropLast_cons_of_ne_nil (argumentsFrom_ne_nil _ _ _ _),
        List.map_cons, ih, List.map_cons, List.map_map, hplaces]
      rfl
    | false =>
      rw [if_neg (by simp), if_neg (by simp), ih, List.map_map, hplaces]

/-! ### Both scans together -/

/-- What is open in front of the octet `stop`, for a scan that starts at `opening`. -/
def nestingBefore (line : List Char) (opening stop : Nat) : Nesting :=
  flat.behind (((toUtf8 line).take stop).drop opening)

/-- What holds of the text between two matching parentheses. -/
structure Delimited (line : List Char) (opening stop : Nat) (args : List Char) : Prop where
  /-- It stands between them. -/
  slice : Text.slice? line (opening + 1) stop = some args
  /-- It closes no parenthesis that it has not opened. -/
  stays : ∀ i octet, (toUtf8 args)[i]? = some octet → (nestingBefore args 0 i).underflows octet = false
  /-- Nothing is open at its end. -/
  flat : nestingBefore args 0 (Text.octets args) = .flat
  /-- It is cut at the commas that the search for the closing parenthesis meets outside quotes, with one
  parenthesis open. -/
  commas : (arguments args).dropLast.map (·.stop) = (List.range (Text.octets args)).filter fun i =>
    (toUtf8 line)[opening + 1 + i]? = some 0x2C ∧
      nestingBefore line opening (opening + 1 + i) = ⟨1, none⟩
  /-- The arguments by octets are those by characters. -/
  texts : argumentTexts? args = some (splitArgs args)
  /-- The arguments and the commas between them are all of it. -/
  join : Text.joinWith [','] (splitArgs args) = args

section

variable {line : List Char} {opening : Nat}

theorem nestingBefore_of_getElem? (h : (toUtf8 line)[opening]? = some 0x28) (k : Nat) :
    nestingBefore line opening (opening + 1 + k) =
      flat.deeper.behind (((toUtf8 line).drop (opening + 1)).take k) := by
  obtain ⟨hlt, hoctet⟩ := List.getElem?_eq_some_iff.1 h
  have hsum : opening + 1 + k - opening = k + 1 := by omega
  rw [nestingBefore, List.drop_take, hsum, List.drop_eq_getElem_cons hlt, hoctet, List.take_succ_cons]
  rfl

theorem closingPlace_ne_underflow (line : List Char) (opening : Nat) :
    closingPlace line opening ≠ .underflow := by
  by_cases h : (toUtf8 line)[opening]? = some 0x28
  · rw [closingPlace_of_getElem? h]
    exact closingPlaceFrom_deeper_ne_underflow _ _ _
  · rw [closingPlace, if_neg h]
    exact Closing.noConfusion

/-- **The closing parenthesis is the least place behind which nothing is open.** -/
theorem closingPlace_eq_found_iff_least :
    closingPlace line opening = .found stop ↔
      (toUtf8 line)[opening]? = some 0x28 ∧ opening ≤ stop ∧ stop < (toUtf8 line).length ∧
        (nestingBefore line opening (stop + 1)).depth = 0 ∧
        ∀ i, opening ≤ i → i < stop → (nestingBefore line opening (i + 1)).depth ≠ 0 := by
  by_cases h : (toUtf8 line)[opening]? = some 0x28
  · have hlt := (List.getElem?_eq_some_iff.1 h).1
    -- behind the opening parenthesis, both scans count alike
    have hdepth (k : Nat) : nestingBefore line opening (opening + 1 + k + 1) =
        flat.deeper.behind (((toUtf8 line).drop (opening + 1)).take (k + 1)) :=
      nestingBefore_of_getElem? h (k + 1)
    have hfirst : (nestingBefore line opening (opening + 1)).depth ≠ 0 := by
      have := nestingBefore_of_getElem? h 0
      rw [Nat.add_zero] at this
      rw [this]
      exact Nat.succ_ne_zero _
    rw [closingPlace_of_getElem? h, closingPlaceFrom_deeper_eq_found_iff_least, and_iff_right h,
      List.length_drop]
    constructor
    · rintro ⟨k, hk, rfl, hzero, hleast⟩
      refine ⟨by omega, by omega, by rw [hdepth, hzero], fun i hi hik => ?_⟩
      rcases Nat.eq_or_lt_of_le hi with rfl | hi
      · exact hfirst
      · obtain ⟨j, rfl⟩ := Nat.exists_eq_add_of_le hi
        rw [Nat.succ_eq_add_one, hdepth]
        exact hleast j (by omega)
    · rintro ⟨hle, hstop, hzero, hleast⟩
      have hne : opening ≠ stop := by
        rintro rfl
        exact hfirst hzero
      obtain ⟨k, rfl⟩ := Nat.exists_eq_add_of_le (Nat.lt_of_le_of_ne hle hne)
      rw [Nat.succ_eq_add_one] at hstop hzero hleast ⊢
      rw [hdepth] at hzero
      refine ⟨k, by omega, rfl, hzero, fun i hi => ?_⟩
      rw [← hdepth]
      exact hleast _ (by omega) (by omega)
  · refine iff_of_false (fun hfound => ?_) fun hall => h hall.1
    rw [closingPlace, if_neg h] at hfound
    cases hfound

/-- In the text between the parentheses, the search is one parenthesis deeper than the scan of the
arguments. -/
theorem any_separates_eq {args : List Char} {behind : List UInt8} {i : Nat}
    (hopening : (toUtf8 line)[opening]? = some 0x28)
    (hline : (toUtf8 line).drop (opening + 1) = toUtf8 args ++ behind) (hstays : flat.Stays (toUtf8 args))
    (hi : i < (toUtf8 args).length) :
    (toUtf8 args)[i]?.any (flat.behind ((toUtf8 args).take i)).separates =
      decide ((toUtf8 line)[opening + 1 + i]? = some 0x2C ∧
        nestingBefore line opening (opening + 1 + i) = ⟨1, none⟩) := by
  have hoctet : (toUtf8 line)[opening + 1 + i]? = some (toUtf8 args)[i] := by
    rw [← List.getElem?_drop, hline, List.getElem?_append_left hi, List.getElem?_eq_getElem hi]
  have hdeeper : nestingBefore line opening (opening + 1 + i) =
      (flat.behind ((toUtf8 args).take i)).deeper := by
    rw [nestingBefore_of_getElem? hopening, hline, List.take_append_of_le_length (Nat.le_of_lt hi)]
    rw [← List.take_append_drop i (toUtf8 args), Nesting.stays_append] at hstays
    exact Nesting.behind_deeper hstays.1
  have hflat : (flat.behind ((toUtf8 args).take i)).deeper = ⟨1, none⟩ ↔
      flat.behind ((toUtf8 args).take i) = flat := by
    generalize flat.behind ((toUtf8 args).take i) = n
    obtain ⟨depth, quote⟩ := n
    simp [Nesting.deeper, flat]
  rw [hoctet, hdeeper, List.getElem?_eq_getElem hi, Option.any_some, Bool.eq_iff_iff,
    Nesting.separates_iff, decide_eq_true_eq, Option.some.injEq, hflat, and_comm]

/-- The text that a search has passed over is delimited by the two parentheses. -/
theorem exists_delimited (h : closingPlace line opening = .found stop) :
    ∃ args, Delimited line opening stop args := by
  have hopening := (closingPlace_eq_found_iff_least.1 h).1
  obtain ⟨before, args, behind, rfl, rfl, rfl, hargs⟩ := closingPlace_eq_found_iff.1 h
  obtain ⟨hstays, hflat⟩ := Nesting.stays_and_behind_iff.2 hargs
  have hsize : Text.octets ['('] = 1 := by decide
  have hoctets : (toUtf8 (before ++ '(' :: (args ++ ')' :: behind))).drop (Text.octets before + 1) =
      toUtf8 args ++ toUtf8 (')' :: behind) := by
    rw [← List.singleton_append, ← List.append_assoc, Text.toUtf8_append, Text.toUtf8_append args,
      ← hsize, ← Text.octets_append, ← Text.length_toUtf8, List.drop_left]
  have hbefore (i : Nat) : nestingBefore args 0 i = flat.behind ((toUtf8 args).take i) := rfl
  refine ⟨args, ?_, fun i octet hoctet => ?_, ?_, ?_, argumentTexts?_eq args,
    joinWith_splitArgsFrom 0 none args⟩
  · have hslice := Text.slice?_append (before ++ ['(']) args (')' :: behind)
    rw [Text.octets_append _ args, Text.octets_append, hsize] at hslice
    rwa [List.append_assoc, List.append_assoc] at hslice
  · rw [hbefore]
    exact hstays.underflows_eq_false hoctet
  · rw [hbefore, ← Text.length_toUtf8, List.take_length, hflat]
  · have hplaces : ((0 : Nat) + ·) = id := funext Nat.zero_add
    rw [arguments, map_stop_dropLast_argumentsFrom, hplaces, List.map_id, Text.length_toUtf8]
    refine List.filter_congr fun i hi => any_separates_eq hopening hoctets hstays ?_
    rw [Text.length_toUtf8]
    exact List.mem_range.1 hi

/-- **Matching parentheses and splitting arguments agree.**  The search never counts below zero, and finds
the least place behind which nothing is open, which is that of the search by characters.  The text between
the two parentheses is split at the commas that the search meets one parenthesis deep. -/
theorem closingPlace_delimits (line : List Char) (opening : Nat) :
    closingPlace line opening ≠ .underflow ∧ ∀ stop,
      (closingPlace line opening = .found stop ↔
        (toUtf8 line)[opening]? = some 0x28 ∧ opening ≤ stop ∧ stop < (toUtf8 line).length ∧
          (nestingBefore line opening (stop + 1)).depth = 0 ∧
          ∀ i, opening ≤ i → i < stop → (nestingBefore line opening (i + 1)).depth ≠ 0) ∧
      (closingPlace line opening = .found stop ↔ ∃ i j, matchingParen line i = some j ∧
        opening = Text.octets (line.take i) ∧ stop = Text.octets (line.take j)) ∧
      (closingPlace line opening = .found stop → ∃ args, Delimited line opening stop args) :=
  ⟨closingPlace_ne_underflow line opening, fun _ => ⟨closingPlace_eq_found_iff_least,
    closingPlace_eq_found_iff_matchingParen, exists_delimited⟩⟩

/-- Behind a character of two octets: quotes of both kinds with parentheses and commas in them, and a
nested call. -/
theorem closingPlace_delimits_quotes :
    let line := "é(f(a, 1), ')', \"x,(\")".toList
    closingPlace line 2 = .found 22 ∧ ∃ args, Delimited line 2 22 args ∧
      (arguments args).dropLast.map (·.stop) = [7, 12] ∧
      splitArgs args = ["f(a, 1)", " ')'", " \"x,(\""].map String.toList := by
  intro line
  have hfound : closingPlace line 2 = .found 22 := by decide +kernel
  obtain ⟨args, hargs⟩ := ((closingPlace_delimits line 2).2 22).2.2 hfound
  have htext : args = "f(a, 1), ')', \"x,(\"".toList := by
    have hslice : Text.slice? line 3 22 = some "f(a, 1), ')', \"x,(\"".toList := by decide +kernel
    exact Option.some.inj (hargs.slice.symm.trans hslice)
  refine ⟨hfound, args, hargs, ?_, ?_⟩
  · rw [htext]
    decide +kernel
  · rw [htext]
    decide +kernel

end

end Line

end SqlDialect
