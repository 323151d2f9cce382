import Mathlib.Data.Finset.Insert
import SqlDialect.Proofs.Line.Paren

/-!
# Text in front of closing parentheses

`Line.insertAt` puts a text in front of the characters at certain places of a line.  Where the text is
plain and the characters are closing parentheses, as many parentheses are open in the new line as in the
old one, and as many arguments stand in a list:

* `Line.Widened.depthBehind_eq`, `Line.Widened.quoteBehind_eq` : what is open behind the text.
* `Line.Widened.length_splitArgsFrom_eq` : the number of arguments.  A parenthesis that does not close
  the list stands in a pair of parentheses or in a quote, and so does a comma in front of it.
-/

namespace SqlDialect.Line

/-! ### Places -/

/-- The rest of a line, from the place `index` on, with `text` in front of the characters at the given
places. -/
def insertFrom (text : List Char) (places : Finset Nat) : (index : Nat) → List Char → List Char
  | _, [] => []
  | index, c :: rest =>
    if index ∈ places then text ++ c :: insertFrom text places (index + 1) rest
    else c :: insertFrom text places (index + 1) rest

/-- The line with `text` in front of the characters at the given places. -/
def insertAt (text : List Char) (places : Finset Nat) (line : List Char) : List Char :=
  insertFrom text places 0 line

variable {text : List Char} {places places' : Finset Nat} {index : Nat} {c : Char}
  {a b line new : List Char}

theorem insertFrom_append (text : List Char) (places : Finset Nat) (index : Nat) (a b : List Char) :
    insertFrom text places index (a ++ b) =
      insertFrom text places index a ++ insertFrom text places (index + a.length) b := by
  induction a generalizing index with
  | nil => rfl
  | cons c a ih =>
    rw [List.cons_append, insertFrom, insertFrom, ih, List.length_cons, Nat.add_assoc,
      Nat.add_comm 1]
    split <;> simp

/-- Only the places in the rest of the line matter. -/
theorem insertFrom_congr
    (h : ∀ i, index ≤ i → i < index + line.length → (i ∈ places ↔ i ∈ places')) :
    insertFrom text places index line = insertFrom text places' index line := by
  induction line generalizing index with
  | nil => rfl
  | cons c line ih =>
    have hrest : insertFrom text places (index + 1) line = insertFrom text places' (index + 1) line :=
      ih fun i hle hlt => h i (by omega) (by rw [List.length_cons]; omega)
    have hfirst := h index (Nat.le_refl _) (by simp)
    simp only [insertFrom, hrest, hfirst]

theorem insertFrom_empty (text : List Char) (index : Nat) (line : List Char) :
    insertFrom text ∅ index line = line := by
  induction line generalizing index with
  | nil => rfl
  | cons c line ih => rw [insertFrom, if_neg (Finset.notMem_empty index), ih]

theorem insertFrom_eq_self (h : ∀ i, index ≤ i → i < index + line.length → i ∉ places) :
    insertFrom text places index line = line := by
  have hnone : insertFrom text places index line = insertFrom text ∅ index line :=
    insertFrom_congr (by simpa using h)
  rw [hnone, insertFrom_empty]

/-- In front of all places, the line stays. -/
theorem insertAt_append (h : ∀ i ∈ places, a.length ≤ i) :
    insertAt text places (a ++ b) = a ++ insertFrom text places a.length b := by
  rw [insertAt, insertFrom_append, Nat.zero_add, insertFrom_eq_self fun i _ hi hmem => ?_]
  have := h i hmem
  omega

/-- One more place. -/
theorem insertFrom_insert (text : List Char) (places : Finset Nat) (index : Nat) (a : List Char)
    (c : Char) (b : List Char) :
    insertFrom text (insert (index + a.length) places) index (a ++ c :: b) =
      insertFrom text places index a ++
        (text ++ c :: insertFrom text places (index + a.length + 1) b) := by
  have ha : insertFrom text (insert (index + a.length) places) index a =
      insertFrom text places index a :=
    insertFrom_congr fun i _ hlt => by
      rw [Finset.mem_insert, or_iff_right (Nat.ne_of_lt hlt)]
  have hb : insertFrom text (insert (index + a.length) places) (index + a.length + 1) b =
      insertFrom text places (index + a.length + 1) b :=
    insertFrom_congr fun i hle _ => by
      rw [Finset.mem_insert, or_iff_right (Nat.ne_of_gt hle)]
  rw [insertFrom_append, insertFrom, if_pos (Finset.mem_insert_self _ _), ha, hb]

/-! ### Closing parentheses -/

/-- The new text has `text` in front of some closing parentheses of the old one, and is the same but for
that. -/
inductive Widened (text : List Char) : List Char → List Char → Prop
  | nil : Widened text [] []
  | keep (c : Char) {rest new : List Char} (h : Widened text rest new) :
      Widened text (c :: rest) (c :: new)
  | insert {rest new : List Char} (h : Widened text rest new) :
      Widened text (')' :: rest) (text ++ ')' :: new)

theorem widened_insertFrom (h : ∀ i c, index + i ∈ places → a[i]? = some c → c = ')') :
    Widened text a (insertFrom text places index a) := by
  induction a generalizing index with
  | nil => exact .nil
  | cons c a ih =>
    have hrest : Widened text a (insertFrom text places (index + 1) a) := by
      refine ih fun i d hmem hd => h (i + 1) d ?_ ?_
      · rwa [Nat.add_comm i, ← Nat.add_assoc]
      · rwa [List.getElem?_cons_succ]
    rw [insertFrom]
    split
    · rename_i hmem
      obtain rfl : c = ')' := h 0 c hmem rfl
      exact .insert hrest
    · exact .keep c hrest

/-- Where all places of a line are those of closing parentheses, each part of it is widened. -/
theorem widened_of_getElem? (h : ∀ i ∈ places, (a ++ (line ++ b))[i]? = some ')') :
    Widened text line (insertFrom text places a.length line) := by
  refine widened_insertFrom fun i c hmem hc => ?_
  have hget := h _ hmem
  have hi : i < line.length := (List.getElem?_eq_some_iff.1 hc).1
  rw [List.getElem?_append_right (Nat.le_add_right _ _), Nat.add_sub_cancel_left,
    List.getElem?_append_left hi, hc] at hget
  exact Option.some.inj hget

namespace Widened

theorem eq_of_not_mem (h : Widened text line new) (hparen : ')' ∉ line) : new = line := by
  induction h with
  | nil => rfl
  | keep c _ ih =>
    rw [List.mem_cons, not_or] at hparen
    rw [ih hparen.2]
  | insert => simp at hparen

/-- The closing parentheses stay. -/
theorem mem_of_mem (h : Widened text line new) (hparen : ')' ∈ line) : ')' ∈ new := by
  induction h with
  | nil => exact hparen
  | keep c _ ih =>
    rcases List.mem_cons.1 hparen with rfl | hparen
    · exact List.mem_cons_self
    · exact List.mem_cons_of_mem c (ih hparen)
  | insert => simp

variable {depth : Nat} {open? : Option Char}

theorem quoteBehind_eq (h : Widened text line new) (htext : ∀ c ∈ text, isPlain c = true)
    (hopen : IsQuote open?) : quoteBehind open? new = quoteBehind open? line := by
  induction h generalizing open? with
  | nil => rfl
  | keep c _ ih => exact ih (hopen.quoteAfter c)
  | insert _ ih =>
    rw [quoteBehind_append, quoteBehind_of_isPlain htext hopen]
    exact ih (hopen.quoteAfter ')')

theorem depthBehind_eq (h : Widened text line new) (htext : ∀ c ∈ text, isPlain c = true)
    (hopen : IsQuote open?) : depthBehind depth open? new = depthBehind depth open? line := by
  induction h generalizing depth open? with
  | nil => rfl
  | keep c _ ih => rw [depthBehind, depthBehind, ih (hopen.quoteAfter c)]
  | insert _ ih =>
    rw [depthBehind_append, depthBehind_of_isPlain htext hopen, Option.bind_some,
      quoteBehind_of_isPlain htext hopen, depthBehind, depthBehind, ih (hopen.quoteAfter ')')]

theorem closes_iff (h : Widened text line new) (htext : ∀ c ∈ text, isPlain c = true) :
    Closes 0 none new ↔ Closes 0 none line := by
  have hopen : IsQuote none := fun q hq => by cases hq
  rw [Closes, Closes, h.depthBehind_eq htext hopen, h.quoteBehind_eq htext hopen]

/-- In parentheses or in a quote, plain text separates no arguments. -/
theorem length_splitArgsFrom_append (htext : ∀ c ∈ text, isPlain c = true) (hopen : IsQuote open?)
    (hdeep : depth ≠ 0 ∨ open? ≠ none) (rest : List Char) :
    (splitArgsFrom depth open? (text ++ rest)).length = (splitArgsFrom depth open? rest).length := by
  induction text with
  | nil => rfl
  | cons c text ih =>
    rw [List.forall_mem_cons] at htext
    have hsame : separates depth open? c = false := by
      rw [← Bool.not_eq_true, separates]
      rcases hdeep with hdepth | hquote
      · simp [hdepth]
      · simp [Option.isNone_iff_eq_none, hquote]
    rw [List.cons_append, length_splitArgsFrom_cons, nextDepth_of_isPlain htext.1,
      quoteAfter_of_isPlain htext.1 hopen, hsame, ih htext.2]
    rfl

/-- **The number of arguments stays.** -/
theorem length_splitArgsFrom_eq (h : Widened text line new) (htext : ∀ c ∈ text, isPlain c = true)
    (hopen : IsQuote open?) (hline : depthBehind depth open? line ≠ none) :
    (splitArgsFrom depth open? new).length = (splitArgsFrom depth open? line).length := by
  induction h generalizing depth open? with
  | nil => rfl
  | keep c _ ih =>
    rw [depthBehind] at hline
    split at hline
    · exact absurd rfl hline
    · rw [length_splitArgsFrom_cons, length_splitArgsFrom_cons, ih (hopen.quoteAfter c) hline]
  | insert _ ih =>
    rw [depthBehind] at hline
    split at hline
    · exact absurd rfl hline
    · rename_i hclose
      -- the parenthesis does not close the list
      have hdeep : depth ≠ 0 ∨ open? ≠ none := by
        by_contra hflat
        simp only [not_or, not_not] at hflat
        exact hclose (Line.closes_iff.2 ⟨hflat.2, rfl, hflat.1⟩)
      rw [length_splitArgsFrom_append htext hopen hdeep, length_splitArgsFrom_cons,
        length_splitArgsFrom_cons, ih (hopen.quoteAfter ')') hline]

end Widened

/-- A parenthesis is closed in a text if the scan comes to no end of it. -/
theorem depthBehind_eq_none_iff :
    depthBehind 0 none line = none ↔ ∃ x y, line = x ++ ')' :: y ∧ Closes 0 none x := by
  have hscan : ∀ depth open?, depthBehind depth open? line = none ↔
      ∃ x y, line = x ++ ')' :: y ∧ Closes depth open? x := by
    intro depth open?
    induction line generalizing depth open? with
    | nil => simp [depthBehind]
    | cons c line ih =>
      rw [depthBehind]
      cases hclose : closes depth open? c with
      | true =>
        obtain ⟨rfl, rfl, rfl⟩ := closes_iff.1 hclose
        exact iff_of_true rfl ⟨[], line, rfl, rfl, rfl⟩
      | false =>
        rw [if_neg Bool.false_ne_true, ih]
        constructor
        · rintro ⟨x, y, rfl, hx⟩
          exact ⟨c :: x, y, rfl, (Closes.cons_iff hclose).2 hx⟩
        · rintro ⟨x, y, hline, hx⟩
          cases x with
          | nil =>
            obtain ⟨hdepth, hquote⟩ := hx
            obtain rfl : open? = none := hquote
            obtain rfl := (List.cons_eq_cons.1 hline).1
            rw [closes_iff.2 ⟨rfl, rfl, Option.some.inj hdepth⟩] at hclose
            cases hclose
          | cons d x =>
            obtain ⟨rfl, rfl⟩ := List.cons_eq_cons.1 hline
            exact ⟨x, y, rfl, (Closes.cons_iff hclose).1 hx⟩
  exact hscan 0 none

end SqlDialect.Line
