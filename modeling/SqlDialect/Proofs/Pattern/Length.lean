import Mathlib.Algebra.Order.BigOperators.Group.List
import Mathlib.Algebra.Order.Group.Nat
import Mathlib.Algebra.Ring.Nat
import SqlDialect.Proofs.Line.Place
import SqlDialect.Proofs.Pattern.Group
import SqlDialect.Proofs.Pattern.Preference
import SqlDialect.Proofs.Pattern.Scan
import SqlDialect.Rule.Basic

/-!
# The length of a line with replaced matches

A line whose matches are replaced becomes as much longer or shorter as the new texts are, taken together
(`Pattern.length_replaceIn`), and so does a line whose code is changed (`Literal.length_mapCode`).  Where
every match becomes shorter, the line does, unless there is no match.

* `Pattern.leastLength` : a number of characters that every text of a pattern has.
* `Pattern.exists_matchesIn_of_find?` : what a search finds is the first of the matches.
* `Rule.length_lt_of_substitute` : a rule that replaces matches in code by shorter texts makes every line
  shorter that it edits.
-/

namespace SqlDialect

namespace Pattern

variable {p : Pattern} {before behind : Option Char} {text line : List Char} {m : Match}
  {f : Match → List Char}

/-! ### The length of a match -/

/-- A number of characters that every text of the pattern has. -/
def leastLength : Pattern → Nat
  | chars sets => sets.length
  | lineStart | lineEnd | boundary | many _ _ => 0
  | seq a b => a.leastLength + b.leastLength
  | alt a b => min a.leastLength b.leastLength
  | group _ a => a.leastLength

theorem leastLength_le (h : p.Reads before text behind) : p.leastLength ≤ text.length := by
  induction p generalizing before text behind with
  | chars sets => exact h.length_eq.le
  | lineStart | lineEnd | boundary | many => exact Nat.zero_le _
  | seq a b iha ihb =>
    obtain ⟨s, t, rfl, hs, ht⟩ := h
    rw [leastLength, List.length_append]
    exact Nat.add_le_add (iha hs) (ihb ht)
  | alt a b iha ihb =>
    rcases h with h | h
    · exact (Nat.min_le_left _ _).trans (iha h)
    · exact (Nat.min_le_right _ _).trans (ihb h)
  | group name a ih => exact ih h

theorem Matches.leastLength_le (h : p.Matches m) : p.leastLength ≤ m.text.length := by
  obtain ⟨before, behind, hreads⟩ := h.stretch.exists_reads
  exact Pattern.leastLength_le hreads

/-- What stands in a group that has something before or behind it in every match is shorter than the
match. -/
theorem Matches.length_textOf_add_le {l g r : Pattern} (h : p.Matches m) (name : String)
    (hp : p.around name = some (l, g, r)) :
    (m.textOf name).length + (l.leastLength + r.leastLength) ≤ m.text.length := by
  obtain ⟨place, hmatch⟩ := h
  obtain ⟨s, u, rest, -, htext, hparts⟩ := exists_parts_of_matchAt hp hmatch
  have hleft := Pattern.leastLength_le hparts.reads_left
  have hright := Pattern.leastLength_le hparts.reads_right
  rw [htext, List.length_append, List.length_append]
  omega

/-! ### The length of a line -/

theorem length_replaceIn (p : Pattern) (f : Match → List Char) (line : List Char) :
    (p.replaceIn f line).length + ((p.matchesIn line).map (·.text.length)).sum =
      line.length + ((p.matchesIn line).map fun m => (f m).length).sum := by
  have general (pieces : List Piece) :
      (pieces.flatMap (Piece.edited fun m => some (f m))).length +
          ((pieces.filterMap Piece.match?).map (·.text.length)).sum =
        (pieces.flatMap (Piece.edited fun _ => none)).length +
          ((pieces.filterMap Piece.match?).map fun m => (f m).length).sum := by
    induction pieces with
    | nil => rfl
    | cons piece pieces ih =>
      cases piece with
      | other c =>
        rw [List.flatMap_cons, List.flatMap_cons, List.filterMap_cons]
        simp [Piece.edited, Piece.match?] at ih ⊢
        omega
      | found m =>
        rw [List.flatMap_cons, List.flatMap_cons, List.filterMap_cons]
        simp [Piece.edited, Piece.match?] at ih ⊢
        omega
  have hline := general (p.piecesFrom 0 none 0 line)
  rw [flatMap_edited_none, List.drop_zero] at hline
  have hnew : p.replaceIn f line = _ := replaceIn_eq_editedFrom p (fun m => some (f m)) line
  rw [hnew, matchesIn, pieces_eq]
  exact hline

/-- Shorter texts in the place of all matches make the line shorter, if there is a match. -/
theorem length_replaceIn_lt (hm : m ∈ p.matchesIn line)
    (h : ∀ m ∈ p.matchesIn line, (f m).length < m.text.length) :
    (p.replaceIn f line).length < line.length := by
  have hsum := List.sum_lt_sum (fun m => (f m).length) (fun m => m.text.length)
    (fun m hm => (h m hm).le) ⟨m, hm, h m hm⟩
  have := length_replaceIn p f line
  omega

/-- Longer texts make it longer. -/
theorem length_lt_replaceIn (hm : m ∈ p.matchesIn line)
    (h : ∀ m ∈ p.matchesIn line, m.text.length < (f m).length) :
    line.length < (p.replaceIn f line).length := by
  have hsum := List.sum_lt_sum (fun m => m.text.length) (fun m => (f m).length)
    (fun m hm => (h m hm).le) ⟨m, hm, h m hm⟩
  have := length_replaceIn p f line
  omega

theorem replaceIn_of_matchesIn_eq_nil (h : p.matchesIn line = []) : p.replaceIn f line = line := by
  have hothers : ∀ piece ∈ p.pieces line, piece.match? = none := by
    rwa [matchesIn, List.filterMap_eq_nil_iff] at h
  rw [pieces_eq] at hothers
  calc p.replaceIn f line
      = (p.piecesFrom 0 none 0 line).flatMap (Piece.edited fun m => some (f m)) :=
        replaceIn_eq_editedFrom p (fun m => some (f m)) line
    _ = (p.piecesFrom 0 none 0 line).flatMap (Piece.edited fun _ => none) := by
        refine List.flatMap_congr fun piece hpiece => ?_
        cases piece with
        | other c => rfl
        | found m => cases hothers _ hpiece
    _ = line := flatMap_edited_none p 0 0 none line

/-- **What a search finds is the first of the matches.** -/
theorem exists_matchesIn_of_find? (h : p.find? line = some m) (hne : m.text ≠ []) :
    ∃ more, p.matchesIn line = m :: more := by
  obtain ⟨a, b, rfl, -, hmatch, hfirst⟩ := exists_first_of_find? h
  refine exists_matchesIn_eq_cons (fun u c v ha => ?_) hmatch hne
  refine matchAt_eq_none_iff.2 fun text rest hrest => hfirst u text rest ?_ (by simp [ha])
  have hrest : c :: (v ++ b) = text ++ rest := hrest
  rw [ha, ← hrest, List.append_assoc, List.cons_append]

end Pattern

namespace Literal

variable {f : List Char → List Char} {line code : List Char}

theorem length_joinWith {c : Char} {all : List (List Char)} (h : all ≠ []) :
    (Text.joinWith [c] all).length + 1 = (all.map (·.length + 1)).sum := by
  obtain ⟨piece, rest, rfl⟩ := List.exists_cons_of_ne_nil h
  rw [joinWith_cons, List.length_append, List.length_flatMap, List.map_cons, List.sum_cons]
  simp only [List.singleton_append, List.length_cons]
  omega

theorem length_mapCode (f : List Char → List Char) (line : List Char) :
    (mapCode f line).length + ((everyOther (pieces line)).map List.length).sum =
      line.length + ((everyOther (pieces line)).map fun code => (changed f code).length).sum := by
  have general (all : List (List Char)) :
      ((mapEveryOther f all).map (·.length + 1)).sum + ((everyOther all).map List.length).sum =
        (all.map (·.length + 1)).sum +
          ((everyOther all).map fun code => (changed f code).length).sum := by
    induction all using everyOther.induct with
    | case1 => rfl
    | case2 piece => simp [mapEveryOther, everyOther, changed]; omega
    | case3 piece literal rest ih => simp [mapEveryOther, everyOther, changed] at ih ⊢; omega
  have hne : mapEveryOther f (pieces line) ≠ [] := by
    rw [← List.length_pos_iff, length_mapEveryOther]
    exact List.length_pos_of_ne_nil (pieces_ne_nil line)
  have hnew := length_joinWith (c := '\'') hne
  have hline := length_joinWith (c := '\'') (pieces_ne_nil line)
  rw [joinWith_pieces] at hline
  have := general (pieces line)
  rw [mapCode]
  omega

/-- A line becomes shorter if some stretch of its code does and none becomes longer. -/
theorem length_mapCode_lt (hcode : code ∈ codePieces line) (hlt : (f code).length < code.length)
    (hle : ∀ code ∈ codePieces line, (f code).length ≤ code.length) :
    (mapCode f line).length < line.length := by
  have hchanged : ∀ piece ∈ everyOther (pieces line), (changed f piece).length ≤ piece.length := by
    intro piece hpiece
    rw [changed]
    split
    · exact Nat.zero_le _
    · rename_i hne
      exact hle piece (List.mem_filter.2 ⟨hpiece, by simpa using hne⟩)
  obtain ⟨hmem, hne⟩ := List.mem_filter.1 hcode
  have hsum := List.sum_lt_sum (fun code => (changed f code).length) List.length hchanged
    ⟨code, hmem, by rwa [changed, if_neg (by simpa using hne)]⟩
  have := length_mapCode f line
  omega

end Literal

namespace Rule

open Pattern

variable {p : Pattern} {f : Match → List Char} {line : List Char} {edit : Edit}

theorem length_lt_of_substitute (hf : ∀ m, p.Matches m → m.text ≠ [] → (f m).length < m.text.length)
    (h : substitute p f line = some edit) : edit.line.length < line.length := by
  obtain ⟨⟨new, note⟩, hcode, rfl⟩ := Option.map_eq_some_iff.1 h
  have hshorter (code : List Char) : ∀ m ∈ p.matchesIn code, (f m).length < m.text.length :=
    fun m hm => hf m (matches_of_mem_matchesIn hm).1 (matches_of_mem_matchesIn hm).2
  have hnew : new = Literal.mapCode (p.replaceIn f) line := Literal.line_of_editCode hcode
  obtain ⟨code, hmem, m, hm⟩ : ∃ code ∈ Literal.codePieces line, ∃ m, m ∈ p.matchesIn code := by
    by_contra hnone
    have : Literal.editCode p (fun m => some (f m)) line = none :=
      Literal.editCode_eq_none_iff.2 fun piece hpiece m hm => absurd ⟨piece, hpiece, m, hm⟩ hnone
    rw [hcode] at this
    cases this
  change new.length < line.length
  rw [hnew]
  refine Literal.length_mapCode_lt hmem (length_replaceIn_lt hm (hshorter code)) fun piece _ => ?_
  cases hmatches : p.matchesIn piece with
  | nil => rw [replaceIn_of_matchesIn_eq_nil hmatches]
  | cons m more =>
    exact (length_replaceIn_lt (by rw [hmatches]; exact List.mem_cons_self) (hshorter piece)).le

/-- A text that is shorter than every match makes the line shorter. -/
theorem length_lt_of_leastLength (hf : ∀ m, (f m).length < p.leastLength)
    (h : substitute p f line = some edit) : edit.line.length < line.length :=
  length_lt_of_substitute (fun m hm _ => (hf m).trans_le hm.leastLength_le) h

end Rule

end SqlDialect
