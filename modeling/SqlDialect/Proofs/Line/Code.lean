import SqlDialect.Proofs.Line.Literal

/-!
# Lines with changed code

Code that is changed stretch by stretch stays code, as long as the new text closes its literals.

* `Literal.mem_codePieces_mapCode` : where the code of a changed line comes from.
* `Literal.editCode_eq_none_iff` : when nothing of the code is edited.
-/

namespace SqlDialect

namespace Literal

variable {line text piece : List Char}

/-! ### Pieces -/

theorem pieces_ne_nil (line : List Char) : pieces line ≠ [] := Text.cutAt_ne_nil '\'' line

theorem pieces_append_cons (a b : List Char) : pieces (a ++ '\'' :: b) = pieces a ++ pieces b := by
  rw [pieces, pieces, pieces, Text.cutAt_eq_splitOn, Text.cutAt_eq_splitOn, Text.cutAt_eq_splitOn,
    List.splitOn_append_cons_self]

theorem pieces_of_not_mem (h : '\'' ∉ text) : pieces text = [text] := Text.cutAt_of_not_mem h

theorem length_pieces (line : List Char) : (pieces line).length = line.count '\'' + 1 := by
  rw [pieces]
  induction line with
  | nil => rfl
  | cons x rest ih =>
    by_cases hx : x = '\''
    · subst hx
      rw [Text.cutAt_cons_self, List.length_cons, ih, List.count_cons_self]
    · rw [Text.cutAt_cons_of_ne hx, List.length_modifyHead, ih, List.count_cons_of_ne hx]

/-! ### Every other piece -/

theorem everyOther_append {a : List (List Char)} (h : a.length % 2 = 0) (b : List (List Char)) :
    everyOther (a ++ b) = everyOther a ++ everyOther b := by
  induction a using everyOther.induct with
  | case1 => rfl
  | case2 piece => simp at h
  | case3 piece literal rest ih =>
    have hrest : rest.length % 2 = 0 := by
      rw [List.length_cons, List.length_cons] at h
      omega
    exact congrArg (piece :: ·) (ih hrest)

theorem everyOther_concat {a : List (List Char)} (h : a.length % 2 = 1) (last : List Char) :
    everyOther (a ++ [last]) = everyOther a := by
  induction a using everyOther.induct with
  | case1 => simp at h
  | case2 piece => rfl
  | case3 piece literal rest ih =>
    have hrest : rest.length % 2 = 1 := by
      rw [List.length_cons, List.length_cons] at h
      omega
    exact congrArg (piece :: ·) (ih hrest)

/-- What becomes of a stretch of code. -/
def changed (f : List Char → List Char) (code : List Char) : List Char :=
  if code.isEmpty then [] else f code

/-- The code of a line whose code has been changed is that of its changed stretches. -/
theorem everyOther_pieces_joinWith {f : List Char → List Char} {all : List (List Char)}
    (hne : all ≠ []) (hquote : ∀ piece ∈ all, '\'' ∉ piece)
    (hclosed : ∀ code ∈ everyOther all, isClosed (changed f code) = true) :
    everyOther (pieces (Text.joinWith ['\''] (mapEveryOther f all))) =
      (everyOther all).flatMap fun code => everyOther (pieces (changed f code)) := by
  induction all using everyOther.induct with
  | case1 => exact absurd rfl hne
  | case2 code => simp [mapEveryOther, everyOther, Text.joinWith, changed]
  | case3 code literal rest ih =>
    have hcode := hclosed code List.mem_cons_self
    rw [isClosed, beq_iff_eq] at hcode
    have hliteral : pieces literal = [literal] := pieces_of_not_mem (hquote literal (by simp))
    -- a changed stretch is closed, and so it has an odd number of pieces
    have hodd : (pieces (changed f code)).length % 2 = 1 := by
      rw [length_pieces]
      omega
    cases rest with
    | nil =>
      have hjoin : Text.joinWith ['\''] (mapEveryOther f [code, literal]) =
          changed f code ++ '\'' :: literal := by simp [mapEveryOther, Text.joinWith, changed]
      rw [hjoin, pieces_append_cons, hliteral, everyOther_concat hodd]
      simp [everyOther]
    | cons next rest =>
      have hmore := ih (List.cons_ne_nil _ _)
        (fun piece hpiece => hquote piece (by simp_all)) fun code hcode => hclosed code
          (List.mem_cons_of_mem _ hcode)
      have hjoin : Text.joinWith ['\''] (mapEveryOther f (code :: literal :: next :: rest)) =
          changed f code ++ '\'' :: (literal ++ '\'' ::
            Text.joinWith ['\''] (mapEveryOther f (next :: rest))) := by
        cases rest <;> simp [mapEveryOther, Text.joinWith, changed]
      have heven : (pieces (changed f code) ++ [literal]).length % 2 = 0 := by
        rw [List.length_append, List.length_singleton]
        omega
      rw [hjoin, pieces_append_cons, pieces_append_cons, hliteral, ← List.append_assoc,
        everyOther_append heven, everyOther_concat hodd]
      exact congrArg (everyOther (pieces (changed f code)) ++ ·) hmore

/-! ### Stretches of code -/

theorem mem_of_mem_everyOther {all : List (List Char)} (h : piece ∈ everyOther all) :
    piece ∈ all := by
  induction all using everyOther.induct with
  | case1 => cases h
  | case2 code => exact h
  | case3 code literal rest ih =>
    rcases List.mem_cons.1 h with rfl | h
    · exact List.mem_cons_self
    · exact List.mem_cons_of_mem _ (List.mem_cons_of_mem _ (ih h))

theorem not_mem_of_mem_codePieces (h : piece ∈ codePieces line) : '\'' ∉ piece :=
  Text.not_mem_of_mem_cutAt (mem_of_mem_everyOther (List.mem_filter.1 h).1)

/-- A stretch of code of a changed line is one of a changed stretch. -/
theorem mem_codePieces_mapCode {f : List Char → List Char}
    (hclosed : ∀ code ∈ codePieces line, isClosed (f code) = true)
    (h : piece ∈ codePieces (mapCode f line)) :
    ∃ code ∈ codePieces line, piece ∈ codePieces (f code) := by
  obtain ⟨hpiece, hne⟩ := List.mem_filter.1 h
  have hchanged : ∀ code ∈ everyOther (pieces line), isClosed (changed f code) = true := by
    intro code hcode
    rw [changed]
    split
    · rfl
    · rename_i hcodeNe
      exact hclosed code (List.mem_filter.2 ⟨hcode, by simpa using hcodeNe⟩)
  rw [mapCode, everyOther_pieces_joinWith (pieces_ne_nil line)
    (fun piece hpiece => Text.not_mem_of_mem_cutAt hpiece) hchanged] at hpiece
  obtain ⟨code, hcode, hpiece⟩ := List.mem_flatMap.1 hpiece
  rw [changed] at hpiece
  split at hpiece
  · -- where there was no code, there is none
    rw [pieces, Text.cutAt, everyOther, List.mem_singleton] at hpiece
    rw [hpiece] at hne
    cases hne
  · rename_i hcodeNe
    exact ⟨code, List.mem_filter.2 ⟨hcode, by simpa using hcodeNe⟩, List.mem_filter.2 ⟨hpiece, hne⟩⟩

/-- A text without quotes is all code. -/
theorem eq_of_mem_codePieces (hquote : '\'' ∉ text) (h : piece ∈ codePieces text) :
    piece = text := by
  have := (List.mem_filter.1 h).1
  rwa [pieces_of_not_mem hquote, everyOther, List.mem_singleton] at this

theorem isClosed_of_not_mem (hquote : '\'' ∉ text) : isClosed text = true := by
  rw [isClosed, List.count_eq_zero.2 hquote]
  rfl

/-! ### Edits of code -/

/-- Nothing is edited if no match in code is accepted. -/
theorem editCode_eq_none_iff {p : Pattern} {edit : Match → Option (List Char)} :
    editCode p edit line = none ↔
      ∀ piece ∈ codePieces line, ∀ m ∈ p.matchesIn piece, edit m = none := by
  have hnil : ((codePieces line).flatMap fun piece =>
      (p.matchesIn piece).filter fun m => (edit m).isSome) = [] ↔
      ∀ piece ∈ codePieces line, ∀ m ∈ p.matchesIn piece, edit m = none := by
    simp [List.flatMap_eq_nil_iff, List.filter_eq_nil_iff]
  rw [← hnil, editCode]
  split
  · rename_i h
    exact iff_of_true rfl h
  · rename_i first rest h
    exact iff_of_false nofun (by rw [h]; simp)

theorem line_of_editCode {p : Pattern} {edit : Match → Option (List Char)}
    {new note : List Char} (h : editCode p edit line = some (new, note)) :
    new = mapCode (p.replaceIn fun m => (edit m).getD m.text) line := by
  rw [editCode] at h
  split at h
  · cases h
  · exact (congrArg Prod.fst (Option.some.inj h)).symm

end Literal

end SqlDialect
