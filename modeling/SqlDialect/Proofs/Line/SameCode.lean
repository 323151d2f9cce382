import SqlDialect.Proofs.Line.Code
import SqlDialect.Proofs.Pattern.Rewrite

/-!
# Lines with the same code

Two lines have the same code if they have the same number of quotes and the same stretches of code
between them; what stands in their literals may differ (`Literal.SameCode`).

A change of the code that brings no quote into it leaves the cut of a line at its quotes alone
(`Literal.pieces_mapCode`): it changes lines with the same code into such lines, and no literal
(`Literal.SameCode.mapCode`).  An edit of the matches of a pattern is such a change if its new text
has no quotes, since neither a match in code nor its groups have any
(`Pattern.subset_of_mem_matchesIn`).
-/

namespace SqlDialect

namespace Literal

/-- The same stretches of code between the same number of quotes. -/
structure SameCode (a b : List Char) : Prop where
  quotes_eq : a.count '\'' = b.count '\''
  code_eq : everyOther (pieces a) = everyOther (pieces b)

theorem SameCode.codePieces_eq {a b : List Char} (h : SameCode a b) :
    codePieces a = codePieces b := by
  rw [codePieces, codePieces, h.code_eq]

theorem SameCode.codeMatches_eq {a b : List Char} (h : SameCode a b) (p : Pattern) :
    codeMatches p a = codeMatches p b := by
  rw [codeMatches, codeMatches, h.codePieces_eq]

/-! ### Every other piece, changed -/

section MapEveryOther

variable {f : List Char → List Char}

theorem length_mapEveryOther (f : List Char → List Char) (all : List (List Char)) :
    (mapEveryOther f all).length = all.length := by
  induction all using everyOther.induct with
  | case1 => rfl
  | case2 piece => rfl
  | case3 piece literal rest ih => simp [mapEveryOther, ih]

theorem everyOther_mapEveryOther (f : List Char → List Char) (all : List (List Char)) :
    everyOther (mapEveryOther f all) = (everyOther all).map (changed f) := by
  induction all using everyOther.induct with
  | case1 => rfl
  | case2 piece => rfl
  | case3 piece literal rest ih => simp [mapEveryOther, everyOther, changed, ih]

/-- The pieces in between stay. -/
theorem everyOther_drop_mapEveryOther (f : List Char → List Char) (all : List (List Char)) :
    everyOther ((mapEveryOther f all).drop 1) = everyOther (all.drop 1) := by
  induction all using everyOther.induct with
  | case1 => rfl
  | case2 piece => rfl
  | case3 piece literal rest ih =>
    have hrest : ∀ rest : List (List Char),
        everyOther (literal :: rest) = literal :: everyOther (rest.drop 1) := by
      intro rest
      cases rest with
      | nil => rfl
      | cons next rest => rfl
    simp only [mapEveryOther, List.drop_succ_cons, List.drop_zero, hrest, ih]

theorem not_mem_of_mem_mapEveryOther {c : Char} {all : List (List Char)}
    (hall : ∀ piece ∈ all, c ∉ piece) (hf : ∀ piece ∈ everyOther all, c ∉ changed f piece) :
    ∀ piece ∈ mapEveryOther f all, c ∉ piece := by
  induction all using everyOther.induct with
  | case1 => simp [mapEveryOther]
  | case2 piece => simpa [mapEveryOther, changed] using hf piece List.mem_cons_self
  | case3 piece literal rest ih =>
    simp only [mapEveryOther, List.forall_mem_cons]
    refine ⟨hf piece List.mem_cons_self, hall literal (by simp), ih ?_ ?_⟩
    · exact fun piece hpiece =>
        hall piece (List.mem_cons_of_mem _ (List.mem_cons_of_mem _ hpiece))
    · exact fun piece hpiece => hf piece (List.mem_cons_of_mem _ hpiece)

end MapEveryOther

/-! ### Code changed without quotes -/

/-- Pieces without quotes are the pieces of the line that is put together from them. -/
theorem pieces_joinWith {all : List (List Char)} (hne : all ≠ [])
    (hquote : ∀ piece ∈ all, '\'' ∉ piece) : pieces (Text.joinWith ['\''] all) = all := by
  induction all with
  | nil => exact absurd rfl hne
  | cons piece rest ih =>
    obtain ⟨hpiece, hrest⟩ := List.forall_mem_cons.1 hquote
    cases rest with
    | nil => exact pieces_of_not_mem hpiece
    | cons next rest =>
      have hjoin : Text.joinWith ['\''] (piece :: next :: rest) =
          piece ++ '\'' :: Text.joinWith ['\''] (next :: rest) := by simp [Text.joinWith]
      rw [hjoin, pieces_append_cons, pieces_of_not_mem hpiece, ih (List.cons_ne_nil _ _) hrest]
      rfl

variable {f : List Char → List Char} {line : List Char}

/-- Code that is changed without quotes stays in its place between the quotes of the line. -/
theorem pieces_mapCode (hf : ∀ code, '\'' ∉ code → '\'' ∉ f code) :
    pieces (mapCode f line) = mapEveryOther f (pieces line) := by
  have hline : ∀ piece ∈ pieces line, '\'' ∉ piece := fun _ hpiece =>
    Text.not_mem_of_mem_cutAt hpiece
  refine pieces_joinWith ?_ (not_mem_of_mem_mapEveryOther hline fun piece hpiece => ?_)
  · rw [← List.length_pos_iff, length_mapEveryOther, length_pieces]
    exact Nat.succ_pos _
  · rw [changed]
    split
    · exact List.not_mem_nil
    · exact hf piece (hline piece (mem_of_mem_everyOther hpiece))

theorem count_quote_mapCode (hf : ∀ code, '\'' ∉ code → '\'' ∉ f code) :
    (mapCode f line).count '\'' = line.count '\'' := by
  have hlength : (pieces (mapCode f line)).length = (pieces line).length := by
    rw [pieces_mapCode hf, length_mapEveryOther]
  rw [length_pieces, length_pieces] at hlength
  exact Nat.succ.inj hlength

theorem literalPieces_mapCode (hf : ∀ code, '\'' ∉ code → '\'' ∉ f code) :
    literalPieces (mapCode f line) = literalPieces line := by
  rw [literalPieces, literalPieces, pieces_mapCode hf, everyOther_drop_mapEveryOther]

theorem SameCode.mapCode {a b : List Char} (h : SameCode a b)
    (hf : ∀ code, '\'' ∉ code → '\'' ∉ f code) : SameCode (mapCode f a) (mapCode f b) where
  quotes_eq := by rw [count_quote_mapCode hf, count_quote_mapCode hf, h.quotes_eq]
  code_eq := by
    rw [pieces_mapCode hf, pieces_mapCode hf, everyOther_mapEveryOther, everyOther_mapEveryOther,
      h.code_eq]

end Literal

/-! ### Matches in code -/

namespace Match

/-- Neither the match nor any of its groups has a quote. -/
structure Unquoted (m : Match) : Prop where
  text : '\'' ∉ m.text
  group : ∀ g ∈ m.groups, '\'' ∉ g.text

theorem Unquoted.textOf {m : Match} (h : m.Unquoted) (name : String) :
    '\'' ∉ m.textOf name := by
  rw [Match.textOf, group?]
  cases hfind : m.groups.find? (·.name == name) with
  | none => exact List.not_mem_nil
  | some g => exact h.group g (List.mem_of_find?_eq_some hfind)

end Match

namespace Pattern

variable {p : Pattern} {line : List Char}

/-- A match and its groups are text of the line behind its place. -/
theorem subset_of_matchAt {place : Cursor} {m : Match} (h : p.matchAt place = some m) :
    m.text ⊆ place.rest ∧ ∀ g ∈ m.groups, g.text ⊆ place.rest := by
  obtain ⟨o, ho, htext, -, hgroups⟩ := exists_outcome_of_matchAt h
  refine ⟨?_, fun g hg => ?_⟩
  · rw [htext.rest_eq]
    exact List.subset_append_left _ _
  · rw [hgroups] at hg
    exact (subset_of_mem_groups (List.mem_of_mem_head? ho) hg).resolve_left List.not_mem_nil

theorem subset_of_mem_matchesIn {m : Match} (h : m ∈ p.matchesIn line) :
    m.text ⊆ line ∧ ∀ g ∈ m.groups, g.text ⊆ line := by
  obtain ⟨a, b, rfl, hmatch, -⟩ := exists_matchAt_of_mem_matchesIn h
  obtain ⟨htext, hgroups⟩ := subset_of_matchAt hmatch
  have hb : b ⊆ a ++ b := List.subset_append_right a b
  exact ⟨List.Subset.trans htext hb, fun g hg => List.Subset.trans (hgroups g hg) hb⟩

theorem unquoted_of_mem_matchesIn {m : Match} (hline : '\'' ∉ line) (h : m ∈ p.matchesIn line) :
    m.Unquoted where
  text hmem := hline ((subset_of_mem_matchesIn h).1 hmem)
  group g hg hmem := hline ((subset_of_mem_matchesIn h).2 g hg hmem)

/-- A character of a line with replaced matches was there before, or is one of new text. -/
theorem mem_replaceIn {f : Match → List Char} {c : Char} (h : c ∈ p.replaceIn f line) :
    c ∈ line ∨ ∃ m ∈ p.matchesIn line, c ∈ f m := by
  rw [replaceIn] at h
  obtain ⟨piece, hpiece, hmem⟩ := List.mem_flatMap.1 h
  cases piece with
  | other d =>
    left
    rw [pieces_eq] at hpiece
    have hc : c ∈ (p.piecesFrom 0 none 0 line).flatMap (Piece.edited fun _ => none) :=
      List.mem_flatMap.2 ⟨.other d, hpiece, hmem⟩
    rwa [flatMap_edited_none] at hc
  | found m => exact .inr ⟨m, List.mem_filterMap.2 ⟨_, hpiece, rfl⟩, hmem⟩

/-- Edits without quotes bring none into a line. -/
theorem not_mem_replaceIn {edit : Match → Option (List Char)}
    (hedit : ∀ m text, m.Unquoted → edit m = some text → '\'' ∉ text) (hline : '\'' ∉ line) :
    '\'' ∉ p.replaceIn (fun m => (edit m).getD m.text) line := by
  intro hmem
  obtain ⟨m, hm, hnew⟩ := (mem_replaceIn hmem).resolve_left hline
  have hunquoted := unquoted_of_mem_matchesIn hline hm
  cases htext : edit m with
  | none => exact hunquoted.text (by simpa [htext] using hnew)
  | some text => exact hedit m text hunquoted htext (by simpa [htext] using hnew)

end Pattern

namespace Literal

/-- **Edits of code without quotes** are the same in lines with the same code, and leave lines with
the same code and each with its own literals. -/
theorem rel_editCode {p : Pattern} {edit : Match → Option (List Char)}
    (hedit : ∀ m text, m.Unquoted → edit m = some text → '\'' ∉ text) {a b : List Char}
    (h : SameCode a b) :
    Option.Rel (fun x y => x.2 = y.2 ∧ SameCode x.1 y.1 ∧
      (x.1.count '\'' = a.count '\'' ∧ literalPieces x.1 = literalPieces a) ∧
      (y.1.count '\'' = b.count '\'' ∧ literalPieces y.1 = literalPieces b))
      (editCode p edit a) (editCode p edit b) := by
  have hf : ∀ code, '\'' ∉ code → '\'' ∉ p.replaceIn (fun m => (edit m).getD m.text) code :=
    fun _ hcode => Pattern.not_mem_replaceIn hedit hcode
  rw [editCode, editCode, h.codePieces_eq]
  split
  · exact .none
  · exact .some ⟨rfl, h.mapCode hf, ⟨count_quote_mapCode hf, literalPieces_mapCode hf⟩,
      count_quote_mapCode hf, literalPieces_mapCode hf⟩

end Literal

end SqlDialect
