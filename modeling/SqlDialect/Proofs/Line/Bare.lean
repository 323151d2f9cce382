import SqlDialect.Line.Remark
import SqlDialect.Proofs.Line.Bracket
import SqlDialect.Proofs.Line.Scan

/-!
# Bare code

Code is bare if it is one line that closes its quotes, holds no comment and quotes no identifiers
(`Line.IsBare`).  Then it is read back from a line in which a remark stands behind it
(`Line.IsBare.append_marker`).

A scan for quotes and comments passes over everything but the characters of `Line.scanned`.
-/

namespace SqlDialect

namespace Literal

theorem mapEveryOther_eq_self {f : List Char → List Char} {all : List (List Char)}
    (h : ∀ piece ∈ all, f piece = piece) : mapEveryOther f all = all := by
  have hpiece {piece : List Char} (hpiece : f piece = piece) :
      (if piece.isEmpty then [] else f piece) = piece := by
    cases piece with
    | nil => rfl
    | cons c piece => exact hpiece
  induction all using everyOther.induct with
  | case1 => rfl
  | case2 piece => rw [mapEveryOther, hpiece (h piece (by simp))]
  | case3 piece literal rest ih =>
    rw [mapEveryOther, hpiece (h piece (by simp)), ih fun other hother => h other (by simp [hother])]

end Literal

namespace Identifier

/-- A line without backticks and opening brackets quotes no identifiers. -/
theorem unquote_eq_self {line : List Char} (hbracket : '[' ∉ line) (hbacktick : backtick ∉ line) :
    unquote line = line := by
  have hpiece : ∀ piece ∈ Literal.pieces line, unquoteCode piece = piece := by
    intro piece hpiece
    have hsubset : piece ⊆ line := by
      conv_rhs => rw [← Literal.joinWith_pieces line]
      exact Literal.subset_joinWith _ hpiece
    have hfilter : piece.filter (· != backtick) = piece :=
      List.filter_eq_self.2 fun c hc => bne_iff_ne.2 fun h => hbacktick (h ▸ hsubset hc)
    rw [unquoteCode, hfilter, unbracket_of_not_mem fun h => hbracket (hsubset h)]
  rw [unquote_eq, Literal.mapCode, Literal.mapEveryOther_eq_self hpiece, Literal.joinWith_pieces]

end Identifier

namespace Line

/-! ### Quotes and comments -/

/-- The characters that a scan for quotes and comments stops at. -/
def scanned : List Char := ['\'', '"', '-']

theorem isBlank_of_mem_scanned {c : Char} (hc : c ∈ scanned) : Text.isBlank c = false := by
  simp only [scanned, List.mem_cons, List.not_mem_nil, or_false] at hc
  rcases hc with rfl | rfl | rfl <;> rfl

theorem isWordChar_of_mem_scanned {c : Char} (hc : c ∈ scanned) : Text.isWordChar c = false := by
  simp only [scanned, List.mem_cons, List.not_mem_nil, or_false] at hc
  rcases hc with rfl | rfl | rfl <;> rfl

variable {open? : Option Char} {text : List Char}

theorem quoteAfter_of_not_scanned (h : IsQuote open?) {c : Char} (hc : c ∉ scanned) :
    quoteAfter open? c = open? := by
  simp only [scanned, List.mem_cons, List.not_mem_nil, or_false, not_or] at hc
  exact quoteAfter_of_ne h hc.1 hc.2.1

theorem quoteBehind_of_not_scanned (h : IsQuote open?) (htext : ∀ c ∈ text, c ∉ scanned) :
    quoteBehind open? text = open? := by
  have hnot {c : Char} (hc : c ∈ scanned) : c ∉ text := fun hmem => htext c hmem hc
  exact quoteBehind_of_not_mem h (hnot (by decide)) (hnot (by decide))

theorem splitCommentFrom_append_of_not_scanned (h : IsQuote open?)
    (htext : ∀ c ∈ text, c ∉ scanned) (rest : List Char) :
    (splitCommentFrom open? (text ++ rest)).2 = (splitCommentFrom open? rest).2 := by
  induction text with
  | nil => rfl
  | cons c text ih =>
    rw [List.forall_mem_cons] at htext
    have hc : c ≠ '-' := by
      rintro rfl
      exact htext.1 (by decide)
    have hmark : commentMark.isPrefixOf (c :: (text ++ rest)) = false := by
      simp [commentMark, List.isPrefixOf, hc.symm]
    rw [List.cons_append, splitCommentFrom, hmark, Bool.and_false, if_neg Bool.false_ne_true,
      quoteAfter_of_not_scanned h htext.1]
    exact ih htext.2

/-- A comment starts here, or the scan goes on. -/
theorem splitCommentFrom_cons_eq_nil_iff {c : Char} {rest : List Char} :
    (splitCommentFrom open? (c :: rest)).2 = [] ↔
      ¬(open? = none ∧ c = '-' ∧ rest.head? = some '-') ∧
        (splitCommentFrom (quoteAfter open? c) rest).2 = [] := by
  have hmark : (open?.isNone && commentMark.isPrefixOf (c :: rest)) = true ↔
      open? = none ∧ c = '-' ∧ rest.head? = some '-' := by
    cases rest with
    | nil => simp [commentMark, List.isPrefixOf]
    | cons d rest => simp [commentMark, List.isPrefixOf, @eq_comm _ '-']
  rw [splitCommentFrom, ← hmark]
  split
  · rename_i h
    simp [h]
  · rename_i h
    simp [h]

/-- The code of a line holds no comment. -/
theorem splitCommentFrom_code (open? : Option Char) (line : List Char) :
    (splitCommentFrom open? (splitCommentFrom open? line).1).2 = [] := by
  induction line generalizing open? with
  | nil => rfl
  | cons c line ih =>
    rw [splitCommentFrom]
    split
    · rfl
    · rename_i hmark
      refine splitCommentFrom_cons_eq_nil_iff.2 ⟨?_, ih _⟩
      rintro ⟨rfl, rfl, hhead⟩
      obtain ⟨rest, hrest⟩ : ∃ rest, line = '-' :: rest := by
        have happend := splitCommentFrom_append (quoteAfter none '-') line
        obtain ⟨rest, hcode⟩ := List.head?_eq_some_iff.1 hhead
        rw [hcode] at happend
        exact ⟨_, happend.symm⟩
      rw [hrest] at hmark
      exact hmark rfl

/-- Code without a comment that closes its quotes and quotes no identifiers. -/
structure IsBare (code : List Char) : Prop where
  isCode : (splitComment code).2 = []
  isClosed : quoteBehind none code = none
  bracket : '[' ∉ code
  backtick : Identifier.backtick ∉ code
  lineFeed : '\n' ∉ code

instance (code : List Char) : Decidable (IsBare code) :=
  decidable_of_iff ((splitComment code).2 = [] ∧ quoteBehind none code = none ∧ '[' ∉ code ∧
      Identifier.backtick ∉ code ∧ '\n' ∉ code)
    ⟨fun ⟨isCode, isClosed, bracket, backtick, lineFeed⟩ =>
        ⟨isCode, isClosed, bracket, backtick, lineFeed⟩,
      fun h => ⟨h.isCode, h.isClosed, h.bracket, h.backtick, h.lineFeed⟩⟩

theorem isBare_nil : IsBare [] := by
  exact ⟨rfl, rfl, List.not_mem_nil, List.not_mem_nil, List.not_mem_nil⟩

theorem isBlank_of_mem_tabs : ∀ c ∈ ['\t', '\t'], Text.isBlank c = true :=
  List.forall_mem_cons.2 ⟨rfl, List.forall_mem_singleton.2 rfl⟩

/-- What is read of code that a remark stands behind. -/
theorem IsBare.append_marker {code : List Char} (h : IsBare code) (rest : List Char) :
    splitComment (code ++ (Remark.marker ++ rest)) =
      (code ++ ['\t', '\t'], "--// ".toList ++ rest) := by
  have hhead : (Remark.marker ++ rest).head? = some '\t' := rfl
  have hsplit : splitComment (code ++ (Remark.marker ++ rest)) = _ :=
    splitCommentFrom_append_of_code h.isCode (by rw [hhead]; decide)
  rw [hsplit, h.isClosed]
  rfl

theorem IsBare.unquote_append {code blanks : List Char} (h : IsBare code)
    (hblanks : ∀ c ∈ blanks, Text.isBlank c = true) :
    Identifier.unquote (code ++ blanks) = code ++ blanks := by
  have hnot {c : Char} (hcode : c ∉ code) (hc : Text.isBlank c = false) : c ∉ code ++ blanks := by
    rw [List.mem_append, not_or]
    refine ⟨hcode, fun hmem => ?_⟩
    rw [hblanks c hmem] at hc
    cases hc
  exact Identifier.unquote_eq_self (hnot h.bracket (by decide)) (hnot h.backtick (by decide))

theorem IsBare.trimEnd {code : List Char} (h : IsBare code) : IsBare (Text.trimEnd code) := by
  obtain ⟨blanks, hcode, hblanks⟩ := Text.exists_eq_trimEnd_append code
  have hnot {c : Char} (hc : c ∉ code) : c ∉ Text.trimEnd code := fun hmem =>
    hc (hcode ▸ List.mem_append_left _ hmem)
  have hscanned : ∀ c ∈ blanks, c ∉ scanned := by
    intro c hc hmem
    have hvisible := isBlank_of_mem_scanned hmem
    rw [hblanks c hc] at hvisible
    cases hvisible
  refine ⟨?_, ?_, hnot h.bracket, hnot h.backtick, hnot h.lineFeed⟩
  · by_contra hcomment
    have hsplit : splitComment (Text.trimEnd code ++ blanks) = _ :=
      splitCommentFrom_append_of_comment hcomment
    have hnone := h.isCode
    rw [hcode, hsplit] at hnone
    exact hcomment (List.append_eq_nil_iff.1 hnone).1
  · have hclosed := h.isClosed
    have hquote : IsQuote (quoteBehind none (Text.trimEnd code)) := isQuote_quoteBehind _
    rwa [hcode, quoteBehind_append, quoteBehind_of_not_scanned hquote hscanned] at hclosed

end Line

end SqlDialect
