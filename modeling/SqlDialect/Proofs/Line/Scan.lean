import SqlDialect.Line.Paren
import SqlDialect.Proofs.Text.Trim

/-!
# Scans that skip quoted text

* `Line.splitComment_append`, `Line.mark_isPrefix_of_splitComment` : a line is its code and its
  comment, and a comment starts with the comment mark.
* `Line.isBlank_splitComment`, `Line.isBlank_splitComment_of_quiet` : blank lines and comment lines
  are those without visible code.
* `Line.isQuote_quoteBehind`, `Line.quoteBehind_of_not_mem` : which quote is open behind a text.
* `Line.splitCommentFrom_append_of_code`, `Line.splitCommentFrom_append_of_comment` : the comment of
  a text that is put together from two.
* `Line.drop_of_matchingParen`, `Line.lt_of_matchingParen` : a matching parenthesis stands behind
  an opening one.
-/

namespace SqlDialect.Line

/-! ### Trailing comments -/

theorem splitCommentFrom_append (open? : Option Char) (line : List Char) :
    (splitCommentFrom open? line).1 ++ (splitCommentFrom open? line).2 = line := by
  induction line generalizing open? with
  | nil => rfl
  | cons c line ih =>
    rw [splitCommentFrom]
    split
    · rfl
    · exact congrArg (c :: ·) (ih _)

/-- A line is its code followed by its comment. -/
theorem splitComment_append (line : List Char) :
    (splitComment line).1 ++ (splitComment line).2 = line :=
  splitCommentFrom_append none line

theorem mark_isPrefix_of_splitCommentFrom {open? : Option Char} {line : List Char}
    (h : (splitCommentFrom open? line).2 ≠ []) :
    commentMark <+: (splitCommentFrom open? line).2 := by
  induction line generalizing open? with
  | nil => exact absurd rfl h
  | cons c line ih =>
    rw [splitCommentFrom] at h ⊢
    split
    · rename_i hmark
      exact List.isPrefixOf_iff_prefix.1 ((Bool.and_eq_true _ _).mp hmark).2
    · rename_i hmark
      rw [if_neg hmark] at h
      exact ih h

/-- A comment starts with the comment mark. -/
theorem mark_isPrefix_of_splitComment {line : List Char} (h : (splitComment line).2 ≠ []) :
    commentMark <+: (splitComment line).2 :=
  mark_isPrefix_of_splitCommentFrom h

/-- A line that is neither blank nor a comment has visible code. -/
theorem isBlank_splitComment {line : List Char} (hcomment : isComment line = false)
    (hblank : isBlank line = false) : isBlank (splitComment line).1 = false := by
  by_contra hcode
  have hcode : isBlank (splitComment line).1 = true := by simpa using hcode
  have hline := splitComment_append line
  by_cases hnone : (splitComment line).2 = []
  · rw [hnone, List.append_nil] at hline
    rw [hline, hblank] at hcode
    cases hcode
  · -- the comment is what is left without the white space before it
    have hmark := mark_isPrefix_of_splitComment hnone
    have hstart : Text.trimStart line = (splitComment line).2 := by
      obtain ⟨rest, hrest⟩ := hmark
      conv_lhs => rw [← hline, ← hrest]
      rw [Text.trimStart, List.dropWhile_append_of_pos (isBlank_iff.1 hcode), ← hrest]
      rfl
    rw [isComment, hstart, List.isPrefixOf_iff_prefix.2 hmark] at hcomment
    cases hcomment

theorem isBlank_splitCommentFrom {line : List Char}
    (h : isComment line = true ∨ isBlank line = true) :
    isBlank (splitCommentFrom none line).1 = true := by
  induction line with
  | nil => rfl
  | cons c line ih =>
    rw [splitCommentFrom]
    split
    · rfl
    · rename_i hmark
      -- the line does not start with the mark, so it starts with white space
      have hc : Text.isBlank c = true := by
        by_contra hc
        rcases h with h | h
        · rw [isComment, Text.trimStart, List.dropWhile_cons_of_neg hc] at h
          exact hmark (by simpa using h)
        · exact hc (isBlank_iff.1 h c List.mem_cons_self)
      have hquote : quoteAfter none c = none := by
        rw [quoteAfter, if_neg]
        rw [Bool.or_eq_true, beq_iff_eq, beq_iff_eq]
        rintro (rfl | rfl) <;> cases hc
      have hrest : isComment line = true ∨ isBlank line = true := by
        rcases h with h | h
        · rw [isComment, Text.trimStart, List.dropWhile_cons_of_pos hc] at h
          exact .inl h
        · exact .inr (isBlank_iff.2 fun d hd => isBlank_iff.1 h d (List.mem_cons_of_mem _ hd))
      rw [hquote]
      simpa [isBlank, hc] using ih hrest

/-- A blank line and a comment have no visible code. -/
theorem isBlank_splitComment_of_quiet {line : List Char}
    (h : isComment line = true ∨ isBlank line = true) : isBlank (splitComment line).1 = true :=
  isBlank_splitCommentFrom h

/-! ### Texts put together -/

/-- The quote that is open behind the text, if `open?` was open before it. -/
def quoteBehind (open? : Option Char) (text : List Char) : Option Char :=
  text.foldl quoteAfter open?

theorem quoteBehind_append (open? : Option Char) (a b : List Char) :
    quoteBehind open? (a ++ b) = quoteBehind (quoteBehind open? a) b :=
  List.foldl_append

/-- What can be open: nothing, or one of the two quotes. -/
def IsQuote (open? : Option Char) : Prop :=
  ∀ q, open? = some q → q = '\'' ∨ q = '"'

section IsQuote

variable {open? : Option Char} {text : List Char} {c quote : Char}

theorem IsQuote.quoteAfter (h : IsQuote open?) (c : Char) : IsQuote (quoteAfter open? c) := by
  intro q hq
  unfold Line.quoteAfter at hq
  split at hq
  · split at hq
    · cases hq
    · exact h q hq
  · split at hq
    · rename_i hc
      obtain rfl := Option.some.inj hq
      simpa using hc
    · cases hq

theorem isQuote_quoteBehind (text : List Char) : IsQuote (quoteBehind none text) := by
  induction text using List.reverseRecOn with
  | nil => exact nofun
  | append_singleton text c ih =>
    rw [quoteBehind_append]
    exact ih.quoteAfter c

/-- Only single and double quotes are ever open. -/
theorem quote_of_quoteBehind (h : quoteBehind none text = some quote) :
    quote = '\'' ∨ quote = '"' :=
  isQuote_quoteBehind text quote h

theorem quoteAfter_of_ne (h : IsQuote open?) (hsingle : c ≠ '\'') (hdouble : c ≠ '"') :
    quoteAfter open? c = open? := by
  cases open? with
  | none => simp [quoteAfter, hsingle, hdouble]
  | some q =>
    have hq : c ≠ q := by
      rintro rfl
      exact (h c rfl).elim hsingle hdouble
    simp [quoteAfter, hq]

/-- A text without quotes opens none and closes none. -/
theorem quoteBehind_of_not_mem (h : IsQuote open?) (hsingle : '\'' ∉ text) (hdouble : '"' ∉ text) :
    quoteBehind open? text = open? := by
  induction text with
  | nil => rfl
  | cons c text ih =>
    rw [List.mem_cons, not_or] at hsingle hdouble
    rw [quoteBehind, List.foldl_cons, quoteAfter_of_ne h (Ne.symm hsingle.1) (Ne.symm hdouble.1)]
    exact ih hsingle.2 hdouble.2

end IsQuote

theorem mark_isPrefixOf_append {a b : List Char} (ha : a ≠ []) (hb : b.head? ≠ some '-') :
    commentMark.isPrefixOf (a ++ b) = commentMark.isPrefixOf a := by
  obtain ⟨c, a, rfl⟩ := List.exists_cons_of_ne_nil ha
  cases a with
  | cons d a => rfl
  | nil =>
    cases b with
    | nil => rfl
    | cons d b =>
      have hd : d ≠ '-' := by simpa using hb
      simp [commentMark, List.isPrefixOf, hd.symm]

/-- Behind a text without a comment, the scan goes on with the quote that is open there. -/
theorem splitCommentFrom_append_of_code {open? : Option Char} {a b : List Char}
    (ha : (splitCommentFrom open? a).2 = []) (hb : b.head? ≠ some '-') :
    splitCommentFrom open? (a ++ b) =
      (a ++ (splitCommentFrom (quoteBehind open? a) b).1,
        (splitCommentFrom (quoteBehind open? a) b).2) := by
  induction a generalizing open? with
  | nil => rfl
  | cons c a ih =>
    have hprefix := mark_isPrefixOf_append (List.cons_ne_nil c a) hb
    rw [splitCommentFrom] at ha
    split at ha
    · cases ha
    · rename_i hmark
      rw [List.cons_append] at hprefix
      rw [List.cons_append, splitCommentFrom, hprefix, if_neg hmark, ih ha]
      rfl

/-- A comment goes on to the end of the line. -/
theorem splitCommentFrom_append_of_comment {open? : Option Char} {a b : List Char}
    (ha : (splitCommentFrom open? a).2 ≠ []) :
    splitCommentFrom open? (a ++ b) =
      ((splitCommentFrom open? a).1, (splitCommentFrom open? a).2 ++ b) := by
  induction a generalizing open? with
  | nil => exact absurd rfl ha
  | cons c a ih =>
    rw [splitCommentFrom] at ha
    rw [List.cons_append, splitCommentFrom, splitCommentFrom]
    split at ha
    · rename_i hmark
      rw [Bool.and_eq_true, List.isPrefixOf_iff_prefix] at hmark
      have hlonger : commentMark.isPrefixOf (c :: (a ++ b)) = true :=
        List.isPrefixOf_iff_prefix.2 (hmark.2.trans (List.prefix_append (c :: a) b))
      rw [if_pos (by simp [hmark.1, hlonger]), if_pos (by simp [hmark])]
      rfl
    · rename_i hmark
      -- the comment starts further right, so that the mark has room before `b`
      have hsame : commentMark.isPrefixOf (c :: (a ++ b)) = commentMark.isPrefixOf (c :: a) := by
        cases a with
        | nil => exact absurd rfl ha
        | cons d a => rfl
      rw [hsame, if_neg hmark, if_neg hmark, ih ha]

/-- There is no comment before an open quote is closed. -/
theorem isPrefix_splitCommentFrom {quote : Char} {a : List Char} (h : quote ∉ a) (b : List Char) :
    a <+: (splitCommentFrom (some quote) (a ++ b)).1 := by
  induction a with
  | nil => exact List.nil_prefix
  | cons c a ih =>
    rw [List.mem_cons, not_or] at h
    have hquote : quoteAfter (some quote) c = some quote := by
      simp [quoteAfter, Ne.symm h.1]
    rw [List.cons_append, splitCommentFrom, if_neg (by simp), hquote]
    exact List.cons_prefix_cons.2 ⟨rfl, ih h.2⟩

/-! ### Parentheses -/

theorem le_of_closingParen {depth : Nat} {open? : Option Char} {index i : Nat} {line : List Char}
    (h : closingParen depth open? index line = some i) : index ≤ i := by
  induction line generalizing depth open? index with
  | nil => cases h
  | cons c line ih =>
    rw [closingParen] at h
    generalize (if open?.isSome then depth
      else if c == '(' then depth + 1 else if c == ')' then depth - 1 else depth) = depth' at h
    split at h
    · exact (Option.some.inj h).le
    · exact (Nat.le_succ index).trans (ih h)

/-- Only an opening parenthesis has a matching one. -/
theorem drop_of_matchingParen {line : List Char} {index i : Nat}
    (h : matchingParen line index = some i) : ∃ rest, line.drop index = '(' :: rest := by
  rw [matchingParen] at h
  split at h
  · rename_i rest hrest; exact ⟨rest, hrest⟩
  · cases h

theorem lt_of_matchingParen {line : List Char} {index i : Nat}
    (h : matchingParen line index = some i) : index < i := by
  rw [matchingParen] at h
  split at h
  · exact le_of_closingParen h
  · cases h

end SqlDialect.Line
