import Mathlib.Data.List.SplitBy
import SqlDialect.Proofs.Line.Segment
import SqlDialect.Proofs.Text.Run

/-!
# The words of a line

A line is cut into words, which are the longest runs of word characters, and the characters between them
(`Text.words`).  Read from the left, the quotes among these tell which of the words are code
(`Literal.tokens`).

What is done to every stretch of code of a line by itself is said here of its words, if it is done word by
word: `Literal.mapCode_eq_flatMap_tokens` and `Literal.flatMap_codePieces`.
-/

namespace SqlDialect

namespace Text

/-- The words of the text and its other characters, each of these by itself. -/
def words (text : List Char) : List (List Char) :=
  text.splitBy fun a b => isWordChar a && isWordChar b

@[simp] theorem words_nil : words [] = [] := rfl

theorem words_append_cons {c : Char} (h : isWordChar c = false) (text rest : List Char) :
    words (text ++ c :: rest) = words text ++ [c] :: words rest := by
  have hrest : words (c :: rest) = [c] :: words rest := by
    rw [words, ← List.singleton_append, List.splitBy_append]
    · rfl
    · intro x hx y _
      obtain rfl : c = x := by simpa using hx
      rw [h, Bool.false_and]
  rw [← hrest]
  exact List.splitBy_append_cons rest fun x _ => by rw [h, Bool.and_false]

theorem words_cons {c : Char} (h : isWordChar c = false) (rest : List Char) :
    words (c :: rest) = [c] :: words rest :=
  words_append_cons h [] rest

theorem words_append {word rest : List Char} (h : Run isWordChar word rest) (hne : word ≠ []) :
    words (word ++ rest) = word :: words rest := by
  have hword : word.IsChain fun a b => (isWordChar a && isWordChar b) = true := by
    refine (List.pairwise_of_forall_mem_list fun a ha b hb => ?_).isChain
    rw [h.all a ha, h.all b hb]
    rfl
  rw [words, List.splitBy_append, List.splitBy_of_isChain hne hword]
  · rfl
  · exact fun x _ y hy => by rw [h.stops y hy, Bool.and_false]

theorem not_mem_of_mem_words {c : Char} {text word : List Char} (h : c ∉ text)
    (hword : word ∈ words text) : c ∉ word := by
  intro hc
  rw [← List.flatten_splitBy (fun a b => isWordChar a && isWordChar b) text] at h
  exact h (List.mem_flatten_of_mem hword hc)

/-- A text is empty, or it starts with a word or with another character. -/
theorem word_induction {motive : List Char → Prop} (nil : motive [])
    (other : ∀ c rest, isWordChar c = false → motive rest → motive (c :: rest))
    (word : ∀ word rest, word ≠ [] → Run isWordChar word rest → motive rest → motive (word ++ rest))
    (text : List Char) : motive text := by
  -- a word is taken as a whole, and so the induction is on the length
  induction hlength : text.length using Nat.strong_induction_on generalizing text with
  | _ n ih =>
    subst hlength
    cases text with
    | nil => exact nil
    | cons c rest =>
      cases hc : isWordChar c with
      | false => exact other c rest hc (ih rest.length (Nat.lt_succ_self _) rest rfl)
      | true =>
        have hrun := Run.of_takeWhile isWordChar (c :: rest)
        have hne : (c :: rest).takeWhile isWordChar ≠ [] := by
          rw [List.takeWhile_cons_of_pos hc]
          exact List.cons_ne_nil _ _
        have hsplit : (c :: rest).takeWhile isWordChar ++ (c :: rest).dropWhile isWordChar = c :: rest :=
          List.takeWhile_append_dropWhile
        have hshort : ((c :: rest).dropWhile isWordChar).length < (c :: rest).length := by
          have hsum := congrArg List.length hsplit
          rw [List.length_append] at hsum
          have := List.length_pos_of_ne_nil hne
          omega
        rw [← hsplit]
        exact word _ _ hne hrun (ih _ hshort _ rfl)

end Text

namespace Literal

/-- A word of a line, or a character by itself. -/
structure Token where
  text : List Char
  /-- Whether an even number of quotes precedes it. -/
  inCode : Bool
deriving DecidableEq, Repr

/-- The words and characters with what they are, where `inCode` says it of the first one. -/
def tokensFrom (inCode : Bool) : List (List Char) → List Token
  | [] => []
  | text :: rest => ⟨text, inCode⟩ :: tokensFrom (if text = ['\''] then !inCode else inCode) rest

/-- The words of the line and its other characters. -/
def tokens (line : List Char) : List Token :=
  tokensFrom true (Text.words line)

theorem tokensFrom_append {texts : List (List Char)} (h : ∀ text ∈ texts, '\'' ∉ text) (inCode : Bool)
    (rest : List (List Char)) :
    tokensFrom inCode (texts ++ rest) = texts.map (⟨·, inCode⟩) ++ tokensFrom inCode rest := by
  induction texts with
  | nil => rfl
  | cons text texts ih =>
    rw [List.forall_mem_cons] at h
    have hne : text ≠ ['\''] := by
      rintro rfl
      exact h.1 List.mem_cons_self
    rw [List.cons_append, tokensFrom, if_neg hne, ih h.2]
    rfl

theorem tokensFrom_words_of_not_mem {text : List Char} (h : '\'' ∉ text) (inCode : Bool) :
    tokensFrom inCode (Text.words text) = (Text.words text).map (⟨·, inCode⟩) := by
  have := tokensFrom_append (fun _ hword => Text.not_mem_of_mem_words h hword) inCode []
  simpa [tokensFrom] using this

theorem tokensFrom_words_append {text : List Char} (h : '\'' ∉ text) (inCode : Bool)
    (rest : List Char) :
    tokensFrom inCode (Text.words (text ++ '\'' :: rest)) = (Text.words text).map (⟨·, inCode⟩) ++
      ⟨['\''], inCode⟩ :: tokensFrom (!inCode) (Text.words rest) := by
  rw [Text.words_append_cons (by decide), tokensFrom_append fun _ hword =>
    Text.not_mem_of_mem_words h hword]
  rfl

/-- What is made of the words of every stretch of code is made of the line. -/
theorem mapCode_eq_flatMap_tokens {f : List Char → List Char} {g : Token → List Char}
    (hcode : ∀ text, '\'' ∉ text → f text = (Text.words text).flatMap fun word => g ⟨word, true⟩)
    (hliteral : ∀ word, g ⟨word, false⟩ = word) (hquote : g ⟨['\''], true⟩ = ['\''])
    (line : List Char) : mapCode f line = (tokens line).flatMap g := by
  have hwords (inCode : Bool) {text : List Char} (htext : '\'' ∉ text) :
      (if inCode then changed f text else text) =
        ((Text.words text).map fun word => (⟨word, inCode⟩ : Token)).flatMap g := by
    rw [List.flatMap_map]
    cases inCode with
    | true =>
      rw [if_pos rfl, changed]
      split
      · rename_i hempty
        rw [List.isEmpty_iff.1 hempty]
        rfl
      · exact hcode text htext
    | false =>
      rw [if_neg Bool.false_ne_true]
      simp only [hliteral, List.flatMap_id']
      exact (List.flatten_splitBy _ text).symm
  -- code and literals take turns, and so the induction is for both
  have general (inCode : Bool) : Text.joinWith ['\''] (mapPieces f inCode (pieces line)) =
      (tokensFrom inCode (Text.words line)).flatMap g := by
    induction line using quote_induction generalizing inCode with
    | plain text htext =>
      rw [pieces_of_not_mem htext, tokensFrom_words_of_not_mem htext, ← hwords inCode htext]
      rfl
    | quoted text rest htext ih =>
      have hone : g ⟨['\''], inCode⟩ = ['\''] := by
        cases inCode with
        | true => exact hquote
        | false => exact hliteral _
      have hne : mapPieces f (!inCode) (pieces rest) ≠ [] := by
        obtain ⟨piece, more, hrest⟩ := List.exists_cons_of_ne_nil (pieces_ne_nil rest)
        rw [hrest]
        exact List.cons_ne_nil _ _
      rw [pieces_append_cons, pieces_of_not_mem htext, List.singleton_append, mapPieces,
        joinWith_cons_of_ne_nil _ hne, ih, tokensFrom_words_append htext, List.flatMap_append,
        List.flatMap_cons, hone, hwords inCode htext]
      rfl
  rw [mapCode, ← mapPieces_true]
  exact general true

/-- What is found in the words of every stretch of code is found in the line. -/
theorem flatMap_codePieces {α : Type} {f : List Char → List α} {g : Token → List α}
    (hcode : ∀ text, '\'' ∉ text → f text = (Text.words text).flatMap fun word => g ⟨word, true⟩)
    (hliteral : ∀ word, g ⟨word, false⟩ = []) (hquote : g ⟨['\''], true⟩ = []) (line : List Char) :
    (codePieces line).flatMap f = (tokens line).flatMap g := by
  have hempty : f [] = [] := hcode [] List.not_mem_nil
  have hskip (all : List (List Char)) : (all.filter (!·.isEmpty)).flatMap f = all.flatMap f := by
    induction all with
    | nil => rfl
    | cons piece all ih => cases piece <;> simp [hempty, ih]
  have hsilent (texts : List (List Char)) :
      (texts.map fun word => (⟨word, false⟩ : Token)).flatMap g = [] := by
    simp [List.flatMap_map, hliteral]
  -- code and literals take turns, and so the induction is for both
  have general (inCode : Bool) : (everyOther ((pieces line).drop (!inCode).toNat)).flatMap f =
      (tokensFrom inCode (Text.words line)).flatMap g := by
    induction line using quote_induction generalizing inCode with
    | plain text htext =>
      rw [pieces_of_not_mem htext, tokensFrom_words_of_not_mem htext]
      cases inCode with
      | true => simp [everyOther, hcode text htext, List.flatMap_map]
      | false => rw [hsilent]; rfl
    | quoted text rest htext ih =>
      rw [pieces_append_cons, pieces_of_not_mem htext, tokensFrom_words_append htext,
        List.flatMap_append, List.flatMap_cons, ← ih]
      cases inCode with
      | true =>
        simp [everyOther_cons, hcode text htext, List.flatMap_map, hquote]
      | false =>
        rw [hsilent, hliteral]
        rfl
  rw [codePieces, hskip]
  exact general true

end Literal

end SqlDialect
