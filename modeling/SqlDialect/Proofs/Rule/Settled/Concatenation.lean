import SqlDialect.Proofs.Rule.Settled
import SqlDialect.Proofs.Text.Trim
import SqlDialect.Rule.Expression

/-!
# The operator of concatenation

Whether a plus sign joins strings is read off the operands next to it, which end at any character that
is neither part of one, nor white space, nor a parenthesis (`Rule.operandFrom_append_cons`).  Both the
plus sign and the new operator are such characters, so that the plus signs that are left in a piece
of the line find the same operands as before (`Rule.Whole.joinPieces`).
-/

namespace SqlDialect.Rule

open Text

variable {paren c : Char} {a b u v text before : List Char}

/-! ### Operands -/

/-- The operand behind white space and parentheses. -/
def operandFrom (paren : Char) (text : List Char) : List Char :=
  (((text.dropWhile isBlank).dropWhile (· == paren)).dropWhile isBlank).takeWhile isOperandChar

theorem operandAfter_eq (text : List Char) : operandAfter text = operandFrom '(' text := rfl

theorem operandBefore_eq (text : List Char) :
    operandBefore text = (operandFrom ')' text.reverse).reverse := by
  simp only [operandBefore, operandFrom, takeEndWhile, trimEnd, dropEndWhile, List.reverse_reverse]

theorem dropWhile_append_cons {q : Char → Bool} (h : q c = false) (a b : List Char) :
    (a ++ c :: b).dropWhile q = a.dropWhile q ++ c :: b := by
  rw [List.dropWhile_append]
  split
  · rename_i hnil
    rw [List.isEmpty_iff.1 hnil, List.dropWhile_cons_of_neg (by simp [h]), List.nil_append]
  · rfl

theorem takeWhile_append_cons {q : Char → Bool} (h : q c = false) (a b : List Char) :
    (a ++ c :: b).takeWhile q = a.takeWhile q := by
  induction a with
  | nil => exact List.takeWhile_cons_of_neg (by simp [h])
  | cons x a ih =>
    rw [List.cons_append, List.takeWhile_cons, List.takeWhile_cons, ih]

/-- Whether operands end at the character, wherever it stands. -/
def endsOperands (c : Char) : Bool :=
  !isOperandChar c && !isBlank c && c != '(' && c != ')'

theorem operandFrom_append_cons (hc : endsOperands c = true) (hparen : paren = '(' ∨ paren = ')')
    (a b : List Char) : operandFrom paren (a ++ c :: b) = operandFrom paren a := by
  simp only [endsOperands, Bool.and_eq_true, Bool.not_eq_true', bne_iff_ne] at hc
  obtain ⟨⟨⟨hoperand, hblank⟩, hopen⟩, hclose⟩ := hc
  have hne : (c == paren) = false := by
    rcases hparen with rfl | rfl
    · simpa using hopen
    · simpa using hclose
  rw [operandFrom, dropWhile_append_cons hblank, dropWhile_append_cons (q := (· == paren)) hne,
    dropWhile_append_cons hblank, takeWhile_append_cons hoperand]
  rfl

theorem isOperandChar_of_isBlank (hc : isBlank c = true) : isOperandChar c = false := by
  have every : blanks.all (fun c => !isOperandChar c) = true := rfl
  simpa using List.all_eq_true.1 every c ((mem_blanks_iff c).2 hc)

/-- White space at the end of the text has no part in its operand. -/
theorem operandFrom_concat (hc : isBlank c = true) (hparen : isBlank paren = false)
    (text : List Char) : operandFrom paren (text ++ [c]) = operandFrom paren text := by
  have hne : (c == paren) = false := by
    rw [beq_eq_false_iff_ne]
    rintro rfl
    rw [hc] at hparen
    cases hparen
  have hdrop (q : List Char) : (q ++ [c]).dropWhile isBlank = [] ∧ q.dropWhile isBlank = [] ∨
      (q ++ [c]).dropWhile isBlank = q.dropWhile isBlank ++ [c] := by
    rw [List.dropWhile_append]
    split
    · rename_i hnil
      exact .inl ⟨List.dropWhile_cons_of_pos hc, List.isEmpty_iff.1 hnil⟩
    · exact .inr rfl
  rw [operandFrom, operandFrom]
  rcases hdrop text with ⟨hnil, hnil'⟩ | hmore
  · rw [hnil, hnil']
  · rw [hmore, dropWhile_append_cons (q := (· == paren)) hne]
    rcases hdrop ((text.dropWhile isBlank).dropWhile (· == paren)) with ⟨hnil, hnil'⟩ | hmore
    · rw [hnil, hnil']
    · rw [hmore, takeWhile_append_cons (isOperandChar_of_isBlank hc)]

/-! ### Plus signs between operands -/

theorem joinsStrings_append_cons_left (hc : endsOperands c = true) (a b v : List Char) :
    joinsStrings (a ++ c :: b) v = joinsStrings b v := by
  rw [joinsStrings, joinsStrings, operandBefore_eq, operandBefore_eq, List.reverse_append,
    List.reverse_cons, List.append_assoc, List.singleton_append,
    operandFrom_append_cons hc (.inr rfl)]

theorem joinsStrings_append_cons_right (hc : endsOperands c = true) (u a b : List Char) :
    joinsStrings u (a ++ c :: b) = joinsStrings u a := by
  rw [joinsStrings, joinsStrings, operandAfter_eq, operandAfter_eq,
    operandFrom_append_cons hc (.inl rfl)]

theorem joinsStrings_cons_left (hc : isBlank c = true) (u v : List Char) :
    joinsStrings (c :: u) v = joinsStrings u v := by
  rw [joinsStrings, joinsStrings, operandBefore_eq, operandBefore_eq, List.reverse_cons,
    operandFrom_concat hc rfl]

theorem joinsStrings_concat_right (hc : isBlank c = true) (u v : List Char) :
    joinsStrings u (v ++ [c]) = joinsStrings u v := by
  rw [joinsStrings, joinsStrings, operandAfter_eq, operandAfter_eq, operandFrom_concat hc rfl]

/-! ### Texts without a join -/

/-- No plus sign in the text joins strings. -/
def Whole (text : List Char) : Prop :=
  ∀ u v, text = u ++ '+' :: v → joinsStrings u v = false

theorem whole_of_not_mem (h : '+' ∉ text) : Whole text := by
  rintro u v rfl
  simp at h

namespace Whole

theorem append_cons (ha : Whole a) (hb : Whole b) (hc : endsOperands c = true)
    (hplus : c = '+' → joinsStrings a b = false) : Whole (a ++ c :: b) := by
  intro u v h
  rcases List.append_eq_append_iff.1 h with ⟨s, rfl, hs⟩ | ⟨s, rfl, hs⟩
  · -- the plus sign stands in `b`
    cases s with
    | nil =>
      obtain ⟨hc, rfl⟩ := List.cons.inj hs
      rw [List.append_nil]
      exact hplus hc
    | cons x s =>
      obtain ⟨rfl, rfl⟩ := List.cons_eq_cons.1 hs
      rw [joinsStrings_append_cons_left hc]
      exact hb s v rfl
  · cases s with
    | nil =>
      obtain ⟨hc, rfl⟩ := List.cons.inj hs
      rw [List.append_nil] at hplus
      exact hplus hc.symm
    | cons x s =>
      obtain ⟨rfl, rfl⟩ := List.cons_eq_cons.1 hs
      change joinsStrings u (s ++ c :: b) = false
      rw [joinsStrings_append_cons_right hc]
      exact ha u s rfl

theorem cons_iff (hc : isBlank c = true) : Whole (c :: text) ↔ Whole text := by
  have hplus : c ≠ '+' := by
    rintro rfl
    exact absurd hc (by decide)
  constructor
  · rintro h u v rfl
    rw [← joinsStrings_cons_left hc]
    exact h (c :: u) v rfl
  · intro h u v heq
    cases u with
    | nil => exact absurd (List.head_eq_of_cons_eq heq) hplus
    | cons x u =>
      obtain ⟨rfl, rfl⟩ := List.cons_eq_cons.1 heq
      rw [joinsStrings_cons_left hc]
      exact h u v rfl

theorem concat_iff (hc : isBlank c = true) : Whole (text ++ [c]) ↔ Whole text := by
  have hplus : c ≠ '+' := by
    rintro rfl
    exact absurd hc (by decide)
  constructor
  · rintro h u v rfl
    rw [← joinsStrings_concat_right hc]
    exact h u (v ++ [c]) (by simp)
  · intro h u v heq
    rcases List.eq_nil_or_concat' v with rfl | ⟨v, x, rfl⟩
    · exact absurd (List.append_inj_right' heq rfl) (by simpa using hplus)
    · rw [← List.cons_append, ← List.append_assoc] at heq
      obtain ⟨rfl, hlast⟩ := List.append_inj' heq rfl
      obtain rfl := List.singleton_inj.1 hlast
      rw [joinsStrings_concat_right hc]
      exact h u v rfl

theorem trimStart (h : Whole text) : Whole (trimStart text) := by
  rw [Text.trimStart]
  induction text with
  | nil => exact h
  | cons c text ih =>
    rw [List.dropWhile_cons]
    split
    · rename_i hc
      exact ih ((cons_iff hc).1 h)
    · exact h

theorem trimEnd (h : Whole text) : Whole (trimEnd text) := by
  induction text using List.reverseRecOn with
  | nil => exact h
  | append_singleton text c ih =>
    rw [trimEnd_eq, List.rdropWhile_concat]
    split
    · rename_i hc
      exact ih ((concat_iff hc).1 h)
    · exact h

/-- Pieces that are put together with the operator are not joined any further. -/
theorem joinPieces {pieces : List (List Char)} (h : ∀ piece ∈ pieces, Whole piece) :
    Whole (joinPieces pieces) := by
  induction pieces with
  | nil => exact whole_of_not_mem (by simp [Rule.joinPieces])
  | cons piece rest ih =>
    rw [List.forall_mem_cons] at h
    cases rest with
    | nil => exact h.1
    | cons next rest =>
      have hpiece : Whole (Text.trimEnd piece ++ [' ']) := (concat_iff rfl).2 h.1.trimEnd
      have hrest : Whole (' ' :: Rule.joinPieces (next :: rest)) := (cons_iff rfl).2 (ih h.2)
      have hbar : Whole ('|' :: ' ' :: Rule.joinPieces (next :: rest)) :=
        append_cons (whole_of_not_mem (List.not_mem_nil)) hrest rfl (absurd · (by decide))
      have hoperator : " || ".toList = [' ', '|', '|', ' '] := rfl
      rw [Rule.joinPieces.eq_3 _ _ (List.cons_ne_nil _ _), hoperator]
      simpa using append_cons hpiece hbar (c := '|') rfl (absurd · (by decide))

end Whole

/-! ### Cutting a line -/

/-- The first piece goes on to the plus sign that it is cut at, or to the end; what is left in it and
in the other pieces joins no strings. -/
theorem exists_cutAtJoins (before text : List Char) : ∃ first rest,
    cutAtJoins before text = first :: rest ∧
    (text = first ∨ ∃ behind, text = first ++ '+' :: behind) ∧
    (∀ u v, first = u ++ '+' :: v → joinsStrings (before.reverse ++ u) v = false) ∧
    ∀ piece ∈ rest, Whole piece := by
  induction text generalizing before with
  | nil => exact ⟨[], [], rfl, .inl rfl, fun u v h => absurd h (by simp), by simp⟩
  | cons c text ih =>
    obtain ⟨first, rest, hcut, htext, hfirst, hrest⟩ := ih (c :: before)
    rw [cutAtJoins, hcut]
    split
    · rename_i hjoin
      rw [Bool.and_eq_true, beq_iff_eq] at hjoin
      obtain ⟨rfl, -⟩ := hjoin
      refine ⟨[], first :: rest, rfl, .inr ⟨text, rfl⟩, fun u v h => absurd h (by simp), ?_⟩
      rw [List.forall_mem_cons]
      refine ⟨fun u v h => ?_, hrest⟩
      -- the plus sign ends the operands of what stands behind it
      have := hfirst u v h
      rwa [List.reverse_cons, List.append_assoc, List.singleton_append,
        joinsStrings_append_cons_left rfl] at this
    · rename_i hjoin
      refine ⟨c :: first, rest, rfl, ?_, fun u v h => ?_, hrest⟩
      · rcases htext with rfl | ⟨behind, rfl⟩
        · exact .inl rfl
        · exact .inr ⟨behind, rfl⟩
      · cases u with
        | nil =>
          obtain ⟨rfl, rfl⟩ := List.cons_eq_cons.1 h
          rw [List.append_nil]
          rw [Bool.not_eq_true, beq_self_eq_true, Bool.true_and] at hjoin
          rcases htext with rfl | ⟨behind, rfl⟩
          · exact hjoin
          · rwa [joinsStrings_append_cons_right rfl] at hjoin
        | cons x u =>
          obtain ⟨rfl, rfl⟩ := List.cons_eq_cons.1 h
          have := hfirst u v rfl
          rwa [List.reverse_cons, List.append_assoc] at this

theorem whole_of_mem_cutAtJoins {piece : List Char} (h : piece ∈ cutAtJoins [] text) :
    Whole piece := by
  obtain ⟨first, rest, hcut, -, hfirst, hrest⟩ := exists_cutAtJoins [] text
  rw [hcut] at h
  rcases List.mem_cons.1 h with rfl | h
  · exact hfirst
  · exact hrest piece h

/-- A text in which nothing joins strings is not cut. -/
theorem cutAtJoins_eq_singleton
    (h : ∀ u v, text = u ++ '+' :: v → joinsStrings (before.reverse ++ u) v = false) :
    cutAtJoins before text = [text] := by
  induction text generalizing before with
  | nil => rfl
  | cons c text ih =>
    have hjoin : ¬(c == '+' && joinsStrings before.reverse text) = true := by
      rw [Bool.and_eq_true, beq_iff_eq]
      rintro ⟨rfl, hjoin⟩
      have := h [] text rfl
      rw [List.append_nil, hjoin] at this
      cases this
    have hcut : cutAtJoins (c :: before) text = [text] := by
      refine ih fun u v htext => ?_
      rw [List.reverse_cons, List.append_assoc]
      exact h (c :: u) v (by rw [htext]; rfl)
    rw [cutAtJoins, if_neg hjoin, hcut]

theorem Whole.cutAtJoins_eq (h : Whole text) : cutAtJoins [] text = [text] := by
  refine cutAtJoins_eq_singleton fun u v htext => ?_
  rw [List.reverse_nil, List.nil_append]
  exact h u v htext

/-! ### The rule -/

/-- The line that comes of cutting a line, if it is cut at all. -/
def joinedAtCuts : List (List Char) → Option Edit
  | first :: second :: rest =>
    some (.changed (joinPieces (first :: (second :: rest).map Text.trimStart)) ['+'])
  | _ => none

theorem whole_of_joinedAtCuts {e : Edit} (h : joinedAtCuts (cutAtJoins [] text) = some e) :
    Whole e.line := by
  unfold joinedAtCuts at h
  split at h
  · rename_i first second rest hcut
    obtain rfl := Option.some.inj h
    have hpieces : ∀ piece ∈ first :: second :: rest, Whole piece :=
      fun piece hpiece => whole_of_mem_cutAtJoins (hcut ▸ hpiece)
    rw [List.forall_mem_cons] at hpieces
    refine Whole.joinPieces ?_
    rw [List.forall_mem_cons, List.forall_mem_map]
    exact ⟨hpieces.1, fun piece hpiece => (hpieces.2 piece hpiece).trimStart⟩
  · cases h

theorem stringConcat_settles : stringConcat.Settles := by
  refine settles_of_guarded (fun line => joinedAtCuts (cutAtJoins [] line)) (fun ctx line => ?_)
    fun line e _ h => ?_
  · unfold stringConcat
    dsimp only
    split
    · exact .inl rfl
    · exact .inr rfl
  · rw [(whole_of_joinedAtCuts h).cutAtJoins_eq]
    rfl

end SqlDialect.Rule
