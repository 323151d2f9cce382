import SqlDialect.Proofs.Pattern.Group
import SqlDialect.Proofs.Pattern.Scan
import SqlDialect.Proofs.Rule.FirstChange
import SqlDialect.Proofs.Text.Run
import SqlDialect.Rule.FunctionCall

/-!
# The left operand of a comparison

The rule about `SIMILAR TO` moves the left operand of a comparison into a call.  A comparison consists of
a name with points, perhaps one pair of parentheses, the operator and a literal (`Similarity`), and there
is one at most at a place (`Similarity.eq_of_append_eq`).

`Moves` follows the scan of a line from left to right.  What it keeps is `Moves.Behind`: where a character
of a name stands in front of a place, no comparison starts at that character.  So the operand that is
moved takes all of its name along.  It does not take along what is no part of a name: the quotes of a
quoted name, a subscript, or the value in front of a cast (`Rule.similarTo_operand`).
-/

namespace SqlDialect

open Pattern

/-! ### Comparisons -/

namespace Similarity

/-- Whether the character is one of a name with points. -/
def isNameChar (c : Char) : Bool := Text.isWordChar c || c == '.'

/-- The words of the operator, with the white space behind them. -/
def operator (negated : Bool) : Pattern :=
  (if negated then keyword "NOT" ++ gap else empty) ++ (phrase ["SIMILAR", "TO"] ++ gap)

/-- What stands between the operand and the pattern. -/
def link (negated : Bool) : Pattern := gap ++ operator negated

end Similarity

/-- A comparison `operand SIMILAR TO 'pattern'`, in its parts. -/
@[ext]
structure Similarity where
  /-- The name that the operand starts with. -/
  name : List Char
  /-- The parentheses right behind the name, if there are any. -/
  args : List Char
  /-- Whether the operator is negated. -/
  negated : Bool
  /-- The words of the operator, and the white space around them. -/
  words : List Char
  /-- What is between the quotes. -/
  pattern : List Char
  name_ne_nil : name ≠ []
  isNameChar_of_mem : ∀ c ∈ name, Similarity.isNameChar c = true
  args_eq : args = [] ∨ ∃ x, args = '(' :: (x ++ [')']) ∧ '(' ∉ x ∧ ')' ∉ x
  reads_words : (Similarity.link negated).Reads none words none
  quote_pattern : '\'' ∉ pattern

namespace Similarity

/-- The left operand. -/
def operand (k : Similarity) : List Char := k.name ++ k.args

/-- The comparison in the line. -/
def text (k : Similarity) : List Char :=
  k.operand ++ (k.words ++ '\'' :: (k.pattern ++ ['\'']))

/-- The call that takes the place of it. -/
def call (k : Similarity) : List Char :=
  (if k.negated then "NOT ".toList else []) ++ "REGEXP_LIKE(".toList ++ k.operand ++
    ", '".toList ++ Rule.similarToRegex k.pattern ++ "')".toList

variable {k k' : Similarity} {rest rest' : List Char}

/-! ### One way to read a comparison -/

theorem exists_cons_of_reads_keyword {c : Char} {word : String} {text : List Char}
    (hword : word.toList.head? = some c) (h : (keyword word).Reads none text none) :
    ∃ d rest, text = d :: rest ∧ Text.foldCase d = Text.foldCase c := by
  have hfold := map_foldCase_of_reads_keyword h
  obtain ⟨letters, hletters⟩ := List.head?_eq_some_iff.1 hword
  rw [hletters, List.map_cons] at hfold
  obtain ⟨d, rest, rfl, hd, -⟩ := List.map_eq_cons_iff.1 hfold
  exact ⟨d, rest, rfl, hd⟩

/-- What comes first in the operator. -/
def negation (negated : Bool) : Pattern := if negated then keyword "NOT" ++ gap else empty

theorem isFree_negation (negated : Bool) : (negation negated).isFree = true := by
  cases negated <;> rfl

/-- The parts between the operand and the pattern. -/
theorem reads_link_iff {negated : Bool} {words : List Char} :
    (link negated).Reads none words none ↔ ∃ g n w g', words = g ++ (n ++ (w ++ g')) ∧
      gap.Reads none g none ∧ (negation negated).Reads none n none ∧
      (phrase ["SIMILAR", "TO"]).Reads none w none ∧ gap.Reads none g' none := by
  have hfree := isFree_negation negated
  have hoperator : (operator negated).isFree = true := by cases negated <;> rfl
  constructor
  · intro h
    obtain ⟨g, t, rfl, hg, ht⟩ := (reads_append_iff_of_isFree rfl hoperator).1 h
    obtain ⟨n, t, rfl, hn, ht⟩ := (reads_append_iff_of_isFree hfree rfl).1 ht
    obtain ⟨w, g', rfl, hw, hg'⟩ := (reads_append_iff_of_isFree rfl rfl).1 ht
    exact ⟨g, n, w, g', rfl, hg, hn, hw, hg'⟩
  · rintro ⟨g, n, w, g', rfl, hg, hn, hw, hg'⟩
    have hend : (phrase ["SIMILAR", "TO"] ++ gap).Reads none (w ++ g') none :=
      hw.append_of_isFree hg' rfl rfl
    exact hg.append_of_isFree (b := operator negated) (hn.append_of_isFree hend hfree rfl) rfl hoperator

/-- The first letter tells whether the operator is negated. -/
theorem exists_cons_of_reads_operator {negated : Bool} {n w : List Char}
    (hn : (negation negated).Reads none n none) (hw : (phrase ["SIMILAR", "TO"]).Reads none w none) :
    ∃ c rest, n ++ w = c :: rest ∧ Text.foldCase c = if negated then 'n' else 's' := by
  cases negated with
  | true =>
    obtain ⟨n, g, rfl, hn, -⟩ := (reads_append_iff_of_isFree rfl rfl).1 hn
    obtain ⟨c, n, rfl, hc⟩ := exists_cons_of_reads_keyword (c := 'N') rfl hn
    exact ⟨c, _, rfl, hc⟩
  | false =>
    obtain rfl := List.forall₂_nil_left_iff.1 hn
    obtain ⟨w, t, rfl, hw, -⟩ := (reads_append_iff_of_isFree rfl rfl).1 hw
    obtain ⟨w, t', rfl, hw, -⟩ := (reads_append_iff_of_isFree rfl rfl).1 hw
    obtain ⟨c, w, rfl, hc⟩ := exists_cons_of_reads_keyword (c := 'S') rfl hw
    exact ⟨c, _, rfl, hc⟩

/-- White space comes first between the operand and the pattern, then the operator. -/
theorem exists_run_of_reads_link {negated : Bool} {words : List Char}
    (h : (link negated).Reads none words none) :
    ∃ c b d t, words = (c :: b) ++ d :: t ∧ Text.Run Text.isBlank (c :: b) (d :: t) ∧
      Text.foldCase d = if negated then 'n' else 's' := by
  obtain ⟨g, n, w, g', rfl, hg, hn, hw, -⟩ := reads_link_iff.1 h
  obtain ⟨hne, hblank⟩ := reads_plus_one_iff.1 hg
  obtain ⟨c, b, rfl⟩ := List.exists_cons_of_ne_nil hne
  obtain ⟨d, t, hcons, hd⟩ := exists_cons_of_reads_operator hn hw
  refine ⟨c, b, d, t ++ g', by rw [← List.append_assoc n, hcons]; rfl, ⟨hblank, fun e he => ?_⟩, hd⟩
  obtain rfl := Option.some.inj he
  by_contra hblank
  have hword := Text.isWordChar_of_isBlank (by simpa using hblank)
  rw [← Text.isWordChar_foldCase, hd] at hword
  cases negated <;> exact absurd hword (by decide)

theorem quote_words (k : Similarity) : '\'' ∉ k.words :=
  not_mem_of_avoids (p := link k.negated) (by cases k.negated <;> decide) k.reads_words

/-- White space comes right behind the operand. -/
theorem isNameChar_head_words (k : Similarity) (rest : List Char) (c : Char)
    (hc : (k.words ++ rest).head? = some c) : isNameChar c = false ∧ c ≠ '(' := by
  obtain ⟨d, b, e, t, hwords, hrun, -⟩ := exists_run_of_reads_link k.reads_words
  rw [hwords] at hc
  obtain rfl : d = c := Option.some.inj hc
  have hd := hrun.all d List.mem_cons_self
  constructor
  · rw [isNameChar, Text.isWordChar_of_isBlank hd, Bool.false_or, beq_eq_false_iff_ne]
    rintro rfl
    cases hd
  · rintro rfl
    cases hd

theorem run_name (k : Similarity) (rest : List Char) :
    Text.Run isNameChar k.name (k.args ++ (k.words ++ rest)) where
  all := k.isNameChar_of_mem
  stops c hc := by
    rcases k.args_eq with hargs | ⟨x, hargs, -⟩
    · rw [hargs] at hc
      exact (k.isNameChar_head_words rest c hc).1
    · rw [hargs] at hc
      obtain rfl := Option.some.inj hc
      rfl

theorem args_eq_of_append_eq
    (h : k.args ++ (k.words ++ rest) = k'.args ++ (k'.words ++ rest')) :
    k.args = k'.args ∧ k.words ++ rest = k'.words ++ rest' := by
  have hnone {k k' : Similarity} {rest rest' : List Char} (hk : k.args = [])
      (h : k.args ++ (k.words ++ rest) = k'.args ++ (k'.words ++ rest')) : k'.args = [] := by
    rcases k'.args_eq with hargs | ⟨x, hargs, -⟩
    · exact hargs
    · rw [hk, hargs] at h
      exact absurd rfl (k.isNameChar_head_words rest '(' (congrArg List.head? h)).2
  by_cases hk : k.args = []
  · have hk' := hnone hk h
    rw [hk, hk'] at h ⊢
    exact ⟨rfl, h⟩
  · obtain ⟨x, hx, -, hclose⟩ := k.args_eq.resolve_left hk
    obtain ⟨x', hx', -, hclose'⟩ := k'.args_eq.resolve_left fun hk' => hk (hnone hk' h.symm)
    rw [hx, hx'] at h ⊢
    simp only [List.cons_append, List.append_assoc, List.nil_append, List.cons.injEq, true_and] at h
    obtain ⟨rfl, h⟩ := (Text.Run.of_not_mem hclose).eq_of_append_eq (.of_not_mem hclose') h
    exact ⟨rfl, (List.cons.inj (List.append_cancel_left h)).2⟩

/-- **There is one comparison at most at a place.** -/
theorem eq_of_append_eq (h : k.text ++ rest = k'.text ++ rest') : k = k' ∧ rest = rest' := by
  simp only [text, operand, List.append_assoc, List.cons_append, List.nil_append] at h
  obtain ⟨hname, h⟩ := (k.run_name _).eq_of_append_eq (k'.run_name _) h
  obtain ⟨hargs, h⟩ := args_eq_of_append_eq h
  obtain ⟨hwords, h⟩ := (Text.Run.of_not_mem k.quote_words).eq_of_append_eq
    (.of_not_mem k'.quote_words) h
  obtain ⟨hpattern, h⟩ := (Text.Run.of_not_mem k.quote_pattern).eq_of_append_eq
    (.of_not_mem k'.quote_pattern) (List.cons.inj h).2
  have hnegated : k.negated = k'.negated := by
    obtain ⟨c, b, d, t, hk, hrun, hd⟩ := exists_run_of_reads_link k.reads_words
    obtain ⟨c', b', d', t', hk', hrun', hd'⟩ := exists_run_of_reads_link k'.reads_words
    obtain ⟨-, ht⟩ := hrun.eq_of_append_eq hrun' (by rw [← hk, hwords, hk'])
    rw [(List.cons.inj ht).1, hd'] at hd
    revert hd
    cases k.negated <;> cases k'.negated <;> decide
  exact ⟨Similarity.ext hname hargs hnegated hwords hpattern, (List.cons.inj h).2⟩

/-! ### Matches -/

theorem mem_nameSet (c : Char) : Rule.nameSet.mem c = isNameChar c := by
  change (Text.isWordChar c || ['.'].contains c) = (Text.isWordChar c || c == '.')
  rw [Bool.eq_iff_iff]
  simp

theorem reads_flatParens_iff {before behind : Option Char} {args : List Char} :
    Rule.flatParens.Reads before args behind ↔
      ∃ x, args = '(' :: (x ++ [')']) ∧ '(' ∉ x ∧ ')' ∉ x := by
  refine reads_enclosed_iff.trans (exists_congr fun x => and_congr_right fun _ => ?_)
  change (∀ c ∈ x, c ∉ ['(', ')']) ↔ _
  grind

theorem reads_leftOperand_iff {before behind : Option Char} {text : List Char} :
    Rule.leftOperand.Reads before text behind ↔ ∃ name args, text = name ++ args ∧ name ≠ [] ∧
      (∀ c ∈ name, isNameChar c = true) ∧
      (args = [] ∨ ∃ x, args = '(' :: (x ++ [')']) ∧ '(' ∉ x ∧ ')' ∉ x) := by
  rw [Rule.leftOperand, reads_append_iff_of_isFree rfl rfl]
  refine exists_congr fun name => exists_congr fun args => and_congr_right fun _ => ?_
  rw [reads_plus_one_iff, and_assoc]
  simp only [mem_nameSet]
  refine and_congr_right fun _ => and_congr_right fun _ => ?_
  refine or_comm.trans (or_congr List.forall₂_nil_left_iff reads_flatParens_iff)

/-- A comparison is read wherever it stands. -/
theorem reads_text (k : Similarity) (before behind : Option Char) :
    Rule.comparison.Reads before k.text behind := by
  have hoperand : Rule.leftOperand.Reads none k.operand none :=
    reads_leftOperand_iff.2 ⟨k.name, k.args, rfl, k.name_ne_nil, k.isNameChar_of_mem, k.args_eq⟩
  have hpattern : (star (one (.noneOf "'"))).Reads none k.pattern none :=
    (reads_many_noneOf_iff_not_mem rfl).2 k.quote_pattern
  have hquote : (char '\'').Reads none ['\''] none := reads_char_iff.2 rfl
  obtain ⟨g, n, w, g', hwords, hg, hn, hw, hg'⟩ := reads_link_iff.1 k.reads_words
  have hn : (optional (group "negation" (keyword "NOT" ++ gap))).Reads none n none := by
    generalize k.negated = negated at hn
    cases negated with
    | true => exact .inl hn
    | false => exact .inr hn
  have htext : k.text = k.operand ++ g ++ n ++ w ++ g' ++ ['\''] ++ k.pattern ++ ['\''] := by
    rw [text, hwords]
    simp
  rw [htext]
  have hfront : (group "operand" Rule.leftOperand ++ gap).Reads none (k.operand ++ g) none :=
    Reads.append_of_isFree (a := group "operand" Rule.leftOperand) hoperand hg rfl rfl
  have hlink := ((hfront.append_of_isFree hn rfl rfl).append_of_isFree hw rfl rfl).append_of_isFree hg'
    rfl rfl
  have hbody := (hlink.append_of_isFree hquote rfl rfl).append_of_isFree
    (b := group "pattern" (star (one (.noneOf "'")))) hpattern rfl rfl
  exact reads_of_isFree rfl (hbody.append_of_isFree hquote rfl rfl) before behind

/-- The operand in front of the white space. -/
theorem exists_of_mem_outcomes_operand {place stop : Cursor} {own : List Group}
    (h : (stop, own) ∈ (group "operand" Rule.leftOperand).outcomes place []) :
    ∃ name args, place.Spans stop (name ++ args) ∧ own = [⟨"operand", place.index, name ++ args⟩] ∧
      name ≠ [] ∧ (∀ c ∈ name, isNameChar c = true) ∧
      (args = [] ∨ ∃ x, args = '(' :: (x ++ [')']) ∧ '(' ∉ x ∧ ')' ∉ x) := by
  obtain ⟨operand, hspans, hreads, hown⟩ := exists_of_mem_outcomes_group (a := Rule.leftOperand) rfl h
  obtain ⟨name, args, rfl, hparts⟩ := reads_leftOperand_iff.1 hreads
  exact ⟨name, args, hspans, hown, hparts⟩

/-- The operand, the white space behind it, and the negation if there is one. -/
theorem exists_of_mem_outcomes_front {place stop : Cursor} {own : List Group}
    (h : (stop, own) ∈ (group "operand" Rule.leftOperand ++ gap ++
      optional (group "negation" (keyword "NOT" ++ gap))).outcomes place []) :
    ∃ (name args g n : List Char) (negated : Bool) (index : Nat),
      place.Spans stop (name ++ args ++ g ++ n) ∧
      own = (if negated then [⟨"negation", index, n⟩] else []) ++
        [⟨"operand", place.index, name ++ args⟩] ∧
      gap.Reads none g none ∧ (negation negated).Reads none n none ∧ name ≠ [] ∧
      (∀ c ∈ name, isNameChar c = true) ∧
      (args = [] ∨ ∃ x, args = '(' :: (x ++ [')']) ∧ '(' ∉ x ∧ ')' ∉ x) := by
  obtain ⟨negated, middle, own', n, ho, hspans, hn, rfl⟩ : ∃ (negated : Bool) (middle : Cursor)
      (own' : List Group) (n : List Char),
      (middle, own') ∈ (group "operand" Rule.leftOperand ++ gap).outcomes place [] ∧ middle.Spans stop n ∧
        (negation negated).Reads none n none ∧
        own = (if negated then [⟨"negation", middle.index, n⟩] else []) ++ own' := by
    rcases mem_outcomes_append_optional h with ho | ho
    · obtain ⟨middle, own', n, ho, hspans, hn, hown⟩ := exists_of_mem_outcomes_append_group rfl ho
      exact ⟨true, middle, own', n, ho, hspans, reads_of_isFree rfl hn _ _, hown⟩
    · exact ⟨false, _, _, [], ho, .refl _, .nil, rfl⟩
  obtain ⟨first, g, ho, hspans', hg⟩ := exists_of_mem_outcomes_append rfl ho
  obtain ⟨name, args, hspans'', rfl, hparts⟩ := exists_of_mem_outcomes_operand ho
  exact ⟨name, args, g, n, negated, middle.index, (hspans''.trans hspans').trans hspans, rfl,
    reads_of_isFree rfl hg _ _, hn, hparts⟩

/-- **A match is a comparison**, and its groups are the parts of it. -/
theorem exists_of_matchAt {place : Cursor} {m : Match} (h : Rule.comparison.matchAt place = some m) :
    ∃ k : Similarity, m.text = k.text ∧ Rule.regexpLike m = k.call := by
  obtain ⟨o, ho, hmatch, -, hown⟩ := exists_outcome_of_matchAt h
  have ho : o ∈ Rule.comparison.outcomes place [] := List.mem_of_mem_head? ho
  obtain ⟨stop₁, t₁, ho, hspans₁, h₁⟩ := exists_of_mem_outcomes_append rfl ho
  obtain ⟨stop₂, own, pattern, ho, hspans₂, hpattern, hgroups⟩ :=
    exists_of_mem_outcomes_append_group rfl ho
  obtain ⟨stop₃, t₃, ho, hspans₃, h₃⟩ := exists_of_mem_outcomes_append rfl ho
  obtain ⟨stop₄, g', ho, hspans₄, hg'⟩ := exists_of_mem_outcomes_append rfl ho
  obtain ⟨stop₅, w, ho, hspans₅, hw⟩ := exists_of_mem_outcomes_append rfl ho
  obtain ⟨name, args, g, n, negated, index, hspans, rfl, hg, hn, hname, hchars, hargs⟩ :=
    exists_of_mem_outcomes_front ho
  have hwords : (link negated).Reads none (g ++ (n ++ (w ++ g'))) none :=
    reads_link_iff.2 ⟨g, n, w, g', rfl, hg, hn, reads_of_isFree rfl hw _ _, reads_of_isFree rfl hg' _ _⟩
  have hquote : '\'' ∉ pattern := (reads_many_noneOf_iff_not_mem rfl).1 hpattern
  refine ⟨⟨name, args, negated, g ++ (n ++ (w ++ g')), pattern, hname, hchars, hargs, hwords, hquote⟩,
    ?_, ?_⟩
  · rw [hmatch.unique (((((hspans.trans hspans₅).trans hspans₄).trans hspans₃).trans hspans₂).trans
      hspans₁), reads_char_iff.1 h₁, reads_char_iff.1 h₃]
    simp [text, operand]
  · have hgroups : m.groups = _ := hown.trans hgroups
    simp only [Rule.regexpLike, call, Match.has, Match.textOf, Match.group?, hgroups]
    cases negated <;> simp [operand]

/-- A comparison is what the pattern matches at its place. -/
theorem exists_matchAt (k : Similarity) (before : Option Char) (index : Nat) (rest : List Char) :
    ∃ m, Rule.comparison.matchAt ⟨before, index, k.text ++ rest⟩ = some m ∧ m.text = k.text ∧
      Rule.regexpLike m = k.call ∧ m.start = index := by
  cases hmatch : Rule.comparison.matchAt ⟨before, index, k.text ++ rest⟩ with
  | none => exact absurd (k.reads_text _ _) (matchAt_eq_none_iff.1 hmatch k.text rest rfl)
  | some m =>
    obtain ⟨k', htext, hcall⟩ := exists_of_matchAt hmatch
    obtain ⟨rest', hrest, -⟩ := reads_of_matchAt hmatch
    have hline : k.text ++ rest = k'.text ++ rest' := htext ▸ hrest
    obtain ⟨rfl, -⟩ := eq_of_append_eq hline
    exact ⟨m, rfl, htext, hcall, start_eq_of_matchAt hmatch⟩

theorem matchAt_eq_none {before : Option Char} {index : Nat} {line : List Char}
    (h : ∀ (k : Similarity) rest, line ≠ k.text ++ rest) :
    Rule.comparison.matchAt ⟨before, index, line⟩ = none := by
  cases hmatch : Rule.comparison.matchAt ⟨before, index, line⟩ with
  | none => rfl
  | some m =>
    obtain ⟨k, htext, -⟩ := exists_of_matchAt hmatch
    obtain ⟨rest, hrest, -⟩ := reads_of_matchAt hmatch
    exact absurd (htext ▸ hrest) (h k rest)

theorem exists_text_eq_cons (k : Similarity) :
    ∃ c rest, k.text = c :: rest ∧ isNameChar c = true := by
  obtain ⟨c, name, hname⟩ := List.exists_cons_of_ne_nil k.name_ne_nil
  have hc := k.isNameChar_of_mem c (by rw [hname]; exact List.mem_cons_self)
  rw [text, operand, hname]
  exact ⟨c, _, rfl, hc⟩

theorem text_ne_nil (k : Similarity) : k.text ≠ [] := by
  obtain ⟨c, rest, htext, -⟩ := k.exists_text_eq_cons
  rw [htext]
  exact List.cons_ne_nil c rest

theorem inCode_text (k : Similarity) (front rest : List Char) :
    Literal.inCode (front ++ (k.text ++ rest)) front.length = Literal.isClosed front := by
  obtain ⟨c, more, htext, hc⟩ := k.exists_text_eq_cons
  have hquote : c ≠ '\'' := by
    rintro rfl
    cases hc
  rw [htext, Bool.eq_iff_iff]
  exact Rule.inCode_append_cons.trans (and_iff_right hquote)

end Similarity

/-! ### The scan of a line -/

/-- How the rest of a line, behind the text `front`, and the rest of the new line go together: each
comparison in code is moved into a call.  The list has the text before each of them. -/
inductive Moves : List Char → List Char → List Char → List (List Char × Similarity) → Prop
  | nil (front : List Char) : Moves front [] [] []
  /-- No comparison starts here. -/
  | keep {front rest new : List Char} {c : Char} {moved : List (List Char × Similarity)}
      (none : ∀ (k : Similarity) rest', c :: rest ≠ k.text ++ rest')
      (more : Moves (front ++ [c]) rest new moved) : Moves front (c :: rest) (c :: new) moved
  /-- A comparison that starts in a literal stays. -/
  | stay {front rest new : List Char} {moved : List (List Char × Similarity)} (k : Similarity)
      (literal : Literal.isClosed front = false) (more : Moves (front ++ k.text) rest new moved) :
      Moves front (k.text ++ rest) (k.text ++ new) moved
  /-- A comparison in code is moved. -/
  | move {front rest new : List Char} {moved : List (List Char × Similarity)} (k : Similarity)
      (code : Literal.isClosed front = true) (more : Moves (front ++ k.text) rest new moved) :
      Moves front (k.text ++ rest) (k.call ++ new) ((front, k) :: moved)

namespace Moves

open Similarity

variable {front rest new line : List Char} {moved : List (List Char × Similarity)}

/-- Every line can be scanned. -/
theorem exists_moves (front rest : List Char) : ∃ new moved, Moves front rest new moved := by
  induction hlength : rest.length using Nat.strong_induction_on generalizing front rest with
  | _ n ih =>
    subst hlength
    by_cases hstarts : ∃ (k : Similarity) (rest' : List Char), rest = k.text ++ rest'
    · obtain ⟨k, rest', rfl⟩ := hstarts
      have hshort : rest'.length < (k.text ++ rest').length := by
        rw [List.length_append]
        exact Nat.lt_add_of_pos_left (List.length_pos_of_ne_nil k.text_ne_nil)
      obtain ⟨new, moved, hmore⟩ := ih _ hshort (front ++ k.text) rest' rfl
      cases hclosed : Literal.isClosed front with
      | true => exact ⟨_, _, .move k hclosed hmore⟩
      | false => exact ⟨_, _, .stay k hclosed hmore⟩
    · cases rest with
      | nil => exact ⟨[], [], .nil front⟩
      | cons c rest =>
        obtain ⟨new, moved, hmore⟩ := ih rest.length (Nat.lt_succ_self _) (front ++ [c]) rest rfl
        exact ⟨_, _, .keep (fun k rest' h => hstarts ⟨k, rest', h⟩) hmore⟩

/-- What the rule puts in the place of a match. -/
def replacement (line : List Char) (m : Match) : List Char :=
  if Literal.inCode line m.start then Rule.regexpLike m else m.text

/-- The search of the line goes the same way. -/
theorem piecesFrom_eq (h : Moves front rest new moved) (hline : line = front ++ rest) :
    (Rule.comparison.piecesFrom 0 front.getLast? front.length rest).flatMap
        (Piece.edited fun m => some (replacement line m)) = new ∧
      List.Forall₂ (fun m p => m.text = p.2.text)
        (((Rule.comparison.piecesFrom 0 front.getLast? front.length rest).filterMap Piece.match?).filter
          fun m => Literal.inCode line m.start) moved := by
  -- where a comparison starts, the search finds it and goes on behind it
  have found {front rest : List Char} (k : Similarity) (hline : line = front ++ (k.text ++ rest)) :
      ∃ m, Rule.comparison.piecesFrom 0 front.getLast? front.length (k.text ++ rest) =
          .found m :: Rule.comparison.piecesFrom 0 (front ++ k.text).getLast? (front ++ k.text).length
            rest ∧
        m.text = k.text ∧ Rule.regexpLike m = k.call ∧
        Literal.inCode line m.start = Literal.isClosed front := by
    obtain ⟨m, hmatch, htext, hcall, hstart⟩ := k.exists_matchAt front.getLast? front.length rest
    rw [← htext] at hmatch
    have hne : m.text ≠ [] := htext ▸ k.text_ne_nil
    refine ⟨m, ?_, htext, hcall, ?_⟩
    · rw [List.getLast?_append, List.length_append, ← htext]
      exact piecesFrom_found hmatch hne
    · rw [hline, hstart, k.inCode_text]
  induction h with
  | nil => exact ⟨rfl, .nil⟩
  | @keep front rest new c moved none _ ih =>
    have hmore := ih (by rw [hline]; simp)
    rw [List.getLast?_concat, List.length_append, List.length_singleton] at hmore
    rw [piecesFrom_cons (matchAt_eq_none none)]
    exact ⟨congrArg (c :: ·) hmore.1, hmore.2⟩
  | @stay front rest new moved k literal _ ih =>
    obtain ⟨hnew, hmoved⟩ := ih (by rw [hline]; simp)
    obtain ⟨m, hpieces, htext, -, hcode⟩ := found k hline
    rw [literal] at hcode
    rw [hpieces, List.flatMap_cons, hnew, List.filterMap_cons, Piece.match?]
    refine ⟨?_, ?_⟩
    · simp [Piece.edited, replacement, hcode, htext]
    · simpa [hcode] using hmoved
  | @move front rest new moved k code _ ih =>
    obtain ⟨hnew, hmoved⟩ := ih (by rw [hline]; simp)
    obtain ⟨m, hpieces, htext, hcall, hcode⟩ := found k hline
    rw [code] at hcode
    rw [hpieces, List.flatMap_cons, hnew, List.filterMap_cons, Piece.match?]
    refine ⟨?_, ?_⟩
    · simp [Piece.edited, replacement, hcode, hcall]
    · simpa [hcode, htext] using hmoved

/-! ### In front of an operand -/

/-- If the last character before a place is one of a name, no comparison starts at that character. -/
def Behind (front rest : List Char) : Prop :=
  ∀ u c, front = u ++ [c] → isNameChar c = true →
    ∀ (k : Similarity) rest', c :: rest ≠ k.text ++ rest'

/-- A comparison goes on to the left as long as there are characters of a name. -/
theorem Behind.isNameChar_eq_false {k : Similarity} (h : Behind front (k.text ++ rest)) {c : Char}
    (hc : front.getLast? = some c) : isNameChar c = false := by
  obtain ⟨u, rfl⟩ := List.getLast?_eq_some_iff.1 hc
  refine Bool.eq_false_iff.2 fun hname => ?_
  let longer : Similarity := { k with
    name := c :: k.name
    name_ne_nil := List.cons_ne_nil _ _
    isNameChar_of_mem := List.forall_mem_cons.2 ⟨hname, k.isNameChar_of_mem⟩ }
  exact h u c rfl hname longer rest rfl

/-- A comparison ends with a quote. -/
theorem Behind.of_text (front : List Char) (k : Similarity) (rest : List Char) :
    Behind (front ++ k.text) rest := by
  intro u c hline hc
  have hlast : (front ++ k.text).getLast? = some '\'' := by
    have htext : front ++ k.text = front ++ k.operand ++ k.words ++ '\'' :: k.pattern ++ ['\''] := by
      simp [text]
    rw [htext, List.getLast?_concat]
  rw [hline, List.getLast?_concat] at hlast
  obtain rfl := Option.some.inj hlast
  cases hc

/-- **A moved operand takes all of its name along**: no character of a name stands in front of it. -/
theorem isNameChar_eq_false_of_mem (h : Moves front rest new moved) (hfront : Behind front rest)
    {a : List Char} {k : Similarity} (hmem : (a, k) ∈ moved) {c : Char} (hc : a.getLast? = some c) :
    isNameChar c = false := by
  induction h with
  | nil => cases hmem
  | @keep front rest new d moved none _ ih =>
    refine ih (fun u e hline _ => ?_) hmem
    obtain ⟨-, he⟩ := List.append_inj' hline rfl
    rw [← (List.cons.inj he).1]
    exact none
  | stay k _ _ ih => exact ih (.of_text _ _ _) hmem
  | @move front rest new moved k' _ _ ih =>
    rcases List.mem_cons.1 hmem with heq | hmem
    · obtain ⟨rfl, rfl⟩ := Prod.mk.inj heq
      exact hfront.isNameChar_eq_false hc
    · exact ih (.of_text _ _ _) hmem

/-- The text before a moved comparison is what the line has there. -/
theorem exists_of_mem (h : Moves front rest new moved) {a : List Char} {k : Similarity}
    (hmem : (a, k) ∈ moved) :
    Literal.isClosed a = true ∧ ∃ b, front ++ rest = a ++ (k.text ++ b) := by
  induction h with
  | nil => cases hmem
  | keep _ _ ih => simpa using ih hmem
  | stay _ _ _ ih => simpa using ih hmem
  | @move front rest new moved k' code _ ih =>
    rcases List.mem_cons.1 hmem with heq | hmem
    · obtain ⟨rfl, rfl⟩ := Prod.mk.inj heq
      exact ⟨code, rest, rfl⟩
    · simpa using ih hmem

end Moves

namespace Rule

open Similarity

variable {line : List Char}

/-- Whether an operand goes on to the left over the character. -/
def continuesOperand (c : Char) : Bool :=
  isNameChar c || [':', '"', ')', ']', '$'].contains c

theorem similarTo_edit? (ctx : Context) (line : List Char) : similarTo.edit? ctx line =
    match (Rule.comparison.matchesIn line).filter fun m => Literal.inCode line m.start with
    | [] => none
    | first :: _ => some (.changed (Rule.comparison.replaceIn (Moves.replacement line) line)
        (Text.trim first.text)) := rfl

/-- **What the rule moves.**  From left to right, each comparison in code becomes a call, the first one
is the note, and without any the line stays.  An operand that is moved has no character of a name in
front of it; it is whole if and only if the character there is no colon, double quote, closing
parenthesis or bracket, or dollar sign. -/
theorem similarTo_operand (ctx : Context) (line : List Char) :
    (∃ new moved, Moves [] line new moved) ∧ ∀ new moved, Moves [] line new moved →
      similarTo.edit? ctx line =
          moved.head?.map (fun first => .changed new (Text.trim first.2.text)) ∧
        ∀ front k, (front, k) ∈ moved →
          (Literal.isClosed front = true ∧ ∃ rest, line = front ++ (k.text ++ rest)) ∧
          (∀ c, front.getLast? = some c → isNameChar c = false) ∧
          ((∀ c, front.getLast? = some c → continuesOperand c = false) ↔
            ∀ c, front.getLast? = some c → c ∉ [':', '"', ')', ']', '$']) := by
  refine ⟨Moves.exists_moves [] line, fun new moved h => ⟨?_, fun front k hmem => ?_⟩⟩
  · obtain ⟨hnew, hmoved⟩ := h.piecesFrom_eq (List.nil_append line).symm
    have hreplaced : Rule.comparison.replaceIn (Moves.replacement line) line = new :=
      (replaceIn_eq_editedFrom Rule.comparison (fun m => some (Moves.replacement line m)) line).trans hnew
    rw [similarTo_edit?, hreplaced, matchesIn, pieces_eq]
    change List.Forall₂ _ (List.filter _ (List.filterMap _ (Rule.comparison.piecesFrom 0 none 0 line))) _
      at hmoved
    generalize List.filter _ _ = found at hmoved ⊢
    cases hmoved with
    | nil => rfl
    | cons htext _ => exact congrArg (fun text => some (Edit.changed new (Text.trim text))) htext
  · have hname := fun c hc => h.isNameChar_eq_false_of_mem (fun u c hnil => by simp at hnil) hmem
      (c := c) hc
    refine ⟨h.exists_of_mem hmem, hname, forall_congr' fun c => forall_congr' fun hc => ?_⟩
    rw [continuesOperand, hname c hc, Bool.false_or, ← Bool.not_eq_true, List.contains_iff_mem]

/-- Of a cast operand, only the type is moved. -/
theorem similarTo_cast :
    (similarTo.edit? (.start none) "SELECT a FROM t WHERE a::text SIMILAR TO 'x%';".toList) =
      some (.changed "SELECT a FROM t WHERE a::REGEXP_LIKE(text, 'x.*');".toList
        "text SIMILAR TO 'x%'".toList) ∧
      continuesOperand ':' = true := by
  decide

end Rule

end SqlDialect
