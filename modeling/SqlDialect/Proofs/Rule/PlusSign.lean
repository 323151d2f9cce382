import Mathlib.Data.List.Chain
import SqlDialect.Proofs.Line.Place
import SqlDialect.Proofs.Rule.Settled.Concatenation

/-!
# Plus signs that add and plus signs that join

A plus sign stays if a number stands next to it, with nothing but white space and one run of parentheses
in between (`StartsWithNumber`, `EndsWithNumber`).  The parentheses are skipped whatever they belong to:
the closing parenthesis of a call is taken for one that groups.  Every other plus sign becomes `||` and
takes the white space around it along.

`Concatenated` describes the new line by these two cases, and `stringConcat_spec` says that the rule
writes that line.  The line may be taken apart at any of its plus signs, since no operand goes on over
another one.
-/

namespace SqlDialect.Rule

open Text

variable {c paren : Char} {u v x y text line new before first : List Char}
  {rest front back : List (List Char)}

/-! ### Numbers next to a plus sign -/

/-- The text starts with a number, but for white space and opening parentheses before it. -/
def StartsWithNumber (text : List Char) : Prop :=
  ∃ b p b' n rest, text = b ++ (p ++ (b' ++ (n ++ rest))) ∧ Line.isBlank b = true ∧
    (∀ c ∈ p, c = '(') ∧ Line.isBlank b' = true ∧ Run isOperandChar n rest ∧ isNumeral n = true

/-- The text ends with a number, but for white space and closing parentheses behind it. -/
def EndsWithNumber (text : List Char) : Prop :=
  ∃ rest n b p b', text = rest ++ (n ++ (b ++ (p ++ b'))) ∧ Line.isBlank b = true ∧
    (∀ c ∈ p, c = ')') ∧ Line.isBlank b' = true ∧ Run isOperandChar n.reverse rest.reverse ∧
    isNumeral n = true

/-- The operand that is read behind white space and parentheses. -/
theorem operandFrom_eq {b p b' n rest : List Char} (hb : Line.isBlank b = true)
    (hp : ∀ c ∈ p, c = paren) (hb' : Line.isBlank b' = true) (hn : Run isOperandChar n rest)
    (hne : n ≠ []) (hparen : paren = '(' ∨ paren = ')') :
    operandFrom paren (b ++ (p ++ (b' ++ (n ++ rest)))) = n := by
  obtain ⟨d, n, rfl⟩ := List.exists_cons_of_ne_nil hne
  have hd : isOperandChar d = true := hn.all d List.mem_cons_self
  have hblank : isBlank d = false := by
    by_contra h
    rw [isOperandChar_of_isBlank (by simpa using h)] at hd
    cases hd
  have hd' : (d == paren) = false := by
    rw [beq_eq_false_iff_ne]
    rintro rfl
    rcases hparen with rfl | rfl <;> exact absurd hd (by decide)
  have hparenBlank : isBlank paren = false := by rcases hparen with rfl | rfl <;> decide
  have hmore : Run isBlank b' (d :: n ++ rest) :=
    ⟨Line.isBlank_iff.1 hb', fun c hc => by obtain rfl := Option.some.inj hc; exact hblank⟩
  rw [operandFrom]
  -- without parentheses, the two stretches of white space are one
  cases p with
  | nil =>
    have hall : Run isBlank (b ++ b') (d :: n ++ rest) :=
      ⟨Line.isBlank_iff.1 (by rw [Line.isBlank_append, hb, hb']; rfl), hmore.stops⟩
    have hparens : Run (· == paren) [] (d :: n ++ rest) :=
      .nil fun c hc => by obtain rfl := Option.some.inj hc; exact hd'
    have hblanks : Run isBlank [] (d :: n ++ rest) := .nil hmore.stops
    rw [List.nil_append, ← List.append_assoc, hall.dropWhile_eq, ← List.nil_append (d :: n ++ rest),
      hparens.dropWhile_eq, ← List.nil_append (d :: n ++ rest), hblanks.dropWhile_eq, hn.takeWhile_eq]
  | cons e p =>
    obtain rfl := hp e List.mem_cons_self
    have hall : Run isBlank b (e :: p ++ (b' ++ (d :: n ++ rest))) :=
      ⟨Line.isBlank_iff.1 hb, fun c hc => by obtain rfl := Option.some.inj hc; exact hparenBlank⟩
    have hparens : Run (· == e) (e :: p) (b' ++ (d :: n ++ rest)) := by
      refine ⟨fun c hc => by simpa using hp c hc, fun c hc => ?_⟩
      cases b' with
      | nil =>
        obtain rfl := Option.some.inj hc
        exact hd'
      | cons f b' =>
        obtain rfl := Option.some.inj hc
        have hf := Line.isBlank_iff.1 hb' f List.mem_cons_self
        rw [beq_eq_false_iff_ne]
        rintro rfl
        rw [hf] at hparenBlank
        cases hparenBlank
    rw [hall.dropWhile_eq, hparens.dropWhile_eq, hmore.dropWhile_eq, hn.takeWhile_eq]

theorem isNumeral_ne_nil (h : isNumeral text = true) : text ≠ [] := by
  rintro rfl
  exact absurd h (by decide)

/-- White space, parentheses and white space before the operand. -/
theorem exists_operandFrom (paren : Char) (text : List Char) : ∃ b p b' rest,
    text = b ++ (p ++ (b' ++ (operandFrom paren text ++ rest))) ∧ Line.isBlank b = true ∧
      (∀ c ∈ p, c = paren) ∧ Line.isBlank b' = true ∧
      Run isOperandChar (operandFrom paren text) rest := by
  have hblank (text : List Char) : Line.isBlank (text.takeWhile isBlank) = true :=
    Line.isBlank_iff.2 fun _ hc => List.mem_takeWhile_imp hc
  refine ⟨_, (text.dropWhile isBlank).takeWhile (· == paren), _, _, ?_, hblank text, fun c hc => ?_,
    hblank ((text.dropWhile isBlank).dropWhile (· == paren)), .of_takeWhile _ _⟩
  · rw [operandFrom, List.takeWhile_append_dropWhile, List.takeWhile_append_dropWhile,
      List.takeWhile_append_dropWhile (p := (· == paren)), List.takeWhile_append_dropWhile]
  · simpa using List.mem_takeWhile_imp hc

theorem startsWithNumber_iff : StartsWithNumber text ↔ isNumeral (operandAfter text) = true := by
  rw [operandAfter_eq]
  constructor
  · rintro ⟨b, p, b', n, rest, rfl, hb, hp, hb', hn, hnumber⟩
    rwa [operandFrom_eq hb hp hb' hn (isNumeral_ne_nil hnumber) (.inl rfl)]
  · intro h
    obtain ⟨b, p, b', rest, htext, hb, hp, hb', hn⟩ := exists_operandFrom '(' text
    exact ⟨b, p, b', _, rest, htext, hb, hp, hb', hn, h⟩

theorem endsWithNumber_iff : EndsWithNumber text ↔ isNumeral (operandBefore text) = true := by
  have hreverse {a : List Char} (h : Line.isBlank a = true) : Line.isBlank a.reverse = true :=
    Line.isBlank_iff.2 fun c hc => Line.isBlank_iff.1 h c (List.mem_reverse.1 hc)
  rw [operandBefore_eq]
  constructor
  · rintro ⟨rest, n, b, p, b', rfl, hb, hp, hb', hn, hnumber⟩
    have hp : ∀ c ∈ p.reverse, c = ')' := fun c hc => hp c (List.mem_reverse.1 hc)
    have hread := operandFrom_eq (hreverse hb') hp (hreverse hb) hn
      (by simpa using isNumeral_ne_nil hnumber) (.inr rfl)
    simp only [List.reverse_append, List.append_assoc] at hread ⊢
    rw [hread, List.reverse_reverse]
    exact hnumber
  · intro h
    obtain ⟨b, p, b', rest, htext, hb, hp, hb', hn⟩ := exists_operandFrom ')' text.reverse
    refine ⟨rest.reverse, _, b'.reverse, p.reverse, b.reverse, ?_, hreverse hb',
      fun c hc => hp c (List.mem_reverse.1 hc), hreverse hb, ?_, h⟩
    · have := congrArg List.reverse htext
      simpa using this
    · rwa [List.reverse_reverse, List.reverse_reverse]

/-- A plus sign adds if a number stands next to it. -/
theorem joinsStrings_eq_false_iff :
    joinsStrings u v = false ↔ EndsWithNumber u ∨ StartsWithNumber v := by
  rw [endsWithNumber_iff, startsWithNumber_iff, joinsStrings, Bool.not_eq_false', Bool.or_eq_true]

/-! ### Cutting a text where it joins strings -/

theorem joinsStrings_append_right {b : List Char} (hb : Line.isBlank b = true) (u v : List Char) :
    joinsStrings u (v ++ b) = joinsStrings u v := by
  induction b generalizing v with
  | nil => rw [List.append_nil]
  | cons c b ih =>
    obtain ⟨hc, hb⟩ := Bool.and_eq_true_iff.1 hb
    rw [← List.singleton_append, ← List.append_assoc, ih hb, joinsStrings_concat_right hc]

theorem joinsStrings_append_left {b : List Char} (hb : Line.isBlank b = true) (u v : List Char) :
    joinsStrings (b ++ u) v = joinsStrings u v := by
  induction b with
  | nil => rfl
  | cons c b ih =>
    obtain ⟨hc, hb⟩ := Bool.and_eq_true_iff.1 hb
    rw [List.cons_append, joinsStrings_cons_left hc, ih hb]

/-- The pieces of a text that has been cut at all of its plus signs that join strings. -/
structure IsCut (pieces : List (List Char)) (text : List Char) : Prop where
  joinWith_eq : joinWith ['+'] pieces = text
  whole : ∀ piece ∈ pieces, Whole piece
  isChain : pieces.IsChain fun x y => joinsStrings x y = true

/-- Only the pieces next to a plus sign decide about it. -/
theorem joinsStrings_joinWith (u y : List Char) (back : List (List Char)) :
    joinsStrings u (joinWith ['+'] (y :: back)) = joinsStrings u y := by
  rw [Literal.joinWith_cons]
  cases back with
  | nil => simp
  | cons z back =>
    rw [List.flatMap_cons, List.append_assoc, List.singleton_append,
      joinsStrings_append_cons_right rfl]

theorem cutAtJoins_cons (h : cutAtJoins (c :: before) text = first :: rest) :
    cutAtJoins before (c :: text) =
      if c == '+' && joinsStrings before.reverse text then [] :: first :: rest
      else (c :: first) :: rest := by
  rw [cutAtJoins, h]

/-- What stands before another plus sign plays no part. -/
theorem cutAtJoins_append_left (before other text : List Char) :
    cutAtJoins (before ++ '+' :: other) text = cutAtJoins before text := by
  induction text generalizing before with
  | nil => rfl
  | cons c text ih =>
    obtain ⟨first, rest, hcut, -⟩ := exists_cutAtJoins (c :: before) text
    have hcut' : cutAtJoins (c :: (before ++ '+' :: other)) text = first :: rest :=
      (ih (c :: before)).trans hcut
    rw [cutAtJoins_cons hcut, cutAtJoins_cons hcut', List.reverse_append, List.reverse_cons,
      List.append_assoc, List.singleton_append, joinsStrings_append_cons_left rfl]

theorem cutAtJoins_append (h : joinsStrings (before.reverse ++ u) v = true) :
    cutAtJoins before (u ++ '+' :: v) = cutAtJoins before u ++ cutAtJoins [] v := by
  induction u generalizing before with
  | nil =>
    rw [List.append_nil] at h
    obtain ⟨first, rest, hcut, -⟩ := exists_cutAtJoins [] v
    have hcut' := (cutAtJoins_append_left [] before v).trans hcut
    rw [List.nil_append, cutAtJoins_cons hcut', beq_self_eq_true, h, hcut]
    rfl
  | cons c u ih =>
    obtain ⟨first, rest, hcut, -⟩ := exists_cutAtJoins (c :: before) u
    have hcut' := @ih (c :: before) (by simpa using h)
    rw [hcut, List.cons_append] at hcut'
    rw [List.cons_append, cutAtJoins_cons hcut', cutAtJoins_cons hcut,
      joinsStrings_append_cons_right rfl]
    split <;> rfl

/-- **There is one way only to cut a text.** -/
theorem IsCut.cutAtJoins_eq (h : IsCut rest text) (hne : rest ≠ []) : cutAtJoins [] text = rest := by
  obtain ⟨htext, hwhole, hchain⟩ := h
  subst htext
  induction rest with
  | nil => exact absurd rfl hne
  | cons x rest ih =>
    rw [List.forall_mem_cons] at hwhole
    cases rest with
    | nil => exact hwhole.1.cutAtJoins_eq
    | cons y rest =>
      rw [List.isChain_cons_cons] at hchain
      have hjoin : joinWith ['+'] (x :: y :: rest) = x ++ '+' :: joinWith ['+'] (y :: rest) := by
        simp [joinWith]
      rw [hjoin, cutAtJoins_append, ih (List.cons_ne_nil _ _) hwhole.2 hchain.2,
        hwhole.1.cutAtJoins_eq]
      · rfl
      · rw [List.reverse_nil, List.nil_append, joinsStrings_joinWith]
        exact hchain.1

theorem isCut_cutAtJoins (text : List Char) : IsCut (cutAtJoins [] text) text := by
  -- the text in front of the place is kept in reverse, as the search keeps it
  have general (before : List Char) : ∃ first rest, cutAtJoins before text = first :: rest ∧
      joinWith ['+'] (first :: rest) = text ∧
      ((before.reverse ++ first) :: rest).IsChain fun x y => joinsStrings x y = true := by
    induction text generalizing before with
    | nil => exact ⟨[], [], rfl, rfl, List.isChain_singleton _⟩
    | cons c text ih =>
      obtain ⟨first, rest, hcut, htext, hchain⟩ := ih (c :: before)
      have hline := cutAtJoins_cons hcut
      split at hline
      · rename_i hc
        obtain ⟨hc, hjoins⟩ := Bool.and_eq_true_iff.1 hc
        rw [beq_iff_eq] at hc
        subst hc
        refine ⟨[], first :: rest, hline, ?_, List.isChain_cons_cons.2 ⟨?_, ?_⟩⟩
        · rw [← htext]
          simp [joinWith]
        · rw [List.append_nil, ← joinsStrings_joinWith _ _ rest, htext]
          exact hjoins
        · -- the plus sign cuts off what stands before it
          refine hchain.imp_head fun {y} hy => ?_
          rwa [List.reverse_cons, List.append_assoc, List.singleton_append,
            joinsStrings_append_cons_left rfl] at hy
      · refine ⟨c :: first, rest, hline, ?_, ?_⟩
        · rw [Literal.joinWith_cons] at htext ⊢
          rw [← htext]
          rfl
        · rwa [List.reverse_cons, List.append_assoc] at hchain
  obtain ⟨first, rest, hcut, htext, hchain⟩ := general []
  refine ⟨by rw [hcut]; exact htext, fun piece => whole_of_mem_cutAtJoins, ?_⟩
  rw [hcut]
  exact hchain

namespace IsCut

theorem exists_concat (text : List Char) : ∃ front x, IsCut (front ++ [x]) text := by
  have hcut := isCut_cutAtJoins text
  obtain ⟨first, rest, hne, -⟩ := exists_cutAtJoins [] text
  refine ⟨(cutAtJoins [] text).dropLast, (cutAtJoins [] text).getLast (by simp [hne]), ?_⟩
  rwa [List.dropLast_append_getLast]

theorem exists_cons (text : List Char) : ∃ y back, IsCut (y :: back) text := by
  obtain ⟨first, rest, hcut, -⟩ := exists_cutAtJoins [] text
  exact ⟨first, rest, hcut ▸ isCut_cutAtJoins text⟩

theorem eq_concat (h : IsCut (front ++ [x]) u) : u = front.flatMap (· ++ ['+']) ++ x := by
  have := h.joinWith_eq
  rw [Literal.joinWith_append_cons] at this
  simpa using this.symm

theorem eq_cons (h : IsCut (y :: back) v) : v = y ++ back.flatMap ('+' :: ·) := by
  have := h.joinWith_eq
  rw [Literal.joinWith_cons] at this
  exact this.symm

/-- Another last piece that joins the one before it alike. -/
theorem of_concat (h : IsCut (front ++ [x]) u) (hx : Whole y)
    (hjoins : ∀ z, joinsStrings z x = joinsStrings z y) :
    IsCut (front ++ [y]) (front.flatMap (· ++ ['+']) ++ y) where
  joinWith_eq := by
    rw [Literal.joinWith_append_cons]
    simp
  whole piece hpiece := by
    rcases List.mem_append.1 hpiece with hpiece | hpiece
    · exact h.whole piece (List.mem_append_left _ hpiece)
    · rwa [List.mem_singleton.1 hpiece]
  isChain := by
    obtain ⟨hfront, -, hlast⟩ := List.isChain_append.1 h.isChain
    refine List.isChain_append.2 ⟨hfront, List.isChain_singleton _, fun z hz w hw => ?_⟩
    obtain rfl := Option.some.inj hw
    rw [← hjoins]
    exact hlast z hz x rfl

/-- Another first piece that joins the one behind it alike. -/
theorem of_cons (h : IsCut (x :: back) v) (hx : Whole y)
    (hjoins : ∀ z, joinsStrings x z = joinsStrings y z) :
    IsCut (y :: back) (y ++ back.flatMap ('+' :: ·)) where
  joinWith_eq := Literal.joinWith_cons _ _ _
  whole piece hpiece := by
    rcases List.mem_cons.1 hpiece with rfl | hpiece
    · exact hx
    · exact h.whole piece (List.mem_cons_of_mem _ hpiece)
  isChain := h.isChain.imp_head fun {z} hz => (hjoins z).symm.trans hz

theorem trimEnd (h : IsCut (front ++ [x]) u) : IsCut (front ++ [trimEnd x]) (trimEnd u) := by
  obtain ⟨b, hx, hb⟩ := exists_eq_trimEnd_append x
  have hu : Text.trimEnd u = front.flatMap (· ++ ['+']) ++ Text.trimEnd x := by
    rw [h.eq_concat]
    rcases List.eq_nil_or_concat' front with rfl | ⟨front, last, rfl⟩
    · rfl
    · simp only [List.flatMap_append, List.flatMap_singleton, List.append_assoc,
        List.singleton_append]
      rw [← List.append_assoc, trimEnd_append_cons (by decide), List.append_assoc]
  rw [hu]
  refine h.of_concat (h.whole x (by simp)).trimEnd fun z => ?_
  conv_lhs => rw [hx, joinsStrings_append_right (Line.isBlank_iff.2 hb)]

theorem trimStart (h : IsCut (y :: back) v) : IsCut (trimStart y :: back) (trimStart v) := by
  have hv : Text.trimStart v = Text.trimStart y ++ back.flatMap ('+' :: ·) := by
    rw [h.eq_cons]
    cases back with
    | nil => simp
    | cons z back => exact dropWhile_append_cons (by decide) _ _
  rw [hv]
  refine h.of_cons (h.whole y (by simp)).trimStart fun z => ?_
  have hy : y = y.takeWhile isBlank ++ Text.trimStart y := List.takeWhile_append_dropWhile.symm
  conv_lhs => rw [hy, joinsStrings_append_left (Line.isBlank_iff.2 fun _ hc =>
    List.mem_takeWhile_imp hc)]

/-- Only the pieces next to a plus sign decide about it. -/
theorem joinsStrings_eq (hu : IsCut (front ++ [x]) u) (hv : IsCut (y :: back) v) :
    joinsStrings u v = joinsStrings x y := by
  rw [← hv.joinWith_eq, joinsStrings_joinWith, hu.eq_concat]
  rcases List.eq_nil_or_concat' front with rfl | ⟨front, last, rfl⟩
  · rfl
  · simp only [List.flatMap_append, List.flatMap_singleton, List.append_assoc,
      List.singleton_append]
    rw [← List.append_assoc, joinsStrings_append_cons_left rfl]

/-- A plus sign that adds stays where it is, in the piece around it. -/
theorem append_of_adds (hu : IsCut (front ++ [x]) u) (hv : IsCut (y :: back) v)
    (h : joinsStrings u v = false) : IsCut (front ++ (x ++ '+' :: y) :: back) (u ++ '+' :: v) where
  joinWith_eq := by
    rw [Literal.joinWith_append_cons, hu.eq_concat, hv.eq_cons]
    simp
  whole := by
    rw [hu.joinsStrings_eq hv] at h
    have hu := hu.whole
    have hv := hv.whole
    simp only [List.forall_mem_append, List.forall_mem_cons] at hu hv ⊢
    exact ⟨hu.1, hu.2.1.append_cons hv.1 rfl fun _ => h, hv.2⟩
  isChain := by
    obtain ⟨hfront, -, hlast⟩ := List.isChain_append.1 hu.isChain
    refine List.isChain_append.2 ⟨hfront, hv.isChain.imp_head fun {z} hz => ?_, fun z hz w hw => ?_⟩
    · rwa [joinsStrings_append_cons_left rfl]
    · obtain rfl := Option.some.inj hw
      rw [joinsStrings_append_cons_right rfl]
      exact hlast z hz x rfl

/-- A plus sign that joins strings stands between two pieces. -/
theorem append_of_joins (hu : IsCut (front ++ [x]) u) (hv : IsCut (y :: back) v)
    (h : joinsStrings u v = true) : IsCut (front ++ x :: y :: back) (u ++ '+' :: v) where
  joinWith_eq := by
    rw [Literal.joinWith_append_cons, hu.eq_concat, hv.eq_cons]
    simp
  whole := by
    have hu := hu.whole
    have hv := hv.whole
    simp only [List.forall_mem_append, List.forall_mem_cons] at hu hv ⊢
    exact ⟨hu.1, hu.2.1, hv⟩
  isChain := by
    rw [hu.joinsStrings_eq hv] at h
    obtain ⟨hfront, -, hlast⟩ := List.isChain_append.1 hu.isChain
    exact List.isChain_append.2 ⟨hfront, List.isChain_cons_cons.2 ⟨h, hv.isChain⟩, hlast⟩

end IsCut

/-! ### The line with the new operators -/

/-- The pieces without the white space at the start of all but the first. -/
def trimmed : List (List Char) → List (List Char)
  | [] => []
  | first :: rest => first :: rest.map Text.trimStart

/-- The text with the operator `||` in the place of the plus signs that join strings. -/
def concatenated (text : List Char) : List Char :=
  joinPieces (trimmed (cutAtJoins [] text))

theorem concatenated_of_isCut (h : IsCut rest text) (hne : rest ≠ []) :
    concatenated text = joinPieces (trimmed rest) := by
  rw [concatenated, h.cutAtJoins_eq hne]

theorem trimEnd_trimStart (text : List Char) :
    Text.trimEnd (Text.trimStart text) = Text.trimStart (Text.trimEnd text) := by
  have hrun := Run.of_takeWhile isBlank text
  have htext : text.takeWhile isBlank ++ text.dropWhile isBlank = text :=
    List.takeWhile_append_dropWhile
  rw [Text.trimStart, Text.trimStart]
  cases hrest : text.dropWhile isBlank with
  | nil =>
    rw [hrest, List.append_nil] at htext
    rw [← htext, ← List.nil_append (text.takeWhile isBlank), trimEnd_append_blank hrun.all]
    rfl
  | cons c rest =>
    rw [hrest] at htext hrun
    have hc : isBlank c = false := hrun.stops c rfl
    have hend : Run isBlank (text.takeWhile isBlank) (c :: Text.trimEnd rest) :=
      ⟨hrun.all, fun d hd => by obtain rfl := Option.some.inj hd; exact hc⟩
    rw [← List.nil_append (c :: rest), trimEnd_append_cons hc, ← htext, trimEnd_append_cons hc,
      hend.dropWhile_eq]
    rfl

/-- The first piece keeps the white space it starts with, the others lose it. -/
theorem exists_trimmed (front : List (List Char)) : ∃ (before : List (List Char))
    (start : List Char → List Char), (start = (fun x => x) ∨ start = Text.trimStart) ∧
      ∀ x back, trimmed (front ++ x :: back) = before ++ start x :: back.map Text.trimStart := by
  cases front with
  | nil => exact ⟨[], fun x => x, .inl rfl, fun _ _ => rfl⟩
  | cons first front =>
    exact ⟨first :: front.map Text.trimStart, Text.trimStart, .inr rfl, fun _ _ => by simp [trimmed]⟩

theorem joinPieces_cons (piece : List Char) (hne : rest ≠ []) :
    joinPieces (piece :: rest) = Text.trimEnd piece ++ (" || ".toList ++ joinPieces rest) := by
  rw [joinPieces.eq_3 _ _ hne, List.append_assoc]

theorem joinPieces_append_cons_cons (front : List (List Char)) (x y : List Char)
    (back : List (List Char)) :
    joinPieces (front ++ x :: y :: back) =
      joinPieces (front ++ [Text.trimEnd x]) ++ (" || ".toList ++ joinPieces (y :: back)) := by
  induction front with
  | nil => exact joinPieces_cons x (List.cons_ne_nil _ _)
  | cons first front ih =>
    rw [List.cons_append, joinPieces_cons first (by simp), ih, List.cons_append,
      joinPieces_cons first (by simp)]
    simp only [List.append_assoc]

theorem joinPieces_append_plus (front : List (List Char)) (x y : List Char)
    (back : List (List Char)) :
    joinPieces (front ++ (x ++ '+' :: y) :: back) =
      joinPieces (front ++ [x]) ++ '+' :: joinPieces (y :: back) := by
  induction front with
  | nil =>
    cases back with
    | nil => rfl
    | cons z back =>
      rw [List.nil_append, joinPieces_cons _ (List.cons_ne_nil _ _),
        joinPieces_cons _ (List.cons_ne_nil _ _), trimEnd_append_cons (by decide), List.append_assoc]
      rfl
  | cons first front ih =>
    rw [List.cons_append, joinPieces_cons first (by simp), ih, List.cons_append,
      joinPieces_cons first (by simp)]
    simp only [List.append_assoc]

theorem concatenated_of_not_mem (h : '+' ∉ text) : concatenated text = text := by
  rw [concatenated, (whole_of_not_mem h).cutAtJoins_eq]
  rfl

theorem concatenated_of_adds (h : joinsStrings u v = false) :
    concatenated (u ++ '+' :: v) = concatenated u ++ '+' :: concatenated v := by
  obtain ⟨front, x, hu⟩ := IsCut.exists_concat u
  obtain ⟨y, back, hv⟩ := IsCut.exists_cons v
  obtain ⟨before, start, hstart, htrimmed⟩ := exists_trimmed front
  have hplus : start (x ++ '+' :: y) = start x ++ '+' :: y := by
    rcases hstart with rfl | rfl
    · rfl
    · exact dropWhile_append_cons (by decide) _ _
  rw [concatenated_of_isCut (hu.append_of_adds hv h) (by simp), concatenated_of_isCut hu (by simp),
    concatenated_of_isCut hv (by simp), htrimmed, htrimmed, hplus, joinPieces_append_plus]
  rfl

theorem concatenated_of_joins (h : joinsStrings u v = true) :
    concatenated (u ++ '+' :: v) =
      concatenated (Text.trimEnd u) ++ (" || ".toList ++ concatenated (Text.trimStart v)) := by
  obtain ⟨front, x, hu⟩ := IsCut.exists_concat u
  obtain ⟨y, back, hv⟩ := IsCut.exists_cons v
  obtain ⟨before, start, hstart, htrimmed⟩ := exists_trimmed front
  have htrim : Text.trimEnd (start x) = start (Text.trimEnd x) := by
    rcases hstart with rfl | rfl
    · rfl
    · exact trimEnd_trimStart x
  rw [concatenated_of_isCut (hu.append_of_joins hv h) (by simp),
    concatenated_of_isCut hu.trimEnd (by simp), concatenated_of_isCut hv.trimStart (by simp),
    htrimmed, htrimmed, List.map_cons, joinPieces_append_cons_cons, htrim]
  rfl

/-- A text and the text with `||` in the place of every plus sign that has no number next to it, without
the white space around that plus sign.  The text may be taken apart at any plus sign. -/
inductive Concatenated : List Char → List Char → Prop
  /-- There is nothing to replace. -/
  | none {text : List Char} (h : '+' ∉ text) : Concatenated text text
  /-- A plus sign with a number next to it stays. -/
  | adds {u v u' v' : List Char} (h : EndsWithNumber u ∨ StartsWithNumber v)
      (hu : Concatenated u u') (hv : Concatenated v v') :
      Concatenated (u ++ '+' :: v) (u' ++ '+' :: v')
  /-- Any other plus sign is replaced. -/
  | joins {u v u' v' : List Char} (h : ¬(EndsWithNumber u ∨ StartsWithNumber v))
      (hu : Concatenated (trimEnd u) u') (hv : Concatenated (trimStart v) v') :
      Concatenated (u ++ '+' :: v) (u' ++ (" || ".toList ++ v'))

/-- **The description has one solution**, which the cut of the text computes. -/
theorem concatenated_iff : Concatenated text new ↔ new = concatenated text := by
  constructor
  · intro h
    induction h with
    | none h => exact (concatenated_of_not_mem h).symm
    | adds h _ _ ihu ihv =>
      rw [ihu, ihv, concatenated_of_adds (joinsStrings_eq_false_iff.2 h)]
    | joins h _ _ ihu ihv =>
      rw [← joinsStrings_eq_false_iff, Bool.not_eq_false] at h
      rw [ihu, ihv, concatenated_of_joins h]
  · rintro rfl
    induction hlength : text.length using Nat.strong_induction_on generalizing text with
    | _ n ih =>
      subst hlength
      by_cases hplus : '+' ∈ text
      · obtain ⟨u, v, rfl⟩ := List.append_of_mem hplus
        have hu : (trimEnd u).length ≤ u.length := (List.rdropWhile_prefix _ _).length_le
        have hv : (trimStart v).length ≤ v.length := (List.dropWhile_suffix _).length_le
        have hlength : (u ++ '+' :: v).length = u.length + (v.length + 1) := by simp
        rw [hlength] at ih
        by_cases h : EndsWithNumber u ∨ StartsWithNumber v
        · rw [concatenated_of_adds (joinsStrings_eq_false_iff.2 h)]
          exact .adds h (ih u.length (by omega) rfl) (ih v.length (by omega) rfl)
        · rw [concatenated_of_joins (Bool.not_eq_false _ ▸ joinsStrings_eq_false_iff.not.2 h)]
          exact .joins h (ih _ (by omega) rfl) (ih _ (by omega) rfl)
      · rw [concatenated_of_not_mem hplus]
        exact .none hplus

/-! ### The rule -/

/-- **The line is written as described** unless all of its plus signs stay, where it has none in a
literal. -/
theorem joinedAtCuts_spec (hliteral : Literal.literalContains '+' line = false) {edit? : Option Edit}
    (hrule : edit? =
      if !Literal.codeContains '+' line then none else joinedAtCuts (cutAtJoins [] line)) :
    (edit? = none ↔ ∀ u v, line = u ++ '+' :: v → EndsWithNumber u ∨ StartsWithNumber v) ∧
      ∀ edit, edit? = some edit →
        edit = .changed edit.line ['+'] ∧ ∀ new, Concatenated line new ↔ new = edit.line := by
  have hwhole : Whole line ↔ ∀ u v, line = u ++ '+' :: v → EndsWithNumber u ∨ StartsWithNumber v := by
    simp only [Whole, joinsStrings_eq_false_iff]
  have hcode : Literal.codeContains '+' line = false → Whole line := fun h =>
    whole_of_not_mem fun hmem => by
      have := Literal.codeContains_or_literalContains hmem (by decide)
      rw [h, hliteral] at this
      cases this
  have hcut := isCut_cutAtJoins line
  rw [hrule, ← hwhole]
  -- the line is whole if it has no plus sign in code, or no place where it is cut
  refine ⟨⟨fun hnone => ?_, fun h => ?_⟩, fun edit hedit => ?_⟩
  · split at hnone
    · rename_i h
      exact hcode (by simpa using h)
    · obtain ⟨first, rest, hline, -⟩ := exists_cutAtJoins [] line
      rw [hline] at hcut hnone
      cases rest with
      | nil =>
        have hfirst : first = line := hcut.joinWith_eq
        exact hfirst ▸ hcut.whole first List.mem_cons_self
      | cons second rest => cases hnone
  · rw [h.cutAtJoins_eq]
    exact ite_self _
  · split at hedit
    · cases hedit
    · have hconcat : edit = .changed (concatenated line) ['+'] := by
        obtain ⟨first, rest, hline, -⟩ := exists_cutAtJoins [] line
        rw [hline] at hedit
        cases rest with
        | nil => cases hedit
        | cons second rest =>
          rw [concatenated, hline]
          exact (Option.some.inj hedit).symm
      subst hconcat
      exact ⟨rfl, fun new => concatenated_iff⟩

/-- **What becomes of the plus signs of a line.**  A plus sign stays if and only if a number stands next
to it, behind any closing parentheses or before any opening ones; all others are replaced, and nothing
else is changed.  If all of them stay, the rule leaves the line alone. -/
theorem stringConcat_spec (ctx : Context) (line : List Char)
    (hliteral : Literal.literalContains '+' line = false)
    (hnvl : Literal.codeMatches nvlWithPlus line = false) :
    (stringConcat.edit? ctx line = none ↔
        ∀ u v, line = u ++ '+' :: v → EndsWithNumber u ∨ StartsWithNumber v) ∧
      ∀ edit, stringConcat.edit? ctx line = some edit →
        edit = .changed edit.line ['+'] ∧ ∀ new, Concatenated line new ↔ new = edit.line := by
  refine joinedAtCuts_spec hliteral ?_
  change (if !Literal.codeContains '+' line || Literal.literalContains '+' line ||
    Literal.codeMatches nvlWithPlus line then none else joinedAtCuts (cutAtJoins [] line)) = _
  rw [hliteral, hnvl, Bool.or_false, Bool.or_false]

/-- A number in grouping parentheses adds. -/
theorem stringConcat_spec_grouped :
    let line := "SELECT (1) + a".toList
    Literal.literalContains '+' line = false ∧ Literal.codeMatches nvlWithPlus line = false ∧
      ∀ u v, line = u ++ '+' :: v → EndsWithNumber u ∨ StartsWithNumber v := by
  intro line
  have hliteral : Literal.literalContains '+' line = false := by decide
  have hnvl : Literal.codeMatches nvlWithPlus line = false := by decide
  exact ⟨hliteral, hnvl, (stringConcat_spec (.start none) line hliteral hnvl).1.1 (by decide)⟩

/-- A call is no number, but its last argument, of which only the closing parenthesis is skipped, is
taken for one. -/
theorem stringConcat_call :
    let line := "SELECT f(1) + a FROM t;".toList
    Literal.literalContains '+' line = false ∧ Literal.codeMatches nvlWithPlus line = false ∧
      stringConcat.edit? (.start none) line = none ∧
      (stringConcat.edit? (.start none) "SELECT f(b) + a FROM t;".toList).map Edit.line =
        some "SELECT f(b) || a FROM t;".toList := by
  decide

end SqlDialect.Rule
