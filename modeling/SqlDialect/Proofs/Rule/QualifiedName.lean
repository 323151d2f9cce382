import SqlDialect.Proofs.Line.Place
import SqlDialect.Proofs.Pattern.Scan
import SqlDialect.Proofs.Rule.NameChain

/-!
# Which letters of a line are put in upper case

The rule about qualified names puts a letter in upper case if and only if it stands in a chain of names,
in code, and in no placeholder whose text has no quotes (`Rule.qualifiedNameCase_spec`).  So literals and
such placeholders stay.  Quotes cut a line into pieces, each of which is searched by itself: to the
search there is no placeholder around a quoted argument, and what stands in double quotes is code.

Each piece is gone through from the left.  The places of chains and placeholders are not lost on the way:
if one starts inside a match, the match goes on at least as far (`Rule.getElem?_of_chain`,
`Rule.getElem?_of_placeholder`).
-/

namespace SqlDialect.Rule

open Pattern

variable {a b s t u v : List Char} {c : Char} {m : Match} {line : List Char}

/-! ### Stretches over a place -/

/-- Whether a stretch that is read starts before the place between the texts, or at it, and ends
behind it. -/
def Covers (reads : Option Char → List Char → Option Char → Prop) (a b : List Char) : Prop :=
  ∃ u s t v, a = u ++ s ∧ b = t ++ v ∧ t ≠ [] ∧ reads u.getLast? (s ++ t) v.head?

/-- A placeholder without quotes. -/
def Templates (_ : Option Char) (text : List Char) (_ : Option Char) : Prop :=
  IsPlaceholder text ∧ '\'' ∉ text

/-- Whether the place stands in a qualified name: in code, in a chain and in no placeholder. -/
structure InQualifiedName (a b : List Char) : Prop where
  code : Literal.isClosed a = true
  chain : Covers chain.Reads a b
  outside : ¬Covers Templates a b

/-! ### One piece of code -/

/-- A piece of code with its qualified names in upper case. -/
def raisedCode (code : List Char) : List Char :=
  placeholderOrChain.replaceIn (fun m => (raisedName m).getD m.text) code

theorem raisedCode_eq (code : List Char) :
    raisedCode code = placeholderOrChain.editedFrom raisedName none 0 code :=
  replaceIn_eq_editedFrom placeholderOrChain raisedName code

theorem length_raisedName (m : Match) (hm : placeholderOrChain.Matches m) :
    ((raisedName m).getD m.text).length = m.text.length :=
  (forall₂_raisedName hm).length_eq.symm

theorem not_reads_nil_placeholderOrChain (before behind : Option Char) :
    ¬placeholderOrChain.Reads before [] behind :=
  not_reads_nil (by decide) before behind

/-- What is known of a match that has been reported over a place. -/
theorem cases_of_reportedOver (h : placeholderOrChain.ReportedOver raisedName none 0 a b m s t) :
    (IsPlaceholder m.text ∧ (raisedName m).getD m.text = m.text) ∨
      (∃ front rest, a = front ++ s ∧ b = t ++ rest ∧ chain.Reads front.getLast? m.text rest.head? ∧
        (raisedName m).getD m.text = m.text.map Char.toUpper ∧
        ∀ own behind, m.text ++ rest = own ++ behind → chain.Reads front.getLast? own behind.head? →
          own.length ≤ m.text.length) := by
  obtain ⟨front, rest, hreported, rfl, rfl⟩ := h.exists_front
  have hmatch := hreported.matchAt_eq
  rw [Option.or_none] at hmatch
  rcases match_cases hmatch rfl with hplaceholder | hchain
  · exact .inl hplaceholder
  · exact .inr ⟨front, rest, rfl, rfl, hchain⟩

theorem exists_reportedOver (a : List Char) (hreads : placeholderOrChain.Reads a.getLast? u v.head?)
    (hb : b = u ++ v) : ∃ m s t, placeholderOrChain.ReportedOver raisedName none 0 a b m s t := by
  cases hmatch : placeholderOrChain.matchAt ⟨a.getLast?.or none, 0 + a.length, b⟩ with
  | none =>
    rw [Option.or_none] at hmatch
    exact absurd hreads (matchAt_eq_none_iff.1 hmatch u v hb)
  | some m =>
    exact exists_reportedOver_of_matchAt not_reads_nil_placeholderOrChain length_raisedName hmatch

/-- The characters of a placeholder stay. -/
theorem getElem?_of_placeholder (h : Covers (fun _ text _ => IsPlaceholder text) a (c :: b)) :
    (raisedCode (a ++ c :: b))[a.length]? = some c := by
  obtain ⟨u, s, t, v, rfl, hb, ht, hplaceholder⟩ := h
  have hbehind : s ++ c :: b = (s ++ t) ++ v := by rw [hb, List.append_assoc]
  obtain ⟨m, s', t', hover⟩ := exists_reportedOver u (.inl hplaceholder.reads) hbehind
  rcases cases_of_reportedOver hover with ⟨hmatch, hstays⟩ | ⟨_, _, -, -, hchain, -⟩
  · -- the reported placeholder ends where this one does
    rw [hover.text_eq] at hmatch
    obtain ⟨front, rest, -, -, hrest⟩ := hover.exists_front
    have hlength := hmatch.length_le hover.ne_nil hplaceholder (hrest.symm.trans hbehind)
    rw [List.length_append] at hlength
    have htpos := List.length_pos_of_ne_nil ht
    obtain ⟨t₂, -, hfurther⟩ := hover.exists_further (x := s) (by omega)
    rw [raisedCode_eq, hfurther.getElem?_eq length_raisedName, hstays]
    exact hfurther.getElem?_text
  · -- there are no braces in a chain
    have hhead := hover.head?_eq
    rw [hbehind, List.head?_append, hplaceholder.head?_eq, Option.some_or] at hhead
    have hbrace : openBrace ∈ m.text := by
      rw [hover.text_eq]
      exact List.mem_append_right _ (List.mem_of_mem_head? hhead)
    exact absurd hbrace (not_mem_of_avoids (by decide) hchain)

/-- The characters of a chain are put in upper case where there is no placeholder. -/
theorem getElem?_of_chain (h : Covers chain.Reads a (c :: b))
    (hout : ¬Covers (fun _ text _ => IsPlaceholder text) a (c :: b)) :
    (raisedCode (a ++ c :: b))[a.length]? = some c.toUpper := by
  obtain ⟨u, s, t, v, rfl, hb, ht, hchain⟩ := h
  have hbehind : s ++ c :: b = (s ++ t) ++ v := by rw [hb, List.append_assoc]
  have htpos := List.length_pos_of_ne_nil ht
  obtain ⟨m, s', t', hover⟩ := exists_reportedOver u (.inr hchain) hbehind
  rcases cases_of_reportedOver hover with
    ⟨hmatch, -⟩ | ⟨front, rest, rfl, hrest, hmatch, hraised, hlongest⟩
  · rcases Nat.lt_or_ge s.length t'.length with hlength | hlength
    · -- the place stands in the placeholder
      obtain ⟨t₂, -, hfurther⟩ := hover.exists_further hlength
      obtain ⟨front, rest, -, hfront, hrest⟩ := hfurther.exists_front
      rw [hfurther.text_eq] at hmatch
      exact absurd ⟨front, s' ++ s, t₂, rest, hfront, hrest, hfurther.ne_nil, hmatch⟩ hout
    · -- the placeholder ends inside the chain, which has no braces
      obtain ⟨front, rest, -, -, hrest⟩ := hover.exists_front
      obtain ⟨s₂, rfl⟩ : t' <+: s :=
        List.prefix_of_prefix_length_le ⟨_, hrest.symm⟩ ⟨_, rfl⟩ hlength
      have hbrace : closeBrace ∈ t' := by
        have hlast := hmatch.getLast?_eq
        rw [hover.text_eq, List.getLast?_append_of_ne_nil _ hover.ne_nil] at hlast
        exact List.mem_of_getLast? hlast
      exact absurd (List.mem_append_left _ (List.mem_append_left _ hbrace))
        (not_mem_of_avoids (by decide) hchain)
  · -- the reported chain goes on at least as far
    rw [hover.text_eq] at hmatch
    have hlength := hlongest (s' ++ (s ++ t)) v
      (by rw [hover.text_eq, List.append_assoc, ← hrest, hbehind, ← List.append_assoc])
      (reads_chain_append hmatch hchain)
    rw [hover.text_eq, List.length_append, List.length_append, List.length_append] at hlength
    obtain ⟨t₂, -, hfurther⟩ := hover.exists_further (x := s) (by omega)
    rw [raisedCode_eq, hfurther.getElem?_eq length_raisedName, hraised, List.getElem?_map,
      hfurther.getElem?_text]
    rfl

/-- All other characters stay. -/
theorem getElem?_of_not_chain (h : ¬Covers chain.Reads a (c :: b)) :
    (raisedCode (a ++ c :: b))[a.length]? = some c := by
  rw [raisedCode_eq]
  have hplace : (∃ m s t, placeholderOrChain.ReportedOver raisedName none 0 a (c :: b) m s t) ∨ _ :=
    exists_reportedOver_or_getElem? not_reads_nil_placeholderOrChain length_raisedName
  rcases hplace with ⟨m, s, t, hover⟩ | hstays
  · rcases cases_of_reportedOver hover with ⟨-, hstays⟩ | ⟨front, rest, rfl, hb, hchain, -⟩
    · rw [hover.getElem?_eq length_raisedName, hstays]
      exact hover.getElem?_text
    · rw [hover.text_eq] at hchain
      exact absurd ⟨front, s, t, rest, rfl, hb, hover.ne_nil, hchain⟩ h
  · exact hstays

/-- **What becomes of a character of a piece.** -/
theorem getElem?_raisedCode :
    (Covers chain.Reads a (c :: b) ∧ ¬Covers (fun _ text _ => IsPlaceholder text) a (c :: b) →
        (raisedCode (a ++ c :: b))[a.length]? = some c.toUpper) ∧
      (¬(Covers chain.Reads a (c :: b) ∧ ¬Covers (fun _ text _ => IsPlaceholder text) a (c :: b)) →
        (raisedCode (a ++ c :: b))[a.length]? = some c) := by
  refine ⟨fun h => getElem?_of_chain h.1 h.2, fun h => ?_⟩
  by_cases hplaceholder : Covers (fun _ text _ => IsPlaceholder text) a (c :: b)
  · exact getElem?_of_placeholder hplaceholder
  · exact getElem?_of_not_chain fun hchain => h ⟨hchain, hplaceholder⟩

/-! ### The pieces of a line -/

/-- What stands over a place in a line stands over it in its piece, if it has no quotes and takes one
next to it for an end of the line. -/
theorem covers_append_iff {reads : Option Char → List Char → Option Char → Prop}
    (hquote : ∀ {x text y}, reads x text y → '\'' ∉ text)
    (hside : ∀ {x text y x' y'}, (x' = none ∨ x' = some '\'') → (y' = none ∨ y' = some '\'') →
      (reads (x.or x') text (y.or y') ↔ reads x text y))
    {before left right behind : List Char} (hbefore : before = [] ∨ before.getLast? = some '\'')
    (hbehind : behind = [] ∨ behind.head? = some '\'') :
    Covers reads (before ++ left) (right ++ behind) ↔ Covers reads left right := by
  have hlast : before.getLast? = none ∨ before.getLast? = some '\'' :=
    hbefore.imp_left List.getLast?_eq_none_iff.2
  have hhead : behind.head? = none ∨ behind.head? = some '\'' :=
    hbehind.imp_left List.head?_eq_none_iff.2
  constructor
  · rintro ⟨u, s, t, v, ha, hb, ht, hreads⟩
    have hst := hquote hreads
    rw [List.mem_append, not_or] at hst
    obtain ⟨u, rfl, rfl⟩ := Literal.exists_append_of_quote_before hbefore ha hst.1
    obtain ⟨v, rfl, rfl⟩ := Literal.exists_append_of_quote_behind hbehind hb hst.2
    refine ⟨u, s, t, v, rfl, rfl, ht, ?_⟩
    rwa [List.getLast?_append, List.head?_append, hside hlast hhead] at hreads
  · rintro ⟨u, s, t, v, rfl, rfl, ht, hreads⟩
    refine ⟨before ++ u, s, t, v ++ behind, (List.append_assoc _ _ _).symm, List.append_assoc _ _ _, ht,
      ?_⟩
    rwa [List.getLast?_append, List.head?_append, hside hlast hhead]

section Piece

variable {before left right behind : List Char} (hbefore : before = [] ∨ before.getLast? = some '\'')
  (hbehind : behind = [] ∨ behind.head? = some '\'')

include hbefore hbehind

theorem covers_chain_append_iff :
    Covers chain.Reads (before ++ left) (right ++ behind) ↔ Covers chain.Reads left right := by
  refine covers_append_iff (not_mem_of_avoids (by decide)) ?_ hbefore hbehind
  intro x text y x' y' hx hy
  -- a quote is no part of a word, and the ends of a chain are told by words
  have hany {c? d? : Option Char} (hd : d? = none ∨ d? = some '\'') :
      (c?.or d?).any Text.isWordChar = c?.any Text.isWordChar := by
    cases c? with
    | some c => rfl
    | none => rcases hd with rfl | rfl <;> decide
  rw [reads_chain_iff, reads_chain_iff, hany hx, hany hy]

theorem covers_templates_append_iff :
    Covers Templates (before ++ left) (right ++ behind) ↔ Covers Templates left right :=
  @covers_append_iff Templates (fun h => h.2) (fun _ _ => Iff.rfl) _ _ _ _ hbefore hbehind

end Piece

/-- In a piece of code, no placeholder has quotes. -/
theorem covers_templates_iff (ha : '\'' ∉ a) (hb : '\'' ∉ b) :
    Covers Templates a b ↔ Covers (fun _ text _ => IsPlaceholder text) a b := by
  constructor
  · rintro ⟨u, s, t, v, ha, hb, ht, hplaceholder, -⟩
    exact ⟨u, s, t, v, ha, hb, ht, hplaceholder⟩
  · rintro ⟨u, s, t, v, rfl, rfl, ht, hplaceholder⟩
    rw [List.mem_append, not_or] at ha hb
    exact ⟨u, s, t, v, rfl, rfl, ht, hplaceholder, by simp [ha.2, hb.1]⟩

theorem inQualifiedName_iff {before left right behind : List Char}
    (hbefore : before = [] ∨ before.getLast? = some '\'')
    (hbehind : behind = [] ∨ behind.head? = some '\'') (hleft : '\'' ∉ left) (hright : '\'' ∉ right)
    (hclosed : Literal.isClosed (before ++ left) = true) :
    InQualifiedName (before ++ left) (right ++ behind) ↔ Covers chain.Reads left right ∧
      ¬Covers (fun _ text _ => IsPlaceholder text) left right := by
  rw [← covers_templates_iff hleft hright, ← covers_chain_append_iff hbefore hbehind,
    ← covers_templates_append_iff hbefore hbehind]
  exact ⟨fun h => ⟨h.chain, h.outside⟩, fun h => ⟨hclosed, h.1, h.2⟩⟩

theorem forall₂_raisedCode (code : List Char) : List.Forall₂ Text.Raised code (raisedCode code) :=
  forall₂_raised_replaceIn (fun _ hm => forall₂_raisedName hm) code

theorem forall₂_mapCode_raisedCode (line : List Char) :
    List.Forall₂ Text.Raised line (Literal.mapCode raisedCode line) :=
  Literal.forall₂_mapCode (fun _ => .inl rfl) forall₂_raisedCode line

theorem length_mapCode_raisedCode (line : List Char) :
    (Literal.mapCode raisedCode line).length = line.length :=
  (forall₂_mapCode_raisedCode line).length_eq.symm

theorem exists_getElem?_of_forall₂ {r : Char → Char → Prop} {new : List Char}
    (h : List.Forall₂ r (a ++ c :: b) new) : ∃ d, new[a.length]? = some d ∧ r c d := by
  induction a generalizing new with
  | nil =>
    obtain ⟨d, new, hcd, -, rfl⟩ := List.forall₂_cons_left_iff.1 h
    exact ⟨d, rfl, hcd⟩
  | cons x a ih =>
    obtain ⟨y, new, -, hnew, rfl⟩ := List.forall₂_cons_left_iff.1 h
    exact ih hnew

/-- Quotes stay. -/
theorem getElem?_mapCode_quote (a b : List Char) :
    (Literal.mapCode raisedCode (a ++ '\'' :: b))[a.length]? = some '\'' := by
  obtain ⟨d, hd, hraised⟩ := exists_getElem?_of_forall₂ (forall₂_mapCode_raisedCode (a ++ '\'' :: b))
  obtain rfl : d = '\'' := hraised.elim (fun h => h) fun h => h
  exact hd

/-- The place of a character in the line, and in its piece. -/
theorem getElem?_of_piece {before left before' behind' piece : List Char}
    (hbefore : before'.length = before.length) (hleft : left.length < piece.length) :
    (before' ++ piece ++ behind')[(before ++ left).length]? = piece[left.length]? := by
  rw [List.append_assoc, List.length_append, ← hbefore,
    List.getElem?_append_right (Nat.le_add_right _ _), Nat.add_sub_cancel_left,
    List.getElem?_append_left hleft]

/-- **What becomes of a character.** -/
theorem getElem?_mapCode_raisedCode (hline : line = a ++ c :: b) :
    (InQualifiedName a (c :: b) → (Literal.mapCode raisedCode line)[a.length]? = some c.toUpper) ∧
      (¬InQualifiedName a (c :: b) → (Literal.mapCode raisedCode line)[a.length]? = some c) := by
  subst hline
  obtain ⟨before, left, right, behind, rfl, hb, hleft, hright, hbefore, hbehind, hmap⟩ :=
    Literal.exists_mapCode a (c :: b)
  cases right with
  | nil =>
    -- the character is a quote, which has no case
    obtain rfl : c = '\'' := by
      rw [List.nil_append] at hb
      rw [← hb] at hbehind
      simpa using hbehind
    exact ⟨fun _ => getElem?_mapCode_quote _ b, fun _ => getElem?_mapCode_quote _ b⟩
  | cons d right =>
    rw [List.cons_append] at hb
    obtain ⟨rfl, rfl⟩ := List.cons.inj hb
    obtain ⟨before', behind', hmap⟩ := hmap raisedCode
    have hlength : before'.length = before.length := by
      have hempty := (hmap [] List.not_mem_nil).2.1
      simp only [Literal.changed, List.isEmpty_nil, if_true, ite_self, List.append_nil] at hempty
      rw [← hempty, length_mapCode_raisedCode]
    have hpiece : '\'' ∉ left ++ c :: right := fun hmem => (List.mem_append.1 hmem).elim hleft hright
    have hmapped := (hmap _ hpiece).1
    have hwhole : before ++ left ++ c :: (right ++ behind) =
        before ++ (left ++ c :: right) ++ behind := by simp
    have hlt : left.length < (left ++ c :: right).length := by simp
    rw [hwhole, hmapped]
    by_cases hclosed : Literal.isClosed (before ++ left) = true
    · have hchanged : Literal.changed raisedCode (left ++ c :: right) =
          raisedCode (left ++ c :: right) := if_neg (by simp)
      have hraised : (raisedCode (left ++ c :: right)).length = (left ++ c :: right).length :=
        (forall₂_raisedCode _).length_eq.symm
      have hname : InQualifiedName (before ++ left) (c :: (right ++ behind)) ↔ _ :=
        inQualifiedName_iff hbefore hbehind hleft hright hclosed
      rw [if_pos hclosed, hchanged, getElem?_of_piece hlength (hraised ▸ hlt), hname]
      exact getElem?_raisedCode
    · -- a literal stays
      rw [if_neg hclosed, getElem?_of_piece hlength hlt, List.getElem?_append_right le_rfl,
        Nat.sub_self]
      exact ⟨fun h => absurd h.code hclosed, fun _ => rfl⟩

/-! ### The rule -/

variable {ctx : Context} {edit : Edit} {z : List Char}

theorem line_of_qualifiedNameCase (h : qualifiedNameCase.edit? ctx line = some edit) :
    edit.line = Literal.mapCode raisedCode line := by
  have hrule : qualifiedNameCase.edit? ctx line =
      if nearOrderBy ctx line then none else substituteSome placeholderOrChain raisedName line := rfl
  rw [hrule] at h
  split at h
  · cases h
  · obtain ⟨⟨new, note⟩, hedit, rfl⟩ := Option.map_eq_some_iff.1 h
    exact Literal.line_of_editCode hedit

/-- A stretch of the line stays if and only if it has no small letters of qualified names. -/
theorem stretch_stays_iff (hline : line = u ++ z ++ v) :
    ((Literal.mapCode raisedCode line).drop u.length).take z.length = z ↔
      ∀ a c b, z = a ++ c :: b → InQualifiedName (u ++ a) (c :: b ++ v) → c.isLower = false := by
  have hplace {a b : List Char} {c : Char} (hz : z = a ++ c :: b) :
      (InQualifiedName (u ++ a) (c :: b ++ v) →
        (Literal.mapCode raisedCode line)[u.length + a.length]? = some c.toUpper) ∧
      (¬InQualifiedName (u ++ a) (c :: b ++ v) →
        (Literal.mapCode raisedCode line)[u.length + a.length]? = some c) := by
    rw [← List.length_append]
    exact getElem?_mapCode_raisedCode (b := b ++ v) (by rw [hline, hz]; simp)
  have hstretch (i : Nat) (hi : i < z.length) :
      (((Literal.mapCode raisedCode line).drop u.length).take z.length)[i]? =
        (Literal.mapCode raisedCode line)[u.length + i]? := by
    rw [List.getElem?_take_of_lt hi, List.getElem?_drop]
  constructor
  · rintro h a c b rfl hname
    have hc := (hplace rfl).1 hname
    rw [← hstretch a.length (by simp), h, List.getElem?_append_right le_rfl, Nat.sub_self] at hc
    rw [show c = c.toUpper from Option.some.inj hc]
    exact isLower_toUpper c
  · intro h
    -- character by character: one in a name has no small form, and any other one stays
    refine List.ext_getElem? fun i => ?_
    rcases Nat.lt_or_ge i z.length with hi | hi
    · obtain ⟨a, c, b, hz, rfl⟩ : ∃ a c b, z = a ++ c :: b ∧ a.length = i :=
        ⟨z.take i, z[i], z.drop (i + 1), by rw [List.getElem_cons_drop, List.take_append_drop],
          List.length_take_of_le hi.le⟩
      have hc : z[a.length]? = some c := by
        rw [hz, List.getElem?_append_right le_rfl, Nat.sub_self]
        rfl
      rw [hstretch _ hi, hc]
      by_cases hname : InQualifiedName (u ++ a) (c :: b ++ v)
      · rw [(hplace hz).1 hname, toUpper_of_not_isLower (h a c b hz hname)]
      · exact (hplace hz).2 hname
    · rw [List.getElem?_eq_none hi, List.getElem?_eq_none (by rw [List.length_take]; omega)]

/-- **What the rule about qualified names changes.**  It puts the letters of qualified names in upper
case, and leaves all else as it is.  So it changes neither literals nor placeholders without quotes;
any other stretch of the line stays if and only if it has no small letters of qualified names. -/
theorem qualifiedNameCase_spec (h : qualifiedNameCase.edit? ctx line = some edit) :
    edit.line.length = line.length ∧
    (∀ a c b, line = a ++ c :: b →
      (InQualifiedName a (c :: b) → edit.line[a.length]? = some c.toUpper) ∧
        (¬InQualifiedName a (c :: b) → edit.line[a.length]? = some c)) ∧
    (edit.line.count '\'' = line.count '\'' ∧
      Literal.literalPieces edit.line = Literal.literalPieces line) ∧
    (∀ u z v, line = u ++ z ++ v → Literal.isClosed u = true → IsPlaceholder z → '\'' ∉ z →
      (edit.line.drop u.length).take z.length = z) ∧
    ∀ u z v, line = u ++ z ++ v → ((edit.line.drop u.length).take z.length = z ↔
      ∀ a c b, z = a ++ c :: b → InQualifiedName (u ++ a) (c :: b ++ v) → c.isLower = false) := by
  have hquote : ∀ code, '\'' ∉ code → '\'' ∉ raisedCode code := fun code hcode =>
    CharSet.not_mem_of_raised (by decide) (forall₂_raisedCode code) hcode
  rw [line_of_qualifiedNameCase h]
  refine ⟨length_mapCode_raisedCode line, fun a c b => getElem?_mapCode_raisedCode,
    ⟨Literal.count_quote_mapCode hquote, Literal.literalPieces_mapCode hquote⟩,
    fun u z v hline _ hplaceholder hz => ?_, fun u z v => stretch_stays_iff⟩
  refine (stretch_stays_iff hline).2 fun a c b hsplit hname => absurd ?_ hname.outside
  refine ⟨u, a, c :: b, v, rfl, rfl, List.cons_ne_nil c b, ?_⟩
  rw [← hsplit]
  exact ⟨hplaceholder, hz⟩

theorem qualifiedNameCase_spec_template :
    let template := "\x7b\x7b src.t \x7d\x7d".toList
    let line := "FROM ".toList ++ template ++ " JOIN a.b".toList
    let edit : Edit := .changed ("FROM ".toList ++ template ++ " JOIN A.B".toList) "a.b".toList
    qualifiedNameCase.edit? (.start none) line = some edit ∧ edit.line.length = line.length ∧
      (edit.line.drop "FROM ".toList.length).take template.length = template := by
  intro template line edit
  have h : qualifiedNameCase.edit? (.start none) line = some edit := by decide
  have htemplate : IsPlaceholder template :=
    @isPlaceholder_of_not_mem " src.t ".toList (by decide) (by decide)
  obtain ⟨hlength, -, -, hstays, -⟩ := qualifiedNameCase_spec h
  exact ⟨h, hlength,
    hstays "FROM ".toList template " JOIN a.b".toList rfl (by decide) htemplate (by decide)⟩

/-- Double quotes do not keep a name as it is, and neither does a placeholder with a quoted argument. -/
theorem qualifiedNameCase_quoted :
    (qualifiedNameCase.edit? (.start none) "SELECT \"my.col\" FROM t;".toList).map Edit.line =
        some "SELECT \"MY.COL\" FROM t;".toList ∧
      (qualifiedNameCase.edit? (.start none)
        "SELECT * FROM \x7b\x7b src.ref('x') \x7d\x7d;".toList).map Edit.line =
        some "SELECT * FROM \x7b\x7b SRC.REF('x') \x7d\x7d;".toList := by
  decide

end SqlDialect.Rule
