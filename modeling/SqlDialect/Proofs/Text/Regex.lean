import Mathlib.Logic.Relation

/-!
# Regular expressions

The meaning of a pattern that has been read into tokens.  `Parses` gives the expressions that the
tokens stand for, one rule for each form of the grammar, and `Expr.Takes` the pairs of places of a text
that an expression leads from and to.  `Accepts` puts the two together: the pattern takes all of the
text.

Besides the characters of a regular expression there is an atom for any string.  It can be replaced by
a repeated atom for any character, wherever it stands in the pattern (`accepts_expand_iff`).
-/

namespace SqlDialect.Regex

/-- What a pattern asks for without an operator. -/
inductive Atom where
  | exactly (c : Char)
  | anyChar
  | anyString
  /-- The beginning of the text. -/
  | start
  /-- The end of the text. -/
  | finish
  deriving DecidableEq, Repr

/-- How often a piece is taken. -/
inductive Mark where
  | star
  | plus
  | opt
  deriving DecidableEq, Repr

/-- What a pattern is written in. -/
inductive Token where
  | atom (a : Atom)
  | mark (m : Mark)
  | bar
  | opening
  | closing
  deriving DecidableEq, Repr

/-- What a pattern stands for. -/
inductive Expr where
  | empty
  | atom (a : Atom)
  | seq (e f : Expr)
  | alt (e f : Expr)
  | repeated (m : Mark) (e : Expr)

section Meaning

variable (dot : Char → Bool) (text : List Char)

/-- The places of the text that an atom leads from and to.  `dot` tells which characters stand for any
character. -/
def Atom.Takes : Atom → Nat → Nat → Prop
  | exactly c, i, j => text[i]? = some c ∧ j = i + 1
  | anyChar, i, j => text[i]?.any dot ∧ j = i + 1
  | anyString, i, j => i ≤ j ∧ ∀ k, i ≤ k → k < j → text[k]?.any dot
  | start, i, j => i = 0 ∧ j = i
  | finish, i, j => i = text.length ∧ j = i

/-- What is taken as often as the mark says. -/
def Mark.Repeats : Mark → (Nat → Nat → Prop) → Nat → Nat → Prop
  | star => Relation.ReflTransGen
  | plus => Relation.TransGen
  | opt => Relation.ReflGen

/-- The places of the text that an expression leads from and to. -/
def Expr.Takes : Expr → Nat → Nat → Prop
  | empty => Eq
  | atom a => a.Takes dot text
  | seq e f => Relation.Comp e.Takes f.Takes
  | alt e f => fun i j => e.Takes i j ∨ f.Takes i j
  | repeated m e => m.Repeats e.Takes

end Meaning

/-- The levels of the grammar, from what binds most to what binds least. -/
inductive Level where
  | piece
  | branch
  | alternatives

/-- The tokens of a level, and an expression that they stand for. -/
inductive Parses : Level → List Token → Expr → Prop
  | atom (a : Atom) : Parses .piece [.atom a] (.atom a)
  | group {t : List Token} {e : Expr} :
      Parses .alternatives t e → Parses .piece (.opening :: (t ++ [.closing])) e
  | repeated {t : List Token} {e : Expr} (m : Mark) :
      Parses .piece t e → Parses .piece (t ++ [.mark m]) (.repeated m e)
  | empty : Parses .branch [] .empty
  | seq {s t : List Token} {e f : Expr} :
      Parses .branch s e → Parses .piece t f → Parses .branch (s ++ t) (.seq e f)
  | branch {t : List Token} {e : Expr} : Parses .branch t e → Parses .alternatives t e
  | alt {s t : List Token} {e f : Expr} :
      Parses .alternatives s e → Parses .branch t f →
        Parses .alternatives (s ++ .bar :: t) (.alt e f)

/-- The pattern takes all of the text. -/
def Accepts (dot : Char → Bool) (tokens : List Token) (text : List Char) : Prop :=
  ∃ e, Parses .alternatives tokens e ∧ e.Takes dot text 0 text.length

variable {dot : Char → Bool} {text : List Char} {level : Level} {t u v : List Token} {e : Expr}

/-! ### What the tokens of a piece look like -/

/-- A mark has a piece before it. -/
theorem Parses.begins (h : Parses level t e) :
    (level = .piece → t ≠ []) ∧ ∀ m, t.head? ≠ some (.mark m) := by
  induction h with
  | atom a => simp
  | group => simp
  | @repeated t _ _ _ ih =>
    obtain ⟨first, rest, rfl⟩ := List.exists_cons_of_ne_nil (ih.1 rfl)
    simpa using ih.2
  | empty => simp
  | @seq s t _ _ _ _ ihs iht => cases s <;> simp_all
  | branch _ ih => simpa using ih.2
  | @alt s _ _ _ _ _ ihs _ => cases s <;> simp_all

/-- A piece that ends with an atom is this atom. -/
theorem Parses.eq_atom {a : Atom} (h : Parses .piece (t ++ [.atom a]) e) : t = [] ∧ e = .atom a := by
  generalize hu : t ++ [Token.atom a] = u at h
  cases h with
  | atom b =>
    obtain ⟨rfl, hb⟩ := List.append_eq_singleton_iff.1 hu |>.resolve_right (by simp)
    simp_all
  | @group s _ _ =>
    have := congrArg List.getLast? hu
    simp [List.getLast?_cons] at this
  | repeated m =>
    have := congrArg List.getLast? hu
    simp at this

/-! ### Any character -/

variable {dot' : Char → Bool}

theorem Expr.takes_congr (hdot : ∀ c ∈ text, dot c = dot' c) :
    e.Takes dot text = e.Takes dot' text := by
  have hany (i : Nat) : text[i]?.any dot = text[i]?.any dot' := by
    cases hi : text[i]? with
    | none => rfl
    | some c => exact hdot c (List.mem_of_getElem? hi)
  induction e with
  | empty => rfl
  | atom a =>
    funext i j
    cases a <;> simp only [Takes, Atom.Takes, hany]
  | seq e f ihe ihf => simp only [Takes, ihe, ihf]
  | alt e f ihe ihf => simp only [Takes, ihe, ihf]
  | repeated m e ih => simp only [Takes, ih]

theorem accepts_congr (hdot : ∀ c ∈ text, dot c = dot' c) :
    Accepts dot t text ↔ Accepts dot' t text := by
  simp only [Accepts, Expr.takes_congr hdot]

/-! ### Patterns without operators -/

/-- What characters that stand for themselves take is these characters. -/
theorem Parses.drop_eq {s : List Char} {i j : Nat} (h : Parses level t e)
    (ht : t = s.map fun c => .atom (.exactly c)) (htakes : e.Takes dot text i j) :
    text.drop i = s ++ text.drop j := by
  induction h generalizing s i j with
  | atom a =>
    obtain ⟨c, rfl, hc⟩ := List.map_eq_singleton_iff.1 ht.symm
    cases hc
    obtain ⟨hc, rfl⟩ := htakes
    obtain ⟨hlt, rfl⟩ := List.getElem?_eq_some_iff.1 hc
    exact List.drop_eq_getElem_cons hlt
  | group => cases s <;> cases ht
  | @repeated t _ m =>
    have hmem : Token.mark m ∈ t ++ [.mark m] := by simp
    rw [ht] at hmem
    simp at hmem
  | empty =>
    obtain rfl := List.map_eq_nil_iff.1 ht.symm
    cases htakes
    rfl
  | seq _ _ ihs iht =>
    obtain ⟨s₁, s₂, rfl, rfl, rfl⟩ := List.map_eq_append_iff.1 ht.symm
    obtain ⟨k, hleft, hright⟩ := htakes
    rw [ihs rfl hleft, iht rfl hright, List.append_assoc]
  | branch _ ih => exact ih ht htakes
  | @alt s' t _ _ =>
    have hmem : Token.bar ∈ s' ++ .bar :: t := by simp
    rw [ht] at hmem
    simp at hmem

/-- A pattern without operators takes no text but its own. -/
theorem eq_of_accepts_exactly {s : List Char}
    (h : Accepts dot (s.map fun c => .atom (.exactly c)) text) : text = s := by
  obtain ⟨e, hparses, htakes⟩ := h
  simpa using hparses.drop_eq rfl htakes

/-! ### Any string as any characters -/

/-- Any string, written as any character with a star. -/
def Token.expand : Token → List Token
  | atom .anyString => [atom .anyChar, mark .star]
  | other => [other]

theorem Token.expand_eq (x : Token) :
    (x = atom .anyString ∧ x.expand = [atom .anyChar, mark .star]) ∨ x.expand = [x] := by
  unfold expand
  split
  · exact .inl ⟨rfl, rfl⟩
  · exact .inr rfl

/-- Any string, read as any characters one after the other. -/
def Expr.expand : Expr → Expr
  | atom .anyString => repeated .star (atom .anyChar)
  | atom a => atom a
  | empty => empty
  | seq e f => seq e.expand f.expand
  | alt e f => alt e.expand f.expand
  | repeated m e => repeated m e.expand

theorem Atom.reflTransGen_anyChar :
    Relation.ReflTransGen (anyChar.Takes dot text) = anyString.Takes dot text := by
  funext i j
  refine propext ⟨fun h => ?_, fun ⟨hij, hall⟩ => ?_⟩
  · induction h with
    | refl => exact ⟨Nat.le_refl i, fun k _ _ => by omega⟩
    | @tail j' j _ hlast ih =>
      obtain ⟨hdot, rfl⟩ := hlast
      refine ⟨by have := ih.1; omega, fun k hk hlt => ?_⟩
      obtain rfl | hlt := Nat.eq_or_lt_of_le (Nat.le_of_lt_succ hlt)
      · exact hdot
      · exact ih.2 k hk hlt
  · induction hij with
    | refl => exact .refl
    | @step j hij ih =>
      have hbefore : anyString.Takes dot text i j :=
        ⟨hij, fun k hk hlt => hall k hk (Nat.lt_succ_of_lt hlt)⟩
      exact (ih hbefore hbefore.2).tail ⟨hall j hij (Nat.lt_succ_self j), rfl⟩

theorem Expr.takes_expand : e.expand.Takes dot text = e.Takes dot text := by
  induction e with
  | empty => rfl
  | atom a =>
    cases a with
    | anyString => exact Atom.reflTransGen_anyChar
    | _ => rfl
  | seq e f ihe ihf => simp only [expand, Takes, ihe, ihf]
  | alt e f ihe ihf => simp only [expand, Takes, ihe, ihf]
  | repeated m e ih => simp only [expand, Takes, ih]

theorem Parses.expand (h : Parses level t e) : Parses level (t.flatMap Token.expand) e.expand := by
  induction h with
  | atom a =>
    cases a with
    | anyString => exact .repeated .star (.atom .anyChar)
    | exactly | anyChar | start | finish => exact .atom _
  | group _ ih => simpa [Token.expand] using ih.group
  | repeated m _ ih => simpa [Token.expand, Expr.expand] using ih.repeated m
  | empty => exact .empty
  | seq _ _ ihs iht => simpa [Expr.expand] using ihs.seq iht
  | branch _ ih => exact .branch ih
  | alt _ _ ihs iht => simpa [Token.expand, Expr.expand] using ihs.alt iht

@[simp]
theorem flatMap_expand_eq_nil_iff : t.flatMap Token.expand = [] ↔ t = [] := by
  refine ⟨fun h => ?_, fun h => by rw [h, List.flatMap_nil]⟩
  cases t with
  | nil => rfl
  | cons x t =>
    rw [List.flatMap_cons] at h
    obtain ⟨-, hx⟩ | hx := x.expand_eq <;> rw [hx] at h <;> cases h

/-- A cut of the expanded tokens is a cut of the tokens, or it is in what any string expands to. -/
theorem exists_cut_of_flatMap_expand (h : t.flatMap Token.expand = u ++ v) :
    (∃ t₁ t₂, t = t₁ ++ t₂ ∧ u = t₁.flatMap Token.expand ∧ v = t₂.flatMap Token.expand) ∨
      ∃ t₁ t₂, t = t₁ ++ .atom .anyString :: t₂ ∧ u = t₁.flatMap Token.expand ++ [.atom .anyChar] ∧
        v = .mark .star :: t₂.flatMap Token.expand := by
  induction t generalizing u with
  | nil =>
    obtain ⟨rfl, rfl⟩ := List.append_eq_nil_iff.1 h.symm
    exact .inl ⟨[], [], rfl, rfl, rfl⟩
  | cons x t ih =>
    rw [List.flatMap_cons] at h
    obtain ⟨w, rfl, hrest⟩ | ⟨w, hx, rfl⟩ := List.append_eq_append_iff.1 h
    · obtain ⟨t₁, t₂, rfl, rfl, rfl⟩ | ⟨t₁, t₂, rfl, rfl, rfl⟩ := ih hrest
      · exact .inl ⟨x :: t₁, t₂, rfl, rfl, rfl⟩
      · exact .inr ⟨x :: t₁, t₂, rfl, by simp, rfl⟩
    · -- the cut is in what `x` expands to, or at an end of it
      cases u with
      | nil => exact .inl ⟨[], x :: t, rfl, rfl, by rw [List.flatMap_cons, hx, List.nil_append]⟩
      | cons first u =>
        cases w with
        | nil => exact .inl ⟨[x], t, rfl, by simpa using hx.symm, rfl⟩
        | cons second w =>
          obtain ⟨rfl, hexpand⟩ | hexpand := x.expand_eq
          · rw [hexpand] at hx
            obtain ⟨rfl, hstar⟩ := List.cons.inj hx
            obtain ⟨rfl, hsecond⟩ := (List.append_eq_singleton_iff.1 hstar.symm).resolve_right (by simp)
            obtain ⟨rfl, rfl⟩ := List.cons.inj hsecond
            exact .inr ⟨[], t, rfl, rfl, rfl⟩
          · rw [hexpand] at hx
            simp at hx

theorem exists_append_of_flatMap_expand (h : t.flatMap Token.expand = u ++ v)
    (hv : v.head? ≠ some (.mark .star)) :
    ∃ t₁ t₂, t = t₁ ++ t₂ ∧ u = t₁.flatMap Token.expand ∧ v = t₂.flatMap Token.expand := by
  refine (exists_cut_of_flatMap_expand h).resolve_right ?_
  rintro ⟨t₁, t₂, -, -, rfl⟩
  exact hv rfl

/-- A token that no expansion begins with stands there itself. -/
theorem exists_cons_of_flatMap_expand {x : Token} (h : t.flatMap Token.expand = x :: v)
    (hx : x ≠ .atom .anyChar) : ∃ t', t = x :: t' ∧ v = t'.flatMap Token.expand := by
  cases t with
  | nil => cases h
  | cons y t =>
    rw [List.flatMap_cons] at h
    obtain ⟨-, hy⟩ | hy := y.expand_eq
    · rw [hy] at h
      exact absurd (List.cons.inj h).1.symm hx
    · rw [hy] at h
      obtain ⟨rfl, rfl⟩ := List.cons.inj h
      exact ⟨t, rfl, rfl⟩

/-- **What the expanded tokens stand for** is expanded from what the tokens stand for. -/
theorem Parses.exists_of_expand (h : Parses level (t.flatMap Token.expand) e) :
    ∃ e', Parses level t e' ∧ e = e'.expand := by
  generalize hu : t.flatMap Token.expand = u at h
  induction h generalizing t with
  | atom a =>
    obtain ⟨x, t, rfl⟩ := List.exists_cons_of_ne_nil (l := t) (by rintro rfl; cases hu)
    rw [List.flatMap_cons] at hu
    obtain ⟨-, hx⟩ | hx := x.expand_eq
    · rw [hx] at hu
      cases hu
    · rw [hx] at hu
      obtain ⟨rfl, ht⟩ := List.cons.inj hu
      obtain rfl := flatMap_expand_eq_nil_iff.1 ht
      refine ⟨.atom a, .atom a, ?_⟩
      cases a <;> first | rfl | cases hx
  | group _ ih =>
    obtain ⟨t, rfl, hgroup⟩ := exists_cons_of_flatMap_expand hu (by simp)
    obtain ⟨t₁, t₂, rfl, rfl, hclosing⟩ := exists_append_of_flatMap_expand hgroup.symm (by simp)
    obtain ⟨t₃, rfl, hnil⟩ := exists_cons_of_flatMap_expand hclosing.symm (by simp)
    obtain rfl := flatMap_expand_eq_nil_iff.1 hnil.symm
    obtain ⟨e, h, rfl⟩ := ih rfl
    exact ⟨e, h.group, rfl⟩
  | repeated m hpiece ih =>
    obtain ⟨t₁, t₂, rfl, rfl, hmark⟩ | ⟨t₁, t₂, rfl, rfl, hmark⟩ := exists_cut_of_flatMap_expand hu
    · obtain ⟨t₃, rfl, hnil⟩ := exists_cons_of_flatMap_expand hmark.symm (by simp)
      obtain rfl := flatMap_expand_eq_nil_iff.1 hnil.symm
      obtain ⟨e, h, rfl⟩ := ih rfl
      exact ⟨.repeated m e, h.repeated m, rfl⟩
    · -- the mark is the star of an expansion, and the piece before it is the atom
      obtain ⟨hm, hnil⟩ := List.cons.inj hmark
      cases hm
      obtain ⟨hfront, rfl⟩ := hpiece.eq_atom
      rw [flatMap_expand_eq_nil_iff] at hfront
      rw [eq_comm, flatMap_expand_eq_nil_iff] at hnil
      rw [hfront, hnil]
      exact ⟨.atom .anyString, .atom .anyString, rfl⟩
  | empty =>
    obtain rfl := flatMap_expand_eq_nil_iff.1 hu
    exact ⟨.empty, .empty, rfl⟩
  | seq _ ht ihs iht =>
    -- what begins a piece is no mark, and so the cut is between tokens
    obtain ⟨t₁, t₂, rfl, rfl, rfl⟩ := exists_append_of_flatMap_expand hu (ht.begins.2 _)
    obtain ⟨e₁, h₁, rfl⟩ := ihs rfl
    obtain ⟨e₂, h₂, rfl⟩ := iht rfl
    exact ⟨.seq e₁ e₂, h₁.seq h₂, rfl⟩
  | branch _ ih =>
    obtain ⟨e, h, rfl⟩ := ih hu
    exact ⟨e, h.branch, rfl⟩
  | alt _ _ ihs iht =>
    obtain ⟨t₁, t₂, rfl, rfl, hbar⟩ := exists_append_of_flatMap_expand hu (by simp)
    obtain ⟨t₃, rfl, rfl⟩ := exists_cons_of_flatMap_expand hbar.symm (by simp)
    obtain ⟨e₁, h₁, rfl⟩ := ihs rfl
    obtain ⟨e₂, h₂, rfl⟩ := iht rfl
    exact ⟨.alt e₁ e₂, h₁.alt h₂, rfl⟩

/-- **Any string is any characters, one after the other.** -/
theorem accepts_expand_iff : Accepts dot (t.flatMap Token.expand) text ↔ Accepts dot t text := by
  constructor
  · rintro ⟨e, h, htakes⟩
    obtain ⟨e', h', rfl⟩ := h.exists_of_expand
    rw [Expr.takes_expand] at htakes
    exact ⟨e', h', htakes⟩
  · rintro ⟨e, h, htakes⟩
    rw [← Expr.takes_expand] at htakes
    exact ⟨e.expand, h.expand, htakes⟩

end SqlDialect.Regex
