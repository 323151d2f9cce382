import Mathlib.Data.List.Forall2
import SqlDialect.Proofs.Pattern.Rewrite
import SqlDialect.Proofs.Text.Case

/-!
# Lines with letters put in upper case

A pattern that ignores the case of ASCII letters does not see that letters of a line have been put in
upper case: every step of the search does the same on both lines.

* `Pattern.outcomes_raised` : the outcomes on both lines correspond, in order of preference.
* `Pattern.exists_of_mem_matchesIn_raised` : if matches are replaced by texts that differ from theirs
  in the case of letters only, the search finds the same matches again, each with its new text.
-/

namespace SqlDialect

namespace Text

/-- The second character is the first one, or the upper case of it. -/
def Raised (c d : Char) : Prop := d = c ∨ d = c.toUpper

/-- What is the same for an ASCII character and its upper case is so for every character. -/
theorem eq_of_raised {α : Type} {f : Char → α}
    (hascii : ∀ n, n < 128 → f (Char.ofNat n).toUpper = f (Char.ofNat n)) {c d : Char}
    (h : Raised c d) : f d = f c := by
  rcases h with rfl | rfl
  · rfl
  · exact toUpper_induction (motive := fun c d => f d = f c) hascii (fun _ _ => rfl) c

theorem isWordChar_of_raised {c d : Char} (h : Raised c d) : isWordChar d = isWordChar c :=
  eq_of_raised (by decide) h

theorem isEmpty_of_raised {text new : List Char} (h : List.Forall₂ Raised text new) :
    text.isEmpty = new.isEmpty := by
  cases h <;> rfl

theorem forall₂_raised_refl (text : List Char) : List.Forall₂ Raised text text :=
  List.forall₂_same.2 fun _ _ => .inl rfl

theorem forall₂_raised_map_toUpper (text : List Char) :
    List.Forall₂ Raised text (text.map Char.toUpper) :=
  List.forall₂_map_right_iff.2 (List.forall₂_same.2 fun _ _ => .inr rfl)

end Text

/-! ### Patterns -/

/-- Whether the set holds an ASCII letter in both cases or in neither of them. -/
def CharSet.ignoresCase (set : CharSet) : Bool :=
  (List.range 128).all fun n => set.mem (Char.ofNat n).toUpper == set.mem (Char.ofNat n)

theorem CharSet.mem_eq_of_raised {set : CharSet} (hset : set.ignoresCase = true) {c d : Char}
    (h : Text.Raised c d) : set.mem d = set.mem c := by
  refine Text.eq_of_raised (fun n hn => ?_) h
  exact beq_iff_eq.1 (List.all_eq_true.1 hset n (List.mem_range.2 hn))

theorem CharSet.not_mem_of_raised {c : Char} (hset : (CharSet.exactly c).ignoresCase = true)
    {text new : List Char} (h : List.Forall₂ Text.Raised text new) (hc : c ∉ text) : c ∉ new := by
  induction h with
  | nil => exact List.not_mem_nil
  | @cons x y text new hxy _ ih =>
    rw [List.mem_cons, not_or] at hc ⊢
    refine ⟨?_, ih hc.2⟩
    rintro rfl
    have hx := mem_eq_of_raised hset hxy
    simp [CharSet.exactly, CharSet.mem] at hx
    exact hc.1 hx.symm

/-- Whether the pattern ignores the case of ASCII letters. -/
def Pattern.ignoresCase : Pattern → Bool
  | chars sets => sets.all CharSet.ignoresCase
  | lineStart | lineEnd | boundary => true
  | seq a b | alt a b => a.ignoresCase && b.ignoresCase
  | many _ a | group _ a => a.ignoresCase

/-! ### Places and matches on both lines -/

/-- The same place of a line with letters put in upper case. -/
structure Cursor.Raised (a b : Cursor) : Prop where
  previous : Option.Rel Text.Raised a.previous b.previous
  index : a.index = b.index
  rest : List.Forall₂ Text.Raised a.rest b.rest

/-- The same group on a line with letters put in upper case. -/
structure Group.Raised (g h : Group) : Prop where
  name : g.name = h.name
  start : g.start = h.start
  text : List.Forall₂ Text.Raised g.text h.text

/-- The same match on a line with letters put in upper case. -/
structure Match.Raised (m n : Match) : Prop where
  start : m.start = n.start
  text : List.Forall₂ Text.Raised m.text n.text
  groups : List.Forall₂ Group.Raised m.groups n.groups

/-- The same piece of a line with letters put in upper case. -/
inductive Piece.Raised : Piece → Piece → Prop
  | other {c d : Char} (h : Text.Raised c d) : Raised (.other c) (.other d)
  | found {m n : Match} (h : m.Raised n) : Raised (.found m) (.found n)

/-- The same outcome on a line with letters put in upper case. -/
def Pattern.OutcomeRaised (o o' : Cursor × List Group) : Prop :=
  o.1.Raised o'.1 ∧ List.Forall₂ Group.Raised o.2 o'.2

namespace Cursor.Raised

variable {a b a' b' : Cursor}

theorem between (ha : a.Raised a') (hb : b.Raised b') :
    List.Forall₂ Text.Raised (a.between b) (a'.between b') := by
  rw [Cursor.between, Cursor.between, ha.index, hb.index]
  exact List.forall₂_take _ ha.rest

theorem isNone_previous (h : a.Raised a') : a.previous.isNone = a'.previous.isNone := by
  obtain ⟨previous, index, rest⟩ := a
  obtain ⟨previous', index', rest'⟩ := a'
  obtain ⟨hprevious, -, -⟩ := h
  cases hprevious <;> rfl

theorem atBoundary (h : a.Raised a') : a.atBoundary = a'.atBoundary := by
  obtain ⟨previous, index, rest⟩ := a
  obtain ⟨previous', index', rest'⟩ := a'
  obtain ⟨hprevious, -, hrest⟩ := h
  have hbefore : previous.any Text.isWordChar = previous'.any Text.isWordChar := by
    cases hprevious with
    | none => rfl
    | some hc => exact (Text.isWordChar_of_raised hc).symm
  have hbehind : rest.head?.any Text.isWordChar = rest'.head?.any Text.isWordChar := by
    cases hrest with
    | nil => rfl
    | cons hc _ => exact (Text.isWordChar_of_raised hc).symm
  rw [Cursor.atBoundary, Cursor.atBoundary, hbefore, hbehind]

theorem after? {sets : List CharSet} (hsets : sets.all CharSet.ignoresCase = true)
    (h : a.Raised a') : Option.Rel Cursor.Raised (a.after? sets) (a'.after? sets) := by
  induction sets generalizing a a' with
  | nil => exact .some h
  | cons set sets ih =>
    rw [List.all_cons, Bool.and_eq_true] at hsets
    obtain ⟨previous, index, rest⟩ := a
    obtain ⟨previous', index', rest'⟩ := a'
    obtain ⟨-, hindex, hrest⟩ := h
    cases hrest with
    | nil => exact .none
    | @cons c d rest rest' hcd hrest =>
      rw [Cursor.after?, Cursor.after?]
      dsimp only
      rw [CharSet.mem_eq_of_raised hsets.1 hcd]
      split
      · exact ih hsets.2 ⟨.some hcd, congrArg (· + 1) hindex, hrest⟩
      · exact .none

end Cursor.Raised

namespace Pattern

variable {p : Pattern} {place place' : Cursor} {groups groups' : List Group} {line line' : List Char}

/-! ### The search on both lines -/

theorem roundOutcomes_raised {greedy : Bool}
    {step : Cursor → List Group → List (Cursor × List Group)}
    (hstep : ∀ {place place' groups groups'}, place.Raised place' →
      List.Forall₂ Group.Raised groups groups' →
      List.Forall₂ OutcomeRaised (step place groups) (step place' groups'))
    {bound bound' : List Char} (hbound : List.Forall₂ Text.Raised bound bound')
    (hplace : place.Raised place') (hgroups : List.Forall₂ Group.Raised groups groups') :
    List.Forall₂ OutcomeRaised (roundOutcomes greedy step bound place groups)
      (roundOutcomes greedy step bound' place' groups') := by
  induction hbound generalizing place place' groups groups' with
  | nil => exact .cons ⟨hplace, hgroups⟩ .nil
  | cons _ _ ih =>
    have hmore := List.rel_flatMap (hstep hplace hgroups) fun _ _ h => ih h.1 h.2
    rw [roundOutcomes, roundOutcomes]
    cases greedy with
    | false => exact .cons ⟨hplace, hgroups⟩ hmore
    | true => exact List.rel_append hmore (.cons ⟨hplace, hgroups⟩ .nil)

/-- The outcomes on both lines correspond. -/
theorem outcomes_raised (hp : p.ignoresCase = true) (hplace : place.Raised place')
    (hgroups : List.Forall₂ Group.Raised groups groups') :
    List.Forall₂ OutcomeRaised (p.outcomes place groups) (p.outcomes place' groups') := by
  induction p generalizing place place' groups groups' with
  | chars sets =>
    have hstop := hplace.after? hp
    rw [outcomes, outcomes]
    generalize place.after? sets = stop, place'.after? sets = stop' at hstop
    cases hstop with
    | none => exact .nil
    | some h => exact .cons ⟨h, hgroups⟩ .nil
  | lineStart =>
    rw [outcomes, outcomes, hplace.isNone_previous]
    split
    · exact .cons ⟨hplace, hgroups⟩ .nil
    · exact .nil
  | lineEnd =>
    rw [outcomes, outcomes, Text.isEmpty_of_raised hplace.rest]
    split
    · exact .cons ⟨hplace, hgroups⟩ .nil
    · exact .nil
  | boundary =>
    rw [outcomes, outcomes, hplace.atBoundary]
    split
    · exact .cons ⟨hplace, hgroups⟩ .nil
    · exact .nil
  | seq a b iha ihb =>
    rw [ignoresCase, Bool.and_eq_true] at hp
    exact List.rel_flatMap (iha hp.1 hplace hgroups) fun _ _ h => ihb hp.2 h.1 h.2
  | alt a b iha ihb =>
    rw [ignoresCase, Bool.and_eq_true] at hp
    exact List.rel_append (iha hp.1 hplace hgroups) (ihb hp.2 hplace hgroups)
  | many greedy a ih => exact roundOutcomes_raised (ih hp) hplace.rest hplace hgroups
  | group name a ih =>
    refine List.rel_map (fun o o' h => ?_) (ih hp hplace hgroups)
    exact ⟨h.1, .cons ⟨rfl, hplace.index, hplace.between h.1⟩ h.2⟩

theorem matchAt_raised (hp : p.ignoresCase = true) (hplace : place.Raised place') :
    Option.Rel Match.Raised (p.matchAt place) (p.matchAt place') := by
  have houtcomes := outcomes_raised hp hplace .nil
  rw [matchAt_eq, matchAt_eq]
  generalize p.outcomes place [] = found, p.outcomes place' [] = found' at houtcomes
  cases houtcomes with
  | nil => exact .none
  | cons h _ => exact .some ⟨hplace.index, hplace.between h.1, h.2⟩

theorem piecesFrom_raised (hp : p.ignoresCase = true) (skip index : Nat)
    {before before' : Option Char} (hbefore : Option.Rel Text.Raised before before')
    (hline : List.Forall₂ Text.Raised line line') :
    List.Forall₂ Piece.Raised (p.piecesFrom skip before index line)
      (p.piecesFrom skip before' index line') := by
  induction hline generalizing skip index before before' with
  | nil => cases skip <;> exact .nil
  | @cons c d line line' hcd hline ih =>
    cases skip with
    | succ skip => exact ih skip (index + 1) (.some hcd)
    | zero =>
      have hmatch : Option.Rel Match.Raised (p.matchAt ⟨before, index, c :: line⟩)
          (p.matchAt ⟨before', index, d :: line'⟩) :=
        matchAt_raised hp ⟨hbefore, rfl, .cons hcd hline⟩
      rw [piecesFrom, piecesFrom]
      generalize p.matchAt ⟨before, index, c :: line⟩ = found,
        p.matchAt ⟨before', index, d :: line'⟩ = found' at hmatch
      cases hmatch with
      | none => exact .cons (.other hcd) (ih 0 (index + 1) (.some hcd))
      | @some m n hmn =>
        dsimp only
        rw [Text.isEmpty_of_raised hmn.text, hmn.text.length_eq]
        split
        · exact .cons (.other hcd) (ih 0 (index + 1) (.some hcd))
        · exact .cons (.found hmn) (ih _ (index + 1) (.some hcd))

/-! ### Raising the matches of a line -/

/-- Two lists that make up the same line of parts of the same lengths make it up of the same
parts. -/
theorem eq_of_flatMap_eq {α β : Type} {f : α → List Char} {g : β → List Char} {xs : List α}
    {ys : List β} (h : List.Forall₂ (fun x y => (f x).length = (g y).length) xs ys)
    (heq : xs.flatMap f = ys.flatMap g) : List.Forall₂ (fun x y => f x = g y) xs ys := by
  induction h with
  | nil => exact .nil
  | cons hlength _ ih =>
    rw [List.flatMap_cons, List.flatMap_cons] at heq
    obtain ⟨hhead, htail⟩ := List.append_inj heq hlength
    exact .cons hhead (ih htail)

theorem exists_of_mem_right {α β : Type} {r : α → β → Prop} {xs : List α} {ys : List β}
    (h : List.Forall₂ r xs ys) {y : β} (hy : y ∈ ys) : ∃ x ∈ xs, r x y := by
  induction h with
  | nil => cases hy
  | @cons x _ xs _ hxy _ ih =>
    rcases List.mem_cons.1 hy with rfl | hy
    · exact ⟨x, List.mem_cons_self, hxy⟩
    · obtain ⟨x, hx, hxy⟩ := ih hy
      exact ⟨x, List.mem_cons_of_mem _ hx, hxy⟩

theorem replaceIn_eq (p : Pattern) (f : Match → List Char) (line : List Char) :
    p.replaceIn f line =
      (p.piecesFrom 0 none 0 line).flatMap (Piece.edited fun m => some (f m)) := by
  rw [replaceIn, pieces_eq]
  rfl

variable {f : Match → List Char}

/-- A piece that is not replaced differs from the one that is in the case of letters only. -/
theorem forall₂_raised_edited (hf : ∀ m, p.Matches m → List.Forall₂ Text.Raised m.text (f m))
    {piece : Piece} (h : piece ∈ p.piecesFrom 0 none 0 line) :
    List.Forall₂ Text.Raised (Piece.edited (fun _ => none) piece)
      (Piece.edited (fun m => some (f m)) piece) := by
  cases piece with
  | other c => exact Text.forall₂_raised_refl [c]
  | found m => exact hf m (matches_of_mem_piecesFrom h).1

theorem forall₂_raised_replaceIn (hf : ∀ m, p.Matches m → List.Forall₂ Text.Raised m.text (f m))
    (line : List Char) : List.Forall₂ Text.Raised line (p.replaceIn f line) := by
  have hpieces : List.Forall₂ (fun x y => x ∈ p.piecesFrom 0 none 0 line ∧ x = y)
      (p.piecesFrom 0 none 0 line) (p.piecesFrom 0 none 0 line) :=
    List.forall₂_same.2 fun _ h => ⟨h, rfl⟩
  have hlines : List.Forall₂ Text.Raised
      ((p.piecesFrom 0 none 0 line).flatMap (Piece.edited fun _ => none))
      ((p.piecesFrom 0 none 0 line).flatMap (Piece.edited fun m => some (f m))) := by
    refine List.rel_flatMap hpieces ?_
    rintro piece _ ⟨hpiece, rfl⟩
    exact forall₂_raised_edited hf hpiece
  rwa [flatMap_edited_none, List.drop_zero, ← replaceIn_eq] at hlines

/-- If matches are replaced by raised forms of their text, the search finds the same matches again, each
with its new text. -/
theorem exists_of_mem_matchesIn_raised (hp : p.ignoresCase = true)
    (hf : ∀ m, p.Matches m → List.Forall₂ Text.Raised m.text (f m)) {n : Match}
    (hn : n ∈ p.matchesIn (p.replaceIn f line)) :
    ∃ m ∈ p.matchesIn line, m.Raised n ∧ n.text = f m := by
  have hpieces : List.Forall₂ (fun x y => x ∈ p.piecesFrom 0 none 0 line ∧ Piece.Raised x y)
      (p.piecesFrom 0 none 0 line) (p.piecesFrom 0 none 0 (p.replaceIn f line)) :=
    (List.forall₂_and_left _ _).2
      ⟨fun _ h => h, piecesFrom_raised hp 0 0 .none (forall₂_raised_replaceIn hf line)⟩
  -- the pieces of the new line are as long as what has taken the place of the old ones
  have hlengths := hpieces.imp (S := fun x y => (Piece.edited (fun m => some (f m)) x).length =
      (Piece.edited (fun _ => none) y).length) fun x y ⟨hx, h⟩ => by
    rw [← (forall₂_raised_edited hf hx).length_eq]
    cases h with
    | other => rfl
    | found h => exact h.text.length_eq
  have htexts := eq_of_flatMap_eq hlengths (by
    rw [flatMap_edited_none, List.drop_zero, ← replaceIn_eq])
  have hboth := hpieces.mp (S := fun x y => Piece.Raised x y ∧
    Piece.edited (fun m => some (f m)) x = Piece.edited (fun _ => none) y)
    (fun _ _ h htext => ⟨h.2, htext⟩) htexts
  rw [matchesIn, pieces_eq, List.mem_filterMap] at hn
  obtain ⟨y, hy, hmatch⟩ := hn
  obtain ⟨x, hx, hraised, htext⟩ := exists_of_mem_right hboth hy
  cases hraised with
  | other => cases hmatch
  | @found m n' h =>
    obtain rfl := Option.some.inj hmatch
    refine ⟨m, ?_, h, htext.symm⟩
    rw [matchesIn, pieces_eq, List.mem_filterMap]
    exact ⟨.found m, hx, rfl⟩

end Pattern

end SqlDialect
