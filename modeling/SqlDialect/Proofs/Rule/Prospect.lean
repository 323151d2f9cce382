import Mathlib.Data.Fintype.OfMap
import SqlDialect.Proofs.Line.Literal
import SqlDialect.Proofs.Text.Case
import SqlDialect.Proofs.Text.Trim

/-!
# Prospects of the rules about dates

The rules about dates are applied again and again, and each of their edits makes the line longer.
What it takes away is a *prospect*: a place in code at which a text starts that an edit may still
change.  Whether a text is one is decided by reading it with finitely many stages (`Prospect.read`).
The stages do not follow the patterns of the rules to the letter: `SY` is as good as `SYSDATE`, and
what stands behind the first apostrophe that may end a unit is read so that a text in a new place,
or with new text in it, is no better than it was.

* `Prospect.Below` : which stages are no better than others; reading keeps it
  (`Prospect.Below.read`).
* `Prospect.NoMore` : one text can stand in the place of another without a new prospect anywhere.
* `Prospect.Fewer`, `Prospect.count_lt_of_fewer` : and with fewer of them.
* `Prospect.two_mul_count_le` : no two prospects are next to each other.
-/

namespace SqlDialect

namespace Prospect

/-- What the stages tell characters apart by. -/
inductive Kind where
  | blank
  | opening
  | closing
  | comma
  | quote
  | t
  | r
  | s
  | y
  | other
deriving DecidableEq

instance : Fintype Kind :=
  .ofList [.blank, .opening, .closing, .comma, .quote, .t, .r, .s, .y, .other] fun k => by
    cases k <;> decide

/-- The kind of a character; letters are told apart without regard to case. -/
def kind (c : Char) : Kind :=
  if Text.isBlank c then .blank
  else match Text.foldCase c with
    | '(' => .opening
    | ')' => .closing
    | ',' => .comma
    | '\'' => .quote
    | 't' => .t
    | 'r' => .r
    | 's' => .s
    | 'y' => .y
    | _ => .other

/-- How far a text has been read as something that an edit may still change. -/
inductive Stage where
  /-- Whatever follows, it is not a prospect. -/
  | cold
  /-- Nothing has been read. -/
  | start
  /-- The first letter of `TRUNC`. -/
  | t
  /-- The first letter of `SYSDATE`. -/
  | s
  /-- A word that has started like `TRUNC`, up to its parenthesis. -/
  | word
  /-- The column, up to a parenthesis of its own. -/
  | name
  /-- The parenthesis of the column. -/
  | group
  /-- Behind the parenthesis of the column. -/
  | closed
  /-- Behind the comma that ends the column. -/
  | comma
  /-- The unit, up to an apostrophe. -/
  | unit
  /-- Behind an apostrophe that may have ended the unit. -/
  | behind
  /-- Behind a parenthesis that may have ended the call. -/
  | paren
  /-- Whatever follows, it is a prospect. -/
  | hot
deriving DecidableEq

instance : Fintype Stage :=
  .ofList [.cold, .start, .t, .s, .word, .name, .group, .closed, .comma, .unit, .behind, .paren,
    .hot] fun σ => by cases σ <;> decide

/-- The stage after one more character. -/
def step : Stage → Kind → Stage
  | .start, .t => .t
  | .start, .s => .s
  | .t, .r => .word
  | .s, .y => .hot
  | .start, _ | .t, _ | .s, _ => .cold
  | .word, .opening => .name
  | .word, .closing | .word, .comma | .word, .quote => .cold
  | .word, _ => .word
  | .name, .opening => .group
  | .name, .comma => .comma
  | .name, .closing | .name, .quote => .cold
  | .name, _ => .name
  | .group, .opening => .cold
  | .group, .closing => .closed
  | .group, _ => .group
  | .closed, .blank => .closed
  | .closed, .comma => .comma
  | .closed, _ => .cold
  | .comma, .blank => .comma
  | .comma, .quote => .unit
  | .comma, _ => .cold
  | .unit, .quote => .behind
  | .unit, _ => .unit
  | .behind, .opening => .cold
  | .behind, .closing => .paren
  | .behind, _ => .behind
  | .paren, .blank => .paren
  | .paren, .comma => .behind
  | .paren, .closing => .cold
  | .paren, _ => .hot
  | .hot, _ => .hot
  | .cold, _ => .cold

/-- The stage after a text. -/
def read (σ : Stage) (text : List Char) : Stage := text.foldl (fun σ c => step σ (kind c)) σ

/-- The number of prospects that start in the code of `text`, with `rest` behind it, where `inside`
tells whether a literal is open before it. -/
def countIn (inside : Bool) (rest : List Char) : List Char → Nat
  | [] => 0
  | c :: text =>
    (if !inside && read .start (c :: text ++ rest) == .hot then 1 else 0) +
      countIn (if c == '\'' then !inside else inside) rest text

/-- The number of prospects in the line. -/
def count (line : List Char) : Nat := countIn false [] line

example : count "trunc(a,'m')-1".toList = 1 ∧ count "trunc(a,'m'))".toList = 0 := by
  decide

/-! ### Kinds of characters -/

theorem kind_foldCase (c : Char) : kind (Text.foldCase c) = kind c := by
  rw [kind, kind, Text.isBlank_foldCase, Text.foldCase_foldCase]

theorem kind_of_isBlank {c : Char} (h : Text.isBlank c = true) : kind c = .blank := if_pos h

/-- The marks have kinds of their own. -/
theorem eq_of_kind_eq {c d : Char} (hd : d ∈ "(),'".toList) (h : kind c = kind d) : c = d := by
  have hfold : Text.foldCase c = d := by
    obtain rfl | rfl | rfl | rfl : d = '(' ∨ d = ')' ∨ d = ',' ∨ d = '\'' := by simpa using hd
    all_goals
      rw [kind] at h
      split at h
      · exact absurd h (by decide)
      · split at h <;> first | assumption | exact absurd h (by decide)
  by_contra hne
  have halpha := Text.isAlpha_of_foldCase_ne (c := c) (by rw [hfold]; exact Ne.symm hne)
  have hmarks : "(),'".toList.all (!Char.isAlpha ·) = true := by decide
  rw [hfold] at halpha
  simpa [halpha] using List.all_eq_true.1 hmarks d hd

theorem kind_eq_quote_iff {c : Char} : kind c = .quote ↔ c = '\'' :=
  ⟨fun h => eq_of_kind_eq (by decide) h, fun h => h ▸ rfl⟩

/-- Digits start neither of the words. -/
theorem kind_of_isDigit {c : Char} (h : c.isDigit = true) : kind c = .other := by
  have hdigits : ∀ n < 10, kind (Char.ofNat (48 + n)) = .other := by decide
  obtain ⟨hlow, hhigh⟩ : 48 ≤ c.toNat ∧ c.toNat ≤ 57 := Char.isDigit_iff_toNat.1 h
  have := hdigits (c.toNat - 48) (by omega)
  rwa [Nat.add_sub_cancel' hlow, Char.ofNat_toNat] at this

/-- Characters outside the marks have none of their kinds. -/
theorem kind_ne_of_not_mem {marks : List Char} {c : Char} (h : c ∉ marks)
    (hmarks : marks ⊆ "(),'".toList) {k : Kind} (hk : k ∈ marks.map kind) : kind c ≠ k := by
  obtain ⟨d, hd, rfl⟩ := List.mem_map.1 hk
  intro heq
  exact h (eq_of_kind_eq (hmarks hd) heq ▸ hd)

theorem not_mem_of_isBlank {text : List Char} (h : ∀ c ∈ text, Text.isBlank c = true) :
    '\'' ∉ text :=
  fun hmem => absurd (h _ hmem) (by decide)

theorem not_mem_of_kind {text : List Char} (h : ∀ c ∈ text, kind c = .other) : '\'' ∉ text :=
  fun hmem => absurd (h _ hmem) (by decide)

/-! ### Reading -/

variable {σ τ υ : Stage} {a b text rest new old : List Char} {inside : Bool}

theorem read_cons (σ : Stage) (c : Char) (text : List Char) :
    read σ (c :: text) = read (step σ (kind c)) text := rfl

theorem read_append (σ : Stage) (a b : List Char) : read σ (a ++ b) = read (read σ a) b :=
  List.foldl_append

theorem read_map_foldCase (σ : Stage) (text : List Char) :
    read σ (text.map Text.foldCase) = read σ text := by
  rw [read, read, List.foldl_map]
  simp only [kind_foldCase]

/-- What every step keeps of two stages, reading the same text keeps. -/
theorem read_induction₂ {P : Stage → Stage → Prop} {q : Kind → Prop} (hστ : P σ τ)
    (hstep : ∀ σ τ k, q k → P σ τ → P (step σ k) (step τ k)) (htext : ∀ c ∈ text, q (kind c)) :
    P (read σ text) (read τ text) := by
  induction text generalizing σ τ with
  | nil => exact hστ
  | cons c text ih =>
    rw [List.forall_mem_cons] at htext
    exact ih (hstep σ τ (kind c) htext.1 hστ) htext.2

/-- What every step keeps, reading keeps. -/
theorem read_induction {P : Stage → Prop} {q : Kind → Prop} (hσ : P σ)
    (hstep : ∀ σ k, q k → P σ → P (step σ k)) (htext : ∀ c ∈ text, q (kind c)) :
    P (read σ text) :=
  read_induction₂ (P := fun σ _ => P σ) (τ := σ) hσ (fun σ _ k hk h => hstep σ k hk h) htext

/-- Characters of one kind leave the stage as the first of them does. -/
theorem read_of_kind {k : Kind} (hσ : step σ k = σ) (htext : ∀ c ∈ text, kind c = k) :
    read σ text = σ :=
  read_induction (P := (· = σ)) (q := (· = k)) rfl (by rintro _ _ rfl rfl; exact hσ) htext

@[simp] theorem read_cold (text : List Char) : read .cold text = .cold := by
  induction text with
  | nil => rfl
  | cons c text ih => exact ih

@[simp] theorem read_hot (text : List Char) : read .hot text = .hot := by
  induction text with
  | nil => rfl
  | cons c text ih => exact ih

/-! ### Blanks, units and what is behind them -/

/-- White space leaves the stage where it is if it does not end the reading. -/
theorem read_blank (hσ : step σ .blank = σ) (h : ∀ c ∈ text, Text.isBlank c = true) :
    read σ text = σ :=
  read_of_kind hσ fun c hc => kind_of_isBlank (h c hc)

theorem eq_nil_or_read_blank (hσ : step σ .blank = .cold)
    (h : ∀ c ∈ text, Text.isBlank c = true) : text = [] ∨ read σ text = .cold := by
  cases text with
  | nil => exact .inl rfl
  | cons c text =>
    rw [read_cons, kind_of_isBlank (h c List.mem_cons_self), hσ]
    exact .inr (read_cold text)

/-- White space before a comma makes no difference. -/
theorem step_comma_read_blank (h : ∀ c ∈ text, Text.isBlank c = true) (σ : Stage) :
    step (read σ text) .comma = step σ .comma := by
  have hblank : ∀ σ, step σ .blank = σ ∨ step σ .blank = .cold ∧ step σ .comma = .cold := by
    decide
  rcases hblank σ with hstay | ⟨hcold, hcomma⟩
  · rw [read_blank hstay h]
  · rcases eq_nil_or_read_blank hcold h with rfl | hread
    · rfl
    · rw [hread, hcomma]
      rfl

/-- White space around a text makes no difference where it makes none inside of it. -/
theorem read_trim (hσ : step σ .blank = σ) (h : read σ text ≠ .cold) :
    read σ (Text.trim text) = read σ text := by
  obtain ⟨a, b, htext, ha, hb⟩ := Text.exists_eq_append_trim text
  have hread : read σ text = read (read σ (Text.trim text)) b := by
    conv_lhs => rw [htext]
    rw [read_append, read_blank hσ ha, read_append]
  rw [hread] at h ⊢
  generalize read σ (Text.trim text) = τ at h ⊢
  have hblank : ∀ τ, step τ .blank = τ ∨ step τ .blank = .cold := by decide
  rcases hblank τ with hstay | hcold
  · exact (read_blank hstay hb).symm
  · rcases eq_nil_or_read_blank hcold hb with rfl | hread
    · rfl
    · exact absurd hread h

/-- A unit goes on through text without an apostrophe. -/
theorem read_unit (h : '\'' ∉ text) : read .unit text = .unit :=
  read_induction (P := (· = .unit)) (q := (· ≠ .quote)) rfl
    (by rintro _ k hk rfl; revert k; decide)
    fun c hc hquote => h (kind_eq_quote_iff.1 hquote ▸ hc)

/-- How far a text may be read from within the parenthesis of a column and from behind a unit, as
long as it has no apostrophe. -/
def InStep (σ τ : Stage) : Prop :=
  σ = .cold ∨ σ = .group ∧ τ = .behind ∨ σ = .closed ∧ τ = .paren ∨ σ = .comma ∧ τ = .behind

instance : DecidableRel InStep := fun σ τ => by unfold InStep; infer_instance

/-- A parenthesis that is closed in a unit, and then a comma, leave no unit behind. -/
theorem read_group_unit (h : '\'' ∉ text) :
    read .group text = .cold ∨ read .group text = .group ∨ read .group text = .closed ∨
      read .group text = .comma ∧ read .behind text = .behind := by
  have hstep : ∀ σ τ k, k ≠ .quote → InStep σ τ → InStep (step σ k) (step τ k) := by
    rintro σ τ k hk (rfl | ⟨rfl, rfl⟩ | ⟨rfl, rfl⟩ | ⟨rfl, rfl⟩)
    · exact .inl rfl
    all_goals
      revert k
      decide
  have hstart : InStep .group .behind := by decide
  have hquote : ∀ c ∈ text, kind c ≠ .quote := fun c hc hk => h (kind_eq_quote_iff.1 hk ▸ hc)
  rcases read_induction₂ (P := InStep) hstart hstep hquote with h | ⟨h, -⟩ | ⟨h, -⟩ | h
  · exact .inl h
  · exact .inr (.inl h)
  · exact .inr (.inr (.inl h))
  · exact .inr (.inr (.inr h))

/-- Behind a unit there is little to read. -/
theorem read_behind (text : List Char) : read .behind text = .behind ∨ read .behind text = .paren ∨
    read .behind text = .hot ∨ read .behind text = .cold :=
  read_induction (P := fun σ => σ = .behind ∨ σ = .paren ∨ σ = .hot ∨ σ = .cold)
    (q := fun _ => True) (.inl rfl) (by decide) fun _ _ => trivial

/-! ### Stages that are no better than others -/

/-- Whatever makes a prospect of `σ` makes one of `τ`. -/
def Below (σ τ : Stage) : Prop := σ = .cold ∨ τ = .hot ∨ σ = τ ∨ σ = .closed ∧ τ = .name

instance : DecidableRel Below := fun σ τ => by unfold Below; infer_instance

theorem Below.refl : ∀ σ, Below σ σ := by decide

theorem Below.eq_hot : ∀ {τ}, Below .hot τ → τ = .hot := by decide

theorem Below.trans (h : Below σ τ) (h' : Below τ υ) : Below σ υ := by
  rcases h with rfl | rfl | rfl | ⟨rfl, rfl⟩
  · exact .inl rfl
  · exact .inr (.inl h'.eq_hot)
  · exact h'
  · revert υ
    decide

theorem Below.step (h : Below σ τ) (k : Kind) : Below (step σ k) (step τ k) := by
  rcases h with rfl | rfl | rfl | ⟨rfl, rfl⟩
  · exact .inl rfl
  · exact .inr (.inl rfl)
  · exact .refl _
  · revert k
    decide

theorem Below.read (h : Below σ τ) (text : List Char) : Below (read σ text) (read τ text) :=
  read_induction₂ (q := fun _ => True) h (fun _ _ k _ h => h.step k) fun _ _ => trivial

/-! ### Counting -/

theorem countIn_append (inside : Bool) (a b rest : List Char) :
    countIn inside rest (a ++ b) =
      countIn inside (b ++ rest) a + countIn (Literal.insideAfter inside a) rest b := by
  induction a generalizing inside with
  | nil => simp [countIn, Literal.insideAfter]
  | cons c a ih =>
    rw [List.cons_append, countIn, ih, Literal.insideAfter_cons, countIn, Nat.add_assoc,
      ← List.cons_append, List.append_assoc]

/-- Text behind which a worse one stands has no more prospects in it. -/
theorem countIn_le_of_below (h : ∀ σ, Below (read σ b) (read σ a)) (inside : Bool)
    (text : List Char) : countIn inside b text ≤ countIn inside a text := by
  induction text generalizing inside with
  | nil => exact Nat.le_refl 0
  | cons c text ih =>
    rw [countIn, countIn]
    refine Nat.add_le_add ?_ (ih _)
    rw [read_append, read_append]
    split
    · rename_i hhot
      rw [Bool.and_eq_true, beq_iff_eq] at hhot
      have := (hhot.2 ▸ h (read .start (c :: text)) : Below .hot _).eq_hot
      rw [if_pos (by rw [hhot.1, this]; rfl)]
    · exact Nat.zero_le _

/-- A literal holds no prospects. -/
theorem countIn_true_of_not_mem (h : '\'' ∉ text) (rest : List Char) :
    countIn true rest text = 0 := by
  induction text with
  | nil => rfl
  | cons c text ih =>
    rw [List.mem_cons, not_or] at h
    have hc : (c == '\'') = false := beq_eq_false_iff_ne.2 (Ne.symm h.1)
    rw [countIn, hc, if_neg Bool.false_ne_true, ih h.2]
    rfl

/-- Whether no text that starts in this one can be a prospect, whatever follows. -/
def isBarren : List Char → Bool
  | [] => true
  | c :: text => read .start (c :: text) == .cold && isBarren text

theorem countIn_of_isBarren (h : isBarren text = true) (inside : Bool) (rest : List Char) :
    countIn inside rest text = 0 := by
  induction text generalizing inside with
  | nil => rfl
  | cons c text ih =>
    rw [isBarren, Bool.and_eq_true, beq_iff_eq] at h
    rw [countIn, ih h.2, read_append, h.1, read_cold]
    simp

theorem isBarren_of_kind (h : ∀ c ∈ text, kind c = .other) : isBarren text = true := by
  induction text with
  | nil => rfl
  | cons c text ih =>
    rw [List.forall_mem_cons] at h
    rw [isBarren, ih h.2, read_cons, h.1, Bool.and_true, beq_iff_eq]
    exact read_cold text

/-- A text that starts with a prospect has one. -/
theorem countIn_pos (hne : text ≠ []) (h : read .start (text ++ rest) = .hot) :
    0 < countIn false rest text := by
  obtain ⟨c, text, rfl⟩ := List.exists_cons_of_ne_nil hne
  rw [countIn, if_pos (by rw [h]; rfl)]
  exact Nat.lt_of_lt_of_le Nat.one_pos (Nat.le_add_right 1 _)

/-- Of two places next to each other, at most one is a prospect. -/
theorem two_mul_countIn_le (inside : Bool) :
    ∀ text : List Char, 2 * countIn inside [] text ≤ text.length + 1
  | [] => by simp [countIn]
  | [c] => by
    rw [countIn, countIn, List.length_singleton]
    split <;> omega
  | c :: d :: text => by
    have hcold : ∀ k k', step (step .start k) k' ≠ .cold → step .start k' = .cold := by decide
    have hnext : read .start (c :: d :: text ++ []) = .hot →
        read .start (d :: text ++ []) ≠ .hot := by
      intro h
      have hne : step (step .start (kind c)) (kind d) ≠ .cold := by
        intro heq
        rw [List.cons_append, List.cons_append, read_cons, read_cons, heq, read_cold] at h
        cases h
      rw [List.cons_append, read_cons, hcold _ _ hne, read_cold]
      decide
    rw [countIn, countIn, List.length_cons, List.length_cons]
    generalize (if c == '\'' then !inside else inside) = inside'
    have ih := two_mul_countIn_le (if d == '\'' then !inside' else inside') text
    generalize countIn (if d == '\'' then !inside' else inside') [] text = n at ih ⊢
    by_cases h : read .start (c :: d :: text ++ []) = .hot
    · rw [beq_eq_false_iff_ne.2 (hnext h), Bool.and_false, if_neg Bool.false_ne_true]
      split <;> omega
    · rw [beq_eq_false_iff_ne.2 h, Bool.and_false, if_neg Bool.false_ne_true]
      split <;> omega

theorem two_mul_count_le (line : List Char) : 2 * count line ≤ line.length + 1 :=
  two_mul_countIn_le false line

/-! ### Texts in the place of others -/

/-- The text `new` can take the place of `old` anywhere without a new prospect. -/
structure NoMore (new old : List Char) : Prop where
  below : ∀ σ, Below (read σ new) (read σ old)
  inside_eq : ∀ inside, Literal.insideAfter inside new = Literal.insideAfter inside old
  count_le : ∀ inside rest, countIn inside rest new ≤ countIn inside rest old

namespace NoMore

theorem refl (text : List Char) : NoMore text text :=
  ⟨fun _ => .refl _, fun _ => rfl, fun _ _ => Nat.le_refl _⟩

theorem append {new' old' : List Char} (h : NoMore new old) (h' : NoMore new' old') :
    NoMore (new ++ new') (old ++ old') where
  below σ := by
    rw [read_append, read_append]
    exact ((h.below σ).read new').trans (h'.below (read σ old))
  inside_eq inside := by
    rw [Literal.insideAfter_append, Literal.insideAfter_append, h.inside_eq, h'.inside_eq]
  count_le inside rest := by
    rw [countIn_append, countIn_append, h.inside_eq]
    have hbehind (σ : Stage) : Below (read σ (new' ++ rest)) (read σ (old' ++ rest)) := by
      rw [read_append, read_append]
      exact (h'.below σ).read rest
    exact Nat.add_le_add ((countIn_le_of_below hbehind inside new).trans (h.count_le inside _))
      (h'.count_le _ rest)

end NoMore

/-- The text `new` has fewer prospects than `old` where it takes its place in code, and makes none
elsewhere. -/
structure Fewer (new old : List Char) : Prop where
  below : ∀ σ, Below (read σ new) (read σ old)
  inside_eq : Literal.insideAfter false new = Literal.insideAfter false old
  count_lt : ∀ rest, countIn false rest new < countIn false rest old

theorem count_lt_of_fewer (h : Fewer new old) (hclosed : Literal.isClosed a = true)
    (b : List Char) : count (a ++ (new ++ b)) < count (a ++ (old ++ b)) := by
  have hinside : Literal.insideAfter false a = false := Literal.insideAfter_eq_false_iff.2 hclosed
  have hbehind (σ : Stage) : Below (read σ (new ++ b ++ [])) (read σ (old ++ b ++ [])) := by
    rw [List.append_nil, List.append_nil, read_append, read_append]
    exact (h.below σ).read b
  rw [count, count, countIn_append, countIn_append, countIn_append, countIn_append, hinside,
    h.inside_eq]
  have hbefore := countIn_le_of_below hbehind false a
  have hlt := h.count_lt (b ++ [])
  omega

end Prospect

end SqlDialect
