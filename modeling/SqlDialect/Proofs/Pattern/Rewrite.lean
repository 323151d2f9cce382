import SqlDialect.Proofs.Pattern.Place
import SqlDialect.Proofs.Pattern.Reading

/-!
# Lines with replaced matches

`Pattern.Rewritten` says how a line and the line with its matches replaced go together, from left to
right: characters that are kept, and matches that new text takes the place of.

* `Pattern.rewritten_replaceIn` : replacing the matches that a search reports is a rewriting.
* `Pattern.Inert` : the conditions, about one match and what is next to it, under which the pattern
  finds nothing more in a rewritten line; `Pattern.Inert.skipsAll` says so.
* `Pattern.Inert.not_mem_matchesIn`, `Pattern.Inert.find?_eq_none` : the same, said of a search.
-/

namespace SqlDialect.Pattern

variable {p : Pattern} {wanted : List Char → Prop} {edit : Match → Option (List Char)}
  {before : Option Char} {line new : List Char}

/-! ### Places where nothing is read -/

/-- No text that is wanted is read by the pattern at the start of the line, behind `before`. -/
def Skips (p : Pattern) (wanted : List Char → Prop) (before : Option Char) (line : List Char) :
    Prop :=
  ∀ text rest, line = text ++ rest → text ≠ [] → p.Reads before text rest.head? → ¬wanted text

/-- No text that is wanted is read by the pattern anywhere in the line. -/
def SkipsAll (p : Pattern) (wanted : List Char → Prop) (before : Option Char)
    (line : List Char) : Prop :=
  ∀ a b, line = a ++ b → p.Skips wanted (a.getLast?.or before) b

theorem skips_nil : p.Skips wanted before [] :=
  fun _ _ heq hne => absurd (List.append_eq_nil_iff.1 heq.symm).1 hne

theorem skips_of_matchAt {index : Nat} (h : p.matchAt ⟨before, index, line⟩ = none) :
    p.Skips wanted before line :=
  fun text rest heq _ hreads => absurd hreads (matchAt_eq_none_iff.1 h text rest heq)

/-! ### Rewriting -/

/-- The match `m` stands behind `before` and is followed by `rest`, and `text` takes its place. -/
structure Swap (p : Pattern) (edit : Match → Option (List Char)) (before : Option Char)
    (m : Match) (rest text : List Char) : Prop where
  exists_matchAt : ∃ index, p.matchAt ⟨before, index, m.text ++ rest⟩ = some m
  text_ne_nil : m.text ≠ []
  edit_eq : edit m = some text

namespace Swap

variable {m : Match} {rest text : List Char}

theorem reads (h : p.Swap edit before m rest text) : p.Reads before m.text rest.head? := by
  obtain ⟨index, hmatch⟩ := h.exists_matchAt
  obtain ⟨rest', hrest, hreads⟩ := reads_of_matchAt hmatch
  rwa [List.append_cancel_left hrest]

theorem isMatch (h : p.Swap edit before m rest text) : p.Matches m :=
  h.exists_matchAt.elim fun _ hmatch => ⟨_, hmatch⟩

end Swap

/-- How a line, behind the character `before`, and the line with its matches replaced go
together. -/
inductive Rewritten (p : Pattern) (wanted : List Char → Prop) (edit : Match → Option (List Char)) :
    Option Char → List Char → List Char → Prop
  | nil (before : Option Char) : Rewritten p wanted edit before [] []
  /-- A character at which nothing wanted is read. -/
  | keep {before : Option Char} {c : Char} {rest new : List Char}
      (hskips : p.Skips wanted before (c :: rest))
      (hrest : Rewritten p wanted edit (some c) rest new) :
      Rewritten p wanted edit before (c :: rest) (c :: new)
  /-- A match and its replacement. -/
  | swap {before : Option Char} {m : Match} {rest text new : List Char}
      (hswap : p.Swap edit before m rest text)
      (hrest : Rewritten p wanted edit (m.text.getLast?.or before) rest new) :
      Rewritten p wanted edit before (m.text ++ rest) (text ++ new)

/-- A stretch of characters that are kept. -/
theorem Rewritten.keepAll {text rest : List Char}
    (hskips : ∀ a b, text = a ++ b → b ≠ [] → p.Skips wanted (a.getLast?.or before) (b ++ rest))
    (hrest : p.Rewritten wanted edit (text.getLast?.or before) rest new) :
    p.Rewritten wanted edit before (text ++ rest) (text ++ new) := by
  induction text generalizing before with
  | nil => exact hrest
  | cons c text ih =>
    refine .keep (hskips [] (c :: text) rfl (List.cons_ne_nil c text)) (ih ?_ ?_)
    · rintro a b rfl hb
      have := hskips (c :: a) b rfl hb
      rwa [getLast?_cons_or] at this
    · rwa [getLast?_cons_or] at hrest

/-- A text at the start of the rewritten line is kept, or reaches up to a replacement. -/
theorem Rewritten.exists_kept (h : p.Rewritten wanted edit before line new) {text rest : List Char}
    (hnew : new = text ++ rest) :
    (∃ old, line = text ++ old ∧ old.head? = rest.head?) ∨
      ∃ kept m old other new', line = kept ++ (m.text ++ old) ∧ new = kept ++ (other ++ new') ∧
        p.Swap edit (kept.getLast?.or before) m old other ∧
        p.Rewritten wanted edit (m.text.getLast?.or (kept.getLast?.or before)) old new' ∧
        kept.length ≤ text.length := by
  induction h generalizing text with
  | nil before =>
    obtain ⟨rfl, rfl⟩ := List.append_eq_nil_iff.1 hnew.symm
    exact .inl ⟨[], rfl, rfl⟩
  | @keep before c rest' new' _ hrest ih =>
    cases text with
    | nil => exact .inl ⟨c :: rest', rfl, by rw [← List.nil_append rest, ← hnew]; rfl⟩
    | cons d text =>
      obtain ⟨rfl, htail⟩ := List.cons.inj hnew
      rcases ih htail with ⟨old, rfl, hhead⟩ |
        ⟨kept, m, old, other, new'', rfl, rfl, hswap, hmore, hle⟩
      · exact .inl ⟨old, rfl, hhead⟩
      · rw [← getLast?_cons_or c kept before] at hswap hmore
        exact .inr ⟨c :: kept, m, old, other, new'', rfl, rfl, hswap, hmore,
          Nat.succ_le_succ hle⟩
  | @swap before m old other new' hswap hrest _ =>
    exact .inr ⟨[], m, old, other, new', rfl, rfl, hswap, hrest, Nat.zero_le _⟩

/-! ### The pieces of a search -/

theorem piecesFrom_append (p : Pattern) (text rest : List Char) (before : Option Char)
    (index : Nat) :
    p.piecesFrom text.length before index (text ++ rest) =
      p.piecesFrom 0 (text.getLast?.or before) (index + text.length) rest := by
  induction text generalizing before index with
  | nil => rfl
  | cons c text ih =>
    rw [List.cons_append, List.length_cons, piecesFrom, ih, getLast?_cons_or, Nat.add_assoc,
      Nat.add_comm 1]

theorem piecesFrom_cons {index : Nat} {c : Char} (h : p.matchAt ⟨before, index, c :: line⟩ = none) :
    p.piecesFrom 0 before index (c :: line) =
      .other c :: p.piecesFrom 0 (some c) (index + 1) line := by
  rw [piecesFrom, h]

theorem piecesFrom_found {index : Nat} {m : Match} {rest : List Char}
    (h : p.matchAt ⟨before, index, m.text ++ rest⟩ = some m) (hne : m.text ≠ []) :
    p.piecesFrom 0 before index (m.text ++ rest) =
      .found m :: p.piecesFrom 0 (m.text.getLast?.or before) (index + m.text.length) rest := by
  obtain ⟨c, text, htext⟩ := List.exists_cons_of_ne_nil hne
  have hempty : m.text.isEmpty = false := by rw [htext]; rfl
  have hskip : m.text.length - 1 = text.length := by rw [htext]; rfl
  have hline : m.text ++ rest = c :: (text ++ rest) := by rw [htext]; rfl
  rw [hline] at h
  rw [hline, piecesFrom, h]
  simp only [hempty, Bool.false_eq_true, if_false]
  rw [hskip, piecesFrom_append, htext, getLast?_cons_or, List.length_cons, Nat.add_assoc,
    Nat.add_comm 1]

/-- What takes the place of a piece. -/
def Piece.edited (edit : Match → Option (List Char)) : Piece → List Char
  | .other c => [c]
  | .found m => (edit m).getD m.text

/-- The pieces make up the line. -/
theorem flatMap_edited_none (p : Pattern) (skip index : Nat) (before : Option Char)
    (line : List Char) :
    (p.piecesFrom skip before index line).flatMap (Piece.edited fun _ => none) = line.drop skip := by
  induction line generalizing skip before index with
  | nil => cases skip <;> rfl
  | cons c rest ih =>
    cases skip with
    | succ skip => exact ih skip (index + 1) (some c)
    | zero =>
      rcases p.piecesFrom_cons_cases before index c rest with ⟨m, hmatch, hne, hpieces⟩ | ⟨-, hpieces⟩
      · obtain ⟨old, hold, -⟩ := reads_of_matchAt hmatch
        obtain ⟨d, text, htext⟩ := List.exists_cons_of_ne_nil hne
        have hline : c :: rest = m.text ++ old := hold
        rw [htext] at hline
        obtain ⟨rfl, rfl⟩ := List.cons_eq_cons.1 hline
        rw [hpieces, List.flatMap_cons, ih, Piece.edited, htext]
        simp
      · rw [hpieces, List.flatMap_cons, ih]
        rfl

theorem rewritten_piecesFrom
    (hdeclined : ∀ {before index m rest}, p.matchAt ⟨before, index, m.text ++ rest⟩ = some m →
      m.text ≠ [] → edit m = none → ∀ a b, m.text = a ++ b → b ≠ [] →
        p.Skips wanted (a.getLast?.or before) (b ++ rest))
    (hnil : ∀ before behind, ¬p.Reads before [] behind) (before : Option Char) (index : Nat)
    (line : List Char) :
    p.Rewritten wanted edit before line
      ((p.piecesFrom 0 before index line).flatMap (Piece.edited edit)) := by
  induction hlength : line.length using Nat.strong_induction_on generalizing before index line with
  | _ n ih =>
    subst hlength
    cases line with
    | nil => exact .nil before
    | cons c rest =>
      cases hmatch : p.matchAt ⟨before, index, c :: rest⟩ with
      | none =>
        rw [piecesFrom_cons hmatch]
        exact .keep (skips_of_matchAt hmatch) (ih _ (Nat.lt_succ_self _) _ _ _ rfl)
      | some m =>
        obtain ⟨old, hold, hreads⟩ := reads_of_matchAt hmatch
        have hne : m.text ≠ [] := by
          intro hempty
          rw [hempty] at hreads
          exact hnil _ _ hreads
        have hline : c :: rest = m.text ++ old := hold
        have hlt : old.length < (c :: rest).length := by
          rw [hline, List.length_append]
          exact Nat.lt_add_of_pos_left (List.length_pos_of_ne_nil hne)
        -- behind the match, the search goes on
        have hmore := ih old.length hlt (m.text.getLast?.or before) (index + m.text.length) old rfl
        rw [hline] at hmatch ⊢
        rw [piecesFrom_found hmatch hne, List.flatMap_cons, Piece.edited]
        cases hedit : edit m with
        | none => exact .keepAll (hdeclined hmatch hne hedit) hmore
        | some other => exact .swap ⟨⟨index, hmatch⟩, hne, hedit⟩ hmore

/-! ### Rewriting that gives rise to nothing -/

/-- Replacing the matches gives rise to nothing that the pattern reads and that is wanted. -/
structure Inert (p : Pattern) (wanted : List Char → Prop) (edit : Match → Option (List Char)) :
    Prop where
  /-- Nothing starts where new text starts. -/
  start : ∀ {before m old text new}, p.Swap edit before m old text →
    p.Rewritten wanted edit (m.text.getLast?.or before) old new → text ≠ [] →
    p.Skips wanted before (text ++ new)
  /-- Nothing starts further behind in new text. -/
  within : ∀ {before m old text new}, p.Swap edit before m old text →
    p.Rewritten wanted edit (m.text.getLast?.or before) old new →
    ∀ {a b}, text = a ++ b → a ≠ [] → b ≠ [] → p.Skips wanted (a.getLast?.or before) (b ++ new)
  /-- Nothing starts behind new text that does not start there behind the old one. -/
  behind : ∀ {before m old text new}, p.Swap edit before m old text →
    p.Rewritten wanted edit (m.text.getLast?.or before) old new →
    p.Skips wanted (m.text.getLast?.or before) new → p.Skips wanted (text.getLast?.or before) new
  /-- Nothing that starts in kept text reaches up to new text. -/
  into : ∀ {before kept m old text new}, p.Swap edit (kept.getLast?.or before) m old text →
    p.Rewritten wanted edit (m.text.getLast?.or (kept.getLast?.or before)) old new →
    kept ≠ [] → p.Skips wanted before (kept ++ (m.text ++ old)) →
    ∀ {found rest}, kept ++ (text ++ new) = found ++ rest → kept.length ≤ found.length →
      p.Reads before found rest.head? → ¬wanted found

namespace Inert

/-- Nothing is read at a character that is kept. -/
theorem skips_keep {c : Char} {rest : List Char} (h : p.Inert wanted edit)
    (hskips : p.Skips wanted before (c :: rest)) (hrest : p.Rewritten wanted edit (some c) rest new) :
    p.Skips wanted before (c :: new) := by
  intro found behind hnew hne hreads
  obtain ⟨d, text, rfl⟩ := List.exists_cons_of_ne_nil hne
  obtain ⟨rfl, htail⟩ := List.cons.inj hnew
  rcases hrest.exists_kept htail with ⟨old, rfl, hhead⟩ |
    ⟨kept, m, old, other, new', rfl, rfl, hswap, hmore, hle⟩
  · -- all of the text was there before
    rw [← hhead] at hreads
    exact hskips _ old rfl hne hreads
  · rw [← getLast?_cons_or c kept before] at hswap hmore
    exact h.into hswap hmore (List.cons_ne_nil c kept) hskips hnew (Nat.succ_le_succ hle) hreads

/-- Nothing is read in new text, or behind it. -/
theorem skipsAll_swap {m : Match} {old text : List Char} (h : p.Inert wanted edit)
    (hswap : p.Swap edit before m old text)
    (hrest : p.Rewritten wanted edit (m.text.getLast?.or before) old new)
    (hnew : p.SkipsAll wanted (m.text.getLast?.or before) new) :
    p.SkipsAll wanted before (text ++ new) := by
  have hend := h.behind hswap hrest (hnew [] new rfl)
  intro a b hsplit
  rcases List.append_eq_append_iff.1 hsplit with ⟨a', rfl, rfl⟩ | ⟨b', rfl, rfl⟩
  · rw [getLast?_append_or]
    by_cases ha' : a' = []
    · subst ha'
      exact hend
    · have := hnew a' b rfl
      rw [List.getLast?_eq_getLast_of_ne_nil ha', Option.some_or] at this ⊢
      exact this
  · by_cases hb' : b' = []
    · subst hb'
      rw [List.append_nil] at hend
      exact hend
    · by_cases ha : a = []
      · subst ha
        exact h.start hswap hrest hb'
      · exact h.within hswap hrest rfl ha hb'

/-- Nothing is read anywhere in a rewritten line. -/
theorem skipsAll (h : p.Inert wanted edit) (hline : p.Rewritten wanted edit before line new) :
    p.SkipsAll wanted before new := by
  induction hline with
  | nil before =>
    intro a b hnil
    obtain ⟨rfl, rfl⟩ := List.append_eq_nil_iff.1 hnil.symm
    exact skips_nil
  | @keep before c rest new hskips hrest ih =>
    intro a b hnew
    cases a with
    | nil =>
      obtain rfl : c :: new = b := hnew
      exact h.skips_keep hskips hrest
    | cons d a =>
      obtain ⟨rfl, htail⟩ := List.cons.inj hnew
      rw [getLast?_cons_or]
      exact ih a b htail
  | swap hswap hrest ih => exact h.skipsAll_swap hswap hrest ih

end Inert

theorem SkipsAll.not_mem_matchesIn (h : p.SkipsAll wanted none line) {m : Match}
    (hwanted : wanted m.text) : m ∉ p.matchesIn line := by
  intro hm
  obtain ⟨a, b, hline, hmatch, hne⟩ := exists_matchAt_of_mem_matchesIn hm
  obtain ⟨rest, hrest, hreads⟩ := reads_of_matchAt hmatch
  rw [← Option.or_none (o := a.getLast?)] at hreads
  exact h a b hline m.text rest hrest hne hreads hwanted

theorem SkipsAll.find?_eq_none (h : p.SkipsAll (fun _ => True) none line)
    (hnil : ∀ before behind, ¬p.Reads before [] behind) : p.find? line = none := by
  by_contra hfound
  obtain ⟨m, hm⟩ := Option.ne_none_iff_exists'.1 hfound
  obtain ⟨place, a, hspans, hmatch⟩ := exists_place_of_find? hm
  obtain ⟨rest, hrest, hreads⟩ := reads_of_matchAt hmatch
  rw [hspans.previous_eq] at hreads
  have hne : m.text ≠ [] := by
    intro hempty
    rw [hempty] at hreads
    exact hnil _ _ hreads
  exact h a place.rest hspans.rest_eq m.text rest hrest hne hreads trivial

/-- A line and the line with its edited matches replaced. -/
theorem rewritten_replaceIn
    (hdeclined : ∀ {before index m rest}, p.matchAt ⟨before, index, m.text ++ rest⟩ = some m →
      m.text ≠ [] → edit m = none → ∀ a b, m.text = a ++ b → b ≠ [] →
        p.Skips wanted (a.getLast?.or before) (b ++ rest))
    (hnil : ∀ before behind, ¬p.Reads before [] behind) (line : List Char) :
    p.Rewritten wanted edit none line (p.replaceIn (fun m => (edit m).getD m.text) line) := by
  have hpieces : p.replaceIn (fun m => (edit m).getD m.text) line =
      (p.piecesFrom 0 none 0 line).flatMap (Piece.edited edit) := by
    rw [replaceIn, pieces_eq]
    congr 1
  rw [hpieces]
  exact rewritten_piecesFrom hdeclined hnil none 0 line

end SqlDialect.Pattern
