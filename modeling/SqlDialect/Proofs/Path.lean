import SqlDialect.Path
import SqlDialect.Proofs.Text.Lines

/-!
# Steps of paths

A path is joined together from pieces, and what it means are its steps.

* `Path.IsName` : the texts that can name an entry of a directory.
* `Path.isSteps_components` : only the first step of a path can lead to the root or to where one is;
  `Path.components_ofComponents` : a path can be made of all such steps.
* `Path.components_join` : a step joined to a path comes behind the steps of the path.
-/

namespace SqlDialect

/-- A text that can name an entry of a directory. -/
def Path.IsName (chars : List Char) : Prop :=
  chars ≠ [] ∧ chars ≠ ['.'] ∧ chars ≠ ['.', '.'] ∧ '/' ∉ chars

instance (chars : List Char) : Decidable (Path.IsName chars) :=
  inferInstanceAs (Decidable (_ ∧ _ ∧ _ ∧ _))

namespace Component

/-- A step that can come after others. -/
def IsInner : Component → Prop
  | name chars => Path.IsName chars
  | parent => True
  | _ => False

theorem ofPiece?_text {c : Component} (h : c.IsInner) : ofPiece? c.text = some c := by
  cases c with
  | root => exact h.elim
  | current => exact h.elim
  | parent => rfl
  | name chars =>
    obtain ⟨hempty, hdot, hdots, -⟩ := h
    rw [text, ofPiece?, if_neg (by simp [hempty, hdot]), if_neg hdots]

theorem text_ne_dot {c : Component} (h : c.IsInner) : c.text ≠ ['.'] := by
  cases c with
  | root => exact h.elim
  | current => exact h.elim
  | parent => decide
  | name chars => exact h.2.1

theorem slash_not_mem_text {c : Component} (h : c.IsInner) : '/' ∉ c.text := by
  cases c with
  | root => exact h.elim
  | current => exact h.elim
  | parent => decide
  | name chars => exact h.2.2.2

/-- A piece between slashes that counts is a step that can come after others. -/
theorem isInner_of_ofPiece? {piece : List Char} {c : Component} (hslash : '/' ∉ piece)
    (h : ofPiece? piece = some c) : c.IsInner := by
  rw [ofPiece?] at h
  split at h
  · cases h
  rename_i hcounts
  rw [not_or] at hcounts
  split at h
  · rw [← Option.some.inj h]
    trivial
  · rename_i hdots
    rw [← Option.some.inj h]
    exact ⟨hcounts.1, hcounts.2, hdots, hslash⟩

end Component

namespace Path

open Component

/-! ### The steps of a text -/

theorem cutAt_append_slash (a b : List Char) :
    Text.cutAt '/' (a ++ '/' :: b) = Text.cutAt '/' a ++ Text.cutAt '/' b := by
  simp only [Text.cutAt_eq_splitOn, List.splitOn_append_cons_self]

/-- The steps of a path that starts at the root. -/
theorem components_slash (b : List Char) :
    components ⟨'/' :: b⟩ = .root :: (Text.cutAt '/' b).filterMap ofPiece? := by
  rw [components, Text.cutAt_cons_self]
  rfl

/-- The steps of a text behind a slash come after those of the text before it. -/
theorem components_append_slash {a : List Char} (ha : a ≠ []) (b : List Char) :
    components ⟨a ++ '/' :: b⟩ = components ⟨a⟩ ++ (Text.cutAt '/' b).filterMap ofPiece? := by
  obtain ⟨first, rest, hcut⟩ := List.exists_cons_of_ne_nil (Text.cutAt_ne_nil '/' a)
  obtain ⟨x, a, rfl⟩ := List.exists_cons_of_ne_nil ha
  have habsolute : isAbsolute ⟨x :: a ++ '/' :: b⟩ = isAbsolute ⟨x :: a⟩ := rfl
  have hcounted : (first :: (rest ++ Text.cutAt '/' b)).filterMap ofPiece? =
      (first :: rest).filterMap ofPiece? ++ (Text.cutAt '/' b).filterMap ofPiece? := by
    rw [← List.cons_append, List.filterMap_append]
  rw [components, components]
  dsimp only
  rw [cutAt_append_slash, hcut, habsolute, List.cons_append]
  dsimp only
  rw [hcounted, List.filterMap_append]
  split
  · rfl
  split
  · rfl
  · rfl

/-- The steps of a piece by itself. -/
theorem components_piece {piece : List Char} (hslash : '/' ∉ piece) (hdot : piece ≠ ['.']) :
    components ⟨piece⟩ = (ofPiece? piece).toList := by
  have habsolute : isAbsolute ⟨piece⟩ = false := by
    rw [isAbsolute, beq_eq_false_iff_ne]
    exact fun hhead => hslash (List.mem_of_mem_head? hhead)
  rw [components]
  dsimp only
  rw [Text.cutAt_of_not_mem hslash, habsolute]
  dsimp only
  rw [if_neg (by decide), if_neg hdot]
  cases hpiece : ofPiece? piece with
  | none => rw [List.filterMap_cons_none hpiece]; rfl
  | some c => rw [List.filterMap_cons_some hpiece]; rfl

/-- A piece joined to a path comes behind the steps of the path, if it counts. -/
theorem components_join_piece (p : Path) {piece : List Char} (hslash : '/' ∉ piece)
    (hdot : piece ≠ ['.']) :
    (p.join ⟨piece⟩).components = p.components ++ (ofPiece? piece).toList := by
  have habsolute : isAbsolute ⟨piece⟩ = false := by
    rw [isAbsolute, beq_eq_false_iff_ne]
    exact fun hhead => hslash (List.mem_of_mem_head? hhead)
  have hbehind : (Text.cutAt '/' piece).filterMap ofPiece? = (ofPiece? piece).toList := by
    rw [Text.cutAt_of_not_mem hslash]
    cases hpiece : ofPiece? piece with
    | none => rw [List.filterMap_cons_none hpiece]; rfl
    | some c => rw [List.filterMap_cons_some hpiece]; rfl
  obtain ⟨text⟩ := p
  rw [join, habsolute, if_neg Bool.false_ne_true]
  dsimp only
  rcases List.eq_nil_or_concat' text with rfl | ⟨init, last, rfl⟩
  · exact components_piece hslash hdot
  by_cases hlast : last = '/'
  · -- the path ends with a slash already
    subst hlast
    have hends : Text.endsWith (init ++ ['/']) '/' = true := by simp [Text.endsWith]
    rw [hends, Bool.or_true, if_pos rfl, List.append_assoc, List.singleton_append]
    cases init with
    | nil =>
      rw [List.nil_append, List.nil_append, components_slash, components_slash, hbehind]
      rfl
    | cons x init =>
      rw [components_append_slash (List.cons_ne_nil _ _), hbehind,
        components_append_slash (List.cons_ne_nil _ _)]
      simp [Text.cutAt, ofPiece?]
  · have hends : Text.endsWith (init ++ [last]) '/' = false := by
      simpa [Text.endsWith] using hlast
    have hne : init ++ [last] ≠ [] := by simp
    rw [hends, Bool.or_false, List.isEmpty_eq_false_iff.2 hne, if_neg Bool.false_ne_true,
      components_append_slash hne, hbehind]

/-- A step joined to a path comes behind the text of the path. -/
theorem text_join (p : Path) {c : Component} (h : c.IsInner) :
    ∃ more, (p.join ⟨c.text⟩).text = p.text ++ more := by
  have habsolute : isAbsolute ⟨c.text⟩ = false := by
    rw [isAbsolute, beq_eq_false_iff_ne]
    exact fun hhead => slash_not_mem_text h (List.mem_of_mem_head? hhead)
  rw [join, habsolute, if_neg Bool.false_ne_true]
  split
  · exact ⟨c.text, rfl⟩
  · exact ⟨'/' :: c.text, rfl⟩

/-- A step joined to a path comes behind the steps of the path. -/
theorem components_join (p : Path) {c : Component} (h : c.IsInner) :
    (p.join ⟨c.text⟩).components = p.components ++ [c] := by
  rw [components_join_piece p (slash_not_mem_text h) (text_ne_dot h), ofPiece?_text h]
  rfl

/-- The steps to an entry of a directory. -/
theorem components_entry (p : Path) {chars : List Char} (h : IsName chars) :
    (p.entry chars).components = p.components ++ [.name chars] :=
  components_join p (c := .name chars) h

/-- The steps to an entry of a directory somewhere below another. -/
theorem components_foldl_entry (p : Path) {names : List (List Char)}
    (h : ∀ chars ∈ names, IsName chars) :
    (names.foldl entry p).components = p.components ++ names.map .name := by
  induction names generalizing p with
  | nil => simp
  | cons chars rest ih =>
    rw [List.forall_mem_cons] at h
    rw [List.foldl_cons, ih _ h.2, components_entry p h.1, List.append_assoc]
    rfl

/-! ### The steps that a path can have -/

/-- Steps of which only the first may lead to the root or to where one is. -/
def IsSteps : List Component → Prop
  | [] => True
  | first :: rest =>
    (first = .root ∨ first = .current ∨ first.IsInner) ∧ ∀ c ∈ rest, c.IsInner

theorem isInner_of_mem_filterMap {pieces : List (List Char)} (hslash : ∀ piece ∈ pieces, '/' ∉ piece) :
    ∀ c ∈ pieces.filterMap ofPiece?, c.IsInner := by
  intro c hc
  obtain ⟨piece, hpiece, hstep⟩ := List.mem_filterMap.1 hc
  exact isInner_of_ofPiece? (hslash piece hpiece) hstep

theorem isSteps_of_isInner {steps : List Component} (h : ∀ c ∈ steps, c.IsInner) :
    IsSteps steps := by
  cases steps with
  | nil => trivial
  | cons first rest =>
    exact ⟨.inr (.inr (h first List.mem_cons_self)), fun c hc => h c (List.mem_cons_of_mem _ hc)⟩

theorem isSteps_components (p : Path) : IsSteps p.components := by
  have hslash : ∀ piece ∈ Text.cutAt '/' p.text, '/' ∉ piece := fun _ =>
    Text.not_mem_of_mem_cutAt
  rw [components]
  dsimp only
  split
  · trivial
  · rename_i first rest hcut
    rw [hcut] at hslash
    split
    · exact ⟨.inl rfl, isInner_of_mem_filterMap hslash⟩
    split
    · exact ⟨.inr (.inl rfl),
        isInner_of_mem_filterMap fun piece hpiece => hslash piece (List.mem_cons_of_mem _ hpiece)⟩
    · exact isSteps_of_isInner (isInner_of_mem_filterMap hslash)

theorem IsSteps.of_prefix {steps start : List Component} (h : IsSteps steps)
    (hstart : start <+: steps) : IsSteps start := by
  obtain ⟨more, rfl⟩ := hstart
  cases start with
  | nil => trivial
  | cons first rest => exact ⟨h.1, fun c hc => h.2 c (List.mem_append_left _ hc)⟩

theorem IsSteps.isName {steps : List Component} (h : IsSteps steps) {chars : List Char}
    (hmem : .name chars ∈ steps) : IsName chars := by
  cases steps with
  | nil => cases hmem
  | cons first rest =>
    rcases List.mem_cons.1 hmem with rfl | hmem
    · rcases h.1 with hroot | hcurrent | hinner
      · cases hroot
      · cases hcurrent
      · exact hinner
    · exact h.2 _ hmem

theorem components_foldl_join (p : Path) {steps : List Component} (h : ∀ c ∈ steps, c.IsInner) :
    (steps.foldl (fun p c => p.join ⟨c.text⟩) p).components = p.components ++ steps := by
  induction steps generalizing p with
  | nil => simp
  | cons c rest ih =>
    rw [List.forall_mem_cons] at h
    rw [List.foldl_cons, ih _ h.2, components_join p h.1, List.append_assoc]
    rfl

/-- A path can be made of all steps that a path can have. -/
theorem components_ofComponents {steps : List Component} (h : IsSteps steps) :
    (ofComponents steps).components = steps := by
  cases steps with
  | nil => rfl
  | cons first rest =>
    have hfirst : components ⟨first.text⟩ = [first] := by
      rcases h.1 with rfl | rfl | hinner
      · rfl
      · rfl
      · rw [components_piece (slash_not_mem_text hinner) (text_ne_dot hinner), ofPiece?_text hinner]
        rfl
    rw [ofComponents, components_foldl_join _ h.2, hfirst]
    rfl

/-! ### Names -/

theorem lastName?_eq_some_iff {steps : List Component} {chars : List Char} :
    lastName? steps = some chars ↔ ∃ above, steps = above ++ [.name chars] := by
  rw [lastName?, Option.bind_eq_some_iff]
  constructor
  · rintro ⟨c, hlast, hname⟩
    obtain ⟨above, rfl⟩ := List.getLast?_eq_some_iff.1 hlast
    cases c with
    | name other => exact ⟨above, by rw [Option.some.inj hname]⟩
    | root => cases hname
    | current => cases hname
    | parent => cases hname
  · rintro ⟨above, rfl⟩
    exact ⟨.name chars, List.getLast?_concat, rfl⟩

theorem isName_of_lastName? {steps : List Component} (h : IsSteps steps) {chars : List Char}
    (hlast : lastName? steps = some chars) : IsName chars := by
  obtain ⟨above, rfl⟩ := lastName?_eq_some_iff.1 hlast
  exact h.isName (List.mem_append_right _ (List.mem_singleton.2 rfl))

end Path

end SqlDialect
