import SqlDialect.FileTree.Basic
import SqlDialect.Proofs.Path

/-!
# Places that paths lead to

The steps of a path lead from place to place.  Where they lead to does not depend on what is there,
but whether they can be taken does.

* `Path.place` : the place that a path leads to.
* `FileTree.Route` : the places that some steps lead through, up to the first that cannot be taken
  because a file is in the way or a name is too long.
* `FileTree.foldlM_enter_eq_ok_iff`, `FileTree.foldlM_enter_eq_notFound_iff` : the steps can be taken
  in a tree if the places on their route are directories there, and fail for want of an entry if one
  of these is missing.
* `FileTree.WellFormed` : the trees in which every entry is in a directory.
-/

namespace SqlDialect

open FileTree (Place)

namespace Component

/-- The place that the step leads to. -/
def follow (place : Place) : Component → Place
  | root => []
  | current => place
  | parent => place.dropLast
  | name chars => place ++ [chars]

/-- Whether a file system can have an entry of the name, if the step has one. -/
def fits : Component → Bool
  | name chars => Text.octets chars ≤ FileTree.nameLimit
  | _ => true

end Component

namespace Path

/-- The place that the path leads to. -/
def place (p : Path) : Place := p.components.foldl Component.follow []

/-- A path that a file system takes. -/
def IsAdmissible (p : Path) : Prop :=
  '\x00' ∉ p.text ∧ p.text ≠ [] ∧ Text.octets p.text ≤ FileTree.pathLimit

instance (p : Path) : Decidable p.IsAdmissible :=
  inferInstanceAs (Decidable (_ ∧ _ ∧ _))

end Path

namespace FileTree

variable {tree : FileTree} {place : Place}

/-! ### Entries -/

/-- Whether a file is at the place. -/
def isFile (tree : FileTree) (place : Place) : Bool :=
  match tree.entry? place with
  | some (.file _) => true
  | _ => false

theorem isFile_eq_true_iff : tree.isFile place = true ↔
    ∃ octets, tree.entry? place = some (.file octets) := by
  rw [isFile]
  split
  · rename_i octets hentry
    exact iff_of_true rfl ⟨octets, hentry⟩
  · rename_i hentry
    exact iff_of_false Bool.false_ne_true fun ⟨octets, h⟩ => hentry octets h

theorem isFile_of_directory (h : tree.entry? place = some .directory) :
    tree.isFile place = false := by
  rw [isFile, h]

theorem lookup_of_isFile_eq_false (h : tree.isFile place = false) :
    tree.entry? place = none ∨ tree.entry? place = some .directory := by
  rw [isFile] at h
  cases hentry : tree.entry? place with
  | none => exact .inl rfl
  | some entry =>
    cases entry with
    | directory => exact .inr rfl
    | file octets => rw [hentry] at h; cases h

theorem lookup_filter_ne (entries : List (Place × Entry)) {other : Place} (h : other ≠ place) :
    (entries.filter fun item => item.1 ≠ place).lookup other = entries.lookup other := by
  induction entries with
  | nil => rfl
  | cons item rest ih =>
    obtain ⟨own, entry⟩ := item
    by_cases hown : own = place
    · subst hown
      have hne : (other == own) = false := by simpa using h
      rw [List.filter_cons_of_neg (by simp), ih, List.lookup_cons, hne]
    · rw [List.filter_cons_of_pos (by simpa using hown), List.lookup_cons, List.lookup_cons, ih]

/-- Putting an entry at a place changes what is there, and nothing else. -/
theorem lookup_put (hplace : place ≠ []) (entry : Entry) (other : Place) :
    FileTree.entry? (tree.put place entry) other =
      if other = place then some entry else tree.entry? other := by
  unfold entry?
  rw [put]
  by_cases hother : other = place
  · subst hother
    rw [if_neg hplace, if_pos rfl, List.lookup_cons_self]
  · have hne : (other == place) = false := by simpa using hother
    rw [if_neg hother, List.lookup_cons, hne, lookup_filter_ne _ hother]

/-- Trees with the same entries. -/
def Same (tree tree' : FileTree) : Prop :=
  ∀ place, tree.entry? place = tree'.entry? place

/-! ### Layers -/

/-- Entries to be laid over those of a tree. -/
abbrev Layer := Place → Option Entry

/-- The layer of directories at some places. -/
def directories (places : List Place) : Layer :=
  fun place => if place ∈ places then some .directory else none

/-- The second tree is the first one with the layer over it. -/
def Covers (layer : Layer) (tree tree' : FileTree) : Prop :=
  ∀ place, tree'.entry? place = (layer place).or ( tree.entry? place)

theorem covers_directories_of_forall {places : List Place}
    (h : ∀ other ∈ places, tree.entry? other = some .directory) :
    Covers (directories places) tree tree := by
  intro other
  rw [directories]
  split
  · rename_i hmem
    rw [h other hmem]
    rfl
  · rfl

theorem covers_directories_nil (tree : FileTree) : Covers (directories []) tree tree :=
  covers_directories_of_forall fun _ hmem => nomatch hmem

/-! ### Trees in which every entry is in a directory -/

/-- The entries of the tree are at different places, with names that can be names, and the place
above each of them is that of a directory. -/
structure WellFormed (tree : FileTree) : Prop where
  /-- No entry hides another one. -/
  unique : ∀ item ∈ tree.entries, tree.entry? item.1 = some item.2
  /-- Entries are in directories. -/
  grounded : ∀ item ∈ tree.entries, tree.entry? item.1.dropLast = some .directory
  /-- Places are made of names. -/
  named : ∀ item ∈ tree.entries, ∀ chars ∈ item.1, Path.IsName chars

instance (tree : FileTree) : Decidable tree.WellFormed :=
  decidable_of_iff
    ((∀ item ∈ tree.entries, tree.entry? item.1 = some item.2) ∧
      (∀ item ∈ tree.entries, tree.entry? item.1.dropLast = some .directory) ∧
      ∀ item ∈ tree.entries, ∀ chars ∈ item.1, Path.IsName chars)
    ⟨fun h => ⟨h.1, h.2.1, h.2.2⟩, fun h => ⟨h.unique, h.grounded, h.named⟩⟩

/-! ### Routes -/

/-- The places that some steps lead through. -/
structure Route where
  /-- The places that are left by a step. -/
  left : List Place
  /-- Where the last step ends, if all steps can be taken. -/
  last : Option Place

/-- The route of some steps, where a place that is blocked cannot be left. -/
def route (blocked : Place → Bool) : Place → List Component → Route
  | place, [] => ⟨[], some place⟩
  | place, step :: rest =>
    if blocked place then ⟨[], none⟩
    else if step.fits then
      let behind := route blocked (step.follow place) rest
      ⟨place :: behind.left, behind.last⟩
    else ⟨[place], none⟩

variable {blocked : Place → Bool} {steps : List Component}

theorem route_cons_of_fits {step : Component} (hopen : blocked place = false)
    (hfits : step.fits = true) (rest : List Component) :
    route blocked place (step :: rest) =
      ⟨place :: (route blocked (step.follow place) rest).left,
        (route blocked (step.follow place) rest).last⟩ := by
  rw [route, hopen, hfits]
  rfl

theorem route_cons_of_not_fits {step : Component} (hopen : blocked place = false)
    (hfits : step.fits = false) (rest : List Component) :
    route blocked place (step :: rest) = ⟨[place], none⟩ := by
  rw [route, hopen, hfits]
  rfl

theorem route_cons_of_blocked (hblocked : blocked place = true) (step : Component)
    (rest : List Component) : route blocked place (step :: rest) = ⟨[], none⟩ := by
  rw [route, if_pos hblocked]

/-- Places that are left are not blocked. -/
theorem not_blocked_of_mem_left {other : Place} (h : other ∈ (route blocked place steps).left) :
    blocked other = false := by
  induction steps generalizing place with
  | nil => cases h
  | cons step rest ih =>
    cases hopen : blocked place with
    | true => rw [route_cons_of_blocked hopen] at h; cases h
    | false =>
      cases hfits : step.fits with
      | false =>
        rw [route_cons_of_not_fits hopen hfits, List.mem_singleton] at h
        rwa [h]
      | true =>
        rw [route_cons_of_fits hopen hfits] at h
        rcases List.mem_cons.1 h with rfl | h
        · exact hopen
        · exact ih h

/-- A route ends where its steps lead to. -/
theorem eq_of_last_route {last : Place} (h : (route blocked place steps).last = some last) :
    last = steps.foldl Component.follow place := by
  induction steps generalizing place with
  | nil => exact (Option.some.inj h).symm
  | cons step rest ih =>
    cases hopen : blocked place with
    | true => rw [route_cons_of_blocked hopen] at h; cases h
    | false =>
      cases hfits : step.fits with
      | false => rw [route_cons_of_not_fits hopen hfits] at h; cases h
      | true =>
        rw [route_cons_of_fits hopen hfits] at h
        exact ih h

/-- Only steps that fit can be taken. -/
theorem fits_of_last_route {last : Place} (h : (route blocked place steps).last = some last) :
    ∀ step ∈ steps, step.fits = true := by
  induction steps generalizing place with
  | nil => nofun
  | cons step rest ih =>
    cases hopen : blocked place with
    | true => rw [route_cons_of_blocked hopen] at h; cases h
    | false =>
      cases hfits : step.fits with
      | false => rw [route_cons_of_not_fits hopen hfits] at h; cases h
      | true =>
        rw [route_cons_of_fits hopen hfits] at h
        exact List.forall_mem_cons.2 ⟨hfits, ih h⟩

/-- A route with one more step. -/
theorem route_concat (blocked : Place → Bool) (place : Place) (steps : List Component)
    (step : Component) :
    route blocked place (steps ++ [step]) =
      match (route blocked place steps).last with
      | none => route blocked place steps
      | some last =>
        if blocked last then ⟨(route blocked place steps).left, none⟩
        else ⟨(route blocked place steps).left ++ [last],
          if step.fits then some (step.follow last) else none⟩ := by
  induction steps generalizing place with
  | nil =>
    rw [List.nil_append, route]
    dsimp only [route]
    split
    · rfl
    · split <;> rfl
  | cons first rest ih =>
    rw [List.cons_append]
    cases hopen : blocked place with
    | true => rw [route_cons_of_blocked hopen, route_cons_of_blocked hopen]
    | false =>
      cases hfits : first.fits with
      | false => rw [route_cons_of_not_fits hopen hfits, route_cons_of_not_fits hopen hfits]
      | true =>
        rw [route_cons_of_fits hopen hfits, route_cons_of_fits hopen hfits, ih]
        dsimp only
        cases hlast : (route blocked (first.follow place) rest).last with
        | none => simp only [hlast]
        | some last =>
          dsimp only
          cases blocked last <;> rfl

/-- More blocked places make no difference to a route if it leaves none of them. -/
theorem route_congr {blocked' : Place → Bool}
    (hmore : ∀ other, blocked other = true → blocked' other = true)
    (hopen : ∀ other ∈ (route blocked place steps).left, blocked' other = false) :
    route blocked' place steps = route blocked place steps := by
  induction steps generalizing place with
  | nil => rfl
  | cons step rest ih =>
    cases hplace : blocked place with
    | true => rw [route_cons_of_blocked hplace, route_cons_of_blocked (hmore _ hplace)]
    | false =>
      cases hfits : step.fits with
      | false =>
        rw [route_cons_of_not_fits hplace hfits] at hopen ⊢
        rw [route_cons_of_not_fits (hopen place List.mem_cons_self) hfits]
      | true =>
        rw [route_cons_of_fits hplace hfits] at hopen ⊢
        rw [route_cons_of_fits (hopen place List.mem_cons_self) hfits,
          ih fun other hother => hopen other (List.mem_cons_of_mem _ hother)]

/-! ### Taking the steps in a tree -/

theorem enter_of_missing (h : tree.entry? place = none) (step : Component) :
    tree.enter place step = .error .notFound := by
  unfold enter
  rw [h]

theorem enter_of_file {octets : List UInt8} (h : tree.entry? place = some (.file octets))
    (step : Component) : tree.enter place step = .error .notDirectory := by
  unfold enter
  rw [h]

theorem enter_of_directory (h : tree.entry? place = some .directory) (step : Component) :
    tree.enter place step =
      if step.fits then .ok (step.follow place) else .error .nameTooLong := by
  unfold enter
  rw [h]
  cases step with
  | root => rfl
  | current => rfl
  | parent => rfl
  | name chars =>
    simp only [Component.fits, Component.follow, decide_eq_true_eq]
    by_cases hfits : Text.octets chars ≤ nameLimit
    · rw [if_neg (Nat.not_lt.2 hfits), if_pos hfits]
    · rw [if_pos (Nat.not_le.1 hfits), if_neg hfits]

/-- The steps can be taken if and only if all places that they leave are directories. -/
theorem foldlM_enter_eq_ok_iff {last : Place} :
    steps.foldlM tree.enter place = .ok last ↔
      (route tree.isFile place steps).last = some last ∧
        ∀ other ∈ (route tree.isFile place steps).left, tree.entry? other = some .directory := by
  induction steps generalizing place with
  | nil =>
    rw [List.foldlM_nil]
    simp [route, pure, Except.pure]
  | cons step rest ih =>
    rw [List.foldlM_cons]
    cases hplace : tree.isFile place with
    | true =>
      obtain ⟨octets, hentry⟩ := isFile_eq_true_iff.1 hplace
      rw [route_cons_of_blocked hplace, enter_of_file hentry]
      simp [bind, Except.bind]
    | false =>
      rcases lookup_of_isFile_eq_false hplace with hentry | hentry
      · -- a missing place is left all the same, and so it is among those that should be directories
        have hmem : place ∈ (route tree.isFile place (step :: rest)).left := by
          cases hfits : step.fits with
          | false => simp [route_cons_of_not_fits hplace hfits]
          | true => simp [route_cons_of_fits hplace hfits]
        refine iff_of_false ?_ fun h => ?_
        · rw [enter_of_missing hentry]
          simp [bind, Except.bind]
        · have hdirectory := h.2 place hmem
          rw [hentry] at hdirectory
          cases hdirectory
      · rw [enter_of_directory hentry]
        cases hfits : step.fits with
        | false =>
          rw [route_cons_of_not_fits hplace hfits]
          simp [bind, Except.bind]
        | true =>
          rw [route_cons_of_fits hplace hfits]
          simp only [if_true, bind, Except.bind, ih, List.forall_mem_cons, hentry, true_and]

/-- The steps fail for want of an entry if and only if a place that they leave is missing. -/
theorem foldlM_enter_eq_notFound_iff :
    steps.foldlM tree.enter place = .error .notFound ↔
      ∃ other ∈ (route tree.isFile place steps).left, tree.entry? other = none := by
  induction steps generalizing place with
  | nil =>
    rw [List.foldlM_nil]
    simp [route, pure, Except.pure]
  | cons step rest ih =>
    rw [List.foldlM_cons]
    cases hplace : tree.isFile place with
    | true =>
      obtain ⟨octets, hentry⟩ := isFile_eq_true_iff.1 hplace
      rw [route_cons_of_blocked hplace, enter_of_file hentry]
      simp [bind, Except.bind]
    | false =>
      rcases lookup_of_isFile_eq_false hplace with hentry | hentry
      · refine iff_of_true ?_ ⟨place, ?_, hentry⟩
        · rw [enter_of_missing hentry]
          rfl
        · cases hfits : step.fits with
          | false => simp [route_cons_of_not_fits hplace hfits]
          | true => simp [route_cons_of_fits hplace hfits]
      · rw [enter_of_directory hentry]
        cases hfits : step.fits with
        | false =>
          rw [route_cons_of_not_fits hplace hfits]
          simp [bind, Except.bind, hentry]
        | true =>
          rw [route_cons_of_fits hplace hfits]
          simp only [if_true, bind, Except.bind, ih, List.exists_mem_cons_iff, hentry,
            reduceCtorEq, false_or]

/-- Steps that can be taken can still be taken in a tree with more in it; and so can those that fail
for another reason than what is in the tree. -/
theorem foldlM_enter_mono {tree' : FileTree} {result : Except FileFault Place}
    (hkeep : ∀ other, tree.entry? other = some .directory → tree'.entry? other = some .directory)
    (h : steps.foldlM tree.enter place = result) (hfound : result ≠ .error .notFound)
    (hdirectory : result ≠ .error .notDirectory) : steps.foldlM tree'.enter place = result := by
  induction steps generalizing place with
  | nil => exact h
  | cons step rest ih =>
    rw [List.foldlM_cons] at h ⊢
    cases hentry : tree.entry? place with
    | none =>
      rw [enter_of_missing hentry] at h
      exact absurd h.symm hfound
    | some entry =>
      cases entry with
      | file octets =>
        rw [enter_of_file hentry] at h
        exact absurd h.symm hdirectory
      | directory =>
        rw [enter_of_directory hentry] at h
        rw [enter_of_directory (hkeep place hentry)]
        split at h
        · rw [if_pos ‹_›]
          exact ih h
        · rw [if_neg ‹_›]
          exact h

/-! ### Paths -/

theorem locate_of_isAdmissible (tree : FileTree) {path : Path} (h : path.IsAdmissible) :
    tree.locate path = path.components.foldlM tree.enter [] := by
  obtain ⟨hnull, hempty, hlimit⟩ := h
  rw [locate, if_neg (by simpa using hnull), if_neg (by simpa using hempty),
    if_neg (Nat.not_lt.2 hlimit)]

/-- A path that a file system does not take fails in every tree alike, and for want of an entry only
if it is empty. -/
theorem locate_of_not_isAdmissible {path : Path} (h : ¬path.IsAdmissible) :
    ∃ fault, (fault = .nullCharacter ∨ fault = .nameTooLong ∨ fault = .notFound ∧ path.text = []) ∧
      ∀ tree, locate tree path = .error fault := by
  by_cases hnull : '\x00' ∈ path.text
  · exact ⟨.nullCharacter, .inl rfl, fun tree => by rw [locate, if_pos (by simpa using hnull)]⟩
  by_cases hempty : path.text = []
  · exact ⟨.notFound, .inr (.inr ⟨rfl, hempty⟩), fun tree => by
      rw [locate, if_neg (by simpa using hnull), if_pos (by simpa using hempty)]⟩
  · have hlimit : pathLimit < Text.octets path.text := by
      by_contra hshort
      exact h ⟨hnull, hempty, Nat.not_lt.1 hshort⟩
    exact ⟨.nameTooLong, .inr (.inl rfl), fun tree => by
      rw [locate, if_neg (by simpa using hnull), if_neg (by simpa using hempty), if_pos hlimit]⟩

/-- Where a path leads to if it can be followed. -/
theorem place_of_locate {path : Path} (h : tree.locate path = .ok place) : place = path.place := by
  by_cases hpath : path.IsAdmissible
  · rw [locate_of_isAdmissible tree hpath] at h
    exact eq_of_last_route (foldlM_enter_eq_ok_iff.1 h).1
  · obtain ⟨fault, -, hfault⟩ := locate_of_not_isAdmissible hpath
    rw [hfault] at h
    cases h

theorem locate_mono {tree' : FileTree} {path : Path} {result : Except FileFault Place}
    (hkeep : ∀ other, tree.entry? other = some .directory → tree'.entry? other = some .directory)
    (h : tree.locate path = result) (hfound : result ≠ .error .notFound)
    (hdirectory : result ≠ .error .notDirectory) : tree'.locate path = result := by
  by_cases hpath : path.IsAdmissible
  · rw [locate_of_isAdmissible tree hpath] at h
    rw [locate_of_isAdmissible tree' hpath]
    exact foldlM_enter_mono hkeep h hfound hdirectory
  · obtain ⟨fault, -, hfault⟩ := locate_of_not_isAdmissible hpath
    rw [hfault] at h ⊢
    exact h

end FileTree

end SqlDialect
