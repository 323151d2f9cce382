import SqlDialect.Proofs.FileTree.Place
import SqlDialect.Proofs.Text.Utf8

/-!
# Making directories

To make a directory is to lay directories over the tree, at the places that the steps lead through.

* `FileTree.made` : the places at which there are directories afterwards, also if the last steps
  cannot be taken.
* `FileTree.createSteps_makes` : what making a directory leaves, and when it succeeds.
* `FileTree.made_congr` : files elsewhere make no difference.
-/

namespace SqlDialect.FileTree

/-! ### The places of the directories -/

section

variable {blocked blocked' : Place → Bool} {steps : List Component} {place : Place}

/-- The places at which there are directories once the steps have been gone as far as they can be,
where a directory can be made at every place that is not blocked. -/
def made (blocked : Place → Bool) (steps : List Component) : List Place :=
  (route blocked [] steps).left ++
    ((route blocked [] steps).last.filter fun last => !blocked last).toList

/-- Whether there is a directory where the steps lead to in the end. -/
def isMade (blocked : Place → Bool) (steps : List Component) : Bool :=
  (route blocked [] steps).last.any fun last => !blocked last

theorem mem_made : place ∈ made blocked steps ↔ place ∈ (route blocked [] steps).left ∨
    (route blocked [] steps).last = some place ∧ blocked place = false := by
  rw [made, List.mem_append, Option.mem_toList, Option.filter_eq_some_iff,
    Bool.not_eq_true']

theorem isMade_iff : isMade blocked steps = true ↔
    ∃ last, (route blocked [] steps).last = some last ∧ blocked last = false := by
  rw [isMade, Option.any_eq_true]
  simp only [Bool.not_eq_true']

theorem not_blocked_of_mem_made (h : place ∈ made blocked steps) : blocked place = false := by
  rcases mem_made.1 h with hleft | ⟨-, hopen⟩
  · exact not_blocked_of_mem_left hleft
  · exact hopen

/-- More blocked places make no difference if there is no directory to be at any of them. -/
theorem made_congr (hmore : ∀ other, blocked other = true → blocked' other = true)
    (hopen : ∀ other ∈ made blocked steps, blocked' other = false) :
    made blocked' steps = made blocked steps ∧ isMade blocked' steps = isMade blocked steps := by
  have hroute : route blocked' [] steps = route blocked [] steps :=
    route_congr hmore fun other hother => hopen other (mem_made.2 (.inl hother))
  rw [made, made, isMade, isMade, hroute]
  cases hlast : (route blocked [] steps).last with
  | none => exact ⟨rfl, rfl⟩
  | some last =>
    have hsame : blocked' last = blocked last := by
      cases hplace : blocked last with
      | true => exact hmore last hplace
      | false => exact hopen last (mem_made.2 (.inr ⟨hlast, hplace⟩))
    rw [Option.filter_some, Option.filter_some, Option.any_some, Option.any_some, hsame]
    exact ⟨rfl, rfl⟩

theorem made_concat_of_isMade {last : Place} (hlast : (route blocked [] steps).last = some last)
    (hopen : blocked last = false) (step : Component) :
    made blocked (steps ++ [step]) = made blocked steps ++
        (if step.fits && !blocked (step.follow last) then [step.follow last] else []) ∧
      isMade blocked (steps ++ [step]) = (step.fits && !blocked (step.follow last)) := by
  rw [made, isMade, made, route_concat, hlast]
  dsimp only
  rw [hopen]
  cases hfits : step.fits with
  | false => simp [Option.filter_some, hopen]
  | true =>
    cases hplace : blocked (step.follow last) <;> simp [Option.filter_some, hopen, hplace]

theorem made_concat_of_not_isMade (h : isMade blocked steps = false) (step : Component) :
    made blocked (steps ++ [step]) = made blocked steps ∧
      isMade blocked (steps ++ [step]) = false := by
  rw [made, isMade, made, route_concat]
  rw [isMade] at h
  cases hlast : (route blocked [] steps).last with
  | none => simp [hlast]
  | some last =>
    have hblocked : blocked last = true := by simpa [hlast] using h
    simp [hblocked]

theorem mem_made_of_mem_left_concat {step : Component}
    (h : place ∈ (route blocked [] (steps ++ [step])).left) : place ∈ made blocked steps := by
  rw [route_concat] at h
  cases hlast : (route blocked [] steps).last with
  | none =>
    rw [hlast] at h
    exact mem_made.2 (.inl h)
  | some last =>
    rw [hlast] at h
    dsimp only at h
    cases hopen : blocked last with
    | true =>
      rw [hopen] at h
      exact mem_made.2 (.inl h)
    | false =>
      rw [hopen] at h
      refine mem_made.2 ((List.mem_append.1 h).imp id fun hmem => ?_)
      rw [List.mem_singleton.1 hmem]
      exact ⟨hlast, hopen⟩

theorem made_subset_concat (blocked : Place → Bool) (steps : List Component) (step : Component) :
    ∀ other ∈ made blocked steps, other ∈ made blocked (steps ++ [step]) := by
  intro other hother
  cases hmade : isMade blocked steps with
  | false => rwa [(made_concat_of_not_isMade hmade step).1]
  | true =>
    obtain ⟨last, hlast, hopen⟩ := isMade_iff.1 hmade
    rw [(made_concat_of_isMade hlast hopen step).1]
    exact List.mem_append_left _ hother

theorem mem_made_of_concat {step : Component} (h : place ∈ made blocked (steps ++ [step])) :
    place ∈ made blocked steps ∨ place = (steps ++ [step]).foldl Component.follow [] := by
  cases hmade : isMade blocked steps with
  | false =>
    rw [(made_concat_of_not_isMade hmade step).1] at h
    exact .inl h
  | true =>
    obtain ⟨last, hlast, hopen⟩ := isMade_iff.1 hmade
    rw [(made_concat_of_isMade hlast hopen step).1] at h
    refine (List.mem_append.1 h).imp id fun hmem => ?_
    have hplace : place = step.follow last := by
      split at hmem
      · exact List.mem_singleton.1 hmem
      · cases hmem
    rw [List.foldl_append, ← eq_of_last_route hlast]
    exact hplace

end

/-! ### One directory -/

variable {tree tree' : FileTree} {path : Path} {steps : List Component} {place : Place}

theorem ensureDirectory_of_locate (h : tree.locate path = .ok place) :
    tree.ensureDirectory path =
      match tree.entry? place with
      | none => .ok (tree.put place .directory)
      | some .directory => .ok tree
      | some (.file _) => .error .alreadyThere := by
  rw [ensureDirectory, createDirectory, isDirectory, h]
  cases hentry : tree.entry? place with
  | none => simp [bind, Except.bind, hentry]
  | some entry =>
    cases entry with
    | directory => simp [bind, Except.bind, hentry]
    | file octets => simp [bind, Except.bind, hentry]

theorem ensureDirectory_of_locate_error {fault : FileFault} (h : tree.locate path = .error fault) :
    tree.ensureDirectory path = .error fault := by
  rw [ensureDirectory, createDirectory, isDirectory, h]
  rfl

/-- There is nothing to be made where the steps lead through directories, and to one unless they end
at a file. -/
theorem covers_made (hleft : ∀ other ∈ (route tree.isFile [] steps).left,
      tree.entry? other = some .directory)
    (hlast : ∀ last, (route tree.isFile [] steps).last = some last → tree.isFile last = false →
      tree.entry? last = some .directory) :
    Covers (directories (made tree.isFile steps)) tree tree :=
  covers_directories_of_forall fun other hother =>
    (mem_made.1 hother).elim (hleft other) fun ⟨hplace, hopen⟩ => hlast other hplace hopen

/-- Where the steps lead through directories to a place without an entry, a directory is made there. -/
theorem covers_put_made {last : Place} (hleft : ∀ other ∈ (route tree.isFile [] steps).left,
      tree.entry? other = some .directory)
    (hlast : (route tree.isFile [] steps).last = some last) (hentry : tree.entry? last = none) :
    Covers (directories (made tree.isFile steps)) tree (tree.put last .directory) := by
  have hopen : tree.isFile last = false := by rw [isFile, hentry]
  have hne : last ≠ [] := by
    rintro rfl
    cases hentry
  intro other
  rw [lookup_put hne, directories]
  by_cases hother : other = last
  · rw [hother, if_pos rfl, if_pos (mem_made.2 (.inr ⟨hlast, hopen⟩))]
    rfl
  · rw [if_neg hother]
    split
    · rename_i hplace
      rcases mem_made.1 hplace with hplace | ⟨heq, -⟩
      · exact hleft other hplace
      · exact absurd (Option.some.inj (heq.symm.trans hlast)) hother
    · rfl

/-- Making one directory where all places above it are directories. -/
theorem ensureDirectory_cases (tree : FileTree) (hpath : path.IsAdmissible)
    (hleft : ∀ other ∈ (route tree.isFile [] path.components).left,
      tree.entry? other = some .directory) :
    (∃ tree', tree.ensureDirectory path = .ok tree' ∧
      isMade tree.isFile path.components = true ∧
      Covers (directories (made tree.isFile path.components)) tree tree') ∨
    ∃ fault, fault ≠ .notFound ∧ tree.ensureDirectory path = .error fault ∧
      isMade tree.isFile path.components = false ∧
      Covers (directories (made tree.isFile path.components)) tree tree := by
  have hlocate := locate_of_isAdmissible tree hpath
  cases hlast : (route tree.isFile [] path.components).last with
  | none =>
    cases hresult : path.components.foldlM tree.enter [] with
    | ok last =>
      rw [(foldlM_enter_eq_ok_iff.1 hresult).1] at hlast
      cases hlast
    | error fault =>
      rw [hresult] at hlocate
      refine .inr ⟨fault, ?_, ensureDirectory_of_locate_error hlocate, by simp [isMade, hlast],
        covers_made hleft fun last hplace => by simp [hlast] at hplace⟩
      -- a missing place would be one of those above the directory
      rintro rfl
      obtain ⟨other, hother, hmissing⟩ := foldlM_enter_eq_notFound_iff.1 hresult
      rw [hleft other hother] at hmissing
      cases hmissing
  | some last =>
    rw [foldlM_enter_eq_ok_iff.2 ⟨hlast, hleft⟩] at hlocate
    have hensure := ensureDirectory_of_locate hlocate
    have honly (other : Place) (h : (route tree.isFile [] path.components).last = some other) :
        other = last :=
      Option.some.inj (h.symm.trans hlast)
    -- the place is taken by a file, or it is free, or a directory is there
    cases hfile : tree.isFile last with
    | true =>
      obtain ⟨octets, hentry⟩ := isFile_eq_true_iff.1 hfile
      rw [hentry] at hensure
      refine .inr ⟨.alreadyThere, nofun, hensure, by simp [isMade, hlast, hfile],
        covers_made hleft fun other hplace hopen => ?_⟩
      rw [honly other hplace, hfile] at hopen
      cases hopen
    | false =>
      have hmade : isMade tree.isFile path.components = true := by simp [isMade, hlast, hfile]
      rcases lookup_of_isFile_eq_false hfile with hentry | hentry
      · rw [hentry] at hensure
        exact .inl ⟨_, hensure, hmade, covers_put_made hleft hlast hentry⟩
      · rw [hentry] at hensure
        exact .inl ⟨tree, hensure, hmade, covers_made hleft fun other hplace _ =>
          honly other hplace ▸ hentry⟩

/-! ### A directory and those above it -/

/-- Directories that are laid where no files are hide no file. -/
theorem isFile_of_covers_directories {places : List Place}
    (h : Covers (directories places) tree tree')
    (hplaces : ∀ other ∈ places, tree.isFile other = false) : tree'.isFile = tree.isFile := by
  funext other
  have hentry := h other
  rw [directories] at hentry
  split at hentry
  · rename_i hmem
    rw [hplaces other hmem, isFile_of_directory hentry]
  · rw [isFile, isFile, hentry, Option.none_or]

/-- Directories over directories. -/
theorem Covers.trans_directories {tree'' : FileTree} {places more : List Place}
    (h : Covers (directories places) tree tree') (h' : Covers (directories more) tree' tree'')
    (hsubset : ∀ other ∈ places, other ∈ more) : Covers (directories more) tree tree'' := by
  intro other
  rw [h' other, h other, directories, directories]
  split
  · rfl
  · rename_i hmore
    rw [if_neg fun hmem => hmore (hsubset other hmem)]
    rfl

/-- A file system takes what a path that it takes starts with. -/
theorem isAdmissible_of_concat {step : Component} (hsteps : Path.IsSteps (steps ++ [step]))
    (hne : steps ≠ []) (h : (Path.ofComponents (steps ++ [step])).IsAdmissible) :
    (Path.ofComponents steps).IsAdmissible := by
  obtain ⟨first, rest, rfl⟩ := List.exists_cons_of_ne_nil hne
  have hinner : step.IsInner := hsteps.2 step (List.mem_append_right _ (List.mem_singleton.2 rfl))
  have hjoin : Path.ofComponents (first :: rest ++ [step]) =
      (Path.ofComponents (first :: rest)).join ⟨step.text⟩ :=
    List.foldl_concat _ _ _ _
  obtain ⟨more, hmore⟩ := Path.text_join (Path.ofComponents (first :: rest)) hinner
  rw [hjoin] at h
  obtain ⟨hnull, -, hlimit⟩ := h
  rw [hmore] at hnull hlimit
  rw [Text.octets_append] at hlimit
  refine ⟨fun hmem => hnull (List.mem_append_left _ hmem), fun hempty => ?_, by omega⟩
  -- an empty path has no steps
  have hcomponents := Path.components_ofComponents (hsteps.of_prefix (List.prefix_append _ [step]))
  rw [show Path.ofComponents (first :: rest) = ⟨[]⟩ from congrArg Path.mk hempty] at hcomponents
  cases hcomponents

/-- What making the directory that some steps lead to leaves, and when it succeeds. -/
def Makes (tree : FileTree) (steps : List Component) (result : Except FileFault Unit × FileTree) :
    Prop :=
  (result.1 = .ok () ↔ isMade tree.isFile steps = true) ∧
    Covers (directories (made tree.isFile steps)) tree result.2

/-- Making one directory when some of the directories above it have been made, and those that it
takes are all there. -/
theorem makes_ensureDirectory (tree : FileTree) {grown : FileTree} {places : List Place}
    (hpath : path.IsAdmissible) (hgrown : Covers (directories places) tree grown)
    (hplaces : ∀ other ∈ places, other ∈ made tree.isFile path.components)
    (hleft : ∀ other ∈ (route tree.isFile [] path.components).left,
      grown.entry? other = some .directory) :
    (∃ tree', grown.ensureDirectory path = .ok tree' ∧
      Makes tree path.components (.ok (), tree')) ∨
    ∃ fault, fault ≠ .notFound ∧ grown.ensureDirectory path = .error fault ∧
      Makes tree path.components (.error fault, grown) := by
  have hsame : grown.isFile = tree.isFile := isFile_of_covers_directories hgrown fun other hother =>
    not_blocked_of_mem_made (hplaces other hother)
  have hcases := ensureDirectory_cases grown hpath (by rwa [hsame])
  rw [hsame] at hcases
  refine hcases.imp ?_ ?_
  · rintro ⟨tree', hensure, hmade, hcovers⟩
    exact ⟨tree', hensure, iff_of_true rfl hmade, hgrown.trans_directories hcovers hplaces⟩
  · rintro ⟨fault, hfault, hensure, hmade, hcovers⟩
    exact ⟨fault, hfault, hensure, iff_of_false nofun (by simp [hmade]),
      hgrown.trans_directories hcovers hplaces⟩

section

variable {above : List Component} {step : Component}

theorem createSteps_concat_of_ok
    (h : tree.ensureDirectory (.ofComponents (above ++ [step])) = .ok tree') :
    tree.createSteps (above ++ [step]).reverse = (.ok (), tree') := by
  rw [List.reverse_concat, createSteps]
  simp only [List.reverse_cons, List.reverse_reverse, h]

theorem createSteps_concat_of_error {fault : FileFault} (hfault : fault ≠ .notFound)
    (h : tree.ensureDirectory (.ofComponents (above ++ [step])) = .error fault) :
    tree.createSteps (above ++ [step]).reverse = (.error fault, tree) := by
  rw [List.reverse_concat, createSteps]
  simp only [List.reverse_cons, List.reverse_reverse, h]

/-- The directory is made first if all directories above it are there. -/
theorem createSteps_makes_of_left (hsteps : Path.IsSteps (above ++ [step]))
    (hpath : (Path.ofComponents (above ++ [step])).IsAdmissible)
    (hleft : ∀ other ∈ (route tree.isFile [] (above ++ [step])).left,
      tree.entry? other = some .directory) :
    Makes tree (above ++ [step]) (tree.createSteps (above ++ [step]).reverse) := by
  have hcomponents := Path.components_ofComponents hsteps
  have hcases := makes_ensureDirectory tree hpath (covers_directories_nil tree) nofun
    (by rwa [hcomponents])
  rw [hcomponents] at hcases
  rcases hcases with ⟨tree', hensure, hmakes⟩ | ⟨fault, hfault, hensure, hmakes⟩
  · rwa [createSteps_concat_of_ok hensure]
  · rwa [createSteps_concat_of_error hfault hensure]

/-- Without a directory above it, the directory cannot be made. -/
theorem ensureDirectory_of_missing (hsteps : Path.IsSteps (above ++ [step]))
    (hpath : (Path.ofComponents (above ++ [step])).IsAdmissible)
    (hleft : ¬∀ other ∈ (route tree.isFile [] (above ++ [step])).left,
      tree.entry? other = some .directory) :
    tree.ensureDirectory (.ofComponents (above ++ [step])) = .error .notFound := by
  refine ensureDirectory_of_locate_error ?_
  rw [locate_of_isAdmissible tree hpath, Path.components_ofComponents hsteps,
    foldlM_enter_eq_notFound_iff]
  obtain ⟨other, hentry⟩ := not_forall.1 hleft
  obtain ⟨hother, hentry⟩ := Classical.not_imp.1 hentry
  have hopen := not_blocked_of_mem_left hother
  exact ⟨other, hother, (lookup_of_isFile_eq_false hopen).resolve_right hentry⟩

/-- Where a directory above cannot be made, no further one is. -/
theorem Makes.concat_of_error {fault : FileFault} {grown : FileTree}
    (h : Makes tree above (.error fault, grown)) (step : Component) :
    Makes tree (above ++ [step]) (.error fault, grown) := by
  obtain ⟨hiff, hgrown⟩ := h
  have hnot : isMade tree.isFile above = false := by
    rw [← Bool.not_eq_true, ← hiff]
    nofun
  obtain ⟨hmade, hisMade⟩ := made_concat_of_not_isMade hnot step
  refine ⟨iff_of_false nofun (by simp [hisMade]), ?_⟩
  rw [hmade]
  exact hgrown

/-- The directories above are made first if one of them is missing. -/
theorem createSteps_makes_of_missing (hsteps : Path.IsSteps (above ++ [step]))
    (hpath : (Path.ofComponents (above ++ [step])).IsAdmissible)
    (hleft : ¬∀ other ∈ (route tree.isFile [] (above ++ [step])).left,
      tree.entry? other = some .directory)
    (habove : Makes tree above (tree.createSteps above.reverse)) :
    Makes tree (above ++ [step]) (tree.createSteps (above ++ [step]).reverse) := by
  have hcomponents := Path.components_ofComponents hsteps
  rw [List.reverse_concat, createSteps]
  simp only [List.reverse_cons, List.reverse_reverse,
    ensureDirectory_of_missing hsteps hpath hleft]
  cases hresult : tree.createSteps above.reverse with
  | mk outcome grown =>
    rw [hresult] at habove
    cases outcome with
    | error fault => exact habove.concat_of_error step
    | ok _ =>
      obtain ⟨-, hgrown⟩ := habove
      have hcases := makes_ensureDirectory tree hpath hgrown
        (by rw [hcomponents]; exact made_subset_concat tree.isFile above step)
        (by
          rw [hcomponents]
          intro other hother
          rw [hgrown other, directories, if_pos (mem_made_of_mem_left_concat hother)]
          rfl)
      rw [hcomponents] at hcases
      dsimp only
      rcases hcases with ⟨tree', hensure, hmakes⟩ | ⟨fault, -, hensure, hmakes⟩
      · rw [hensure]
        exact hmakes
      · rw [hensure]
        exact hmakes

end

theorem createSteps_makes (tree : FileTree) (hsteps : Path.IsSteps steps)
    (hpath : steps ≠ [] → (Path.ofComponents steps).IsAdmissible) :
    Makes tree steps (tree.createSteps steps.reverse) := by
  induction steps using List.reverseRecOn with
  | nil =>
    refine ⟨iff_of_true rfl rfl, covers_directories_of_forall fun other hother => ?_⟩
    rw [show made tree.isFile [] = [[]] from rfl, List.mem_singleton] at hother
    rw [hother]
    rfl
  | append_singleton above step ih =>
    have hadmissible := hpath (List.append_ne_nil_of_right_ne_nil _ (List.cons_ne_nil _ _))
    have habove : Makes tree above (tree.createSteps above.reverse) :=
      ih (hsteps.of_prefix (List.prefix_append _ _)) fun hne =>
        isAdmissible_of_concat hsteps hne hadmissible
    by_cases hleft : ∀ other ∈ (route tree.isFile [] (above ++ [step])).left,
        tree.entry? other = some .directory
    · exact createSteps_makes_of_left hsteps hadmissible hleft
    · exact createSteps_makes_of_missing hsteps hadmissible hleft habove

/-- No directory is made if the file system does not take the path. -/
theorem createSteps_of_not_isAdmissible (tree : FileTree) (hsteps : Path.IsSteps steps) (hne : steps ≠ [])
    (hpath : ¬(Path.ofComponents steps).IsAdmissible) :
    ∃ fault, tree.createSteps steps.reverse = (.error fault, tree) := by
  obtain ⟨fault, hfault, hlocate⟩ := locate_of_not_isAdmissible hpath
  obtain ⟨above, step, rfl⟩ := (List.eq_nil_or_concat' steps).resolve_left hne
  refine ⟨fault, createSteps_concat_of_error ?_ (ensureDirectory_of_locate_error (hlocate tree))⟩
  rintro rfl
  obtain hfault | hfault | ⟨-, hempty⟩ := hfault
  · cases hfault
  · cases hfault
  · -- an empty path has no steps
    have hcomponents := Path.components_ofComponents hsteps
    rw [show Path.ofComponents (above ++ [step]) = ⟨[]⟩ from congrArg Path.mk hempty]
      at hcomponents
    exact absurd hcomponents.symm hne

end SqlDialect.FileTree
