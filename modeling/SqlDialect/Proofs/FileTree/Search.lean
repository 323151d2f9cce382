import SqlDialect.Proofs.FileTree.Place

/-!
# Files that are found

In a tree in which every entry is in a directory, the way to a file that a search has found is open.

* `FileTree.Finds` : a path leads to a file, unless it is too long.
* `FileTree.finds_of_filesUnder` : what a search finds are such paths.
* `FileTree.Finds.read_eq` : what is read at such a path does not depend on anything but the file.
-/

namespace SqlDialect.FileTree

variable {tree tree' : FileTree} {path : Path} {place : Place} {names : List (List Char)}

/-- The path leads to a file of the tree, unless the path or a name in it is too long. -/
structure Finds (tree : FileTree) (path : Path) : Prop where
  /-- No entry on the way is missing. -/
  present : tree.locate path ≠ .error .notFound
  /-- No file is in the way. -/
  clear : tree.locate path ≠ .error .notDirectory
  /-- A file is at the end. -/
  isFile : ∀ place, tree.locate path = .ok place → tree.isFile place = true

/-! ### Going down to an entry -/

theorem mem_entries_of_some {entry : Entry} (hplace : place ≠ [])
    (h : tree.entry? place = some entry) : (place, entry) ∈ tree.entries := by
  unfold entry? at h
  rw [if_neg hplace, List.lookup_eq_some_iff] at h
  obtain ⟨before, after, hentries, -⟩ := h
  rw [hentries]
  exact List.mem_append_right _ List.mem_cons_self

namespace WellFormed

variable (htree : tree.WellFormed)
include htree

/-- The place above an entry is that of a directory. -/
theorem directory_above {chars : List Char} {entry : Entry}
    (h : tree.entry? (place ++ [chars]) = some entry) : tree.entry? place = some .directory := by
  have habove := htree.grounded _
    (mem_entries_of_some (List.append_ne_nil_of_right_ne_nil _ (List.cons_ne_nil _ _)) h)
  rwa [List.dropLast_concat] at habove

/-- The names that lead to an entry can be gone down unless one is too long. -/
theorem foldlM_enter_names {entry : Entry} (h : tree.entry? (place ++ names) = some entry) :
    (names.map Component.name).foldlM tree.enter place = .ok (place ++ names) ∨
      (names.map Component.name).foldlM tree.enter place = .error .nameTooLong := by
  induction names using List.reverseRecOn generalizing entry with
  | nil =>
    rw [List.append_nil]
    exact .inl rfl
  | append_singleton above chars ih =>
    rw [← List.append_assoc] at h
    have hdirectory := htree.directory_above h
    rw [List.map_append, List.foldlM_append]
    rcases ih hdirectory with hok | herror
    · rw [hok, ← List.append_assoc]
      change (tree.enter (place ++ above) (.name chars) >>= pure) = _ ∨
        (tree.enter (place ++ above) (.name chars) >>= pure) = _
      rw [bind_pure, enter_of_directory hdirectory]
      cases Component.fits (.name chars) with
      | true => exact .inl rfl
      | false => exact .inr rfl
    · rw [herror]
      exact .inr rfl

end WellFormed

/-! ### What a search finds -/

/-- A file below a place that a path leads to. -/
theorem finds_below (htree : tree.WellFormed) (hlocate : tree.locate path = .ok place)
    (hnamed : ∀ chars ∈ names, Path.IsName chars) {octets : List UInt8}
    (hentry : tree.entry? (place ++ names) = some (.file octets)) :
    tree.Finds (names.foldl Path.entry path) := by
  have hcomponents := Path.components_foldl_entry path hnamed
  have hresult : tree.locate (names.foldl Path.entry path) = .ok (place ++ names) ∨
      tree.locate (names.foldl Path.entry path) = .error .nameTooLong ∨
      tree.locate (names.foldl Path.entry path) = .error .nullCharacter := by
    by_cases hadmissible : (names.foldl Path.entry path).IsAdmissible
    · have hroot : path.components.foldlM tree.enter [] = .ok place := by
        by_cases hpath : path.IsAdmissible
        · rw [← locate_of_isAdmissible tree hpath, hlocate]
        · obtain ⟨fault, -, hfault⟩ := locate_of_not_isAdmissible hpath
          rw [hfault] at hlocate
          cases hlocate
      rw [locate_of_isAdmissible tree hadmissible, hcomponents, List.foldlM_append, hroot]
      exact (htree.foldlM_enter_names hentry).imp id .inl
    · obtain ⟨fault, hfault, hlocate'⟩ := locate_of_not_isAdmissible hadmissible
      rcases hfault with rfl | rfl | ⟨-, hempty⟩
      · exact .inr (.inr (hlocate' tree))
      · exact .inr (.inl (hlocate' tree))
      · -- an empty path has no steps, and so it is the path itself
        rw [show names.foldl Path.entry path = ⟨[]⟩ from congrArg Path.mk hempty] at hcomponents
        have hnil : names = [] := List.map_eq_nil_iff.1 (List.append_eq_nil_iff.1 hcomponents.symm).2
        subst hnil
        exact .inl (by rw [List.append_nil]; exact hlocate)
  rcases hresult with hresult | hresult | hresult
  · refine ⟨by simp [hresult], by simp [hresult], fun other hother => ?_⟩
    rw [hresult] at hother
    rw [← Except.ok.inj hother]
    exact isFile_eq_true_iff.2 ⟨octets, hentry⟩
  · exact ⟨by simp [hresult], by simp [hresult], fun other hother => by simp [hresult] at hother⟩
  · exact ⟨by simp [hresult], by simp [hresult], fun other hother => by simp [hresult] at hother⟩

/-- What a listing lists is a file at the path, or below it. -/
theorem exists_of_mem_filesUnder (htree : tree.WellFormed) {found : List Path}
    (h : tree.filesUnder path = .ok found) {file : Path} (hfile : file ∈ found) :
    ∃ start names octets, tree.locate path = .ok start ∧ (∀ chars ∈ names, Path.IsName chars) ∧
      tree.entry? (start ++ names) = some (.file octets) ∧ file = names.foldl Path.entry path := by
  cases hlocate : tree.locate path with
  | error fault =>
    rw [filesUnder, hlocate] at h
    cases h
  | ok start =>
    rw [filesUnder, hlocate] at h
    simp only [bind, Except.bind] at h
    split at h
    · cases h
    · -- a file is the only one below itself
      rename_i octets hentry
      split at h
      · rw [← Except.ok.inj h, List.mem_singleton] at hfile
        exact ⟨start, [], octets, rfl, nofun, by rw [List.append_nil, hentry], hfile⟩
      · cases h
    · rw [← Except.ok.inj h, List.mem_filterMap] at hfile
      obtain ⟨⟨other, entry⟩, hmem, hitem⟩ := hfile
      cases entry with
      | directory => cases hitem
      | file octets =>
        dsimp only at hitem
        split at hitem
        case isFalse => cases hitem
        rename_i hprefix
        obtain ⟨names, rfl⟩ := List.isPrefixOf_iff_prefix.1 hprefix
        rw [List.drop_left] at hitem
        exact ⟨start, names, octets, rfl,
          fun chars hchars => htree.named _ hmem chars (List.mem_append_right _ hchars),
          htree.unique _ hmem, (Option.some.inj hitem).symm⟩

theorem finds_of_filesUnder (htree : tree.WellFormed) {found : List Path}
    (h : tree.filesUnder path = .ok found) {file : Path} (hfile : file ∈ found) :
    tree.Finds file := by
  obtain ⟨start, names, octets, hlocate, hnamed, hentry, rfl⟩ :=
    exists_of_mem_filesUnder htree h hfile
  exact finds_below htree hlocate hnamed hentry

/-- What is read at a path that leads to a file does not depend on anything but the file. -/
theorem Finds.read_eq (h : tree.Finds path)
    (hkeep : ∀ other, tree.entry? other = some .directory → tree'.entry? other = some .directory)
    (hfile : tree.isFile path.place = true →
      tree'.entry? path.place = tree.entry? path.place) :
    tree'.read path = tree.read path := by
  have hlocate' := locate_mono hkeep rfl h.present h.clear
  rw [read, read, hlocate']
  cases hlocate : tree.locate path with
  | error fault => rfl
  | ok place =>
    have hplace : place = path.place := place_of_locate hlocate
    subst hplace
    simp only [bind, Except.bind]
    rw [hfile (h.isFile _ hlocate)]

end SqlDialect.FileTree
