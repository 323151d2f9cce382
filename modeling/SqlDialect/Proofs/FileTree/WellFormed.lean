import SqlDialect.Proofs.FileTree.Delivery
import SqlDialect.Proofs.FileTree.Search

/-!
# Trees stay well formed

Every operation that changes a tree puts entries into directories that are there, so that what comes
of a well-formed tree is well formed (`FileTree.WellFormed`), also if an operation fails.

* `FileTree.Grounded` : the places that the steps of a path can lead to.
* `FileTree.WellFormed.put` : the one change by which trees grow.
* `FileTree.Keeps` : the programs that leave well-formed trees well formed: those that are made of
  the operations of a tree of files.
-/

namespace SqlDialect

namespace FileTree

variable {tree tree' : FileTree} {place place' : Place} {path : Path} {steps : List Component}

theorem wellFormed_empty : empty.WellFormed :=
  ⟨nofun, nofun, nofun⟩

/-! ### Places that can be led to -/

/-- The place is made of names, and the place above it is that of a directory. -/
structure Grounded (tree : FileTree) (place : Place) : Prop where
  /-- There is a directory above. -/
  above : tree.entry? place.dropLast = some .directory
  /-- The place is made of names. -/
  named : ∀ chars ∈ place, Path.IsName chars

theorem grounded_root (tree : FileTree) : tree.Grounded [] :=
  ⟨rfl, nofun⟩

namespace WellFormed

/-- One step leads from a place with a directory above it to another one. -/
theorem grounded_enter (htree : tree.WellFormed) {step : Component}
    (hstep : ∀ chars, step = .name chars → Path.IsName chars) (hplace : tree.Grounded place)
    (h : tree.enter place step = .ok place') : tree.Grounded place' := by
  cases hentry : tree.entry? place with
  | none => rw [enter_of_missing hentry] at h; cases h
  | some entry =>
    cases entry with
    | file octets => rw [enter_of_file hentry] at h; cases h
    | directory =>
      rw [enter_of_directory hentry] at h
      split at h
      case isFalse => cases h
      obtain rfl := Except.ok.inj h
      cases step with
      | root => exact grounded_root tree
      | current => exact hplace
      | parent =>
        refine ⟨?_, fun chars hmem => hplace.named chars (List.dropLast_subset _ hmem)⟩
        by_cases htop : place.dropLast = []
        · change tree.entry? place.dropLast.dropLast = _
          rw [htop]
          rfl
        · exact htree.grounded _ (mem_entries_of_some htop hplace.above)
      | name chars =>
        refine ⟨?_, fun other hmem => ?_⟩
        · change tree.entry? (place ++ [chars]).dropLast = _
          rwa [List.dropLast_concat]
        · rcases List.mem_append.1 hmem with hmem | hmem
          · exact hplace.named other hmem
          · rw [List.mem_singleton.1 hmem]
            exact hstep chars rfl

theorem grounded_foldlM_enter (htree : tree.WellFormed)
    (hsteps : ∀ chars, .name chars ∈ steps → Path.IsName chars) (hplace : tree.Grounded place)
    (h : steps.foldlM tree.enter place = .ok place') : tree.Grounded place' := by
  induction steps generalizing place with
  | nil =>
    obtain rfl := Except.ok.inj h
    exact hplace
  | cons step rest ih =>
    rw [List.foldlM_cons] at h
    cases hnext : tree.enter place step with
    | error fault => rw [hnext] at h; cases h
    | ok next =>
      rw [hnext] at h
      refine ih (fun chars hmem => hsteps chars (List.mem_cons_of_mem _ hmem)) ?_ h
      exact htree.grounded_enter
        (fun chars hstep => hsteps chars (hstep ▸ List.mem_cons_self)) hplace hnext

theorem grounded_locate (htree : tree.WellFormed) (h : tree.locate path = .ok place) :
    tree.Grounded place := by
  by_cases hpath : path.IsAdmissible
  · rw [locate_of_isAdmissible tree hpath] at h
    exact htree.grounded_foldlM_enter (fun _ => (Path.isSteps_components path).isName)
      (grounded_root tree) h
  · obtain ⟨fault, -, hfault⟩ := locate_of_not_isAdmissible hpath
    rw [hfault] at h
    cases h

/-! ### The operations -/

/-- An entry can be put where there is no directory, below one. -/
theorem put (htree : tree.WellFormed) (entry : Entry) (hplace : tree.Grounded place)
    (hentry : tree.entry? place ≠ some .directory) : (tree.put place entry).WellFormed := by
  have hroot : place ≠ [] := by
    rintro rfl
    exact hentry rfl
  have hgrown := @lookup_put tree place hroot entry
  -- directories stay, since the new entry is not in the place of one
  have hdirectory : ∀ other, tree.entry? other = some .directory →
      FileTree.entry? (tree.put place entry) other = some .directory := by
    intro other hother
    rw [hgrown, if_neg]
    · exact hother
    · rintro rfl
      exact hentry hother
  have hcases : ∀ item ∈ (tree.put place entry).entries,
      item = (place, entry) ∨ item ∈ tree.entries ∧ item.1 ≠ place := by
    intro item hitem
    rw [FileTree.put, List.mem_cons, List.mem_filter] at hitem
    exact hitem.imp_right fun h => ⟨h.1, of_decide_eq_true h.2⟩
  refine ⟨fun item hitem => ?_, fun item hitem => ?_, fun item hitem => ?_⟩
  · rw [hgrown]
    rcases hcases item hitem with rfl | ⟨hmem, hne⟩
    · exact if_pos rfl
    · rw [if_neg hne]
      exact htree.unique item hmem
  · rcases hcases item hitem with rfl | ⟨hmem, -⟩
    · exact hdirectory _ hplace.above
    · exact hdirectory _ (htree.grounded item hmem)
  · rcases hcases item hitem with rfl | ⟨hmem, -⟩
    · exact hplace.named
    · exact htree.named item hmem

theorem write (htree : tree.WellFormed) {octets : List UInt8}
    (h : tree.write path octets = .ok tree') : tree'.WellFormed := by
  cases hlocate : tree.locate path with
  | error fault => rw [write_of_locate_error hlocate] at h; cases h
  | ok place =>
    rcases write_of_locate octets hlocate with ⟨-, hentry, hwrite⟩ | ⟨-, fault, hwrite⟩
    · rw [hwrite] at h
      obtain rfl := Except.ok.inj h
      exact htree.put _ (htree.grounded_locate hlocate) hentry
    · rw [hwrite] at h
      cases h

theorem ensureDirectory (htree : tree.WellFormed) (h : tree.ensureDirectory path = .ok tree') :
    tree'.WellFormed := by
  cases hlocate : tree.locate path with
  | error fault => rw [ensureDirectory_of_locate_error hlocate] at h; cases h
  | ok place =>
    rw [ensureDirectory_of_locate hlocate] at h
    cases hentry : tree.entry? place with
    | none =>
      rw [hentry] at h
      obtain rfl := Except.ok.inj h
      exact htree.put _ (htree.grounded_locate hlocate) (by rw [hentry]; nofun)
    | some entry =>
      rw [hentry] at h
      cases entry with
      | file octets => cases h
      | directory =>
        obtain rfl := Except.ok.inj h
        exact htree

/-- The directories that have been made when one of them fails leave the tree well formed. -/
theorem createSteps (htree : tree.WellFormed) (steps : List Component) :
    (tree.createSteps steps).2.WellFormed := by
  induction steps with
  | nil => exact htree
  | cons last above ih =>
    rw [FileTree.createSteps]
    split
    · rename_i tree' hmade
      exact htree.ensureDirectory hmade
    · -- the directory above is made first
      split
      · rename_i grown habove
        rw [habove] at ih
        split
        · rename_i tree' hmade
          exact ih.ensureDirectory hmade
        · exact ih
      · exact ih
    · exact htree

end WellFormed

/-! ### Programs -/

/-- The program leaves well-formed trees well formed. -/
def Keeps {α : Type} (program : StateM FileTree α) : Prop :=
  ∀ tree : FileTree, tree.WellFormed → (program.run tree).2.WellFormed

namespace Keeps

variable {α β ε : Type}

theorem pure (value : α) : Keeps (Pure.pure value) :=
  fun _ htree => htree

theorem bind {first : StateM FileTree α} {next : α → StateM FileTree β} (hfirst : Keeps first)
    (hnext : ∀ value, Keeps (next value)) : Keeps (first >>= next) :=
  fun tree htree => hnext _ _ (hfirst tree htree)

theorem exceptBind {first : ExceptT ε (StateM FileTree) α} {next : α → ExceptT ε (StateM FileTree) β}
    (hfirst : Keeps first.run) (hnext : ∀ value, Keeps (next value).run) :
    Keeps (first >>= next).run := by
  rw [ExceptT.run_bind]
  refine hfirst.bind fun result => ?_
  cases result with
  | error failure => exact pure _
  | ok value => exact hnext value

theorem mapM {f : α → StateM FileTree β} (h : ∀ value, Keeps (f value)) (values : List α) :
    Keeps (values.mapM f) := by
  induction values with
  | nil => exact pure _
  | cons value rest ih =>
    rw [List.mapM_cons]
    exact (h value).bind fun _ => ih.bind fun _ => pure _

theorem read (path : Path) :
    Keeps (FileSystem.read path : StateM FileTree (Except FileFault (List UInt8))) :=
  fun _ htree => htree

theorem filesUnder (path : Path) :
    Keeps (FileSystem.filesUnder path : StateM FileTree (Except FileFault (List Path))) :=
  fun _ htree => htree

theorem write (path : Path) (octets : List UInt8) :
    Keeps (FileSystem.write path octets : StateM FileTree (Except FileFault Unit)) := by
  intro tree htree
  rw [run_write]
  cases hwrite : tree.write path octets with
  | ok tree' => exact htree.write hwrite
  | error fault => exact htree

theorem createDirectories (path : Path) :
    Keeps (FileSystem.createDirectories path : StateM FileTree (Except FileFault Unit)) :=
  fun _ htree => htree.createSteps _

theorem deliver (destination : Path) (octets : List UInt8) :
    Keeps (SqlDialect.deliver destination octets : StateM FileTree (Except Failure Unit)) := by
  rw [SqlDialect.deliver]
  split
  -- what is left to do is the same whether there is a directory to be made or not
  all_goals
    refine bind (by first | exact createDirectories _ | exact pure _) fun made => ?_
    cases made with
    | error fault => exact pure _
    | ok _ =>
      refine bind (write destination octets) fun written => ?_
      cases written with
      | error fault => exact pure _
      | ok _ => exact pure _

end Keeps

end FileTree

end SqlDialect
