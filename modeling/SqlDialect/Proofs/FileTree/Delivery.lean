import SqlDialect.Document.Source
import SqlDialect.Proofs.FileTree.Creation

/-!
# Delivering documents

To deliver a document is to lay some directories and a file over the tree.

* `FileTree.delivery` : the places of the directories and of the file.
* `FileTree.deliver_spec` : what a delivery leaves, and when it succeeds.
* `FileTree.delivery_congr` : what makes no difference to a delivery.
* `FileTree.read_of_deliver` : a document that has been delivered can be read again.
-/

namespace SqlDialect.FileTree

variable {tree tree' : FileTree} {destination : Path} {above : List Component} {chars : List Char}
  {octets : List UInt8} {place : Place}

/-! ### Writing and reading a file -/

theorem write_of_locate (octets : List UInt8) (h : tree.locate destination = .ok place) :
    (ending destination = .plain ∧ tree.entry? place ≠ some .directory ∧
      tree.write destination octets = .ok (tree.put place (.file octets))) ∨
    ¬(ending destination = .plain ∧ tree.entry? place ≠ some .directory) ∧
      ∃ fault, tree.write destination octets = .error fault := by
  rw [write, h]
  simp only [bind, Except.bind]
  cases hending : ending destination with
  | slash => exact .inr ⟨nofun, _, rfl⟩
  | dot =>
    refine .inr ⟨nofun, ?_⟩
    cases tree.entry? place with
    | none => exact ⟨_, rfl⟩
    | some entry => cases entry <;> exact ⟨_, rfl⟩
  | plain =>
    cases hentry : tree.entry? place with
    | none => exact .inl ⟨rfl, nofun, rfl⟩
    | some entry =>
      cases entry with
      | directory => exact .inr ⟨fun h => h.2 rfl, _, rfl⟩
      | file old => exact .inl ⟨rfl, nofun, rfl⟩

theorem write_of_locate_error {fault : FileFault} (h : tree.locate destination = .error fault) :
    tree.write destination octets = .error fault := by
  rw [write, h]
  rfl

/-! ### Where a delivery puts what -/

/-- The places that a delivery puts something at. -/
structure Delivery where
  /-- Where there are directories afterwards. -/
  directories : List Place
  /-- Where the file is, if the delivery succeeds. -/
  file? : Option Place

/-- What a delivery of some octets puts into a tree. -/
def Delivery.layer (delivery : Delivery) (octets : List UInt8) : Layer := fun place =>
  if delivery.file? = some place then some (.file octets)
  else FileTree.directories delivery.directories place

/-- Whether a delivery succeeds if directories are made at some places, among them the one that the
file belongs to. -/
def CanWrite (tree : FileTree) (destination : Path) (places : List Place) : Prop :=
  destination.IsAdmissible ∧ (∀ step ∈ destination.components, step.fits = true) ∧
    ending destination = .plain ∧ tree.entry? destination.place ≠ some .directory ∧
    destination.place ∉ places

instance (tree : FileTree) (destination : Path) (places : List Place) :
    Decidable (tree.CanWrite destination places) :=
  inferInstanceAs (Decidable (_ ∧ _ ∧ _ ∧ _ ∧ _))

/-- The places that a delivery puts something at, where the destination is an entry of a
directory. -/
def delivery (tree : FileTree) (destination : Path) : Delivery :=
  let above := destination.components.dropLast
  if above = [] ∨ (Path.ofComponents above).IsAdmissible then
    let places := made tree.isFile above
    ⟨places, if isMade tree.isFile above = true ∧ tree.CanWrite destination places then
      some destination.place else none⟩
  else ⟨[], none⟩

section

variable {grown : FileTree} (h : destination.components = above ++ [.name chars])
  (hmade : isMade tree.isFile above = true)
  (hgrown : Covers (directories (made tree.isFile above)) tree grown)
include h hmade hgrown

/-- Where the destination is once the directory that it belongs to has been made. -/
theorem locate_of_isMade (hadmissible : destination.IsAdmissible) :
    ((∀ step ∈ destination.components, step.fits = true) ∧
      grown.locate destination = .ok destination.place) ∨
    ¬(∀ step ∈ destination.components, step.fits = true) ∧
      ∃ fault, grown.locate destination = .error fault := by
  obtain ⟨last, hlast, hopen⟩ := isMade_iff.1 hmade
  have hsame : grown.isFile = tree.isFile :=
    isFile_of_covers_directories hgrown fun other => not_blocked_of_mem_made
  have hroute := route_concat tree.isFile [] above (.name chars)
  rw [hlast] at hroute
  dsimp only at hroute
  rw [hopen, if_neg Bool.false_ne_true] at hroute
  rw [locate_of_isAdmissible grown hadmissible, h]
  by_cases hfits : (Component.name chars).fits = true
  · refine .inl ⟨?_, ?_⟩
    · rw [List.forall_mem_append, List.forall_mem_singleton]
      exact ⟨fits_of_last_route hlast, hfits⟩
    · have hplace : (Component.name chars).follow last = destination.place := by
        rw [Path.place, h, List.foldl_append, ← eq_of_last_route hlast]
        rfl
      rw [foldlM_enter_eq_ok_iff, hsame]
      refine ⟨by rw [hroute, if_pos hfits, hplace], fun other hother => ?_⟩
      rw [hgrown other, directories, if_pos (mem_made_of_mem_left_concat hother)]
      rfl
  · refine .inr ⟨fun hall => hfits (hall _ (List.mem_append_right _ List.mem_cons_self)), ?_⟩
    cases hresult : (above ++ [Component.name chars]).foldlM grown.enter [] with
    | ok place =>
      have hend := (foldlM_enter_eq_ok_iff.1 hresult).1
      rw [hsame, hroute, if_neg hfits] at hend
      cases hend
    | error fault => exact ⟨fault, rfl⟩

/-- Writing the file once the directory that it belongs to has been made. -/
theorem write_of_isMade (octets : List UInt8) :
    (tree.CanWrite destination (made tree.isFile above) ∧
      grown.write destination octets = .ok (grown.put destination.place (.file octets))) ∨
    ¬tree.CanWrite destination (made tree.isFile above) ∧
      ∃ fault, grown.write destination octets = .error fault := by
  by_cases hadmissible : destination.IsAdmissible
  case neg =>
    obtain ⟨fault, -, hlocate⟩ := locate_of_not_isAdmissible hadmissible
    exact .inr ⟨fun hcan => hadmissible hcan.1, fault, write_of_locate_error (hlocate grown)⟩
  have hdirectory : grown.entry? destination.place ≠ some .directory ↔
      tree.entry? destination.place ≠ some .directory ∧
        destination.place ∉ made tree.isFile above := by
    rw [hgrown, directories]
    split
    · rename_i hmem
      simp [hmem]
    · rename_i hmem
      simp [hmem]
  rcases locate_of_isMade h hmade hgrown hadmissible with
    ⟨hfits, hlocate⟩ | ⟨hfits, fault, hlocate⟩
  · refine (write_of_locate octets hlocate).imp ?_ ?_
    · rintro ⟨hending, hentry, hwrite⟩
      exact ⟨⟨hadmissible, hfits, hending, hdirectory.1 hentry⟩, hwrite⟩
    · rintro ⟨hnot, hwrite⟩
      exact ⟨fun hcan => hnot ⟨hcan.2.2.1, hdirectory.2 hcan.2.2.2⟩, hwrite⟩
  · exact .inr ⟨fun hcan => hfits hcan.2.1, fault, write_of_locate_error hlocate⟩

end

/-! ### What a delivery leaves -/

theorem isSteps_above (h : destination.components = above ++ [.name chars]) :
    Path.IsSteps above := by
  have hall := Path.isSteps_components destination
  rw [h] at hall
  exact hall.of_prefix (List.prefix_append _ _)

theorem run_write (tree : FileTree) (path : Path) (octets : List UInt8) :
    (FileSystem.write path octets : StateM FileTree (Except FileFault Unit)).run tree =
      match tree.write path octets with
      | .ok tree => (.ok (), tree)
      | .error fault => (.error fault, tree) := rfl

theorem run_deliver (h : destination.components = above ++ [.name chars]) :
    (deliver destination octets : StateM FileTree (Except Failure Unit)).run tree =
      match tree.createSteps above.reverse with
      | (.error fault, tree) =>
        (.error (.fileWrite destination.toString fault.report), tree)
      | (.ok (), tree) =>
        match tree.write destination octets with
        | .ok tree => (.ok (), tree)
        | .error fault => (.error (.fileWrite destination.toString fault.report), tree) := by
  have hsteps := isSteps_above h
  have hparent : destination.parent? = some (Path.ofComponents above) := by
    rw [Path.parent?, h, Path.parentComponents?, List.getLast?_concat, List.dropLast_concat]
    rfl
  have hcreate : tree.createDirectories (Path.ofComponents above) =
      tree.createSteps above.reverse := by
    rw [createDirectories, Path.components_ofComponents hsteps]
  rw [deliver, hparent, StateT.run_bind]
  cases hresult : tree.createSteps above.reverse with
  | mk outcome grown =>
    have hrun : (FileSystem.createDirectories (Path.ofComponents above) :
        StateM FileTree (Except FileFault Unit)).run tree = (outcome, grown) :=
      hcreate.trans hresult
    dsimp only
    rw [hrun]
    cases outcome with
    | error fault => rfl
    | ok _ =>
      change StateT.run (FileSystem.write destination octets >>= _) grown = _
      rw [StateT.run_bind, run_write]
      dsimp only
      cases grown.write destination octets with
      | error fault => rfl
      | ok tree' => rfl

/-- The result of a delivery of some octets: it either succeeds or fails to write the destination, and
leaves what it puts into the tree. -/
def Delivers (tree : FileTree) (destination : Path) (octets : List UInt8) (delivery : Delivery)
    (result : Except Failure Unit × FileTree) : Prop :=
  ((delivery.file?.isSome = true ∧ result.1 = .ok ()) ∨
    delivery.file? = none ∧ ∃ cause, result.1 = .error (.fileWrite destination.toString cause)) ∧
  Covers (delivery.layer octets) tree result.2

section

variable {grown : FileTree} {places : List Place} (hgrown : Covers (directories places) tree grown)
include hgrown

theorem delivers_of_failure (octets : List UInt8) (fault : FileFault) :
    Delivers tree destination octets ⟨places, none⟩
      (.error (.fileWrite destination.toString fault.report), grown) :=
  ⟨.inr ⟨rfl, fault.report, rfl⟩, hgrown⟩

theorem delivers_of_put (octets : List UInt8) (hplace : place ≠ []) :
    Delivers tree destination octets ⟨places, some place⟩
      (.ok (), grown.put place (.file octets)) := by
  refine ⟨.inl ⟨rfl, rfl⟩, fun other => ?_⟩
  rw [lookup_put hplace, Delivery.layer]
  by_cases hother : other = place
  · rw [if_pos hother, if_pos (congrArg some hother.symm)]
    rfl
  · rw [if_neg hother, if_neg fun heq => hother (Option.some.inj heq).symm]
    exact hgrown other

end

/-- What a delivery leaves, and when it succeeds. -/
theorem deliver_spec (tree : FileTree) (octets : List UInt8)
    (h : destination.components = above ++ [.name chars]) :
    Delivers tree destination octets (tree.delivery destination)
      ((deliver destination octets : StateM FileTree (Except Failure Unit)).run tree) := by
  rw [run_deliver h, delivery, h, List.dropLast_concat]
  dsimp only
  by_cases hpath : above = [] ∨ (Path.ofComponents above).IsAdmissible
  · rw [if_pos hpath]
    have hmakes := createSteps_makes tree (isSteps_above h) hpath.resolve_left
    cases hcreate : tree.createSteps above.reverse with
    | mk outcome grown =>
      rw [hcreate] at hmakes
      obtain ⟨hiff, hgrown⟩ := hmakes
      -- the directories above are made or not, and then the file is written or not
      cases outcome with
      | error fault =>
        have hnot : ¬isMade tree.isFile above = true := by
          rw [← hiff]
          nofun
        rw [if_neg fun hcan => hnot hcan.1]
        exact delivers_of_failure hgrown octets fault
      | ok made =>
        cases made
        have hmade : isMade tree.isFile above = true := hiff.1 rfl
        dsimp only at hgrown ⊢
        rcases write_of_isMade h hmade hgrown octets with ⟨hcan, hwrite⟩ | ⟨hcan, fault, hwrite⟩
        · rw [hwrite, if_pos ⟨hmade, hcan⟩]
          exact delivers_of_put hgrown octets fun hnil => hcan.2.2.2.1 (by rw [hnil]; rfl)
        · rw [hwrite, if_neg fun hboth => hcan hboth.2]
          exact delivers_of_failure hgrown octets fault
  · obtain ⟨fault, hcreate⟩ := createSteps_of_not_isAdmissible tree (isSteps_above h)
      (fun hnil => hpath (.inl hnil)) fun hadmissible => hpath (.inr hadmissible)
    rw [if_neg hpath, hcreate]
    exact delivers_of_failure (covers_directories_nil tree) octets fault

/-! ### What makes no difference to a delivery -/

/-- Whether a delivery succeeds does not depend on what is delivered. -/
theorem deliver_ok_of_deliver_ok (h : destination.components = above ++ [.name chars])
    (hok : ((deliver destination octets : StateM FileTree (Except Failure Unit)).run tree).1 =
      .ok ()) (octets' : List UInt8) :
    ((deliver destination octets' : StateM FileTree (Except Failure Unit)).run tree).1 =
      .ok () := by
  rcases (deliver_spec tree octets h).1 with ⟨hsome, -⟩ | ⟨-, cause, herror⟩
  · rcases (deliver_spec tree octets' h).1 with ⟨-, hok'⟩ | ⟨hnone, -⟩
    · exact hok'
    · rw [hnone] at hsome
      cases hsome
  · rw [hok] at herror
    cases herror

/-- Where a delivery puts its file. -/
theorem file?_delivery (h : (tree.delivery destination).file? = some place) :
    place = destination.place ∧ tree.entry? place ≠ some .directory ∧
      place ∉ made tree.isFile destination.components.dropLast := by
  rw [delivery] at h
  dsimp only at h
  split at h
  · dsimp only at h
    split at h
    · rename_i hcan
      rw [← Option.some.inj h]
      exact ⟨rfl, hcan.2.2.2.2.1, hcan.2.2.2.2.2⟩
    · cases h
  · cases h

/-- Where a delivery makes directories. -/
theorem mem_directories_delivery (h : place ∈ (tree.delivery destination).directories) :
    place ∈ made tree.isFile destination.components.dropLast := by
  rw [delivery] at h
  dsimp only at h
  split at h
  · exact h
  · cases h

/-- A tree with more in it makes no difference to a delivery if there are no more files where it makes
directories, and no more directory where it writes its file. -/
theorem delivery_congr (hmore : ∀ other, tree.isFile other = true → tree'.isFile other = true)
    (hopen : ∀ other ∈ made tree.isFile destination.components.dropLast,
      tree'.isFile other = false)
    (hplace : destination.place ∉ made tree.isFile destination.components.dropLast →
      ( tree'.entry? destination.place = some .directory ↔
        tree.entry? destination.place = some .directory)) :
    tree'.delivery destination = tree.delivery destination := by
  obtain ⟨hmade, hisMade⟩ := made_congr hmore hopen
  have hcan : tree'.CanWrite destination (made tree.isFile destination.components.dropLast) ↔
      tree.CanWrite destination (made tree.isFile destination.components.dropLast) := by
    simp only [CanWrite, ne_eq]
    constructor
    · rintro ⟨hpath, hfits, hending, hentry, hnot⟩
      exact ⟨hpath, hfits, hending, fun h => hentry ((hplace hnot).2 h), hnot⟩
    · rintro ⟨hpath, hfits, hending, hentry, hnot⟩
      exact ⟨hpath, hfits, hending, fun h => hentry ((hplace hnot).1 h), hnot⟩
  rw [delivery, delivery]
  dsimp only
  rw [hmade, hisMade]
  simp only [hcan]

/-! ### Reading again what has been delivered -/

theorem read_of_write (h : tree.write destination octets = .ok tree') :
    tree'.read destination = .ok octets := by
  cases hlocate : tree.locate destination with
  | error fault =>
    rw [write_of_locate_error hlocate] at h
    cases h
  | ok place =>
    rcases write_of_locate octets hlocate with ⟨hending, hentry, hwrite⟩ | ⟨-, fault, hwrite⟩
    · rw [hwrite] at h
      obtain rfl := Except.ok.inj h
      have hne : place ≠ [] := by
        rintro rfl
        exact hentry rfl
      have hkeep : ∀ other, tree.entry? other = some .directory →
          FileTree.entry? (tree.put place (.file octets)) other = some .directory := by
        intro other hother
        rw [lookup_put hne, if_neg]
        · exact hother
        · rintro rfl
          exact hentry hother
      rw [read, locate_mono hkeep hlocate nofun nofun]
      simp only [bind, Except.bind]
      rw [lookup_put hne, if_pos rfl]
      dsimp only
      rw [if_pos hending]
    · rw [hwrite] at h
      cases h

/-- A document that has been delivered can be read again. -/
theorem read_of_deliver (h : destination.components = above ++ [.name chars])
    (hdelivered : (deliver destination octets : StateM FileTree (Except Failure Unit)).run tree =
      (.ok (), tree')) : tree'.read destination = .ok octets := by
  rw [run_deliver h] at hdelivered
  split at hdelivered
  · cases hdelivered
  · split at hdelivered
    · rename_i grown _ written hwrite
      cases hdelivered
      exact read_of_write hwrite
    · cases hdelivered

end SqlDialect.FileTree
