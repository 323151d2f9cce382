import SqlDialect.Batch.Run
import SqlDialect.Proofs.Batch.Plan
import SqlDialect.Proofs.FileTree.Delivery

/-!
# What a job does to a tree

A job reads its document, and lays its directories and its file over the tree.

* `Batch.Job.layer` : what the job lays over a tree.
* `Batch.Job.run_congr` : the job depends on nothing but its document and its delivery.
* `Batch.Job.layer_cases` : what it lays over the tree are directories above its destination, and
  the file there.
-/

namespace SqlDialect.Batch

open FileTree (Place Layer Covers made)

namespace Job

variable {c : Converter} {job : Job} {tree tree' : FileTree} {place : Place}

/-! ### Running a job -/

theorem run_of_claimed {first : Path} (h : job.claimedBy = some first) :
    (job.run c : StateM FileTree Outcome).run tree =
      (job.outcome none (.error (.destinationTaken job.destination.toString first.toString)),
        tree) := by
  rw [run, h]
  rfl

/-- What the job reads and converts. -/
def reading (c : Converter) (tree : FileTree) (job : Job) :
    Except Failure (Encoding × Conversion) :=
  match tree.read job.source with
  | .error fault => .error (.fileRead job.source.toString fault.report)
  | .ok octets =>
    c.convertOctets job.source.toString (job.source.stem?.map String.ofList) octets

theorem run_of_not_claimed (h : job.claimedBy = none) :
    (job.run c : StateM FileTree Outcome).run tree =
      match job.reading c tree with
      | .error failure => (job.outcome none (.error failure), tree)
      | .ok (encoding, conversion) =>
        let result := (deliver job.destination conversion.octets :
          StateM FileTree (Except Failure Unit)).run tree
        (job.outcome (some encoding) (result.1.map fun () => conversion.report), result.2) := by
  rw [run, h, reading]
  dsimp only
  rw [StateT.run_bind]
  have hread : (FileSystem.read job.source :
      StateM FileTree (Except FileFault (List UInt8))).run tree = (tree.read job.source, tree) := rfl
  rw [hread]
  cases tree.read job.source with
  | error fault => rfl
  | ok octets =>
    dsimp only [bind]
    cases c.convertOctets job.source.toString (job.source.stem?.map String.ofList) octets with
    | error failure => rfl
    | ok result => rfl

/-- What the job lays over the tree. -/
def layer (c : Converter) (tree : FileTree) (job : Job) : Layer :=
  match job.claimedBy with
  | some _ => FileTree.directories []
  | none =>
    match job.reading c tree with
    | .error _ => FileTree.directories []
    | .ok (_, conversion) => (tree.delivery job.destination).layer conversion.octets

/-- A destination is an entry of a directory. -/
def HasEntry (job : Job) : Prop :=
  ∃ above chars, job.destination.components = above ++ [.name chars]

/-- The job depends on nothing but its document and its delivery. -/
theorem run_congr (c : Converter) (hentry : job.HasEntry)
    (hread : job.claimedBy = none → tree'.read job.source = tree.read job.source)
    (hdelivery : job.claimedBy = none →
      tree'.delivery job.destination = tree.delivery job.destination) :
    ((job.run c : StateM FileTree Outcome).run tree').1 =
        ((job.run c : StateM FileTree Outcome).run tree).1 ∧
      Covers (job.layer c tree) tree' ((job.run c : StateM FileTree Outcome).run tree').2 := by
  cases hclaimed : job.claimedBy with
  | some first =>
    rw [run_of_claimed hclaimed, run_of_claimed hclaimed, layer, hclaimed]
    exact ⟨rfl, FileTree.covers_directories_nil tree'⟩
  | none =>
    have hreading : job.reading c tree' = job.reading c tree := by
      rw [reading, reading, hread hclaimed]
    rw [run_of_not_claimed hclaimed, run_of_not_claimed hclaimed, layer, hclaimed, hreading]
    cases job.reading c tree with
    | error failure => exact ⟨rfl, FileTree.covers_directories_nil tree'⟩
    | ok result =>
      obtain ⟨encoding, conversion⟩ := result
      obtain ⟨above, chars, hcomponents⟩ := hentry
      obtain ⟨houtcome', hcovers⟩ :=
        FileTree.deliver_spec tree' conversion.octets hcomponents
      obtain ⟨houtcome, -⟩ := FileTree.deliver_spec tree conversion.octets hcomponents
      rw [hdelivery hclaimed] at houtcome' hcovers
      refine ⟨?_, hcovers⟩
      -- both runs deliver or neither does, as the delivery is the same
      rcases houtcome' with ⟨hsome, hok'⟩ | ⟨hnone, cause', herror'⟩
      · rcases houtcome with ⟨-, hok⟩ | ⟨hnone, -⟩
        · dsimp only
          rw [hok', hok]
        · rw [hnone] at hsome
          cases hsome
      · rcases houtcome with ⟨hsome, -⟩ | ⟨-, cause, herror⟩
        · rw [hnone] at hsome
          cases hsome
        · -- the causes may differ, but the outcome does not show them
          dsimp only
          rw [herror', herror]
          rfl

/-- What a job lays over a tree are a file at its destination and directories above that. -/
theorem layer_cases {entry : FileTree.Entry} (h : job.layer c tree place = some entry) :
    job.claimedBy = none ∧
    ((∃ octets, entry = .file octets ∧ place = job.destination.place ∧
        tree.entry? place ≠ some .directory ∧
        place ∉ made tree.isFile job.destination.components.dropLast) ∨
      entry = .directory ∧ place ∈ made tree.isFile job.destination.components.dropLast) := by
  cases hclaimed : job.claimedBy with
  | some first =>
    rw [layer, hclaimed] at h
    cases h
  | none =>
    rw [layer, hclaimed] at h
    refine ⟨rfl, ?_⟩
    cases hreading : job.reading c tree with
    | error failure =>
      rw [hreading] at h
      cases h
    | ok result =>
      rw [hreading] at h
      dsimp only at h
      rw [FileTree.Delivery.layer] at h
      split at h
      · rename_i hfile
        exact .inl ⟨_, (Option.some.inj h).symm, FileTree.file?_delivery hfile⟩
      · rw [FileTree.directories] at h
        split at h
        · rename_i hmem
          exact .inr ⟨(Option.some.inj h).symm, FileTree.mem_directories_delivery hmem⟩
        · cases h

end Job

end SqlDialect.Batch
