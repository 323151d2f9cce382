import SqlDialect.Batch.Outcome
import SqlDialect.Batch.Plan
import SqlDialect.Document.Source

/-!
# Running a batch

A batch converts every file of its plan.  What goes wrong with one of them is its outcome, and
the others are converted all the same; only if the source root cannot be searched there is no
summary at all.
-/

namespace SqlDialect.Batch

variable {m : Type → Type} [Monad m] [FileSystem m]

namespace Job

/-- The outcome of the job. -/
def outcome (job : Job) (encoding : Option Encoding) (result : Except Failure Report) :
    Outcome where
  source := job.source
  destination := job.destination
  encoding := encoding
  status :=
    match result with
    | .ok report => .converted report
    | .error failure => .failed failure.display

/-- Converts the document of the job. -/
def run (c : Converter) (job : Job) : m Outcome := do
  match job.claimedBy with
  | some first =>
    return job.outcome none
      (.error (.destinationTaken job.destination.toString first.toString))
  | none =>
    let label := job.source.toString
    match ← FileSystem.read job.source with
    | .error fault => return job.outcome none (.error (.fileRead label fault.report))
    | .ok octets =>
      match c.convertOctets label (job.source.stem?.map String.ofList) octets with
      | .error failure => return job.outcome none (.error failure)
      | .ok (encoding, conversion) =>
        let written ← deliver job.destination conversion.octets
        return job.outcome (some encoding) (written.map fun () => conversion.report)

end Job

/-- The documents that the batch converts. -/
def Options.discover (options : Options) : m (Except Failure (List Path)) := do
  let root := options.sourceRoot.toString
  match ← FileSystem.filesUnder options.sourceRoot with
  | .ok files => return .ok (select options.extension files)
  | .error fault =>
    return .error (.fileRead root ("IO error for operation on " ++ root ++ ": " ++ fault.report))

/-- Converts the documents of a batch. -/
def run (c : Converter) (options : Options) : m (Except Failure Summary) := do
  match ← options.discover with
  | .error failure => return .error failure
  | .ok files =>
    let outcomes ← (options.plan files).mapM (Job.run c)
    return .ok ⟨options.sourceRoot, options.destinationRoot, outcomes⟩

end SqlDialect.Batch
