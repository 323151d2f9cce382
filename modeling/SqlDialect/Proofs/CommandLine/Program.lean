import SqlDialect.CommandLine.Program
import SqlDialect.Proofs.FileTree.WellFormed

/-!
# What a run leaves of a tree

A run of the program changes a tree of files by its operations only, so that a tree in which every
entry is in a directory is still one afterwards, however the run ends.

* `Batch.keeps_run` : a batch, after which another one finds such a tree again.
* `CommandLine.keeps_run` : a whole run.
-/

namespace SqlDialect

open FileTree (Keeps)

namespace Batch

theorem Job.keeps_run (c : Converter) (job : Job) :
    Keeps (job.run c : StateM FileTree Outcome) := by
  rw [Job.run]
  split
  · exact .pure _
  · refine .bind (.read _) fun result => ?_
    cases result with
    | error fault => exact .pure _
    | ok octets =>
      dsimp only
      split
      · exact .pure _
      · exact .bind (.deliver _ _) fun _ => .pure _

theorem Options.keeps_discover (options : Options) :
    Keeps (options.discover : StateM FileTree (Except Failure (List Path))) := by
  refine .bind (.filesUnder _) fun result => ?_
  cases result with
  | error fault => exact .pure _
  | ok files => exact .pure _

theorem keeps_run (c : Converter) (options : Options) :
    Keeps (run c options : StateM FileTree (Except Failure Summary)) := by
  refine .bind options.keeps_discover fun result => ?_
  cases result with
  | error failure => exact .pure _
  | ok files => exact .bind (.mapM (Job.keeps_run c) _) fun _ => .pure _

end Batch

namespace CommandLine

theorem keeps_readSettings (path : Path) :
    Keeps (readSettings path : StateM FileTree (Except Failure (Option Settings))) := by
  refine .bind (.read path) fun result => ?_
  cases result with
  | error fault => exact .pure _
  | ok octets =>
    dsimp only
    split
    · exact .pure _
    · exact .pure _

theorem keeps_loadSettings (environment : String → Option String) :
    Keeps (loadSettings environment : StateM FileTree (Except Failure Settings)) := by
  rw [loadSettings]
  split
  all_goals
    refine .exceptBind ?_ fun _ => .exceptBind (keeps_readSettings _) fun _ => .pure _
  · exact keeps_readSettings _
  · exact .pure _

theorem keeps_runConvert (settings : Settings) (coloured : Bool) (request : ConvertRequest) :
    Keeps (runConvert settings coloured request : StateM FileTree (Except Failure Ending)) := by
  refine .bind (Batch.keeps_run _ _) fun result => ?_
  cases result with
  | error failure => exact .pure _
  | ok summary => exact .pure _

variable {input : StateM FileTree (Except FileFault (List UInt8))}

theorem keeps_readInput (hinput : Keeps input) (path : Path) :
    Keeps (readInput input path : StateM FileTree (Except Failure (List UInt8))) := by
  rw [readInput]
  split
  · exact .bind hinput fun _ => .pure _
  · exact .bind (.read path) fun _ => .pure _

theorem keeps_runSingle (settings : Settings) (hinput : Keeps input) (request : SingleRequest) :
    Keeps (runSingle settings input request : StateM FileTree (Except Failure Ending)) := by
  refine .exceptBind (keeps_readInput hinput _) fun octets => ?_
  refine .exceptBind (.pure _) fun result => ?_
  dsimp only
  split
  · exact .pure _
  · exact .exceptBind (.deliver _ _) fun _ => .pure _

/-- **What a run leaves is well formed.**  Whatever the arguments, the environment and the files are,
and whether the run fails or not. -/
theorem keeps_run (surroundings : Surroundings (StateM FileTree))
    (hinput : Keeps surroundings.input) (arguments : List String) :
    Keeps (run surroundings arguments) := by
  rw [run]
  split
  · exact .pure _
  · rename_i command _
    refine .bind (keeps_loadSettings _) fun loaded => ?_
    cases loaded with
    | error failure => exact .pure _
    | ok settings =>
      refine .bind ?_ fun result => ?_
      · cases command with
        | convert request => exact keeps_runConvert _ _ request
        | single request => exact keeps_runSingle _ hinput request
        | rules format noColour => exact .pure _
      · cases result with
        | error failure => exact .pure _
        | ok ending => exact .pure _

end CommandLine

end SqlDialect
