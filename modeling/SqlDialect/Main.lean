import SqlDialect.CommandLine.Program

/-!
# The command line

The file system, the environment and the standard streams of a running program.
-/

namespace SqlDialect.CommandLine

/-- The fault that an error of the system stands for. -/
def faultOf (error : IO.Error) : FileFault :=
  match error with
  | .noFileOrDirectory _ _ _ => .notFound
  | .noSuchThing _ _ _ => .notFound
  | .alreadyExists _ _ _ => .alreadyThere
  | .inappropriateType _ code _ =>
    if code = 20 then .notDirectory else if code = 21 then .isDirectory else .other error.toString
  | .invalidArgument _ code _ =>
    if code = 36 then .nameTooLong else .other error.toString
  | _ => .other error.toString

/-- What comes of an action on files. -/
def attempt {α : Type} (action : IO α) : IO (Except FileFault α) := do
  try
    return .ok (← action)
  catch error =>
    return .error (faultOf error)

/-- The files in and below a directory, last one first, behind those that were found before. -/
partial def collectFiles (root : Path) (found : List Path) : IO (List Path) := do
  let here ← IO.currentDir
  if ← (here / root.toString).isDir then
    let mut found := found
    for item in ← (here / root.toString).readDir do
      found ← collectFiles (root.entry item.fileName.toList) found
    return found
  else if ← (here / root.toString).pathExists then
    return root :: found
  else
    return found

instance : FileSystem IO where
  read path := attempt do
    return (← IO.FS.readBinFile path.toString).toList
  write path octets := attempt do
    IO.FS.writeBinFile path.toString ⟨octets.toArray⟩
  createDirectories path := attempt do
    if !path.text.isEmpty then IO.FS.createDirAll path.toString
  filesUnder path := attempt do
    let here ← IO.currentDir
    let _ ← (here / path.toString).metadata
    collectFiles path []

/-- The environment variables that a run looks at. -/
def variableNames : List String :=
  [Settings.remarksVariable, Settings.sourceVariable, Settings.destinationVariable,
    "HOME", "CLICOLOR", "CLICOLOR_FORCE", "NO_COLOR"]

/-- The surroundings of a running program. -/
def surroundings : IO (Surroundings IO) := do
  let values ← variableNames.mapM fun name => return (name, ← IO.getEnv name)
  return {
    environment := fun name => (values.lookup name).join
    input := attempt do
      return (← (← IO.getStdin).readBinToEnd).toList
    terminal := ← (← IO.getStdout).isTty }

end SqlDialect.CommandLine

open SqlDialect.CommandLine in
/-- Runs the program. -/
def main (arguments : List String) : IO UInt32 := do
  let ending ← run (← surroundings) arguments
  let output ← IO.getStdout
  output.putStr (String.ofList ending.output)
  output.flush
  for line in ending.errors do
    IO.eprintln line
  return UInt32.ofNat ending.exitCode
