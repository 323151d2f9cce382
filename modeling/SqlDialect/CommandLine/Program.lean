import SqlDialect.Batch.Run
import SqlDialect.CommandLine.Command
import SqlDialect.Output.Batch
import SqlDialect.Output.Rules
import SqlDialect.Settings

/-!
# The program

A run of the program reads a command off its arguments, loads the settings, and carries the
command out.  It is written for any monad with a file system; `Ending` is what a run leaves besides
the files.

There is no log of a run and no bar that shows its progress: neither is read by anything, and
neither has an effect on the files, the standard output or the exit code.
-/

namespace SqlDialect.CommandLine

/-- What a run leaves. -/
structure Ending where
  /-- The exit code. -/
  exitCode : Nat
  /-- What is written to the standard output. -/
  output : List Char
  /-- The lines that are written to the standard error output. -/
  errors : List String
deriving Repr, DecidableEq

/-- What a run finds. -/
structure Surroundings (m : Type → Type) where
  /-- The values of the environment variables. -/
  environment : String → Option String
  /-- The octets of the standard input. -/
  input : m (Except FileFault (List UInt8))
  /-- Whether the standard output is a terminal. -/
  terminal : Bool

/-! ### Settings and requests -/

/-- The converter that the settings and the request ask for. -/
def converter (settings : Settings) (noRemarks : Bool) : Converter where
  rules := .without settings.disabledRules
  showRemarks := !(noRemarks || settings.suppressRemarks)

namespace ConvertRequest

/-- The batch that the request asks for; what it does not give is taken from the settings. -/
def options (request : ConvertRequest) (settings : Settings) : Batch.Options where
  sourceRoot := request.sourceRoot.getD settings.sourceRoot
  destinationRoot := request.destinationRoot.getD settings.destinationRoot
  extension := request.extension.getD settings.extension
  progress := !request.noProgress

end ConvertRequest

/-- Whether the path stands for the standard input. -/
def isStandardInput (path : Path) : Bool :=
  path.text == ['-']

/-- The name of a single document: the given one, or else that of its file without the
extension. -/
def documentName (input : Path) (name : Option String) : Option String :=
  match name with
  | some name => some name
  | none => if isStandardInput input then none else input.stem?.map String.ofList

section

variable {m : Type → Type} [Monad m] [FileSystem m]

/-- The settings of the user, below the home directory. -/
def userSettings (home : String) : Path :=
  [".config", "sql-converter", "config.toml"].foldl (fun p name => p.entry name.toList)
    (.ofString home)

/-- The settings of the working directory, which replace those of the user. -/
def localSettings : Path := .ofString ".sql-converter.toml"

/-- The settings in the file, if there is one. -/
def readSettings (path : Path) : m (Except Failure (Option Settings)) := do
  let bad (reason : String) : Failure :=
    .badSettings ("Failed to read config file '" ++ path.toString ++ "': " ++ reason)
  match ← FileSystem.read path with
  | .error fault => return if fault.isAbsence then .ok none else .error (bad fault.report)
  | .ok octets =>
    match Text.ofUtf8? octets with
    | none => return .error (bad "stream did not contain valid UTF-8")
    | some text => return (Settings.ofToml text).map some

/-- The settings for a run. -/
def loadSettings (environment : String → Option String) : m (Except Failure Settings) :=
  ExceptT.run do
    let ofUser ← match environment "HOME" with
      | some home => ExceptT.mk (readSettings (userSettings home))
      | none => pure none
    let ofDirectory ← ExceptT.mk (readSettings localSettings)
    let settings := (ofDirectory.or ofUser).getD {}
    ExceptT.mk (pure (settings.applyEnvironment environment))

/-! ### Carrying out a command -/

/-- Carries out the command `convert`. -/
def runConvert (settings : Settings) (coloured : Bool) (request : ConvertRequest) :
    m (Except Failure Ending) := do
  let style : Style := ⟨request.format, coloured && !request.noColour, request.verbose⟩
  match ← Batch.run (converter settings request.noRemarks) (request.options settings) with
  | .error failure => return .error failure
  | .ok summary =>
    return .ok ⟨summary.exitCode, Text.endLineFeed (summary.printed style), []⟩

/-- The octets of a single document. -/
def readInput (input : m (Except FileFault (List UInt8))) (path : Path) :
    m (Except Failure (List UInt8)) := do
  let failure (name : String) (fault : FileFault) : Failure := .fileRead name fault.report
  if isStandardInput path then return (← input).mapError (failure "stdin")
  else return (← FileSystem.read path).mapError (failure path.toString)

/-- Carries out the command `translate`. -/
def runSingle (settings : Settings) (input : m (Except FileFault (List UInt8)))
    (request : SingleRequest) : m (Except Failure Ending) :=
  ExceptT.run do
    let octets ← ExceptT.mk (readInput input request.input)
    let (_, conversion) ← ExceptT.mk (pure
      ((converter settings request.noRemarks).convertOctets request.input.toString
        (documentName request.input request.name) octets))
    let text := Text.ofUtf8Lossy conversion.octets
    match request.output with
    | none => return ⟨0, text, []⟩
    | some path =>
      ExceptT.mk (deliver path (Text.toUtf8 text))
      return ⟨0, [], []⟩

/-- Carries out the command `rules`. -/
def runRules (settings : Settings) (coloured : Bool) (format : Format) (noColour : Bool) :
    Ending :=
  let rules := RuleSet.without settings.disabledRules
  ⟨0, Text.endLineFeed (rules.listing ⟨format, coloured && !noColour, false⟩), []⟩

/-- Carries out a command. -/
def runCommand (settings : Settings) (coloured : Bool)
    (input : m (Except FileFault (List UInt8))) : Command → m (Except Failure Ending)
  | .convert request => runConvert settings coloured request
  | .single request => runSingle settings input request
  | .rules format noColour => return .ok (runRules settings coloured format noColour)

/-! ### A whole run -/

/-- The version of the program. -/
def version : String := "sql-converter 0.1.0\n"

/-- How the program is called. -/
def help : String :=
  "Usage: sql-converter <COMMAND>\n\n" ++
  "Commands:\n" ++
  "  convert    Convert every SQL file under a directory tree\n" ++
  "  translate  Convert a single document (use - for stdin)\n" ++
  "  rules      List the conversion rules in application order\n" ++
  "  help       Print this message\n"

namespace Refusal

/-- What is wrong with the arguments. -/
def message : Refusal → String
  | .unknownCommand => "error: unrecognized subcommand"
  | .unknownArgument => "error: unexpected argument"
  | .needlessValue => "error: unexpected value"
  | .invalidValue => "error: invalid value"
  | .repeatedArgument => "error: an argument cannot be used multiple times"
  | .missingArgument => "error: a required argument was not provided"
  | _ => help

/-- How a run ends if no command can be read off its arguments. -/
def ending : Refusal → Ending
  | .helpAsked => ⟨0, help.toList, []⟩
  | .versionAsked => ⟨0, version.toList, []⟩
  | refusal => ⟨2, [], [refusal.message]⟩

end Refusal

/-- How a run ends that could not be carried out. -/
def failureEnding (failure : Failure) : Ending :=
  ⟨2, [], ["Error: " ++ failure.display]⟩

/-- A run of the program. -/
def run (surroundings : Surroundings m) (arguments : List String) : m Ending := do
  match Command.read arguments with
  | .error refusal => return refusal.ending
  | .ok command =>
    let coloured := Paint.wanted surroundings.environment surroundings.terminal
    match ← loadSettings surroundings.environment with
    | .error failure => return failureEnding failure
    | .ok settings =>
      match ← runCommand settings coloured surroundings.input command with
      | .error failure => return failureEnding failure
      | .ok ending => return ending

end

end SqlDialect.CommandLine
