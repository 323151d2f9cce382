import SqlDialect.CommandLine.Usage
import SqlDialect.Path

/-!
# Commands

The program has three commands: `convert` converts a tree of documents, `translate` a single
one, and `rules` lists the rules.  `Command.read` reads a command off the arguments.
-/

namespace SqlDialect.CommandLine

/-- What the command `convert` is to do; what is not given is taken from the settings. -/
structure ConvertRequest where
  /-- The directory of the documents. -/
  sourceRoot : Option Path
  /-- The directory of the converted documents. -/
  destinationRoot : Option Path
  /-- Whether remarks are left out. -/
  noRemarks : Bool
  /-- The extension of the files to convert. -/
  extension : Option String
  /-- The format of the summary. -/
  format : Format
  /-- Whether the summary is without colours. -/
  noColour : Bool
  /-- Whether the summary tells about each document. -/
  verbose : Bool
  /-- Whether no progress is shown. -/
  noProgress : Bool
deriving Repr, DecidableEq

/-- What the command `translate` is to do. -/
structure SingleRequest where
  /-- The file of the document; a dash is the standard input. -/
  input : Path
  /-- The file for the converted document, if it does not go to the standard output. -/
  output : Option Path
  /-- Whether remarks are left out. -/
  noRemarks : Bool
  /-- The name of the document. -/
  name : Option String
  /-- Whether more is logged. -/
  verbose : Bool
deriving Repr, DecidableEq

/-- A command. -/
inductive Command where
  /-- Converts a tree of documents. -/
  | convert (request : ConvertRequest)
  /-- Converts a single document. -/
  | single (request : SingleRequest)
  /-- Lists the rules. -/
  | rules (format : Format) (noColour : Bool)
deriving Repr, DecidableEq

/-! ### Parameters -/

/-- The parameter that asks for help. -/
def helpParameter : Parameter := ⟨"help", some 'h', .stop .helpAsked⟩

/-- The parameter that asks for the version. -/
def versionParameter : Parameter := ⟨"version", some 'V', .stop .versionAsked⟩

/-- The parameter that leaves remarks out. -/
def noRemarksParameter : Parameter := ⟨"no-comments", none, .flag⟩

/-- The parameter that gives the output format. -/
def formatParameter : Parameter := ⟨"output-format", some 'f', .value .format⟩

/-- The parameter that turns colours off. -/
def noColourParameter : Parameter := ⟨"no-color", none, .flag⟩

/-- The parameter that asks for more. -/
def verboseParameter : Parameter := ⟨"verbose", some 'v', .flag⟩

/-- The arguments before the name of a command. -/
def programUsage : Usage where
  parameters := [helpParameter, versionParameter]
  operand := none

/-- The arguments of the command `convert`. -/
def convertUsage : Usage where
  parameters := [
    ⟨"input-dir", some 'i', .value .path⟩, ⟨"output-dir", some 'o', .value .path⟩,
    noRemarksParameter, ⟨"extension", some 'e', .value .text⟩, formatParameter,
    noColourParameter, verboseParameter, ⟨"no-progress", none, .flag⟩, helpParameter]
  operand := none

/-- The arguments of the command `translate`. -/
def singleUsage : Usage where
  parameters := [
    ⟨"output", some 'o', .value .path⟩, noRemarksParameter, ⟨"name", some 'n', .value .text⟩,
    verboseParameter, helpParameter]
  operand := some ("input", .path)

/-- The arguments of the command `rules`. -/
def rulesUsage : Usage where
  parameters := [formatParameter, noColourParameter, helpParameter]
  operand := none

/-! ### Reading a command -/

namespace Given

/-- Whether the flag is given. -/
def has (given : Given) (name : String) : Bool :=
  (given.lookup name).isSome

/-- The value that is given under the name. -/
def text? (given : Given) (name : String) : Option String :=
  (given.lookup name).map String.ofList

/-- The path that is given under the name. -/
def path? (given : Given) (name : String) : Option Path :=
  (given.lookup name).map Path.mk

/-- The output format that is given; text if none is. -/
def format (given : Given) : Format :=
  ((given.text? formatParameter.name).bind Format.ofName?).getD .text

end Given

namespace Command

/-- The command `convert` with the given arguments. -/
def ofConvert (given : Given) : Command :=
  .convert {
    sourceRoot := given.path? "input-dir"
    destinationRoot := given.path? "output-dir"
    noRemarks := given.has noRemarksParameter.name
    extension := given.text? "extension"
    format := given.format
    noColour := given.has noColourParameter.name
    verbose := given.has verboseParameter.name
    noProgress := given.has "no-progress" }

/-- The command `translate` with the given arguments. -/
def ofSingle (given : Given) : Command :=
  .single {
    input := (given.path? "input").getD ⟨[]⟩
    output := given.path? "output"
    noRemarks := given.has noRemarksParameter.name
    name := given.text? "name"
    verbose := given.has verboseParameter.name }

/-- The command `rules` with the given arguments. -/
def ofRules (given : Given) : Command :=
  .rules given.format (given.has noColourParameter.name)

/-- The arguments that the command of the given name takes, and the command that they make. -/
def form? : (name : String) → Option (Usage × (Given → Command))
  | "convert" => some (convertUsage, ofConvert)
  | "translate" => some (singleUsage, ofSingle)
  | "rules" => some (rulesUsage, ofRules)
  | _ => none

/-- The name of the command that gives help. -/
def helpName : String := "help"

/-- Whether there is a command of the name. -/
def isName (name : String) : Bool :=
  (form? name).isSome || name == helpName

/-- What comes of asking for help about a command; only commands have help. -/
def helpAbout : List String → Refusal
  | [] => .helpAsked
  | [name] => if isName name then .helpAsked else .unknownCommand
  | _ => .unknownCommand

/-- The command that the arguments give, where `valuesOnly` tells whether there has been an
argument of two dashes. -/
def readFrom (valuesOnly : Bool) : List String → Except Refusal Command
  | [] => .error .nothingAsked
  | argument :: rest =>
    if valuesOnly then
      .error (if isName argument then .unknownArgument else .unknownCommand)
    else
      match form? argument with
      | some (usage, command) => (usage.read (rest.map String.toList)).map command
      | none =>
        if argument == helpName then .error (helpAbout rest)
        else
          match argument.toList with
          | ['-', '-'] => readFrom true rest
          | '-' :: _ :: _ => do
            let _ ← (Reading.start programUsage).step programUsage argument.toList
            readFrom valuesOnly rest
          | _ => .error .unknownCommand

/-- The command that the arguments give. -/
def read (arguments : List String) : Except Refusal Command :=
  readFrom false arguments

end Command

end SqlDialect.CommandLine
