import SqlDialect.Failure
import SqlDialect.Path
import SqlDialect.Toml.Reader

/-!
# Settings

Settings come from a TOML file and from environment variables, which override the file.  A file
may hold the known keys only, each with a value of its kind.
-/

namespace SqlDialect

/-- What can be set. -/
structure Settings where
  /-- Whether remarks are left out of converted documents. -/
  suppressRemarks : Bool := false
  /-- The directory of the documents to convert. -/
  sourceRoot : Path := .ofString "redshift-sql"
  /-- The directory of the converted documents. -/
  destinationRoot : Path := .ofString "snowflake-sql"
  /-- The extension of the files to convert. -/
  extension : String := "sql"
  /-- The identifiers of the rules that are not applied. -/
  disabledRules : List String := []
deriving Repr, DecidableEq

namespace Settings

open Toml

/-- Whether two settings mean the same: their directories may be written in different ways. -/
def same (a b : Settings) : Bool :=
  a.suppressRemarks == b.suppressRemarks && a.sourceRoot.same b.sourceRoot &&
    a.destinationRoot.same b.destinationRoot && a.extension == b.extension &&
    a.disabledRules == b.disabledRules

/-- The truth value that the value is. -/
def flag? : Value → Option Bool
  | .flag b => some b
  | _ => none

/-- The string that the value is. -/
def text? : Value → Option String
  | .text s => some s
  | _ => none

/-- The list of strings that the value is. -/
def texts? : Value → Option (List String)
  | .array items => items.mapM text?
  | _ => none

/-- The settings with one entry of the table `convert` applied. -/
def applyConvertEntry (settings : Settings) (key : String) (value : Value) : Option Settings :=
  match key with
  | "suppress_annotations" => (flag? value).map fun b => { settings with suppressRemarks := b }
  | "source_root" => (text? value).map fun s => { settings with sourceRoot := .ofString s }
  | "destination_root" =>
    (text? value).map fun s => { settings with destinationRoot := .ofString s }
  | "extension" => (text? value).map fun s => { settings with extension := s }
  | _ => none

/-- The settings with one entry of the table `rules` applied. -/
def applyRulesEntry (settings : Settings) (key : String) (value : Value) : Option Settings :=
  match key with
  | "disabled" => (texts? value).map fun ids => { settings with disabledRules := ids }
  | _ => none

/-- The entries of a table.  The values of an array are those of the keys in their order; those
behind the last key are passed over. -/
def entriesOf? (keys : List String) : Value → Option Entries
  | .table _ entries => some entries
  | .array items => some (keys.zip items)
  | .tables items => some (keys.zip (items.map (.table .header)))
  | _ => none

/-- The settings with one entry of the file applied. -/
def applyEntry (settings : Settings) (key : String) (value : Value) : Option Settings :=
  match key with
  | "convert" => do
    let entries ← entriesOf?
      ["suppress_annotations", "source_root", "destination_root", "extension"] value
    entries.foldlM (fun settings (key, value) => settings.applyConvertEntry key value) settings
  | "rules" => do
    let entries ← entriesOf? ["disabled"] value
    entries.foldlM (fun settings (key, value) => settings.applyRulesEntry key value) settings
  | _ => none

/-- The settings that the text of a file gives; nothing if it is not TOML, or not of the right
form. -/
def ofToml? (text : List Char) : Option Settings := do
  let entries ← parse? text
  entries.foldlM (fun settings (key, value) => settings.applyEntry key value) {}

/-- The settings that the text of a file gives. -/
def ofToml (text : List Char) : Except Failure Settings :=
  match ofToml? text with
  | some settings => .ok settings
  | none => .error (.badSettings "Invalid config file")

/-- The variable that suppresses remarks. -/
def remarksVariable : String := "SQL_CONVERTER_NO_COMMENTS"

/-- The variable that names the source directory. -/
def sourceVariable : String := "SQL_CONVERTER_INPUT_DIR"

/-- The variable that names the destination directory. -/
def destinationVariable : String := "SQL_CONVERTER_OUTPUT_DIR"

/-- The truth value that a variable is set to. -/
def readFlag (variableName : String) (value : String) : Except Failure Bool :=
  let word := String.ofList ((Text.trim value.toList).map Char.toLower)
  if ["1", "true", "yes", "on"].contains word then .ok true
  else if ["0", "false", "no", "off", ""].contains word then .ok false
  else .error (.badSettings (variableName ++ " must be a boolean, got '" ++ word ++ "'"))

/-- The settings with the environment variables applied; `lookup` gives their values. -/
def applyEnvironment (settings : Settings) (lookup : String → Option String) :
    Except Failure Settings := do
  let suppressRemarks ← match lookup remarksVariable with
    | none => pure settings.suppressRemarks
    | some value => readFlag remarksVariable value
  return { settings with
    suppressRemarks := suppressRemarks
    sourceRoot := ((lookup sourceVariable).map Path.ofString).getD settings.sourceRoot
    destinationRoot :=
      ((lookup destinationVariable).map Path.ofString).getD settings.destinationRoot }

end Settings

end SqlDialect
