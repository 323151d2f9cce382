import SqlDialect.Output.Style
import SqlDialect.Text.Basic

/-!
# Reading arguments

The arguments of a command are parameters, with two dashes and a name or with one dash and a
letter, and one value without a name where the command expects it.  Letters of flags can be
joined behind one dash, and the value of a parameter can follow it after an equals sign, directly
after its letter, or as the next argument.  Behind an argument of two dashes all arguments are
values.

A value that is an argument of its own is looked at when the next argument shows that it is
complete.  An argument that is not known is therefore refused before a bad value that directly
precedes it.
-/

namespace SqlDialect.CommandLine

/-- Why no command can be read off the arguments. -/
inductive Refusal where
  /-- There are no arguments. -/
  | nothingAsked
  /-- The arguments ask for help. -/
  | helpAsked
  /-- The arguments ask for the version. -/
  | versionAsked
  /-- There is no such command. -/
  | unknownCommand
  /-- There is no such argument here. -/
  | unknownArgument
  /-- An argument that takes no value has one. -/
  | needlessValue
  /-- A value is missing, or is not of its kind. -/
  | invalidValue
  /-- An argument is given twice. -/
  | repeatedArgument
  /-- An argument that must be given is missing. -/
  | missingArgument
deriving Repr, DecidableEq

/-- The values that a parameter takes. -/
inductive ValueKind where
  /-- Any text. -/
  | text
  /-- A path, which is not empty. -/
  | path
  /-- The name of an output format. -/
  | format
deriving Repr, DecidableEq

namespace ValueKind

/-- Whether the value is of the kind. -/
def accepts (kind : ValueKind) (value : List Char) : Bool :=
  match kind with
  | text => true
  | path => !value.isEmpty
  | format => (Format.ofName? (String.ofList value)).isSome

end ValueKind

/-- What a parameter does. -/
inductive ParameterKind where
  /-- It is given or not. -/
  | flag
  /-- It is given with a value. -/
  | value (kind : ValueKind)
  /-- It ends the reading. -/
  | stop (refusal : Refusal)
deriving Repr, DecidableEq

/-- A parameter of a command. -/
structure Parameter where
  /-- The name, which follows two dashes. -/
  name : String
  /-- The letter that can follow one dash. -/
  letter : Option Char
  /-- What the parameter does. -/
  kind : ParameterKind
deriving Repr, DecidableEq

/-- The arguments that a command takes. -/
structure Usage where
  /-- The parameters. -/
  parameters : List Parameter
  /-- The name and the kind of the value without a name, if one is expected. -/
  operand : Option (String × ValueKind)
deriving Repr, DecidableEq

/-- The arguments that have been read, by their names; a flag has an empty value. -/
abbrev Given := List (String × List Char)

/-- A value that is still to be looked at. -/
structure Pending where
  /-- The name of what it is given for. -/
  name : String
  /-- The kind that it must be of. -/
  kind : ValueKind
  /-- The value, once it has been seen. -/
  value : Option (List Char)
deriving Repr, DecidableEq

/-- How far the arguments have been read. -/
structure Reading where
  /-- What has been read. -/
  given : Given
  /-- The value that is still to be looked at. -/
  pending : Option Pending
  /-- The value without a name, if it is still to come. -/
  operand : Option (String × ValueKind)
  /-- Whether all further arguments are values. -/
  valuesOnly : Bool
deriving Repr, DecidableEq

namespace Reading

/-- The reading before the first argument. -/
def start (usage : Usage) : Reading :=
  ⟨[], none, usage.operand, false⟩

/-- The reading with one more argument, which must not have been given before. -/
def give (r : Reading) (name : String) (value : List Char) : Except Refusal Reading :=
  if (r.given.lookup name).isSome then .error .repeatedArgument
  else .ok { r with given := r.given ++ [(name, value)] }

/-- The reading with one more value, which must be of its kind. -/
def giveValue (r : Reading) (name : String) (kind : ValueKind) (value : List Char) :
    Except Refusal Reading := do
  let next ← r.give name value
  if kind.accepts value then return next else throw .invalidValue

/-- The reading after the pending value has been looked at. -/
def settle (r : Reading) : Except Refusal Reading :=
  match r.pending with
  | none => .ok r
  | some ⟨_, _, none⟩ => .error .invalidValue
  | some ⟨name, kind, some value⟩ => { r with pending := none }.giveValue name kind value

/-- The reading after a parameter, with the value that is attached to it. -/
def parameter (r : Reading) (p : Parameter) (attached : Option (List Char)) :
    Except Refusal Reading :=
  match p.kind, attached with
  | .value kind, some value => do (← r.settle).giveValue p.name kind value
  | .value kind, none => do return { (← r.settle) with pending := some ⟨p.name, kind, none⟩ }
  | _, some _ => .error .needlessValue
  | .flag, none => do (← r.settle).give p.name []
  | .stop refusal, none => do
    let _ ← r.settle
    throw refusal

/-- The reading after an argument of two dashes and `body`. -/
def long (usage : Usage) (r : Reading) (body : List Char) : Except Refusal Reading :=
  let name := body.takeWhile (· != '=')
  let attached := match body.dropWhile (· != '=') with
    | [] => none
    | _ :: value => some value
  match usage.parameters.find? (·.name.toList == name) with
  | none => .error .unknownArgument
  | some p => r.parameter p attached

/-- The reading after an argument of one dash and some letters. -/
def letters (usage : Usage) (r : Reading) : List Char → Except Refusal Reading
  | [] => .ok r
  | c :: rest =>
    match usage.parameters.find? (·.letter == some c) with
    | none => .error .unknownArgument
    | some p =>
      match p.kind, rest with
      | .value _, [] => r.parameter p none
      | .value _, '=' :: value => r.parameter p (some value)
      | .value _, value => r.parameter p (some value)
      | _, _ => do letters usage (← r.parameter p none) rest

/-- The reading after a value that is an argument of its own. -/
def value (r : Reading) (value : List Char) : Except Refusal Reading :=
  match r.operand with
  | none => .error .unknownArgument
  | some (name, kind) => do
    return { (← r.settle) with pending := some ⟨name, kind, some value⟩, operand := none }

/-- The reading after one more argument. -/
def step (usage : Usage) (r : Reading) (argument : List Char) : Except Refusal Reading :=
  if r.valuesOnly then r.value argument
  else
    match argument with
    | ['-', '-'] => .ok { r with valuesOnly := true }
    | '-' :: '-' :: body => r.long usage body
    | '-' :: c :: rest => r.letters usage (c :: rest)
    | _ =>
      match r.pending with
      | some ⟨name, kind, none⟩ => .ok { r with pending := some ⟨name, kind, some argument⟩ }
      | _ => r.value argument

/-- What has been read at the end of the arguments. -/
def finish (r : Reading) : Except Refusal Given := do
  let r ← r.settle
  if r.operand.isSome then throw .missingArgument else return r.given

end Reading

namespace Usage

/-- What the arguments give. -/
def read (usage : Usage) (arguments : List (List Char)) : Except Refusal Given := do
  (← arguments.foldlM (Reading.step usage) (Reading.start usage)).finish

end Usage

end SqlDialect.CommandLine
