/-!
# TOML values

A document is a table: a list of keys with their values, in the order in which they were written.
Tables remember how they came about, because that decides whether they may still grow: a table
under a header may be opened once, a table that dotted keys made grows by dotted keys only, and a
table in braces not at all.
-/

namespace SqlDialect.Toml

/-- How a table came about. -/
inductive Origin where
  /-- By a header of its own. -/
  | header
  /-- By the header of a table inside it. -/
  | implied
  /-- By dotted keys. -/
  | dotted
  /-- By braces. -/
  | braces
deriving Repr, DecidableEq

/-- A value. -/
inductive Value where
  /-- A string. -/
  | text (s : String)
  /-- A truth value. -/
  | flag (b : Bool)
  /-- A number, a date or a time, as it is written. -/
  | scalar (token : String)
  /-- An array. -/
  | array (items : List Value)
  /-- The tables under double-bracketed headers of one name; each is a list of entries. -/
  | tables (items : List (List (String × Value)))
  /-- A table. -/
  | table (origin : Origin) (entries : List (String × Value))

/-- The entries of a table. -/
abbrev Entries := List (String × Value)

namespace Entries

/-- The value of a key. -/
def get? (entries : Entries) (key : String) : Option Value :=
  (entries.find? fun entry => entry.1 == key).map Prod.snd

/-- The entries with the value of the key set, in its old place or at the end. -/
def set (entries : Entries) (key : String) (value : Value) : Entries :=
  match entries with
  | [] => [(key, value)]
  | (k, v) :: rest => if k == key then (k, value) :: rest else (k, v) :: set rest key value

/-- The entries with a dotted key defined; the keys on the way are tables that dotted keys
made. -/
def define (entries : Entries) (path : List String) (value : Value) : Option Entries :=
  match path with
  | [] => none
  | [key] =>
    match entries.get? key with
    | none => some (entries.set key value)
    | some _ => none
  | key :: path =>
    match entries.get? key with
    | none => (define [] path value).map fun inner => entries.set key (.table .dotted inner)
    | some (.table .dotted inner) =>
      (define inner path value).map fun inner => entries.set key (.table .dotted inner)
    | some _ => none

/-- The entries with the table under a header changed by `f`; `last` tells what to do at the key
that the header ends with. -/
def atHeader (last : Option Value → Option Value) (entries : Entries) (path : List String) :
    Option Entries :=
  match path with
  | [] => none
  | [key] => (last (entries.get? key)).map (entries.set key)
  | key :: path =>
    match entries.get? key with
    | none => (atHeader last [] path).map fun inner => entries.set key (.table .implied inner)
    | some (.table .braces _) => none
    | some (.table origin inner) =>
      (atHeader last inner path).map fun inner => entries.set key (.table origin inner)
    | some (.tables items) =>
      match items.reverse with
      | [] => none
      | inner :: before =>
        (atHeader last inner path).map fun inner =>
          entries.set key (.tables (inner :: before).reverse)
    | some _ => none

/-- The entries with a table opened by its header. -/
def openTable : Entries → List String → Option Entries :=
  atHeader fun
    | none => some (.table .header [])
    | some (.table .implied inner) => some (.table .header inner)
    | some _ => none

/-- The entries with one more table of an array of tables opened by its header. -/
def openItem : Entries → List String → Option Entries :=
  atHeader fun
    | none => some (.tables [[]])
    | some (.tables items) => some (.tables (items ++ [[]]))
    | some _ => none

/-- The entries with a dotted key defined in the table under a header. -/
def defineUnder (entries : Entries) (header path : List String) (value : Value) :
    Option Entries :=
  match header with
  | [] => entries.define path value
  | _ =>
    atHeader
      (fun
        | some (.table origin inner) => (define inner path value).map (.table origin)
        | some (.tables items) =>
          match items.reverse with
          | [] => none
          | inner :: before =>
            (define inner path value).map fun inner => .tables (inner :: before).reverse
        | _ => none)
      entries header

end Entries

end SqlDialect.Toml
