import SqlDialect.Data.Basic

/-!
# JSON

The printer for JSON: every item of a list and every field of a record is on a line of its own,
indented by two columns more than the list or the record.
-/

namespace SqlDialect.Data

/-- A character inside a JSON string. -/
def jsonChar (c : Char) : List Char :=
  match c with
  | '"' => ['\\', '"']
  | '\\' => ['\\', '\\']
  | '\x08' => ['\\', 'b']
  | '\x0c' => ['\\', 'f']
  | '\n' => ['\\', 'n']
  | '\r' => ['\\', 'r']
  | '\t' => ['\\', 't']
  | _ => if c.toNat < 0x20 then ['\\', 'u'] ++ hexNumeral 4 c.toNat else [c]

/-- A text as a JSON string. -/
def jsonString (chars : List Char) : List Char :=
  ['"'] ++ chars.flatMap jsonChar ++ ['"']

mutual

/-- A value in JSON, where `indent` is the indentation of the line that it starts on. -/
def json (indent : Nat) : Data → List Char
  | .text chars => jsonString chars
  | .number n => numeral n
  | .flag b => flagWord b
  | .list [] => ['[', ']']
  | .list (item :: items) =>
    ['['] ++ jsonItems (indent + 2) (item :: items) ++ ['\n'] ++ spaces indent ++ [']']
  | .record [] => ['\x7b', '\x7d']
  | .record (field :: fields) =>
    ['\x7b'] ++ jsonFields (indent + 2) (field :: fields) ++ ['\n'] ++ spaces indent ++ ['\x7d']

/-- The items of a list, each on a line of its own. -/
def jsonItems (indent : Nat) : List Data → List Char
  | [] => []
  | item :: items =>
    ['\n'] ++ spaces indent ++ json indent item ++
      (if items.isEmpty then [] else [',']) ++ jsonItems indent items

/-- The fields of a record, each on a line of its own. -/
def jsonFields (indent : Nat) : List (List Char × Data) → List Char
  | [] => []
  | (key, value) :: fields =>
    ['\n'] ++ spaces indent ++ jsonString key ++ [':', ' '] ++ json indent value ++
      (if fields.isEmpty then [] else [',']) ++ jsonFields indent fields

end

/-- A value in JSON. -/
def toJson (data : Data) : List Char := json 0 data

end SqlDialect.Data
