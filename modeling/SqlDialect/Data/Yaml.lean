import SqlDialect.Data.YamlScalar

/-!
# YAML

The printer for YAML in its block form: an item of a list follows a dash, and a field of a record
is on a line of its own.  A list under a key is not indented; everything else is indented by two
columns more than what it belongs to.
-/

namespace SqlDialect.Data

mutual

/-- A value in YAML, where `indent` is the column that it starts in. -/
def yaml (indent : Nat) : Data → List Char
  | .text chars => Yaml.scalar (indent + 2) chars
  | .number n => numeral n
  | .flag b => flagWord b
  | .list [] => ['[', ']']
  | .list (item :: items) => yamlItems indent (item :: items)
  | .record [] => ['\x7b', '\x7d']
  | .record (field :: fields) => yamlFields indent (field :: fields)

/-- The items of a list, with a line break between neighbours. -/
def yamlItems (indent : Nat) : List Data → List Char
  | [] => []
  | item :: items =>
    ['-', ' '] ++ yaml (indent + 2) item ++
      (if items.isEmpty then [] else ['\n'] ++ spaces indent) ++ yamlItems indent items

/-- A value behind the colon of its key, which starts in the column `indent`. -/
def yamlValue (indent : Nat) : Data → List Char
  | .list (item :: items) => ['\n'] ++ spaces indent ++ yamlItems indent (item :: items)
  | .record (field :: fields) =>
    ['\n'] ++ spaces (indent + 2) ++ yamlFields (indent + 2) (field :: fields)
  | .text chars => [' '] ++ Yaml.scalar (indent + 2) chars
  | .number n => [' '] ++ numeral n
  | .flag b => [' '] ++ flagWord b
  | .list [] => [' ', '[', ']']
  | .record [] => [' ', '\x7b', '\x7d']

/-- The fields of a record, with a line break between neighbours. -/
def yamlFields (indent : Nat) : List (List Char × Data) → List Char
  | [] => []
  | (key, value) :: fields =>
    (if Yaml.isSimpleKey key then Yaml.scalar (indent + 2) key
      else ['?', ' '] ++ Yaml.scalar (indent + 2) key ++ ['\n'] ++ spaces indent) ++
      [':'] ++ yamlValue indent value ++
      (if fields.isEmpty then [] else ['\n'] ++ spaces indent) ++ yamlFields indent fields

end

/-- A value in YAML. -/
def toYaml (data : Data) : List Char := yaml 0 data ++ ['\n']

end SqlDialect.Data
