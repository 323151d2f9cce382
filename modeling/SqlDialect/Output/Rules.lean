import SqlDialect.Output.Style
import SqlDialect.Rule.Catalogue

/-!
# Listing the rules
-/

namespace SqlDialect

/-- The name of the family of a rule in data. -/
def Category.key : Category → String
  | .ddl => "Ddl"
  | other => other.label

/-- A rule in a listing. -/
structure RuleEntry where
  /-- The number of the rule in the order in which rules are applied. -/
  position : Nat
  /-- The rule. -/
  rule : Rule
  /-- Whether the rule is applied until the line no longer changes. -/
  repeated : Bool

namespace RuleEntry

/-- The entry as data. -/
def data (e : RuleEntry) : Data :=
  .record [
    Data.field "position" (.number e.position),
    Data.field "id" (.ofString e.rule.id),
    Data.field "name" (.ofString e.rule.name),
    Data.field "category" (.ofString e.rule.category.key),
    Data.field "repeat" (.flag e.repeated)]

/-- The line of the entry in a text. -/
def line (style : Style) (e : RuleEntry) : String :=
  Text.padStart 3 (toString e.position) ++ ". " ++
    Text.padEnd 8 (style.paint .cyan e.rule.id) ++ " [" ++ e.rule.category.label ++ "] " ++
    e.rule.name ++ (if e.repeated then " (repeat)" else "") ++ "\n"

end RuleEntry

namespace RuleSet

/-- The rules in the order in which they are applied, those that are applied once first. -/
def entries (rules : RuleSet) : List RuleEntry :=
  let marked := rules.once.map (·, false) ++ rules.repeated.map (·, true)
  marked.zipIdx.map fun ((rule, repeated), i) => ⟨i + 1, rule, repeated⟩

/-- The listing of the rules. -/
def listing (rules : RuleSet) (style : Style) : List Char :=
  let entries := rules.entries
  match style.format with
  | .json => (Data.list (entries.map RuleEntry.data)).toJson
  | .yaml => (Data.list (entries.map RuleEntry.data)).toYaml
  | .text =>
    let header := "=== Conversion Rules (" ++ toString entries.length ++ ") ===\n\n"
    (style.paint .bold header ++ String.join (entries.map (RuleEntry.line style))).toList

end RuleSet

end SqlDialect
