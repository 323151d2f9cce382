import SqlDialect.Rule.ColumnAttribute
import SqlDialect.Rule.ColumnType
import SqlDialect.Rule.DateArithmetic
import SqlDialect.Rule.Expression
import SqlDialect.Rule.FunctionCall
import SqlDialect.Rule.FunctionName
import SqlDialect.Rule.Statement
import SqlDialect.Rule.TableClause

/-!
# The catalogue of rules

The order of the rules is part of what they mean: a rule sees the line as the rules before it
left it.
-/

namespace SqlDialect

/-- The rules that are applied to a document. -/
structure RuleSet where
  /-- The rules that see each line once, in this order. -/
  once : List Rule
  /-- The rules that are applied until the line no longer changes, in this order. -/
  repeated : List Rule

namespace RuleSet

/-- The whole catalogue. -/
def standard : RuleSet where
  once := [
    .charLengthUnit, .defaultSysdate, .nvarchar, .nchar, .dateAdd, .dateDiff, .datePart,
    .catalogQualifier, .ceiling, .now, .deleteFrom, .unboundedFrame, .alterTable, .ownerTo,
    .grant, .sizedFloat, .createTable, .distkey, .sortkeyBlock, .sortkey, .charset,
    .autoIncrement, .unsigned, .defaultZero, .defaultZeroDate, .defaultZeroTimestamp,
    .binaryDefault, .decimalPrecision, .scaledFloat, .longText, .sessionSet, .encode, .diststyle,
    .nowLiteral, .paddedChar, .characterVarying, .identity, .truncTimestamp, .intDisplayWidth,
    .integer, .numericScale, .arrayLiteral, .stringConcat, .viewSchema, .qualifiedNameCase,
    .similarTo, .japanTimeZone, .truncatedAverage, .distinctList, .createIndex, .coalesce, .nvl,
    .jsonArrayElement, .json, .danglingComma]
  repeated := [.priorPeriod, .sysdate]

/-- Whether the rule is named in a list of disabled identifiers, in whatever case. -/
def isDisabled (disabled : List String) (rule : Rule) : Bool :=
  disabled.any fun id => Text.sameIgnoringCase id.toList rule.id.toList

/-- The catalogue without the disabled rules.  Identifiers of no rule are ignored. -/
def without (disabled : List String) : RuleSet where
  once := standard.once.filter (!isDisabled disabled ·)
  repeated := standard.repeated.filter (!isDisabled disabled ·)

/-- All rules, those that are applied once first. -/
def all (rules : RuleSet) : List Rule :=
  rules.once ++ rules.repeated

/-- The identifiers of all rules. -/
def ids (rules : RuleSet) : List String :=
  rules.all.map Rule.id

end RuleSet

end SqlDialect
