import SqlDialect.Proofs.Rule.Settled.Average
import SqlDialect.Proofs.Rule.Settled.Concatenation
import SqlDialect.Proofs.Rule.Settled.Deletion
import SqlDialect.Proofs.Rule.Settled.FixedPoint
import SqlDialect.Proofs.Rule.Settled.NameCase
import SqlDialect.Proofs.Rule.Settled.Padding
import SqlDialect.Proofs.Rule.Settled.Replacement
import SqlDialect.Proofs.Rule.Settled.Statement
import SqlDialect.Proofs.Rule.Settled.Truncation
import SqlDialect.Rule.Catalogue

/-!
# Which rules of the catalogue are done after one application

Of the rules that see each line once, `Rule.unsettled` lists those that have an edit for a line that
they have just edited, and `Rule.relapses` has such a line for each of them; `RuleSet.settles_iff` says
that all others settle.

What makes a rule edit its own output is always the line around a match: text that comes together
where a match is deleted or put in other words (`"DISTKEY"`, `"ARRAY"`, `"'JST'"`), a clause that is
only the first of several (`"DEFAULT"` on a binary column), or a second form of the same word
(`"AUTO_INCREMENT"`).
-/

namespace SqlDialect

namespace Rule

/-- Whether the rule has an edit for what it makes of the line, in the first line of the document. -/
def editsTwice (rule : Rule) (document : Option String) (line : List Char) : Bool :=
  ((rule.edit? (.start document) line).bind fun edit =>
    rule.edit? (.start document) edit.line).isSome

/-- A rule that edits its own output does not settle. -/
theorem not_settles_of_editsTwice {rule : Rule} {document : Option String} {line : List Char}
    (hline : '\n' ∉ line) (h : rule.editsTwice document line = true) : ¬rule.Settles := by
  intro hsettles
  obtain ⟨again, hagain⟩ := Option.isSome_iff_exists.1 h
  obtain ⟨edit, hedit, htwice⟩ := Option.bind_eq_some_iff.1 hagain
  rw [hsettles _ line edit hline hedit] at htwice
  cases htwice

/-- The rules that see each line once and may edit their own output. -/
def unsettled : List Rule := [
  defaultSysdate, catalogQualifier, unboundedFrame, distkey, sortkey, charset, autoIncrement,
  binaryDefault, scaledFloat, arrayLiteral, viewSchema, similarTo, japanTimeZone, distinctList,
  jsonArrayElement]

/-- A line for which a rule has two edits one after the other. -/
structure Relapse where
  rule : Rule
  /-- The name of the document. -/
  document : Option String
  line : String

/-- One line for each of the rules. -/
def relapses : List Relapse := [
  ⟨defaultSysdate, none, "a DEFAULT DEFAULT SYSDATE SYSDATE"⟩,
  ⟨catalogQualifier, none, "pg_catalog pg_catalog.. x"⟩,
  ⟨unboundedFrame, none, "ROWS BETWEEN UNBOUNDED PRECEDING ROWS BETWEEN UNBOUNDED PRECEDING " ++
    "AND UNBOUNDED FOLLOWING AND UNBOUNDED FOLLOWING"⟩,
  ⟨distkey, none, "DIST DISTKEY(a)KEY"⟩,
  ⟨sortkey, none, "SORT SORTKEY(a)KEY"⟩,
  ⟨charset, none, "CHARSET CHARSET utf8=utf8"⟩,
  ⟨autoIncrement, none, "CREATE TABLE t (id INT AUTO_INCREMENT) AUTO_INCREMENT=5;"⟩,
  ⟨binaryDefault, none, "b BINARY DEFAULT 1 DEFAULT 2"⟩,
  ⟨scaledFloat, none, "FLOAT(1,2)(3,4)"⟩,
  ⟨arrayLiteral, none, "ARRAY ARRAY[1]"⟩,
  ⟨viewSchema, some "a b", "CREATE VIEW v"⟩,
  ⟨similarTo, none, "a SIMILAR TO 'x' SIMILAR TO 'y'"⟩,
  ⟨japanTimeZone, none, "'JST'JST'"⟩,
  ⟨distinctList, none, "LISTAGG(DISTINCT a)"⟩,
  ⟨jsonArrayElement, none, "JSON_EXTRACT_ARRAY_ELEMENT_TEXT(a, 0, \"it's\"), " ++
    "JSON_EXTRACT_ARRAY_ELEMENT_TEXT(b, 1)"⟩]

theorem map_rule_relapses : relapses.map Relapse.rule = unsettled := rfl

theorem editsTwice_of_mem_relapses : ∀ relapse ∈ relapses, '\n' ∉ relapse.line.toList ∧
    relapse.rule.editsTwice relapse.document relapse.line.toList = true := by
  decide +kernel

/-- Each of the rules edits its own output. -/
theorem not_settles_of_mem_unsettled {rule : Rule} (h : rule ∈ unsettled) : ¬rule.Settles := by
  rw [← map_rule_relapses] at h
  obtain ⟨relapse, hmem, rfl⟩ := List.mem_map.1 h
  obtain ⟨hline, htwice⟩ := editsTwice_of_mem_relapses relapse hmem
  exact not_settles_of_editsTwice hline htwice

/-- The other rules that see each line once. -/
def settled : List Rule := [
  charLengthUnit, nvarchar, nchar, dateAdd, dateDiff, datePart, ceiling, now, deleteFrom, alterTable,
  ownerTo, grant, sizedFloat, createTable, sortkeyBlock, unsigned, defaultZero, defaultZeroDate,
  defaultZeroTimestamp, decimalPrecision, longText, sessionSet, encode, diststyle, nowLiteral,
  paddedChar, characterVarying, identity, truncTimestamp, intDisplayWidth, integer, numericScale,
  stringConcat, qualifiedNameCase, truncatedAverage, createIndex, coalesce, nvl, json,
  danglingComma]

theorem settles_of_mem_settled : ∀ rule ∈ settled, rule.Settles := by
  have hconstant := constant_settles
  simp only [List.forall_mem_cons, List.not_mem_nil, IsEmpty.forall_iff, implies_true, and_true]
    at hconstant
  obtain ⟨hnvarchar, hnchar, hsizedFloat, hlongText, hpaddedChar, hcharacterVarying,
    hintDisplayWidth, hinteger, hdateAdd, hdateDiff, hdatePart, hceiling, hnow⟩ := hconstant
  have halterTable : alterTable.Settles :=
    settles_of_discarding (by simp [discarding, openings]) (by decide)
  have hgrant : grant.Settles := settles_of_discarding (by simp [discarding, openings]) (by decide)
  have hsessionSet : sessionSet.Settles :=
    settles_of_discarding (by simp [discarding, openings]) (by decide)
  simp only [settled, List.forall_mem_cons, List.not_mem_nil, IsEmpty.forall_iff, implies_true,
    and_true]
  exact ⟨charLengthUnit_settles, hnvarchar, hnchar, hdateAdd, hdateDiff, hdatePart, hceiling, hnow,
    deleteFrom_settles, halterTable, ownerTo_settles, hgrant, hsizedFloat, createTable_settles,
    sortkeyBlock_settles, unsigned_settles, defaultZero_settles, defaultZeroDate_settles,
    defaultZeroTimestamp_settles, decimalPrecision_settles, hlongText, hsessionSet, encode_settles,
    diststyle_settles, nowLiteral_settles, hpaddedChar, hcharacterVarying, identity_settles,
    truncTimestamp_settles, hintDisplayWidth, hinteger, numericScale_settles, stringConcat_settles,
    qualifiedNameCase_settles, truncatedAverage_settles, createIndex_settles, coalesce_settles,
    nvl_settles, json_settles, danglingComma_settles⟩

end Rule

namespace RuleSet

open Rule

theorem mem_settled_or_unsettled : ∀ rule ∈ standard.once, rule ∈ settled ∨ rule ∈ unsettled := by
  simp only [standard, List.forall_mem_cons]
  simp [settled, unsettled]

/-- A rule that sees each line once leaves alone whatever it makes of a line, in every context, if and
only if it is none of the listed ones. -/
theorem settles_iff : ∀ rule ∈ standard.once, rule.Settles ↔ rule ∉ unsettled := by
  intro rule hrule
  constructor
  · exact fun hsettles hmem => not_settles_of_mem_unsettled hmem hsettles
  · exact fun hmem => settles_of_mem_settled rule
      ((mem_settled_or_unsettled rule hrule).resolve_right hmem)

example : unsettled.map Rule.id = ["DDL001", "FUNC004", "EXPR002", "DDL006", "DDL008", "DDL009",
    "DDL010", "DDL014", "TYPE007", "EXPR003", "DDL019", "FUNC009", "FUNC010", "FUNC012", "FUNC015"] :=
  rfl

theorem settles_createTable :
    createTable ∈ standard.once ∧ createTable.Settles :=
  ⟨by simp [standard], (settles_iff createTable (by simp [standard])).2 fun hmem =>
    absurd (List.mem_map_of_mem hmem : createTable.id ∈ unsettled.map Rule.id) (by decide)⟩

/-- A table option and a column attribute of the same name on one line: the first application drops
the one and keeps the other for the second. -/
theorem autoIncrement_edits_twice :
    let line := "CREATE TABLE t (id INT AUTO_INCREMENT) AUTO_INCREMENT=5;".toList
    let once := "CREATE TABLE t (id INT AUTO_INCREMENT);".toList
    autoIncrement ∈ standard.once ∧
      (autoIncrement.edit? (.start none) line).map Edit.line = some once ∧
      (autoIncrement.edit? (.start none) once).map Edit.line =
        some "CREATE TABLE t (id INT AUTOINCREMENT);".toList :=
  ⟨by simp [standard], by decide, by decide⟩

end RuleSet

end SqlDialect
