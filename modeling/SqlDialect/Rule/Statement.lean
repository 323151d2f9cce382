import SqlDialect.Rule.Basic

/-!
# Statements

Statements that Snowflake words differently, and statements that are discarded as a whole because
it has no counterpart for them.  A discarded statement that goes on behind the line is suppressed
up to its terminator.
-/

namespace SqlDialect.Rule

open Pattern

/-- Any text up to the end of the line. -/
def restOfLine : Pattern := star (one .any)

/-- The white space at the start of a line. -/
def indent : Pattern := lineStart ++ group "pre" blanks

/-- A clause starts with the text of `front`, which ends with a word, and goes on to the end of the
line. -/
def clause (front : Pattern) : Pattern := front ++ boundary ++ restOfLine

/-- Discards a statement that `opening` is the start of, behind white space at most. -/
def discardIndented (opening : Pattern) (line : List Char) : Option Edit :=
  ((indent ++ group "clause" (opening ++ restOfLine) ++ lineEnd).find? line).map discardStatement

/-- How the alteration of a table starts. -/
def altersTable : Pattern := phrase ["ALTER", "TABLE"] ++ boundary

/-- `ALTER TABLE` statements are discarded. -/
def alterTable : Rule where
  id := "DDL002"
  name := "ALTER TABLE discarded"
  category := .ddl
  edit? _ line := discardIndented altersTable line

/-- How the change of an owner starts. -/
def changesOwner : Pattern := blanks ++ boundary ++ phrase ["OWNER", "TO"]

/-- The change of an owner is dropped, with everything behind it. -/
def ownerTo : Rule where
  id := "DDL003"
  name := "OWNER TO discarded"
  category := .ddl
  edit? _ line := do
    let m ← (clause changesOwner ++ lineEnd).find? line
    if Literal.inCode line m.start then
      some (.changed (line.take m.start) (Text.trim m.text))
    else
      none

/-- How the change of a privilege starts. -/
def changesPrivilege : Pattern := (keyword "GRANT" <|> keyword "REVOKE") ++ one .blank

/-- Privileges belong to roles, so `GRANT` and `REVOKE` statements are discarded. -/
def grant : Rule where
  id := "DDL004"
  name := "GRANT/REVOKE discarded"
  category := .ddl
  edit? _ line := discardIndented changesPrivilege line

/-- `CREATE TABLE` replaces a table of the same name, except where the line says
`IF NOT EXISTS`. -/
def createTable : Rule where
  id := "DDL005"
  name := "CREATE TABLE to CREATE OR REPLACE TABLE"
  category := .ddl
  edit? _ line :=
    if Literal.codeMatches
        (boundary ++ phrase ["CREATE", "TABLE", "IF", "NOT", "EXISTS"] ++ boundary) line then
      none
    else
      substitute (boundary ++ phrase ["CREATE", "TABLE"] ++ gap)
        (fun _ => "CREATE OR REPLACE TABLE ".toList) line

/-- How a setting of the session starts. -/
def setsSession : Pattern := keyword "SET" ++ gap ++ one .solid

/-- A `SET` statement of the session is discarded.  It has to start a statement, so that the
`SET` of an `UPDATE` over several lines stays. -/
def sessionSet : Rule where
  id := "DDL015"
  name := "Session SET discarded"
  category := .ddl
  edit? ctx line := if ctx.statementStart then discardIndented setsSession line else none

/-- The creation of a view with a name that is not qualified. -/
def viewHead : Pattern :=
  lineStart ++
    group "pre"
      (blanks ++ keyword "CREATE" ++ gap ++ optional (phrase ["OR", "REPLACE"] ++ gap) ++
        keyword "VIEW" ++ gap) ++
    group "name"
      (one (.foldedLetter ∪ .exactly '_') ++
        star (one (.foldedLetter ∪ .asciiDigit ∪ .oneOf ['_', '$']))) ++
    group "post" (((one .blank <|> char '(') ++ restOfLine) <|> empty) ++ lineEnd

/-- An unqualified view is placed in the schema that is named after the document, in upper
case. -/
def viewSchema : Rule where
  id := "DDL019"
  name := "View qualified with document schema"
  category := .ddl
  edit? ctx line := do
    let document ← ctx.document
    let m ← viewHead.find? line
    some (.changed
      (m.textOf "pre" ++ document.toList.map Char.toUpper ++ ['.'] ++ m.textOf "name" ++
        m.textOf "post")
      (m.textOf "name"))

/-- How the creation of an index starts. -/
def createsIndex : Pattern :=
  boundary ++ keyword "CREATE" ++ gap ++
    optional ((keyword "UNIQUE" ++ gap) <|> (keyword "BITMAP" ++ gap)) ++ keyword "INDEX"

/-- A line on which an index is created, perhaps behind other code. -/
def indexLine : Pattern :=
  lineStart ++ group "pre" (many false (one .any)) ++ group "clause" (clause createsIndex) ++ lineEnd

/-- There are no indexes, so `CREATE INDEX` statements are discarded. -/
def createIndex : Rule where
  id := "DDL020"
  name := "CREATE INDEX discarded"
  category := .ddl
  edit? _ line := do
    let m ← indexLine.find? line
    let discarded ← m.group? "clause"
    if Literal.inCode line discarded.start then some (discardStatement m) else none

/-- The word `DELETE` at the start of a line. -/
def deletes : Pattern := blanks ++ keyword "DELETE"

/-- A character of the word behind `DELETE`. -/
def nextChar : CharSet := .except (.blank ∪ .exactly ';')

/-- A deletion and the next word. -/
def deletion : Pattern :=
  lineStart ++ group "lead" deletes ++ gap ++ group "next" (plus (one nextChar))

/-- `DELETE t` is `DELETE FROM t`. -/
def deleteFrom : Rule where
  id := "EXPR001"
  name := "DELETE without FROM"
  category := .expression
  edit? _ line := do
    let m ← deletion.find? line
    if Text.sameIgnoringCase (m.textOf "next") "FROM".toList then
      none
    else
      let lead := m.textOf "lead"
      some (.changed (lead ++ " FROM".toList ++ line.drop lead.length) (Text.trim lead))

end SqlDialect.Rule
