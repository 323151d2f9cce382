import SqlDialect.Rule.Basic

/-!
# Table clauses

Clauses of `CREATE TABLE` about the physical layout of a table, which Snowflake does not have.
-/

namespace SqlDialect.Rule

open Pattern

/-- A parenthesised column list that is closed on the line. -/
def columnList : Pattern :=
  blanks ++ char '(' ++ star (one (.noneOf ")")) ++ char ')'

/-- The kind of a sort key, if there is one. -/
def sortkeyKind : Pattern :=
  optional ((keyword "COMPOUND" ++ gap) <|> (keyword "INTERLEAVED" ++ gap))

/-- The distribution key is dropped. -/
def distkey : Rule where
  id := "DDL006"
  name := "DISTKEY dropped"
  category := .ddl
  edit? _ line :=
    substitute (blanks ++ boundary ++ keyword "DISTKEY" ++ boundary ++ optional columnList)
      (fun _ => []) line

/-- A sort key whose column list is not closed on this line is suppressed to the end of the
statement.  It must open the table options: at the start of the line, or right after the
parenthesis that closes the column list, possibly behind a distribution style. -/
def sortkeyBlock : Rule where
  id := "DDL007"
  name := "Multi-line SORTKEY suppressed"
  category := .ddl
  edit? _ line := do
    let block : Pattern :=
      lineStart ++ group "pre" (blanks ++ optional (char ')' ++ blanks)) ++
        group "clause"
          (optional (keyword "DISTSTYLE" ++ gap ++ plus (one .word) ++ gap) ++ sortkeyKind ++
            keyword "SORTKEY" ++ blanks ++
            optional (char '(' ++ star (one (.noneOf ")")))) ++
        blanks ++ lineEnd
    let m ← block.find? line
    let clause ← m.group? "clause"
    if Literal.inCode line clause.start then
      some
        { line := m.textOf "pre"
          note := Text.trim clause.text
          control := .suppress .statement
          discardsStatement := false }
    else
      none

/-- The sort key is dropped. -/
def sortkey : Rule where
  id := "DDL008"
  name := "SORTKEY dropped"
  category := .ddl
  edit? _ line :=
    substitute
      (blanks ++ boundary ++ sortkeyKind ++ keyword "SORTKEY" ++ boundary ++
        optional (columnList <|> (gap ++ keyword "AUTO" ++ boundary)))
      (fun _ => []) line

/-- The character set is dropped if it is a form of UTF-8. -/
def charset : Rule where
  id := "DDL009"
  name := "CHARACTER SET utf8 dropped"
  category := .ddl
  edit? _ line :=
    substitute
      (blanks ++ optional (boundary ++ keyword "DEFAULT" ++ gap) ++
        ((boundary ++ phrase ["CHARACTER", "SET"]) <|> (boundary ++ keyword "CHARSET")) ++
        blanks ++ optional (char '=') ++ blanks ++ keyword "utf8" ++
        optional (keyword "mb" ++ one (.oneOf ['3', '4'])) ++ boundary)
      (fun _ => []) line

/-- The distribution style is dropped. -/
def diststyle : Rule where
  id := "DDL017"
  name := "DISTSTYLE dropped"
  category := .ddl
  edit? _ line :=
    substitute (blanks ++ boundary ++ keyword "DISTSTYLE" ++ gap ++ plus (one .word))
      (fun _ => []) line

end SqlDialect.Rule
