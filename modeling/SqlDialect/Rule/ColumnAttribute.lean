import SqlDialect.Rule.Basic

/-!
# Column attributes

Defaults, identities and encodings that follow the type of a column.
-/

namespace SqlDialect.Rule

open Pattern

/-- `DEFAULT SYSDATE` is dropped, since a default must be a constant. -/
def defaultSysdate : Rule where
  id := "DDL001"
  name := "DEFAULT SYSDATE dropped"
  category := .ddl
  edit? _ line :=
    substitute (gap ++ phrase ["DEFAULT", "SYSDATE"] ++ boundary) (fun _ => []) line

/-- The table option `AUTO_INCREMENT=n` is dropped; where there is none, the column attribute
`AUTO_INCREMENT` is `AUTOINCREMENT`. -/
def autoIncrement : Rule where
  id := "DDL010"
  name := "AUTO_INCREMENT to AUTOINCREMENT"
  category := .ddl
  edit? _ line :=
    (substitute
      (blanks ++ boundary ++ keyword "AUTO_INCREMENT" ++ blanks ++ char '=' ++ blanks ++ digits)
      (fun _ => []) line).or
    (substitute (wholeWord "AUTO_INCREMENT") (fun _ => "AUTOINCREMENT".toList) line)

/-- The default `'0'` is the number 0. -/
def defaultZero : Rule where
  id := "DDL011"
  name := "DEFAULT '0' to DEFAULT 0"
  category := .ddl
  edit? _ line :=
    replaceAnywhere (boundary ++ keyword "DEFAULT" ++ blanks ++ keyword "'0'")
      (fun _ => "DEFAULT 0".toList) Match.text line

/-- What may follow a default that has not been cast. -/
def afterDefault : Pattern :=
  group "after" (one .blank <|> char ',' <|> lineEnd)

/-- A default that has not been cast; `clause` is how it reads. -/
def uncast (clause : Pattern) : Pattern := boundary ++ group "clause" clause ++ afterDefault

/-- A default with the cast behind it. -/
def addCast (cast : List Char) (m : Match) : List Char :=
  m.textOf "clause" ++ cast ++ m.textOf "after"

/-- The zero date as a default. -/
def zeroDate : Pattern := keyword "DEFAULT" ++ blanks ++ keyword "'0000-00-00'"

/-- The zero date is cast to a date. -/
def defaultZeroDate : Rule where
  id := "DDL012"
  name := "Zero date default cast to DATE"
  category := .ddl
  edit? _ line :=
    replaceAnywhere (uncast zeroDate) (addCast "::DATE".toList) (·.textOf "clause") line

/-- The zero timestamp as a default, perhaps with a fraction of a second. -/
def zeroTimestamp : Pattern :=
  keyword "DEFAULT" ++ blanks ++ keyword "'0000-00-00 00:00:00" ++
    optional (char '.' ++ star (char '0')) ++ char '\''

/-- The zero timestamp is cast to a timestamp. -/
def defaultZeroTimestamp : Rule where
  id := "DDL013"
  name := "Zero timestamp default cast to TIMESTAMP"
  category := .ddl
  edit? _ line :=
    replaceAnywhere (uncast zeroTimestamp) (addCast "::TIMESTAMP".toList) (·.textOf "clause") line

/-- The name of a binary type. -/
def binaryType : Pattern := boundary ++ optional (keyword "VAR") ++ keyword "BINARY" ++ boundary

/-- The length of a binary type. -/
def binaryLength : Pattern := optional (blanks ++ char '(' ++ blanks ++ digits ++ blanks ++ char ')')

/-- The word that a default starts with, and the blanks around it. -/
def defaultWord : Pattern := gap ++ keyword "DEFAULT" ++ gap

/-- A default: a literal, or what goes on up to a blank or a comma. -/
def defaultValue : Pattern :=
  (char '\'' ++ star (one (.noneOf "'")) ++ char '\'') <|>
    plus (one (.except (.blank ∪ .exactly ',')))

/-- A binary column with a default behind its type. -/
def binaryColumn : Pattern :=
  group "type" (binaryType ++ binaryLength) ++ group "modifiers" (many false (one (.noneOf ","))) ++
    group "default" (defaultWord ++ defaultValue)

/-- What is left of a binary column without its default. -/
def withoutDefault (m : Match) : List Char := m.textOf "type" ++ m.textOf "modifiers"

/-- The default of a binary column is dropped. -/
def binaryDefault : Rule where
  id := "DDL014"
  name := "DEFAULT on BINARY column dropped"
  category := .ddl
  edit? _ line :=
    replaceAnywhere binaryColumn withoutDefault (fun m => Text.trim (m.textOf "default")) line

/-- The compression encoding of a column is dropped. -/
def encode : Rule where
  id := "DDL016"
  name := "ENCODE dropped"
  category := .ddl
  edit? _ line :=
    substitute (gap ++ keyword "ENCODE" ++ gap ++ plus (one .word)) (fun _ => []) line

/-- A whole number with an optional minus sign. -/
def signedDigits : Pattern := optional (char '-') ++ digits

/-- The default that a dump writes for an identity column, with its seed and step as text, is an
`IDENTITY` attribute. -/
def identity : Rule where
  id := "DDL018"
  name := "Redshift identity default to IDENTITY"
  category := .ddl
  edit? _ line :=
    replaceAnywhere
      (blanks ++ boundary ++ keyword "DEFAULT" ++ gap ++ optional (char '"') ++
        keyword "identity" ++ optional (char '"') ++ char '(' ++ blanks ++ digits ++ blanks ++
        char ',' ++ blanks ++ digits ++ blanks ++ char ',' ++ blanks ++ star (char '(') ++
        char '\'' ++ optional (char '(') ++ group "seed" signedDigits ++ blanks ++ char ',' ++
        blanks ++ group "step" signedDigits ++ optional (char ')') ++ char '\'' ++
        optional (keyword "::" ++ (keyword "character varying" <|> keyword "varchar")) ++
        star (char ')') ++ keyword "::text" ++ blanks ++ char ')')
      (fun m =>
        " IDENTITY(".toList ++ m.textOf "seed" ++ [','] ++ m.textOf "step" ++ [')'])
      (fun m => Text.trim m.text) line

end SqlDialect.Rule
