import SqlDialect.Rule.Basic
import SqlDialect.Text.Number

/-!
# Date arithmetic

These rules change one occurrence at a time, the first that they can change, and are applied
until the line no longer changes.
-/

namespace SqlDialect.Rule

open Pattern

/-- Replaces the first match that starts in code and that `edit` accepts; the note is that
match. -/
def replaceFirst (p : Pattern) (edit : Match → Option (List Char)) (line : List Char) :
    Option Edit :=
  (p.matchesIn line).findSome? fun m =>
    if Literal.inCode line m.start then
      (edit m).map fun replacement =>
        .changed (line.take m.start ++ replacement ++ line.drop m.stop) (Text.trim m.text)
    else
      none

/-- The column of a truncated date: a name, perhaps with a pair of parentheses behind it. -/
def truncatedColumn : Pattern :=
  plus (one (.noneOf ",()'")) ++ optional (char '(' ++ star (one (.noneOf "()")) ++ char ')')

/-- The unit that a date is truncated to, in its apostrophes. -/
def truncationUnit : Pattern := char '\'' ++ plus (one (.noneOf "'")) ++ char '\''

/-- A number of periods with its sign. -/
def periods : Pattern := one (.oneOf ['-', '+']) ++ blanks ++ digits

/-- A truncated date and the number of periods behind it. -/
def truncatedOffset : Pattern :=
  boundary ++ keyword "TRUNC(" ++ blanks ++ group "column" truncatedColumn ++ blanks ++ char ',' ++
    blanks ++ group "unit" truncationUnit ++ blanks ++ char ')' ++ blanks ++ group "offset" periods

/-- The call that takes the place of a truncated date and its periods, if their number is read. -/
def dateaddCall (m : Match) : Option (List Char) := do
  let offset ← Text.integer? ((m.textOf "offset").filter (!Text.isBlank ·))
  let unit := m.textOf "unit"
  some ("dateadd(".toList ++ unit ++ ", ".toList ++ (toString offset).toList ++
    ", trunc(".toList ++ Text.trim (m.textOf "column") ++ ", ".toList ++ unit ++ "))".toList)

/-- A truncated date plus or minus a number of periods is a call of `dateadd`. -/
def priorPeriod : Rule where
  id := "DATE001"
  name := "Truncated date offset to DATEADD"
  category := .temporal
  edit? _ line := replaceFirst truncatedOffset dateaddCall line

/-- The empty pair of parentheses that makes a call of a word. -/
def emptyCall : Pattern := blanks ++ char '(' ++ blanks ++ char ')'

/-- The word `SYSDATE`, perhaps as a call. -/
def sysdateWord : Pattern := wholeWord "SYSDATE" ++ optional (group "call" emptyCall)

/-- `SYSDATE` without parentheses is `CURRENT_TIMESTAMP()`; the call `SYSDATE()` stays. -/
def sysdate : Rule where
  id := "DATE002"
  name := "SYSDATE to CURRENT_TIMESTAMP()"
  category := .temporal
  edit? _ line :=
    replaceFirst sysdateWord
      (fun m => if m.has "call" then none else some "CURRENT_TIMESTAMP()".toList)
      line

end SqlDialect.Rule
