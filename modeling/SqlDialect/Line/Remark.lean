import SqlDialect.Line.Comment

/-!
# Remarks

Every change of a line leaves a fragment of text behind, and the fragments of a line are written
after its SQL as a comment of their own, behind a marker that tells it from other comments.
-/

namespace SqlDialect

/-- The fragments that the changes of one line left behind, in order. -/
structure Remark where
  /-- The fragments; none of them is empty. -/
  fragments : List (List Char)
deriving Repr, DecidableEq

namespace Remark

/-- What stands between the SQL and the remark. -/
def marker : List Char := "\t\t--// ".toList

/-- What stands between two fragments. -/
def separator : List Char := " // ".toList

/-- No fragments. -/
def empty : Remark := ⟨[]⟩

/-- The remark with one more fragment, unless that is empty. -/
def push (a : Remark) (fragment : List Char) : Remark :=
  if fragment.isEmpty then a else ⟨a.fragments ++ [fragment]⟩

/-- The remark of a list of fragments. -/
def ofFragments (fragments : List (List Char)) : Remark :=
  fragments.foldl push empty

/-- Whether there are no fragments. -/
def isEmpty (a : Remark) : Bool :=
  a.fragments.isEmpty

/-- The fragments with the separator between them. -/
def text (a : Remark) : List Char :=
  Text.joinWith separator a.fragments

/-- Whether the last fragment ends with a semicolon. -/
def endsStatement (a : Remark) : Bool :=
  a.fragments.getLast?.any fun fragment => Text.endsWith (Text.trimEnd fragment) ';'

end Remark

/-- A line that is ready to be written. -/
structure FinishedLine where
  /-- The SQL that is left, if any. -/
  sql : Option (List Char)
  /-- What has been changed or discarded. -/
  remark : Remark
  /-- Whether a discarded terminator ended a statement that goes on without the discarded text. -/
  keepsTerminator : Bool
  /-- The comment at the end of the line as it came. -/
  comment : List Char
deriving Repr, DecidableEq

namespace FinishedLine

/-- The SQL of the line with its terminator. -/
def statement (line : FinishedLine) : List Char :=
  let sql := Text.trimEnd (line.sql.getD [])
  if line.keepsTerminator && line.remark.endsStatement && !Text.endsWith sql ';' then
    sql ++ [';']
  else
    sql

/-- The text of the line, with its remark if `showRemarks`; none if there is nothing to write. -/
def render (showRemarks : Bool) (line : FinishedLine) : Option (List Char) :=
  let commented :=
    if showRemarks && !line.remark.isEmpty then
      line.statement ++ Remark.marker ++ line.remark.text
    else
      line.statement
  let written :=
    if line.comment.isEmpty then commented
    else if commented.isEmpty then line.comment
    else commented ++ [' '] ++ line.comment
  if written.isEmpty then none else some written

end FinishedLine

end SqlDialect
