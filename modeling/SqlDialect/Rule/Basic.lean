import SqlDialect.Line.Context

/-!
# Rules

A `Rule` looks at one line, in its context, and may answer with an `Edit`: the new line, a note
for the remark, and what is to happen next.  The module also has the three shapes that most
rules share: `substitute` replaces matches in code, `replaceAnywhere` replaces them wherever they
stand, and `discardStatement` drops a statement from its first word on.
-/

namespace SqlDialect

/-- The family of a rule. -/
inductive Category where
  /-- Clauses and statements that define tables. -/
  | ddl
  /-- Types of columns. -/
  | dataType
  /-- Names and calls of functions. -/
  | function
  /-- Operators, statements and identifiers. -/
  | expression
  /-- Date arithmetic. -/
  | temporal
deriving Repr, DecidableEq

namespace Category

/-- The name of the family in listings. -/
def label : Category → String
  | ddl => "DDL"
  | dataType => "DataType"
  | function => "Function"
  | expression => "Expression"
  | temporal => "Temporal"

end Category

/-- What happens after a rule has changed a line. -/
inductive Control where
  /-- The next rule sees the new line. -/
  | proceed
  /-- No further rule sees the line. -/
  | endLine
  /-- No further rule sees the line, and the lines up to the terminator are suppressed. -/
  | suppress (terminator : Terminator)
deriving Repr, DecidableEq

/-- What a rule makes of a line. -/
structure Edit where
  /-- The new line. -/
  line : List Char
  /-- What has been changed or discarded. -/
  note : List Char
  /-- What happens next. -/
  control : Control
  /-- Whether the discarded text was a statement of its own. -/
  discardsStatement : Bool
deriving Repr, DecidableEq

namespace Edit

/-- An edit after which the next rule sees the new line. -/
def changed (line note : List Char) : Edit :=
  ⟨line, note, .proceed, false⟩

end Edit

/-- A change that is made to lines of a certain form. -/
structure Rule where
  /-- The identifier, unique in the catalogue. -/
  id : String
  /-- What the rule does, in a few words. -/
  name : String
  /-- The family of the rule. -/
  category : Category
  /-- What the rule makes of a line; nothing if the line is not of its form. -/
  edit? : Context → List Char → Option Edit

namespace Rule

/-- Replaces the matches of the pattern in code; the note is the first match. -/
def substitute (p : Pattern) (replacement : Match → List Char) (line : List Char) : Option Edit :=
  (Literal.editCode p (fun m => some (replacement m)) line).map fun (line, note) =>
    .changed line note

/-- Replaces the matches of the pattern in code that `edit` accepts; the note is the first of
them. -/
def substituteSome (p : Pattern) (edit : Match → Option (List Char)) (line : List Char) :
    Option Edit :=
  (Literal.editCode p edit line).map fun (line, note) => .changed line note

/-- Replaces the matches of the pattern in code and literals alike; `note` reads the note off the
first match. -/
def replaceAnywhere (p : Pattern) (replacement note : Match → List Char) (line : List Char) :
    Option Edit :=
  (p.find? line).map fun m => .changed (p.replaceIn replacement line) (note m)

/-- Drops the group `clause` of the match and keeps the group `pre`.  If the statement does not
end on this line, the lines up to its end are suppressed. -/
def discardStatement (m : Match) : Edit :=
  let clause := m.textOf "clause"
  { line := m.textOf "pre"
    note := Text.trim clause
    control :=
      if Terminator.statement.occursIn clause then .endLine else .suppress .statement
    discardsStatement := true }

/-- The rule that puts `replacement` in the place of the first occurrence of `text`, wherever it
stands; an empty text occurs at the start of every line. -/
def replacingText (id : String) (text replacement : List Char) : Rule where
  id := id
  name := "text replaced"
  category := .expression
  edit? _ line :=
    (Text.splitAtFirst text line).map fun (before, after) =>
      .changed (before ++ replacement ++ after) text

end Rule

end SqlDialect
