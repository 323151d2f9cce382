import SqlDialect.Line.Literal

/-!
# What one line knows of the lines before it

A `Context` is all that passes from one line of a document to the next: the name of the document,
the last line that left SQL behind, whether a new statement begins here, and whether lines are
being suppressed.  A suppression region opens after a line that discards the beginning of
something longer, and ends with the line that holds the terminator.
-/

namespace SqlDialect

/-- The character that ends a stretch of lines. -/
structure Terminator where
  /-- The character. -/
  symbol : Char
deriving Repr, DecidableEq

namespace Terminator

/-- The semicolon at the end of a statement. -/
def statement : Terminator := ⟨';'⟩

/-- Whether the terminator occurs in the code of the line. -/
def occursIn (t : Terminator) (line : List Char) : Bool :=
  Literal.codeContains t.symbol line

end Terminator

/-- What a suppression region discards. -/
inductive RegionScope where
  /-- A clause of a statement that goes on around it, so that the terminator is still needed. -/
  | clause
  /-- A whole statement. -/
  | statement
deriving Repr, DecidableEq

/-- A stretch of suppressed lines. -/
structure Region where
  /-- What ends the region. -/
  terminator : Terminator
  /-- What the region discards. -/
  scope : RegionScope
  /-- The number of the line that opened the region; the first line is line 1. -/
  openedAt : Nat
deriving Repr, DecidableEq

/-- Whether lines are being suppressed. -/
inductive Mode where
  /-- Lines go through the rules. -/
  | normal
  /-- Lines belong to the region. -/
  | suppressing (region : Region)
deriving Repr, DecidableEq

/-- What passes from line to line within a document. -/
structure Context where
  /-- The name of the document, which is the schema of its unqualified views. -/
  document : Option String
  /-- The SQL of the last line that left any. -/
  previousLine : Option (List Char)
  /-- Whether the next line begins a statement. -/
  statementStart : Bool
  /-- Whether lines are being suppressed. -/
  mode : Mode
  /-- The number of the current line; the first line is line 1. -/
  lineNumber : Nat
deriving Repr, DecidableEq

namespace Context

/-- The context before the first line of a document. -/
def start (document : Option String) : Context :=
  ⟨document, none, true, .normal, 0⟩

/-- Whether lines are being suppressed. -/
def isSuppressing (ctx : Context) : Bool :=
  match ctx.mode with
  | .normal => false
  | .suppressing _ => true

/-- The context with the next line as the current one. -/
def advance (ctx : Context) : Context :=
  { ctx with lineNumber := ctx.lineNumber + 1 }

/-- The context after a line that went through the rules: `code` is the line as it came, and
`emitted` the SQL that is left of it, if any. -/
def record (ctx : Context) (code : List Char) (emitted : Option (List Char)) : Context :=
  { ctx with
    previousLine := emitted.or ctx.previousLine
    statementStart := Terminator.statement.occursIn code }

/-- The context with a region that the current line opens. -/
def openRegion (ctx : Context) (terminator : Terminator) (scope : RegionScope) : Context :=
  { ctx with
    mode := .suppressing ⟨terminator, scope, ctx.lineNumber⟩
    statementStart := false }

/-- The open region, if there is one, and the context without it. -/
def closeRegion (ctx : Context) : Option Region × Context :=
  match ctx.mode with
  | .normal => (none, ctx)
  | .suppressing region => (some region, { ctx with mode := .normal, statementStart := true })

end Context

end SqlDialect
