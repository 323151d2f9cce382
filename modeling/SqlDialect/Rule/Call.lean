import SqlDialect.Rule.Basic
import SqlDialect.Line.Paren

/-!
# Function calls

Rules about the arguments of a function find its calls with a pattern that ends at the opening
parenthesis.  The calls of a line are visited from right to left, so that a nested call is
changed before the call around it; at each visit the text up to the opening parenthesis is still
that of the line as it came.
-/

namespace SqlDialect

/-- A call within a line. -/
structure Call where
  /-- The line. -/
  line : List Char
  /-- The number of characters before the name of the function. -/
  start : Nat
  /-- The number of characters before the opening parenthesis. -/
  opening : Nat
  /-- The number of characters before the closing parenthesis. -/
  closing : Nat
deriving Repr, DecidableEq

namespace Call

/-- The call, from its name to its closing parenthesis. -/
def text (call : Call) : List Char :=
  (call.line.take (call.closing + 1)).drop call.start

/-- The arguments of the call. -/
def args (call : Call) : List Char :=
  (call.line.take call.closing).drop (call.opening + 1)

/-- The line before the call. -/
def before (call : Call) : List Char :=
  call.line.take call.start

/-- The line after the call. -/
def after (call : Call) : List Char :=
  call.line.drop (call.closing + 1)

end Call

/-- What a rule does with a call. -/
inductive CallEdit where
  /-- The call stays. -/
  | keep
  /-- The call stays, though it should not. -/
  | flag
  /-- The text from the start of the call to the place `stop` is replaced. -/
  | replace (replacement : List Char) (stop : Nat)
deriving Repr, DecidableEq

/-- The calls of a line that have been visited. -/
structure CallVisit where
  /-- The line as it is now. -/
  line : List Char
  /-- The call that was replaced last, as it was. -/
  note : Option (List Char)
  /-- The call that was flagged first. -/
  flagged : Option (List Char)
deriving Repr, DecidableEq

namespace CallVisit

/-- Visits the call that starts at `start` and opens at `opening`; one that is not closed is
passed over. -/
def visit (edit : Call → CallEdit) (start opening : Nat) (seen : CallVisit) : CallVisit :=
  match Line.matchingParen seen.line opening with
  | none => seen
  | some closing =>
    let call : Call := ⟨seen.line, start, opening, closing⟩
    match edit call with
    | .keep => seen
    | .flag => { seen with flagged := seen.flagged.or (some (Text.trim call.text)) }
    | .replace replacement stop =>
      { seen with
        line := call.before ++ replacement ++ seen.line.drop stop
        note := some (Text.trim call.text) }

/-- Visits the calls that the pattern finds in the code of the line, from right to left. -/
def run (p : Pattern) (edit : Call → CallEdit) (line : List Char) : CallVisit :=
  ((p.matchesIn line).filter fun m => Literal.inCode line m.start).foldr
    (fun m seen => seen.visit edit m.start (m.stop - 1)) ⟨line, none, none⟩

end CallVisit

namespace Rule

/-- Replaces the calls that the pattern finds; the note is the first replaced call. -/
def editCalls (p : Pattern) (edit : Call → CallEdit) (line : List Char) : Option Edit :=
  let seen := CallVisit.run p edit line
  seen.note.map fun note => .changed seen.line note

/-- The name of a function, which is followed by the parenthesis of the call. -/
def callName (name : String) : Pattern := .boundary ++ .keyword name ++ .blanks

/-- The name of a function and its opening parenthesis. -/
def callOf (name : String) : Pattern :=
  callName name ++ .char '('

end Rule

end SqlDialect
