import SqlDialect.Line.Segment
import SqlDialect.Text.Utf8

/-!
# Parentheses and arguments by their places

The two scans that count parentheses as walks over the octets of a text in UTF-8.  Both keep a `Nesting`,
and quoted text changes nothing but the open quote.

* `closingPlace` is the place of the parenthesis that closes a given one.  That one is counted too, so
  that the text between the two is nested by one more than its own arguments are.
* `arguments` are the places of the arguments in such a text, counted from nothing.
-/

namespace SqlDialect.Line

/-- What is open at a place. -/
structure Nesting where
  /-- The number of open parentheses. -/
  depth : Nat
  /-- The open quote, if there is one. -/
  quote : Option UInt8
deriving DecidableEq, Repr

namespace Nesting

/-- Nothing is open. -/
def flat : Nesting := ⟨0, none⟩

/-- Whether the octet is the given mark, outside quotes. -/
def marks (n : Nesting) (mark octet : UInt8) : Bool :=
  n.quote.isNone && octet == mark

/-- What is open behind one more octet.  A closing parenthesis that closes nothing is passed over. -/
def after (n : Nesting) (octet : UInt8) : Nesting :=
  match n.quote with
  | some quote => if octet == quote then { n with quote := none } else n
  | none =>
    if octet == 0x27 || octet == 0x22 then { n with quote := some octet }
    else if octet == 0x28 then { n with depth := n.depth + 1 }
    else if octet == 0x29 then { n with depth := n.depth - 1 }
    else n

/-- What is open behind more octets. -/
def behind (n : Nesting) (octets : List UInt8) : Nesting :=
  octets.foldl after n

/-- Whether the octet closes a parenthesis though none is open. -/
def underflows (n : Nesting) (octet : UInt8) : Bool :=
  n.marks 0x29 octet && n.depth == 0

/-- Whether the octet separates two arguments. -/
def separates (n : Nesting) (octet : UInt8) : Bool :=
  n.marks 0x2C octet && n.depth == 0

end Nesting

/-- How the search for a closing parenthesis ends. -/
inductive Closing where
  /-- The parenthesis is at this place. -/
  | found (place : Nat)
  /-- The text ends before. -/
  | missing
  /-- The number of open parentheses would drop below zero. -/
  | underflow
deriving DecidableEq, Repr

/-- The search from a place on. -/
def closingPlaceFrom (n : Nesting) (place : Nat) : List UInt8 → Closing
  | [] => .missing
  | octet :: rest =>
    if n.underflows octet then .underflow
    else if n.marks 0x29 octet && (n.after octet).depth == 0 then .found place
    else closingPlaceFrom (n.after octet) (place + 1) rest

/-- The place of the parenthesis that closes the one at `opening`; it is missing if there is no opening
parenthesis at `opening`. -/
def closingPlace (line : List Char) (opening : Nat) : Closing :=
  if (Text.toUtf8 line)[opening]? = some 0x28 then
    closingPlaceFrom .flat opening ((Text.toUtf8 line).drop opening)
  else .missing

/-- The arguments from a place on, where `start` is the place at which the argument at hand started. -/
def argumentsFrom (n : Nesting) (start place : Nat) : List UInt8 → List Literal.Segment
  | [] => [⟨start, place⟩]
  | octet :: rest =>
    if n.separates octet then ⟨start, place⟩ :: argumentsFrom n (place + 1) (place + 1) rest
    else argumentsFrom (n.after octet) start (place + 1) rest

/-- The places of the arguments in an argument list. -/
def arguments (args : List Char) : List Literal.Segment :=
  argumentsFrom .flat 0 0 (Text.toUtf8 args)

/-- The arguments themselves; nothing if one of the places is inside a character. -/
def argumentTexts? (args : List Char) : Option (List (List Char)) :=
  (arguments args).mapM (·.text? args)

end SqlDialect.Line
