import SqlDialect.Line.Literal

/-!
# Stretches of code by their places

The stretches of code of a line as one walk over the line finds them: from octet to octet of the line in
UTF-8, with the place where the stretch at hand started and a flag which tells whether a literal is open.

* `segments` are the places of the stretches, `isCodeAt` tells whether an octet is in one of them.
* `mapSegments?` puts the line together again, with every stretch changed.
-/

namespace SqlDialect

namespace Text

/-- The text behind its first `n` octets; nothing if they end inside a character or there are fewer. -/
def dropOctets? : Nat → List Char → Option (List Char)
  | 0, text => some text
  | _ + 1, [] => none
  | n + 1, c :: rest =>
    if c.utf8Size ≤ n + 1 then dropOctets? (n + 1 - c.utf8Size) rest else none

/-- The first `n` octets of the text; nothing if they end inside a character or there are fewer. -/
def takeOctets? : Nat → List Char → Option (List Char)
  | 0, _ => some []
  | _ + 1, [] => none
  | n + 1, c :: rest =>
    if c.utf8Size ≤ n + 1 then (takeOctets? (n + 1 - c.utf8Size) rest).map (c :: ·) else none

/-- The text between two places in octets; nothing if one of them is inside a character, or if they are
not places of the text in this order. -/
def slice? (text : List Char) (start stop : Nat) : Option (List Char) :=
  if start ≤ stop then (dropOctets? start text).bind (takeOctets? (stop - start)) else none

end Text

namespace Literal

/-- A stretch of a line: the octets of the line from `start` to before `stop`. -/
structure Segment where
  start : Nat
  stop : Nat
deriving DecidableEq, Repr

namespace Segment

/-- Whether the octet is one of the stretch. -/
def holds (s : Segment) (octet : Nat) : Bool :=
  s.start ≤ octet && octet < s.stop

/-- The text of the stretch. -/
def text? (s : Segment) (line : List Char) : Option (List Char) :=
  Text.slice? line s.start s.stop

end Segment

/-- The stretches of code from a place on, where `start` is the place at which the code at hand started
and `inLiteral` tells whether a literal is open instead. -/
def segmentsFrom (start : Nat) (inLiteral : Bool) (place : Nat) : List Char → List Segment
  | [] => if !inLiteral && start < place then [⟨start, place⟩] else []
  | c :: rest =>
    let next := place + c.utf8Size
    if c != '\'' then segmentsFrom start inLiteral next rest
    else if inLiteral then segmentsFrom (place + 1) false next rest
    else if start < place then ⟨start, place⟩ :: segmentsFrom start true next rest
    else segmentsFrom start true next rest

/-- The stretches of code of the line, without empty ones. -/
def segments (line : List Char) : List Segment :=
  segmentsFrom 0 false 0 line

/-- Whether the octet of the line is code. -/
def isCodeAt (line : List Char) (octet : Nat) : Bool :=
  (segments line).any (·.holds octet)

/-- The line from the place `last` on, with `f` applied to the stretches, which come behind it. -/
def stitchFrom? (f : Segment → List Char → List Char) (line : List Char) (last : Nat) :
    List Segment → Option (List Char)
  | [] => Text.slice? line last (Text.octets line)
  | s :: rest => do
    let between ← Text.slice? line last s.start
    let code ← s.text? line
    let behind ← stitchFrom? f line s.stop rest
    return between ++ f s code ++ behind

/-- The line with `f` applied to each stretch of code.  What `f` makes of a stretch may depend on where it
is, and so on the stretches before it. -/
def mapSegments? (f : Segment → List Char → List Char) (line : List Char) : Option (List Char) :=
  stitchFrom? f line 0 (segments line)

end Literal

end SqlDialect
