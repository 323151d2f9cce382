/-!
# Text in UTF-8

Octets are read strictly, so that anything but UTF-8 is refused, or leniently, so that every broken
piece counts as one replacement character.
-/

namespace SqlDialect.Text

/-- The characters of a text in UTF-8; nothing if the octets are not one. -/
def ofUtf8? (octets : List UInt8) : Option (List Char) :=
  (String.fromUTF8? ⟨octets.toArray⟩).map String.toList

/-- The octets of a text in UTF-8. -/
def toUtf8 (text : List Char) : List UInt8 :=
  (String.ofList text).toUTF8.toList

/-! ### Broken octets -/

/-- What stands for octets that are no character. -/
def replacement : Char := '\uFFFD'

/-- The number of octets of the characters that the octet can be the first one of; 0 if it can be the
first one of none. -/
def widthFrom (first : UInt8) : Nat :=
  if first < 0x80 then 1
  else if 0xC2 ≤ first && first < 0xE0 then 2
  else if 0xE0 ≤ first && first < 0xF0 then 3
  else if 0xF0 ≤ first && first < 0xF5 then 4
  else 0

/-- Whether the octet can be the second one of a character.  Not all of them can be that behind the
octets that characters of 3 and 4 octets start with at the ends of their ranges. -/
def followsFirst (first second : UInt8) : Bool :=
  (if first = 0xE0 then 0xA0 else if first = 0xF0 then 0x90 else 0x80) ≤ second &&
    second < (if first = 0xED then 0xA0 else if first = 0xF4 then 0x90 else 0xC0)

/-- Whether a character can start with the octets, all of them being needed. -/
def startsCharacter : List UInt8 → Bool
  | [] => false
  | [first] => 0 < widthFrom first
  | first :: second :: rest =>
    rest.length + 2 ≤ widthFrom first && followsFirst first second &&
      rest.all fun octet => 0x80 ≤ octet && octet < 0xC0

/-- The text of some octets and those that may still become a character with more of them, when one
more octet comes behind those of the latter kind. -/
def readOctet (pending : List UInt8) (octet : UInt8) : List Char × List UInt8 :=
  let complete (block : List UInt8) : List Char × List UInt8 :=
    match ofUtf8? block with
    | some text => (text, [])
    | none => ([], block)
  if startsCharacter (pending ++ [octet]) then complete (pending ++ [octet])
  else
    let broken := if pending.isEmpty then [] else [replacement]
    if startsCharacter [octet] then
      let (text, block) := complete [octet]
      (broken ++ text, block)
    else (broken ++ [replacement], [])

/-- The text of octets that come behind others, every broken piece being replaced. -/
def replaceBroken : List UInt8 → List UInt8 → List Char
  | pending, [] => if pending.isEmpty then [] else [replacement]
  | pending, octet :: rest =>
    let (text, block) := readOctet pending octet
    text ++ replaceBroken block rest

/-- The characters of a text in UTF-8.  If the octets are not one, a replacement character stands for
every piece that no character is made of. -/
def ofUtf8Lossy (octets : List UInt8) : List Char :=
  match ofUtf8? octets with
  | some text => text
  | none => replaceBroken [] octets

end SqlDialect.Text
