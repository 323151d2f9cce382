import SqlDialect.Pattern.Basic

/-!
# Searching a line for a pattern

`Pattern.pieces` cuts a line into the leftmost matches, which do not overlap, and the characters
between them.  Searching and replacing are functions of that list: `Pattern.matchesIn` keeps the
matches and `Pattern.replaceIn` puts other text in their place.
-/

namespace SqlDialect

/-- A stretch of a line that a pattern matched. -/
structure Match where
  /-- The number of characters of the line before the match. -/
  start : Nat
  /-- The matched text. -/
  text : List Char
  /-- The groups that took part, latest first. -/
  groups : List Group
deriving Repr, DecidableEq

namespace Match

/-- The number of characters of the line before the end of the match. -/
def stop (m : Match) : Nat := m.start + m.text.length

/-- The group of that name, if it took part in the match. -/
def group? (m : Match) (name : String) : Option Group :=
  m.groups.find? (·.name == name)

/-- The text of the group of that name, empty if it took no part in the match. -/
def textOf (m : Match) (name : String) : List Char :=
  ((m.group? name).map Group.text).getD []

/-- Whether the group of that name took part in the match. -/
def has (m : Match) (name : String) : Bool :=
  (m.group? name).isSome

end Match

/-- A part of a line that has been searched for a pattern. -/
inductive Piece where
  /-- A character outside every match. -/
  | other (c : Char)
  /-- A match. -/
  | found (m : Match)
deriving Repr, DecidableEq

namespace Piece

/-- The match, if the piece is one. -/
def match? : Piece → Option Match
  | other _ => none
  | found m => some m

end Piece

namespace Pattern

/-- The preferred match of the pattern at a place. -/
def matchAt (p : Pattern) (place : Cursor) : Option Match :=
  p.run place [] fun stop groups => some ⟨place.index, place.between stop, groups⟩

/-- The pieces of the line from a place on, when the next `skip` characters belong to a match
that has already been reported. -/
def piecesFrom (p : Pattern) : (skip : Nat) → (previous : Option Char) → (index : Nat) →
    List Char → List Piece
  | _, _, _, [] => []
  | skip + 1, _, index, c :: rest => piecesFrom p skip (some c) (index + 1) rest
  | 0, previous, index, c :: rest =>
    match p.matchAt ⟨previous, index, c :: rest⟩ with
    | some m =>
      if m.text.isEmpty then .other c :: piecesFrom p 0 (some c) (index + 1) rest
      else .found m :: piecesFrom p (m.text.length - 1) (some c) (index + 1) rest
    | none => .other c :: piecesFrom p 0 (some c) (index + 1) rest

/-- The leftmost matches of the pattern and the characters between them. -/
def pieces (p : Pattern) (line : List Char) : List Piece :=
  if p.admits line then p.piecesFrom 0 none 0 line else line.map .other

/-- The leftmost matches of the pattern that do not overlap. -/
def matchesIn (p : Pattern) (line : List Char) : List Match :=
  (p.pieces line).filterMap Piece.match?

/-- The line with every match replaced. -/
def replaceIn (p : Pattern) (replacement : Match → List Char) (line : List Char) : List Char :=
  (p.pieces line).flatMap fun
    | .other c => [c]
    | .found m => replacement m

/-- The leftmost match of the pattern from a place on. -/
def findFrom (p : Pattern) : (previous : Option Char) → (index : Nat) → List Char →
    Option Match
  | previous, index, [] => p.matchAt ⟨previous, index, []⟩
  | previous, index, c :: rest =>
    match p.matchAt ⟨previous, index, c :: rest⟩ with
    | some m => some m
    | none => findFrom p (some c) (index + 1) rest

/-- The leftmost match of the pattern. -/
def find? (p : Pattern) (line : List Char) : Option Match :=
  if p.admits line then p.findFrom none 0 line else none

/-- Whether the pattern matches somewhere in the line. -/
def occursIn (p : Pattern) (line : List Char) : Bool :=
  (p.find? line).isSome

end Pattern

end SqlDialect
