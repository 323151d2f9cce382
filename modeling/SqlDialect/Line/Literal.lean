import SqlDialect.Pattern.Search

/-!
# String literals

Single quotes cut a line into pieces that are by turns code and the contents of a string literal;
a literal that is not closed runs to the end of the line, and a doubled quote inside a literal
ends it and opens the next.  Double quotes play no part.

* `inCode` tells whether the character at a place is code: it is not a quote, and an even number
  of quotes precedes it.
* `codePieces` are the stretches of code, `mapCode` changes them and leaves everything else.
* `editCode` replaces the matches of a pattern, searched in each stretch of code by itself.
-/

namespace SqlDialect.Literal

/-- The pieces of the line around its single quotes, by turns code and literal contents. -/
def pieces (line : List Char) : List (List Char) :=
  Text.cutAt '\'' line

/-- Every other element, starting with the first. -/
def everyOther : List (List Char) → List (List Char)
  | [] => []
  | [piece] => [piece]
  | piece :: _ :: rest => piece :: everyOther rest

/-- The stretches of code of the line, without the empty ones. -/
def codePieces (line : List Char) : List (List Char) :=
  (everyOther (pieces line)).filter (!·.isEmpty)

/-- The contents of the string literals of the line. -/
def literalPieces (line : List Char) : List (List Char) :=
  everyOther ((pieces line).drop 1)

/-- Whether the character with `index` characters before it is code. -/
def inCode (line : List Char) (index : Nat) : Bool :=
  match line.drop index with
  | [] => false
  | c :: _ => c != '\'' && (line.take index).count '\'' % 2 == 0

/-- The pieces with `f` applied to every other one, starting with the first; empty pieces stay. -/
def mapEveryOther (f : List Char → List Char) : List (List Char) → List (List Char)
  | [] => []
  | [piece] => [if piece.isEmpty then [] else f piece]
  | piece :: literal :: rest =>
    (if piece.isEmpty then [] else f piece) :: literal :: mapEveryOther f rest

/-- The line with `f` applied to each stretch of code. -/
def mapCode (f : List Char → List Char) (line : List Char) : List Char :=
  Text.joinWith ['\''] (mapEveryOther f (pieces line))

/-- Whether the character occurs in the code of the line. -/
def codeContains (c : Char) (line : List Char) : Bool :=
  (codePieces line).any (·.contains c)

/-- Whether the character occurs in a string literal of the line. -/
def literalContains (c : Char) (line : List Char) : Bool :=
  (literalPieces line).any (·.contains c)

/-- Whether the pattern matches inside some stretch of code. -/
def codeMatches (p : Pattern) (line : List Char) : Bool :=
  (codePieces line).any p.occursIn

/-- The code of the line with the matches of `p` replaced that `edit` accepts, and the first
accepted match without the white space around it.  There is no result if none is accepted. -/
def editCode (p : Pattern) (edit : Match → Option (List Char)) (line : List Char) :
    Option (List Char × List Char) :=
  let accepted := fun piece => (p.matchesIn piece).filter fun m => (edit m).isSome
  match (codePieces line).flatMap accepted with
  | [] => none
  | first :: _ =>
    some (mapCode (p.replaceIn fun m => (edit m).getD m.text) line, Text.trim first.text)

end SqlDialect.Literal
