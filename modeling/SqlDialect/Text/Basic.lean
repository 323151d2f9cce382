import SqlDialect.Text.CharRange

/-!
# Characters and text

A line of SQL is a `List Char`.  This module holds the character classes that the patterns and
the line handling share (white space, digits, word characters, case), trimming, the measure of a
text in UTF-8 octets, and the lines of a text.

White space, digits and word characters follow the Unicode properties; changes of case
(`Char.toUpper`, `Char.toLower`) concern ASCII letters only.  `foldCase` is the one map that
reaches beyond ASCII: the long s and the Kelvin sign are the only further characters that agree
with an ASCII letter when case is ignored.
-/

namespace SqlDialect.Text

/-- The characters with the Unicode property `White_Space`. -/
def isBlank (c : Char) : Bool :=
  let n := c.toNat
  (9 ≤ n && n ≤ 13) || n == 0x20 || n == 0x85 || n == 0xA0 || n == 0x1680 ||
    (0x2000 ≤ n && n ≤ 0x200A) || n == 0x2028 || n == 0x2029 || n == 0x202F || n == 0x205F ||
    n == 0x3000

/-- The decimal digits of every script. -/
def isDigit (c : Char) : Bool :=
  if c.toNat < 0x80 then c.isDigit else inRanges c.toNat digitRanges

/-- The characters that make up words: letters, marks, digits and connectors. -/
def isWordChar (c : Char) : Bool :=
  if c.toNat < 0x80 then c.isAlphanum || c == '_' else inRanges c.toNat wordRanges

/-- The lower-case ASCII letter that `c` agrees with when case is ignored, otherwise `c`. -/
def foldCase (c : Char) : Char :=
  if c == '\u017F' then 's' else if c == '\u212A' then 'k' else c.toLower

/-- Equality of two texts up to the case of ASCII letters. -/
def sameIgnoringCase (a b : List Char) : Bool :=
  a.map Char.toLower == b.map Char.toLower

/-- The text without the white space it starts with. -/
def trimStart (text : List Char) : List Char :=
  text.dropWhile isBlank

/-- The text without the characters that satisfy `drop` at its end. -/
def dropEndWhile (drop : Char → Bool) (text : List Char) : List Char :=
  (text.reverse.dropWhile drop).reverse

/-- The longest run of characters that satisfy `take` at the end of the text. -/
def takeEndWhile (take : Char → Bool) (text : List Char) : List Char :=
  (text.reverse.takeWhile take).reverse

/-- The text without the white space it ends with. -/
def trimEnd (text : List Char) : List Char :=
  dropEndWhile isBlank text

/-- The text without the white space around it. -/
def trim (text : List Char) : List Char :=
  trimEnd (trimStart text)

/-- Whether the text ends with the character `c`. -/
def endsWith (text : List Char) (c : Char) : Bool :=
  text.getLast? == some c

/-- The number of octets that the text takes in UTF-8. -/
def octets (text : List Char) : Nat :=
  text.foldr (fun c n => c.utf8Size + n) 0

/-- The texts with `separator` between neighbours. -/
def joinWith (separator : List Char) : List (List Char) → List Char
  | [] => []
  | [piece] => piece
  | piece :: rest => piece ++ separator ++ joinWith separator rest

/-- The pieces between the occurrences of `c`; there is one more of them than occurrences. -/
def cutAt (c : Char) : List Char → List (List Char)
  | [] => [[]]
  | x :: rest =>
    if x == c then [] :: cutAt c rest
    else match cutAt c rest with
      | [] => [[x]]
      | piece :: pieces => (x :: piece) :: pieces

/-- The first occurrence of `needle` in a text, as what stands before and after it. -/
def splitAtFirst (needle : List Char) : List Char → Option (List Char × List Char)
  | [] => if needle.isEmpty then some ([], []) else none
  | c :: rest =>
    if needle.isPrefixOf (c :: rest) then some ([], (c :: rest).drop needle.length)
    else (splitAtFirst needle rest).map fun (before, after) => (c :: before, after)

/-! ### Lines

A line ends at a line feed; a single carriage return before the line feed belongs to the end of
the line.  Text behind the last line feed is a line of its own if there is any, and keeps its
carriage return.  The elements can be characters or octets. -/

variable {α : Type} [DecidableEq α]

/-- The line that ends here, when its elements were collected last one first. -/
def endLine (cr : α) : List α → List α
  | [] => []
  | x :: rest => if x = cr then rest.reverse else (x :: rest).reverse

/-- The lines of a text, when the elements of the current line and the lines before it were
collected last one first. -/
def linesFrom (lf cr : α) (current : List α) (done : List (List α)) : List α → List (List α)
  | [] => (if current.isEmpty then done else current.reverse :: done).reverse
  | x :: rest =>
    if x = lf then linesFrom lf cr [] (endLine cr current :: done) rest
    else linesFrom lf cr (x :: current) done rest

/-- The lines of a text. -/
def lines (lf cr : α) (text : List α) : List (List α) :=
  linesFrom lf cr [] [] text

end SqlDialect.Text
