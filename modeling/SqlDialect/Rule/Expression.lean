import SqlDialect.Rule.Basic
import SqlDialect.Text.Number

/-!
# Operators, frames and identifiers
-/

namespace SqlDialect.Rule

open Pattern

/-- The left brace. -/
def openBrace : Char := '\x7b'

/-- The right brace. -/
def closeBrace : Char := '\x7d'

/-- The clause that orders rows. -/
def orderBy : Pattern := boundary ++ phrase ["ORDER", "BY"] ++ boundary

/-- Whether rows are ordered on this line or on the last line that left SQL behind. -/
def nearOrderBy (ctx : Context) (line : List Char) : Bool :=
  Literal.codeMatches orderBy line || ctx.previousLine.any (Literal.codeMatches orderBy)

/-- The frame over a whole partition is dropped, since it is the default without an order.  With
an order it changes the result, so it stays. -/
def unboundedFrame : Rule where
  id := "EXPR002"
  name := "Unbounded window frame dropped"
  category := .expression
  edit? ctx line :=
    if nearOrderBy ctx line then none
    else
      substitute
        (blanks ++ boundary ++
          phrase ["ROWS", "BETWEEN", "UNBOUNDED", "PRECEDING", "AND", "UNBOUNDED", "FOLLOWING"] ++
          boundary ++ optional (group "close" (blanks ++ char ')')))
        (fun m => if m.has "close" then [')'] else []) line

/-- `ARRAY[...]` is `[...]`. -/
def arrayLiteral : Rule where
  id := "EXPR003"
  name := "ARRAY[...] to [...]"
  category := .expression
  edit? _ line :=
    substitute (boundary ++ keyword "ARRAY" ++ blanks ++ char '[') (fun _ => ['[']) line

/-- The characters of an operand. -/
def isOperandChar (c : Char) : Bool :=
  c.isAlphanum || c == '_' || c == '.'

/-- The operand at the end of the text, behind which grouping parentheses may be closed. -/
def operandBefore (text : List Char) : List Char :=
  Text.takeEndWhile isOperandChar
    (Text.trimEnd (Text.dropEndWhile (· == ')') (Text.trimEnd text)))

/-- The operand at the start of the text, before which grouping parentheses may be opened. -/
def operandAfter (text : List Char) : List Char :=
  (Text.trimStart ((Text.trimStart text).dropWhile (· == '('))).takeWhile isOperandChar

/-- Whether a plus sign between the two texts joins strings: neither operand is a number. -/
def joinsStrings (before after : List Char) : Bool :=
  !(Text.isNumeral (operandBefore before) || Text.isNumeral (operandAfter after))

/-- The text cut at the plus signs that join strings; `before` is the line up to the text, last
character first. -/
def cutAtJoins (before : List Char) : List Char → List (List Char)
  | [] => [[]]
  | c :: rest =>
    if c == '+' && joinsStrings before.reverse rest then [] :: cutAtJoins (c :: before) rest
    else match cutAtJoins (c :: before) rest with
      | [] => [[c]]
      | piece :: pieces => (c :: piece) :: pieces

/-- The pieces with the operator `||` between neighbours.  White space next to the operator is
replaced by one space on either side. -/
def joinPieces : List (List Char) → List Char
  | [] => []
  | [piece] => piece
  | piece :: rest => Text.trimEnd piece ++ " || ".toList ++ joinPieces rest

/-- A call of `NVL` with a plus sign between its parentheses. -/
def nvlWithPlus : Pattern :=
  boundary ++ keyword "NVL(" ++ star (one .any) ++ char '+' ++ star (one .any) ++ char ')'

/-- Concatenation is `||`.  A plus sign next to a number adds; lines with a plus sign in a literal
or in a call of `NVL` stay. -/
def stringConcat : Rule where
  id := "EXPR004"
  name := "+ concatenation to ||"
  category := .expression
  edit? _ line :=
    if !Literal.codeContains '+' line || Literal.literalContains '+' line ||
        Literal.codeMatches nvlWithPlus line then
      none
    else
      match cutAtJoins [] line with
      | first :: second :: rest =>
        some (.changed (joinPieces (first :: (second :: rest).map Text.trimStart)) ['+'])
      | _ => none

/-- The characters that a plain name starts with. -/
def plainStart : CharSet := .asciiLetter ∪ .exactly '_'

/-- The characters of a plain name. -/
def plainChar : CharSet := .asciiLetter ∪ .asciiDigit ∪ .oneOf ['_', '$']

/-- A name without quotes. -/
def plainName : Pattern := one plainStart ++ star (one plainChar)

/-- A plain name with a point before it. -/
def pointName : Pattern := char '.' ++ plainName

/-- A chain of plain names. -/
def chain : Pattern := boundary ++ plainName ++ plus pointName ++ boundary

/-- Two braces, and what goes on up to two closing ones. -/
def placeholder : Pattern :=
  exactText [openBrace, openBrace] ++ many false (one .any) ++ exactText [closeBrace, closeBrace]

/-- A placeholder in double braces, or a chain of names with points between them. -/
def placeholderOrChain : Pattern := placeholder <|> group "chain" chain

/-- What takes the place of a placeholder or of a chain: the chain in upper case, if it is not. -/
def raisedName (m : Match) : Option (List Char) := do
  let chain ← m.group? "chain"
  if chain.text.any Char.isLower then some (chain.text.map Char.toUpper) else none

/-- Qualified names are in upper case, which is how unquoted names are resolved.  Placeholders
stay, and so do lines near an order. -/
def qualifiedNameCase : Rule where
  id := "EXPR005"
  name := "Qualified identifiers upper-cased"
  category := .expression
  edit? ctx line :=
    if nearOrderBy ctx line then none else substituteSome placeholderOrChain raisedName line

/-- A comma that stands alone on its line is dropped. -/
def danglingComma : Rule where
  id := "EXPR006"
  name := "Dangling comma dropped"
  category := .expression
  edit? _ line :=
    if Text.trim line == [','] then some (.changed (line.takeWhile Text.isBlank) [',']) else none

end SqlDialect.Rule
