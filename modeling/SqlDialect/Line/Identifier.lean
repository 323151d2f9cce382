import SqlDialect.Line.Literal

/-!
# Quoted identifiers

The source dialects quote identifiers with backticks or with square brackets.  Both are dropped
outside string literals; brackets around anything but a plain name, such as the subscript in
`a[0]`, stay.
-/

namespace SqlDialect.Identifier

/-- The quote of MySQL identifiers. -/
def backtick : Char := Char.ofNat 0x60

/-- The characters that a bare name starts with. -/
def nameStart : CharSet := .asciiLetter ∪ .exactly '_'

/-- The characters of a bare name. -/
def nameChar : CharSet := .asciiLetter ∪ .asciiDigit ∪ .oneOf ['_', '$', '#', '@', ' ']

/-- A name that may stand in square brackets. -/
def bareName : Pattern := .one nameStart ++ .star (.one nameChar)

/-- A name in square brackets. -/
def bracketed : Pattern :=
  .char '[' ++ .group "name" bareName ++ .char ']'

/-- A name in backticks or in square brackets. -/
def quoted : Pattern :=
  (.char backtick ++ .star (.one (.except (.exactly backtick))) ++ .char backtick) <|> bracketed

/-- The line without the quoting of its identifiers. -/
def unquote (line : List Char) : List Char :=
  Literal.mapCode
    (fun piece => bracketed.replaceIn (·.textOf "name") (piece.filter (· != backtick))) line

/-- The quoted identifiers of the line, with their quotes, in order. -/
def quotedIn (line : List Char) : List (List Char) :=
  (Literal.codePieces line).flatMap fun piece => (quoted.matchesIn piece).map Match.text

end SqlDialect.Identifier
