import SqlDialect.Text.Basic

/-!
# Blank lines, comment lines and trailing comments

A comment starts with two hyphens that stand outside quotes.  Here both kinds of quote count: the
single quotes of a literal and the double quotes of an identifier.
-/

namespace SqlDialect.Line

/-- The two hyphens that start a comment. -/
def commentMark : List Char := ['-', '-']

/-- Whether the line holds nothing but a comment. -/
def isComment (line : List Char) : Bool :=
  commentMark.isPrefixOf (Text.trimStart line)

/-- Whether the line is empty or white space only. -/
def isBlank (line : List Char) : Bool :=
  line.all Text.isBlank

/-- Whether the line has no SQL left: white space only, or a single comma. -/
def isVestigial (line : List Char) : Bool :=
  let rest := Text.trim line
  rest.isEmpty || rest == [',']

/-- The quote that is open after `c`, when `open?` was open before it. -/
def quoteAfter (open? : Option Char) (c : Char) : Option Char :=
  match open? with
  | some q => if c == q then none else some q
  | none => if c == '\'' || c == '"' then some c else none

/-- The split of a line that starts inside the given quote. -/
def splitCommentFrom (open? : Option Char) : List Char → List Char × List Char
  | [] => ([], [])
  | c :: rest =>
    if open?.isNone && commentMark.isPrefixOf (c :: rest) then ([], c :: rest)
    else
      let (code, comment) := splitCommentFrom (quoteAfter open? c) rest
      (c :: code, comment)

/-- The code of the line and its trailing comment.  White space before the comment belongs to the
code. -/
def splitComment (line : List Char) : List Char × List Char :=
  splitCommentFrom none line

end SqlDialect.Line
