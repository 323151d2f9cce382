import SqlDialect.Data.Basic
import SqlDialect.Text.Number

/-!
# Scalars in YAML

A text can be written in four ways: plain, in single quotes, in double quotes, or as a literal
block.  A text of several lines is a literal block if it can be one.  A text that would read as
another kind of value is in single quotes; any other is plain if it can be.  What a text can be
is the matter of `Traits`: a text that cannot be plain is in single quotes, and one that cannot
be that either is in double quotes, where every character can be escaped.
-/

namespace SqlDialect.Data.Yaml

/-! ### Texts that read as other values -/

/-- The value of a digit in a numeral to the base. -/
def digitValue? (base : Nat) (c : Char) : Option Nat :=
  let value :=
    if c.isDigit then some (c.toNat - '0'.toNat)
    else if c.isAlpha then some (c.toLower.toNat - 'a'.toNat + 10)
    else none
  value.filter (· < base)

/-- The number that a non-empty string of digits to the base stands for. -/
def numeral? (base : Nat) (digits : List Char) : Option Nat :=
  if digits.isEmpty then none
  else digits.foldlM (fun n c => (digitValue? base c).map (n * base + ·)) 0

/-- The magnitude of an integer without a sign, in one of the four bases. -/
def magnitude? : List Char → Option Nat
  | '0' :: 'x' :: digits => numeral? 16 digits
  | '0' :: 'o' :: digits => numeral? 8 digits
  | '0' :: 'b' :: digits => numeral? 2 digits
  | digits => numeral? 10 digits

/-- Whether the text is a string of digits with a sign or not, but no number because it starts
with a zero. -/
def hasLeadingZero (text : List Char) : Bool :=
  let digits := match text with
    | '+' :: rest => rest
    | '-' :: rest => rest
    | _ => text
  match digits with
  | '0' :: rest => !rest.isEmpty && rest.all Char.isDigit
  | _ => false

/-- Whether the text reads as an integer of 128 bits. -/
def readsAsInteger (text : List Char) : Bool :=
  !hasLeadingZero text &&
    match text with
    | '-' :: rest => (magnitude? rest).any (· ≤ Nat.pow 2 127)
    | '+' :: rest => (magnitude? rest).any (· < Nat.pow 2 128)
    | _ => (magnitude? text).any (· < Nat.pow 2 128)

/-- Whether the text without a sign is a decimal that fits a floating-point number. -/
def fits (text : List Char) : Bool :=
  (Text.decimal? text).any fun (mantissa, exponent) => Text.fitsFloat mantissa exponent

/-- Whether the text reads as a floating-point number. -/
def readsAsFloat (text : List Char) : Bool :=
  [".inf", ".Inf", ".INF", "+.inf", "+.Inf", "+.INF", "-.inf", "-.Inf", "-.INF",
    ".nan", ".NaN", ".NAN"].contains (String.ofList text) ||
  match text with
  | '+' :: rest => fits rest
  | '-' :: rest => fits rest
  | _ => fits text

/-- Whether the text, were it plain, would read as a value that is not a text. -/
def readsAsOther (text : List Char) : Bool :=
  ["", "~", "null", "Null", "NULL", "true", "True", "TRUE", "false", "False", "FALSE"].contains
    (String.ofList text) ||
  readsAsInteger text || hasLeadingZero text || readsAsFloat text

/-! ### What a text can be -/

/-- The characters that end a line. -/
def isBreak (c : Char) : Bool :=
  c == '\n' || c == '\r' || c == '\u0085' || c == '\u2028' || c == '\u2029'

/-- Whether the place is at the end of the text, or before white space. -/
def atGap : List Char → Bool
  | [] => true
  | c :: _ => c == ' ' || c == '\t' || c == '\x00' || isBreak c

/-- The characters that can be written as they are. -/
def isPrintable (c : Char) : Bool :=
  c == '\n' || (0x20 ≤ c.toNat && c.toNat ≤ 0x7E) ||
    (0xA0 ≤ c.toNat && c.toNat != 0xFEFF && c.toNat != 0xFFFE && c.toNat != 0xFFFF)

/-- Whether a plain text cannot start with the character, given what follows it. -/
def opensSyntax (c : Char) (rest : List Char) : Bool :=
  "#,[]\x7b\x7d&*!|>'\"%@\x60".toList.contains c ||
    ((c == '?' || c == ':' || c == '-') && atGap rest)

/-- Whether a plain text cannot have the character, given what stands before and behind it. -/
def breaksSyntax (before c : Char) (rest : List Char) : Bool :=
  (c == ':' && atGap rest) || (c == '#' && atGap [before])

/-- Whether the text holds one character of the first class directly before one of the second. -/
def hasPair (first second : Char → Bool) (text : List Char) : Bool :=
  (text.zip text.tail).any fun (a, b) => first a && second b

/-- Whether some place behind the first character of the text is not fit for a plain text. -/
def breaksInside : List Char → Bool
  | before :: c :: rest => breaksSyntax before c rest || breaksInside (c :: rest)
  | _ => false

/-- What is in the way of the styles of a text. -/
structure Traits where
  /-- It has more than one line. -/
  multiline : Bool
  /-- It cannot be plain. -/
  noPlain : Bool
  /-- It cannot be in single quotes. -/
  noSingle : Bool
  /-- It cannot be a literal block. -/
  noLiteral : Bool
deriving Repr, DecidableEq

/-- What is in the way of the styles of the text. -/
def traits (text : List Char) : Traits :=
  let isSpace (c : Char) := c == ' '
  let multiline := text.any isBreak
  let special := text.any (!isPrintable ·)
  let spaceBreak := hasPair isSpace isBreak text
  let breakSpace := hasPair isBreak isSpace text
  let endsOpen := match text.getLast? with
    | some c => isSpace c || isBreak c
    | none => false
  let startsOpen := match text with
    | c :: _ => isSpace c || isBreak c
    | [] => false
  let indicator := match text with
    | '-' :: '-' :: '-' :: _ => true
    | '.' :: '.' :: '.' :: _ => true
    | c :: rest => opensSyntax c rest
    | [] => false
  { multiline := multiline
    noPlain :=
      startsOpen || endsOpen || breakSpace || spaceBreak || special || multiline || indicator ||
        breaksInside text
    noSingle := breakSpace || spaceBreak || special
    noLiteral := text.isEmpty || text.getLast? == some ' ' || spaceBreak || special }

/-! ### Writing a text -/

/-- A character inside double quotes. -/
def escaped (c : Char) : List Char :=
  match c with
  | '\x00' => ['\\', '0']
  | '\x07' => ['\\', 'a']
  | '\x08' => ['\\', 'b']
  | '\x09' => ['\\', 't']
  | '\x0a' => ['\\', 'n']
  | '\x0b' => ['\\', 'v']
  | '\x0c' => ['\\', 'f']
  | '\x0d' => ['\\', 'r']
  | '\x1b' => ['\\', 'e']
  | '"' => ['\\', '"']
  | '\\' => ['\\', '\\']
  | '\u0085' => ['\\', 'N']
  | '\u2028' => ['\\', 'L']
  | '\u2029' => ['\\', 'P']
  | _ =>
    if isPrintable c then [c]
    else if c.toNat ≤ 0xFF then ['\\', 'x'] ++ (hexNumeral 2 c.toNat).map Char.toUpper
    else ['\\', 'u'] ++ (hexNumeral 4 c.toNat).map Char.toUpper

/-- The text in double quotes. -/
def inDoubleQuotes (text : List Char) : List Char :=
  ['"'] ++ text.flatMap escaped ++ ['"']

/-- The text with the indentation before each line but the first; `fresh` tells whether the place
is at the start of a line. -/
def indentLines (indent : Nat) (fresh : Bool) : List Char → List Char
  | [] => []
  | c :: rest =>
    if isBreak c then c :: indentLines indent true rest
    else (if fresh then spaces indent else []) ++ c :: indentLines indent false rest

/-- The text in single quotes. -/
def inSingleQuotes (indent : Nat) (text : List Char) : List Char :=
  let doubled := text.flatMap fun c => if c == '\'' then ['\'', '\''] else [c]
  let closing := match text.getLast? with
    | some c => if isBreak c then spaces indent else []
    | none => []
  ['\''] ++ indentLines indent false doubled ++ closing ++ ['\'']

/-- What the head of a literal block says of the line breaks at its end: `-` that there is none,
`+` that there are several, and nothing that there is one. -/
def chomping (text : List Char) : List Char :=
  match text.reverse with
  | last :: rest =>
    if !isBreak last then ['-']
    else match rest with
      | [] => ['+']
      | c :: _ => if isBreak c then ['+'] else []
  | [] => ['-']

/-- The text as a literal block without the line break that it ends with. -/
def literalBlock (indent : Nat) (text : List Char) : List Char :=
  let hint := match text with
    | c :: _ => if c == ' ' || isBreak c then ['2'] else []
    | [] => []
  let body := if text.getLast? == some '\n' then text.dropLast else text
  ['|'] ++ hint ++ chomping text ++ ['\n'] ++ indentLines indent true body

/-- The text in the first of the ways that it can be written in; `indent` is the indentation of
further lines. -/
def scalar (indent : Nat) (text : List Char) : List Char :=
  let t := traits text
  if text.contains '\n' then
    if t.noLiteral then inDoubleQuotes text else literalBlock indent text
  else if (t.noPlain || readsAsOther text) then
    if t.noSingle then inDoubleQuotes text else inSingleQuotes indent text
  else text

/-- Whether the text can be written before a colon on one line. -/
def isSimpleKey (text : List Char) : Bool :=
  !(traits text).multiline && Text.octets text ≤ 128

end SqlDialect.Data.Yaml
