import SqlDialect.Toml.Scalar
import SqlDialect.Toml.Value

/-!
# Reading TOML

A `Reader` takes something off the start of a text, or fails.  Readers of nested and of repeated
things are given a bound on what they may take, which the length of the text always provides.
-/

namespace SqlDialect.Toml

/-- A reader of something at the start of a text. -/
abbrev Reader := StateT (List Char) Option

namespace Reader

/-! ### Characters -/

/-- Takes the longest run of such characters. -/
def takeWhile (p : Char → Bool) : Reader (List Char) :=
  fun text => some (text.takeWhile p, text.dropWhile p)

/-- Takes the given text. -/
def expect (wanted : String) : Reader Unit :=
  fun text =>
    if wanted.toList.isPrefixOf text then some ((), text.drop wanted.length) else none

/-- Whether the text goes on with the given one. -/
def sees (wanted : String) : Reader Bool :=
  fun text => some (wanted.toList.isPrefixOf text, text)

/-- Takes spaces and tabs. -/
def spaces : Reader Unit := do
  let _ ← takeWhile fun c => c == ' ' || c == '\t'

/-- Whether the character may stand in a comment or a string. -/
def isPlain (c : Char) : Bool :=
  c == '\t' || (0x20 ≤ c.toNat && c.toNat != 0x7F)

/-- Takes a line end, if there is one. -/
def lineEnd? : Reader Bool :=
  fun text =>
    match text with
    | '\n' :: rest => some (true, rest)
    | '\r' :: '\n' :: rest => some (true, rest)
    | _ => some (false, text)

/-- Takes a comment, if there is one. -/
def comment : Reader Unit := do
  if ← sees "#" then
    let _ ← takeWhile isPlain

/-- Takes what may stand behind a value: spaces, a comment, and the end of the line or of the
text. -/
def endOfLine : Reader Unit := do
  spaces
  comment
  if !(← lineEnd?) then
    if !(← get).isEmpty then failure

/-- Takes spaces, comments and line ends, at most as many as there are characters in `bound`. -/
def blankLines : List Char → Reader Unit
  | [] => pure ()
  | _ :: bound => do
    spaces
    comment
    if ← lineEnd? then blankLines bound

/-- Takes spaces, comments and line ends. -/
def blank : Reader Unit := do
  blankLines (' ' :: (← get))

/-! ### Strings -/

/-- The value of a hexadecimal digit. -/
def hexDigit? (c : Char) : Option Nat :=
  if c.isDigit then some (c.toNat - '0'.toNat)
  else if 'a' ≤ c.toLower && c.toLower ≤ 'f' then some (c.toLower.toNat - 'a'.toNat + 10)
  else none

/-- The character with the number that the first `count` characters of the text write in
hexadecimal, and the rest of the text. -/
def hexChar? (count : Nat) (text : List Char) : Option (Char × List Char) := do
  let digits ← (text.take count).mapM hexDigit?
  let number := digits.foldl (fun n d => n * 16 + d) 0
  if digits.length == count && number.isValidChar then
    some (Char.ofNat number, text.drop count)
  else
    none

/-- The character that is written behind a backslash, and the rest of the text. -/
def escape? : List Char → Option (Char × List Char)
  | 'b' :: rest => some ('\x08', rest)
  | 't' :: rest => some ('\t', rest)
  | 'n' :: rest => some ('\n', rest)
  | 'f' :: rest => some ('\x0c', rest)
  | 'r' :: rest => some ('\r', rest)
  | 'e' :: rest => some ('\x1b', rest)
  | '"' :: rest => some ('"', rest)
  | '\\' :: rest => some ('\\', rest)
  | 'x' :: rest => hexChar? 2 rest
  | 'u' :: rest => hexChar? 4 rest
  | 'U' :: rest => hexChar? 8 rest
  | _ => none

/-- The body of a string in double quotes up to its end, and the text behind it; `bound` is at
least as long as the text. -/
def quotedBody (done : List Char) : (bound text : List Char) → Option (List Char × List Char)
  | _, '"' :: rest => some (done.reverse, rest)
  | _ :: bound, '\\' :: rest => do
    let (c, rest) ← escape? rest
    quotedBody (c :: done) bound rest
  | _ :: bound, c :: rest => if isPlain c then quotedBody (c :: done) bound rest else none
  | _, _ => none

/-- The text behind the spaces and line ends at its start. -/
def dropSpaceLines : List Char → List Char
  | ' ' :: rest => dropSpaceLines rest
  | '\t' :: rest => dropSpaceLines rest
  | '\n' :: rest => dropSpaceLines rest
  | '\r' :: '\n' :: rest => dropSpaceLines rest
  | text => text

/-- The text behind a backslash at the end of a line, which joins it to the next text; none if
something else follows the backslash. -/
def joinedLine? (text : List Char) : Option (List Char) :=
  match text.dropWhile fun c => c == ' ' || c == '\t' with
  | '\n' :: rest => some (dropSpaceLines rest)
  | '\r' :: '\n' :: rest => some (dropSpaceLines rest)
  | _ => none

/-- The end of a string with three quotes on either side, if it is here: the quotes before the
last three belong to the string, two of them at most. -/
def tripleEnd? (quote : Char) (text : List Char) : Option (List Char × List Char) :=
  let count := (text.takeWhile (· == quote)).length
  if 3 ≤ count then
    let inner := min (count - 3) 2
    some (List.replicate inner quote, text.drop (inner + 3))
  else
    none

/-- The body of a string between triple quotes up to its end, and the text behind it; `bound` is
at least as long as the text. -/
def tripleBody (quote : Char) (done : List Char) :
    (bound text : List Char) → Option (List Char × List Char)
  | [], _ => none
  | _ :: bound, text =>
    match tripleEnd? quote text with
    | some (inner, rest) => some (done.reverse ++ inner, rest)
    | none =>
      match text with
      | [] => none
      | '\r' :: '\n' :: rest => tripleBody quote ('\n' :: '\r' :: done) bound rest
      | c :: rest =>
        if c == '\\' && quote == '"' then
          match joinedLine? rest with
          | some rest => tripleBody quote done bound rest
          | none => do
            let (c, rest) ← escape? rest
            tripleBody quote (c :: done) bound rest
        else if c == '\n' || isPlain c then tripleBody quote (c :: done) bound rest
        else none

/-- Takes a string between triple quotes, whose first line end is not part of it. -/
def tripleText (quote : Char) : Reader String := do
  expect (String.ofList [quote, quote, quote])
  let _ ← lineEnd?
  fun text => (tripleBody quote [] (quote :: text) text).map fun (body, rest) =>
    (String.ofList body, rest)

/-- Takes a string on one line. -/
def lineText : Reader String :=
  fun text =>
    match text with
    | '"' :: rest => (quotedBody [] text rest).map fun (body, rest) => (String.ofList body, rest)
    | '\'' :: rest =>
      let body := rest.takeWhile fun c => isPlain c && c != '\''
      match rest.drop body.length with
      | '\'' :: rest => some (String.ofList body, rest)
      | _ => none
    | _ => none

/-! ### Keys -/

/-- Whether the character may stand in a key without quotes. -/
def isKeyChar (c : Char) : Bool :=
  c.isAlphanum || c == '_' || c == '-'

/-- Takes a key. -/
def key : Reader String := do
  if (← sees "\"") || (← sees "'") then lineText
  else
    let chars ← takeWhile isKeyChar
    if chars.isEmpty then failure
    return String.ofList chars

/-- Takes the keys of a dotted key behind the first, at most as many as there are characters in
`bound`. -/
def moreKeys : List Char → Reader (List String)
  | [] => pure []
  | _ :: bound => do
    spaces
    if ← sees "." then
      expect "."
      spaces
      let first ← key
      return first :: (← moreKeys bound)
    else
      return []

/-- Takes a dotted key and the spaces behind it. -/
def path : Reader (List String) := do
  let first ← key
  return first :: (← moreKeys (← get))

/-! ### Values -/

/-- Whether the character may stand in a number, a date or a time. -/
def isScalarChar (c : Char) : Bool :=
  c.isAlphanum || c == '_' || c == '+' || c == '-' || c == '.' || c == ':'

/-- Takes a truth value, a number, a date or a time. -/
def scalar : Reader Value := do
  let token ← takeWhile isScalarChar
  let rest ← get
  let token ← match rest with
    | ' ' :: c :: _ =>
      if Scalar.isDate token && c.isDigit then do
        expect " "
        let time ← takeWhile isScalarChar
        pure (token ++ [' '] ++ time)
      else
        pure token
    | _ => pure token
  if token == "true".toList then return .flag true
  if token == "false".toList then return .flag false
  if Scalar.isScalar token then return .scalar (String.ofList token)
  failure

/-- The opening brace of a table. -/
def openBrace : String := "\x7b"

/-- The closing brace of a table. -/
def closeBrace : String := "\x7d"

mutual

/-- Takes a value; `bound` is larger than the number of characters that it takes. -/
def value : (bound : Nat) → Reader Value
  | 0 => failure
  | bound + 1 => do
    if (← sees "\"\"\"") then return .text (← tripleText '"')
    else if (← sees "'''") then return .text (← tripleText '\'')
    else if (← sees "\"") || (← sees "'") then return .text (← lineText)
    else if (← sees "[") then
      expect "["
      blank
      return .array (← items bound)
    else if (← sees openBrace) then
      expect openBrace
      blank
      return .table .braces (← fields bound [])
    else scalar

/-- Takes the items of an array and its closing bracket; `bound` is larger than the number of
characters that they take. -/
def items : (bound : Nat) → Reader (List Value)
  | 0 => failure
  | bound + 1 => do
    if ← sees "]" then
      expect "]"
      return []
    let first ← value bound
    blank
    if ← sees "," then
      expect ","
      blank
      return first :: (← items bound)
    else
      expect "]"
      return [first]

/-- Takes the entries of a table in braces, behind those already taken, and its closing brace;
`bound` is larger than the number of characters that they take. -/
def fields : (bound : Nat) → Entries → Reader Entries
  | 0, _ => failure
  | bound + 1, entries => do
    if ← sees closeBrace then
      expect closeBrace
      return entries
    let keys ← path
    expect "="
    spaces
    let v ← value bound
    let entries ← (entries.define keys v : Option Entries)
    blank
    if ← sees "," then
      expect ","
      blank
      fields bound entries
    else
      expect closeBrace
      return entries

end

/-! ### Documents -/

/-- Takes one line of a document: a header, an entry of the table under the last header, or
nothing. -/
def statement (header : List String) (entries : Entries) : Reader (List String × Entries) := do
  spaces
  if ← sees "[[" then
    expect "[["
    spaces
    let header ← path
    expect "]]"
    endOfLine
    return (header, ← (entries.openItem header : Option Entries))
  else if ← sees "[" then
    expect "["
    spaces
    let header ← path
    expect "]"
    endOfLine
    return (header, ← (entries.openTable header : Option Entries))
  else
    let text ← get
    match text with
    | [] => return (header, entries)
    | c :: _ =>
      if c == '#' || c == '\n' || c == '\r' then
        endOfLine
        return (header, entries)
      else
        let keys ← path
        expect "="
        spaces
        let v ← value (text.length + 1)
        endOfLine
        return (header, ← (entries.defineUnder header keys v : Option Entries))

/-- The entries of a document, read line by line; `bound` is at least as long as the text. -/
def statements (header : List String) (entries : Entries) :
    (bound text : List Char) → Option Entries
  | _, [] => some entries
  | [], _ => none
  | _ :: bound, text => do
    let ((header, entries), rest) ← statement header entries text
    statements header entries bound rest

end Reader

/-- The entries of a document; nothing if the text is not one.  A byte order mark at the start is
passed over. -/
def parse? (text : List Char) : Option Entries :=
  let body := match text with
    | '\uFEFF' :: rest => rest
    | _ => text
  Reader.statements [] [] body body

end SqlDialect.Toml
