import SqlDialect.Rule.Call

/-!
# Function calls with arguments

Calls whose arguments or surroundings change: truncation and averages, pattern matching, list
aggregation, null handling and array access.
-/

namespace SqlDialect.Rule

open Pattern

/-- Text without parentheses. -/
def parenFree : Pattern := star (one (.noneOf "()"))

/-- A pair of parentheses around text without any. -/
def flatParens : Pattern := char '(' ++ parenFree ++ char ')'

/-- A value: text with at most one pair of parentheses, which hold none. -/
def truncatedValue : Pattern := parenFree ++ optional flatParens ++ parenFree

/-- The truncation of a timestamp. -/
def truncation : Pattern :=
  boundary ++ keyword "trunc(" ++ blanks ++ char '(' ++ group "value" truncatedValue ++
    keyword ")::timestamp" ++
    optional (gap ++ keyword "with" ++ optional (keyword "out") ++ gap ++ phrase ["time", "zone"]) ++
    blanks ++ char ')'

/-- The call that takes the place of the truncation of a timestamp. -/
def dayOf (m : Match) : List Char :=
  "DATE_TRUNC('DAY', ".toList ++ Text.trim (m.textOf "value") ++ [')']

/-- Truncation of a value cast to a timestamp is `DATE_TRUNC` to the day. -/
def truncTimestamp : Rule where
  id := "FUNC008"
  name := "trunc(timestamp) to DATE_TRUNC('DAY', ...)"
  category := .function
  edit? _ line := substitute truncation dayOf line

/-- The regular expression for a `SIMILAR TO` pattern, as the body of a string literal. -/
def similarToRegex (pattern : List Char) : List Char :=
  pattern.flatMap fun c =>
    if c == '%' then ['.', '*']
    else if c == '_' then ['.']
    else if c == '.' then ['\\', '\\', '.']
    else [c]

/-- A character of the name that a left operand starts with. -/
def nameSet : CharSet := .word ∪ .exactly '.'

/-- A left operand: a name with points, perhaps with a pair of parentheses behind it. -/
def leftOperand : Pattern := plus (one nameSet) ++ optional flatParens

/-- A comparison with a pattern. -/
def comparison : Pattern :=
  group "operand" leftOperand ++ gap ++ optional (group "negation" (keyword "NOT" ++ gap)) ++
    phrase ["SIMILAR", "TO"] ++ gap ++ char '\'' ++ group "pattern" (star (one (.noneOf "'"))) ++
    char '\''

/-- The call that takes the place of a comparison. -/
def regexpLike (m : Match) : List Char :=
  (if m.has "negation" then "NOT ".toList else []) ++ "REGEXP_LIKE(".toList ++ m.textOf "operand" ++
    ", '".toList ++ similarToRegex (m.textOf "pattern") ++ "')".toList

/-- `x SIMILAR TO 'p'` is a call of `REGEXP_LIKE`. -/
def similarTo : Rule where
  id := "FUNC009"
  name := "SIMILAR TO to REGEXP_LIKE"
  category := .function
  edit? _ line :=
    match (comparison.matchesIn line).filter fun m => Literal.inCode line m.start with
    | [] => none
    | first :: _ =>
      let call (m : Match) := if Literal.inCode line m.start then regexpLike m else m.text
      some (.changed (comparison.replaceIn call line) (Text.trim first.text))

/-- A call of `TRUNC` has just been opened. -/
def truncOpening : Pattern := callOf "TRUNC" ++ blanks

/-- The clause that makes an aggregate a window function. -/
def overClause : Pattern := lineStart ++ blanks ++ keyword "OVER" ++ boundary

/-- The edit of a call of `AVG`: window functions and averages that are truncated already stay. -/
def truncateAverage (call : Call) : CallEdit :=
  if (truncOpening ++ lineEnd).occursIn call.before || overClause.occursIn call.after then .keep
  else .replace ("TRUNC(".toList ++ call.text ++ [')']) (call.closing + 1)

/-- Averages are truncated, as they are over integers in Redshift.  Lines that call the functions
`f_ai` and `f_vi` stay, since these truncate by themselves. -/
def truncatedAverage : Rule where
  id := "FUNC011"
  name := "AVG wrapped in TRUNC"
  category := .function
  edit? _ line :=
    if Literal.codeMatches
        (boundary ++ keyword "f_" ++ (keyword "ai" <|> keyword "vi") ++ blanks ++ char '(')
        line then
      none
    else
      editCalls (callOf "AVG") truncateAverage line

/-- The word in front of the arguments of an aggregate over distinct values. -/
def distinctWord : Pattern := lineStart ++ blanks ++ keyword "DISTINCT" ++ gap

/-- The clause that gives an aggregate its order, up to its opening parenthesis. -/
def withinGroup : Pattern := lineStart ++ blanks ++ phrase ["WITHIN", "GROUP"] ++ blanks ++ char '('

/-- The edit of a call of `LISTAGG`: one over distinct values, with an order, becomes a call of
`f_list_distinct`; one without an order is flagged. -/
def distinctListEdit (call : Call) : CallEdit :=
  match distinctWord.find? call.args with
  | none => .keep
  | some distinct =>
    let args := call.args.drop distinct.stop
    match withinGroup.find? call.after with
    | none => .flag
    | some within =>
      let groupOpening := call.closing + within.stop
      match Line.matchingParen call.line groupOpening with
      | none => .keep
      | some groupClosing =>
        let separator := match Line.splitArgs args with
          | _ :: separator :: _ => Text.trim separator
          | _ => "''".toList
        .replace
          ("f_list_distinct(LISTAGG(".toList ++ Text.trim args ++ ") WITHIN GROUP ".toList ++
            (call.line.take (groupClosing + 1)).drop groupOpening ++ ", ".toList ++ separator ++
            [')'])
          (groupClosing + 1)

/-- A list of distinct values is made distinct after the aggregation.  If no call on the line can
be changed, the line stays and the last call without an order is reported. -/
def distinctList : Rule where
  id := "FUNC012"
  name := "LISTAGG(DISTINCT) to f_list_distinct"
  category := .function
  edit? _ line :=
    let seen := CallVisit.run (callOf "LISTAGG") distinctListEdit line
    match seen.note with
    | some note => some (.changed seen.line note)
    | none => seen.flagged.map fun call =>
      .changed line ("WARNING: ".toList ++ call ++ " without WITHIN GROUP left as is".toList)

/-- A call with a single argument gets `null` for a second one. -/
def padSingleArgument (call : Call) : CallEdit :=
  match Line.splitArgs call.args with
  | [arg] =>
    if Line.isBlank arg then .keep
    else
      .replace ((call.line.take call.closing).drop call.start ++ ", null)".toList)
        (call.closing + 1)
  | _ => .keep

/-- `COALESCE` needs two arguments. -/
def coalesce : Rule where
  id := "FUNC013"
  name := "single-argument COALESCE padded with null"
  category := .function
  edit? _ line := editCalls (callOf "COALESCE") padSingleArgument line

/-- `NVL` needs two arguments; lines with `ORDER BY` or `UNKNOWN` stay. -/
def nvl : Rule where
  id := "FUNC014"
  name := "single-argument NVL padded with null"
  category := .function
  edit? _ line :=
    if Literal.codeMatches (boundary ++ phrase ["ORDER", "BY"] ++ boundary) line ||
        Literal.codeMatches (wholeWord "UNKNOWN") line then
      none
    else
      editCalls (callOf "NVL") padSingleArgument line

/-- The edit of a call that takes an element of a JSON array. -/
def subscriptElement (call : Call) : CallEdit :=
  match Line.splitArgs call.args with
  | json :: index :: _ =>
    .replace ("PARSE_JSON(".toList ++ Text.trim json ++ ")[".toList ++ Text.trim index ++ [']'])
      (call.closing + 1)
  | _ => .keep

/-- The element of a JSON array is a subscript of the parsed array. -/
def jsonArrayElement : Rule where
  id := "FUNC015"
  name := "JSON_EXTRACT_ARRAY_ELEMENT_TEXT to PARSE_JSON subscript"
  category := .function
  edit? _ line := editCalls (callOf "JSON_EXTRACT_ARRAY_ELEMENT_TEXT") subscriptElement line

end SqlDialect.Rule
