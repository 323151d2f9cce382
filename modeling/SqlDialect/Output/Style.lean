import SqlDialect.Data.Json
import SqlDialect.Data.Yaml

/-!
# Styles of output

A summary or a listing is a text for people, in colours or not, or data for other programs.
-/

namespace SqlDialect

/-- The format of a summary or a listing. -/
inductive Format where
  /-- Text for people. -/
  | text
  /-- JSON. -/
  | json
  /-- YAML. -/
  | yaml
deriving Repr, DecidableEq

namespace Format

/-- The name of the format on the command line. -/
def name : Format → String
  | text => "text"
  | json => "json"
  | yaml => "yaml"

/-- The format with the given name. -/
def ofName? (s : String) : Option Format :=
  [text, json, yaml].find? (·.name == s)

end Format

/-- How a summary or a listing is shown. -/
structure Style where
  /-- The format. -/
  format : Format
  /-- Whether a text is in colours. -/
  coloured : Bool
  /-- Whether a text tells about each document. -/
  verbose : Bool
deriving Repr, DecidableEq

/-- A way to set off a part of a text. -/
inductive Paint where
  /-- Bold. -/
  | bold
  /-- Cyan. -/
  | cyan
  /-- Yellow. -/
  | yellow
  /-- Red. -/
  | red
  /-- Green. -/
  | green
  /-- Bold and red. -/
  | boldRed
  /-- Bold and green. -/
  | boldGreen
deriving Repr, DecidableEq

namespace Paint

/-- The terminal code that starts the part. -/
def code : Paint → String
  | bold => "1"
  | cyan => "36"
  | yellow => "33"
  | red => "31"
  | green => "32"
  | boldRed => "1;31"
  | boldGreen => "1;32"

/-- Whether output is in colours: if they are forced, or else if the output is a terminal and
they are not turned off.  `lookup` gives the values of environment variables. -/
def wanted (lookup : String → Option String) (terminal : Bool) : Bool :=
  let forced := (lookup "CLICOLOR_FORCE").any (· != "0")
  let plain := (lookup "NO_COLOR").isSome || lookup "CLICOLOR" == some "0"
  forced || (terminal && !plain)

end Paint

namespace Style

/-- The part of a text, set off if the text is in colours. -/
def paint (style : Style) (p : Paint) (part : String) : String :=
  if style.coloured then "\x1b[" ++ p.code ++ "m" ++ part ++ "\x1b[0m" else part

end Style

/-- The text with spaces behind it, `width` characters at least. -/
def Text.padEnd (width : Nat) (s : String) : String :=
  s ++ String.ofList (List.replicate (width - s.length) ' ')

/-- The text with spaces before it, `width` characters at least. -/
def Text.padStart (width : Nat) (s : String) : String :=
  String.ofList (List.replicate (width - s.length) ' ') ++ s

/-- The text with a line feed at its end. -/
def Text.endLineFeed (text : List Char) : List Char :=
  if Text.endsWith text '\n' then text else text ++ ['\n']

end SqlDialect
