import SqlDialect.Encoding.ShiftJis
import SqlDialect.Failure
import SqlDialect.Text.Utf8

/-!
# Encodings of documents

Documents are in UTF-8, with or without a byte order mark.  Octets that are not are taken for
Shift_JIS, in which older exports were saved, and fail if they are not that either.
-/

namespace SqlDialect

/-- The encoding that a document was found to be in. -/
inductive Encoding where
  /-- UTF-8. -/
  | utf8
  /-- UTF-8 behind a byte order mark. -/
  | utf8Marked
  /-- Shift_JIS. -/
  | shiftJis
deriving Repr, DecidableEq

namespace Encoding

/-- The name of the encoding in summaries. -/
def label : Encoding → String
  | utf8 => "UTF-8"
  | utf8Marked => "UTF-8 (BOM)"
  | shiftJis => "Shift_JIS"

/-- The byte order mark. -/
def mark : List UInt8 := [0xEF, 0xBB, 0xBF]

/-- The octets without a byte order mark, and the form of UTF-8 that they would be in. -/
def dropMark (octets : List UInt8) : List UInt8 × Encoding :=
  if mark.isPrefixOf octets then (octets.drop mark.length, utf8Marked) else (octets, utf8)

/-- The text of a document and its encoding.  A byte order mark that is not followed by UTF-8
belongs to the text. -/
def decode (path : String) (octets : List UInt8) : Except Failure (List Char × Encoding) :=
  let (body, encoding) := dropMark octets
  match Text.ofUtf8? body with
  | some text => .ok (text, encoding)
  | none =>
    match ShiftJis.decode? octets with
    | some text => .ok (text, shiftJis)
    | none => .error (.undecodable path shiftJis.label)

end Encoding

end SqlDialect
