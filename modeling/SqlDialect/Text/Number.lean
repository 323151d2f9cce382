import SqlDialect.Text.Basic

/-!
# Numbers in text

Numbers are read from ASCII digits only.  `natural?` and `integer?` read whole numbers of bounded
size, and `decimal?` decimal numerals; `isNumeral` tells whether a token reads as a floating-point
number.
-/

namespace SqlDialect.Text

/-- The value of a digit string, continued from `value`. -/
def digitsValue (value : Nat) : List Char → Nat
  | [] => value
  | c :: rest => digitsValue (value * 10 + (c.toNat - '0'.toNat)) rest

/-- The number that a non-empty string of ASCII digits stands for. -/
def natural? (text : List Char) : Option Nat :=
  if !text.isEmpty && text.all Char.isDigit then some (digitsValue 0 text) else none

/-- A number below 2³². -/
def word32? (text : List Char) : Option Nat :=
  (natural? text).filter (· < UInt32.size)

/-- A whole number from -2⁶³ to 2⁶³ - 1, with an optional sign. -/
def integer? (text : List Char) : Option Int :=
  let bound : Int := Nat.pow 2 63
  let inRange (n : Int) : Option Int := if -bound ≤ n && n < bound then some n else none
  match text with
  | '-' :: rest => (natural? rest).bind fun n => inRange (-n)
  | '+' :: rest => (natural? rest).bind fun n => inRange n
  | _ => (natural? text).bind fun n => inRange n

/-- The exponent that the text stands for: nothing, or `e` with an optional sign and digits. -/
def exponent? : List Char → Option Int
  | [] => some 0
  | e :: rest =>
    if e == 'e' || e == 'E' then
      match rest with
      | '+' :: digits => (natural? digits).map Int.ofNat
      | '-' :: digits => (natural? digits).map fun n => -n
      | digits => (natural? digits).map Int.ofNat
    else none

/-- The mantissa and the power of ten of a decimal numeral without a sign: digits with an optional
point and exponent, at least one digit being next to the point. -/
def decimal? (token : List Char) : Option (Nat × Int) :=
  let whole := token.takeWhile Char.isDigit
  let (fraction, rest) := match token.dropWhile Char.isDigit with
    | '.' :: rest => (rest.takeWhile Char.isDigit, rest.dropWhile Char.isDigit)
    | rest => ([], rest)
  if whole.isEmpty && fraction.isEmpty then none
  else (exponent? rest).map fun e => (digitsValue 0 (whole ++ fraction), e - fraction.length)

/-- Whether the token reads as a floating-point number: a decimal numeral, or a name of infinity or
of no number. -/
def isNumeral (token : List Char) : Bool :=
  (["inf", "infinity", "nan"].any fun name => sameIgnoringCase name.toList token) ||
    (decimal? token).isSome

/-- Whether a positive decimal is small enough for a floating-point number of 64 bits: it must be
nearer to the largest of them than to the next power of two. -/
def fitsFloat (mantissa : Nat) (exponent : Int) : Bool :=
  let magnitude := (Nat.toDigits 10 mantissa).length + exponent
  if mantissa = 0 || magnitude ≤ 308 then true
  else if 309 < magnitude then false
  else
    mantissa * Nat.pow 10 exponent.toNat <
      (Nat.pow 2 1024 - Nat.pow 2 970) * Nat.pow 10 (-exponent).toNat

end SqlDialect.Text
