/-!
# Numbers, dates and times in TOML

Only whether a token is one of them matters here, not what it stands for.
-/

namespace SqlDialect.Toml.Scalar

/-- Whether the text is made of such digits, with single underscores between digits only. -/
def isDigits (digit : Char → Bool) : List Char → Bool
  | [] => false
  | [c] => digit c
  | '_' :: _ => false
  | c :: '_' :: rest => digit c && isDigits digit rest
  | c :: rest => digit c && isDigits digit rest

/-- The text without a sign at its start. -/
def dropSign : List Char → List Char
  | '+' :: rest => rest
  | '-' :: rest => rest
  | text => text

/-- Whether the text is a decimal number without sign and without needless zeros. -/
def isDecimal : List Char → Bool
  | ['0'] => true
  | '0' :: _ => false
  | text => isDigits Char.isDigit text

/-- Whether the token is an integer. -/
def isInteger : List Char → Bool
  | '0' :: 'x' :: rest =>
    isDigits (fun c => c.isDigit || ('a' ≤ c.toLower && c.toLower ≤ 'f')) rest
  | '0' :: 'o' :: rest => isDigits (fun c => '0' ≤ c && c ≤ '7') rest
  | '0' :: 'b' :: rest => isDigits (fun c => c == '0' || c == '1') rest
  | text => isDecimal (dropSign text)

/-- Whether the text is an exponent, or empty. -/
def isExponent : List Char → Bool
  | [] => true
  | e :: rest => (e == 'e' || e == 'E') && isDigits Char.isDigit (dropSign rest)

/-- Whether the token is a floating-point number. -/
def isFloat (token : List Char) : Bool :=
  let body := dropSign token
  let isExponentMark := fun c => c == 'e' || c == 'E'
  let whole := body.takeWhile fun c => c != '.' && !isExponentMark c
  match body.drop whole.length with
  | [] => body == "inf".toList || body == "nan".toList
  | '.' :: rest =>
    isDecimal whole && isDigits Char.isDigit (rest.takeWhile (!isExponentMark ·)) &&
      isExponent (rest.dropWhile (!isExponentMark ·))
  | rest => isDecimal whole && isExponent rest

/-- The value of a text of exactly `count` digits. -/
def field? (count : Nat) (text : List Char) : Option Nat :=
  if text.length == count && text.all Char.isDigit then
    some (text.foldl (fun n c => n * 10 + (c.toNat - '0'.toNat)) 0)
  else
    none

/-- The number of days of a month. -/
def daysIn (year month : Nat) : Nat :=
  if month == 2 then
    if year % 4 == 0 && (year % 100 != 0 || year % 400 == 0) then 29 else 28
  else if month == 4 || month == 6 || month == 9 || month == 11 then 30
  else 31

/-- Whether the text is a date. -/
def isDate : List Char → Bool
  | [y1, y2, y3, y4, '-', m1, m2, '-', d1, d2] =>
    match field? 4 [y1, y2, y3, y4], field? 2 [m1, m2], field? 2 [d1, d2] with
    | some year, some month, some day =>
      1 ≤ month && month ≤ 12 && 1 ≤ day && day ≤ daysIn year month
    | _, _, _ => false
  | _ => false

/-- Whether the text is a field of at most `limit`. -/
def isFieldUpTo (limit : Nat) (text : List Char) : Bool :=
  (field? 2 text).any (· ≤ limit)

/-- Whether the text is a time of day; the seconds may be left out. -/
def isTime : List Char → Bool
  | h1 :: h2 :: ':' :: m1 :: m2 :: rest =>
    isFieldUpTo 23 [h1, h2] && isFieldUpTo 59 [m1, m2] &&
      match rest with
      | [] => true
      | [':', s1, s2] => isFieldUpTo 60 [s1, s2]
      | ':' :: s1 :: s2 :: '.' :: fraction =>
        isFieldUpTo 60 [s1, s2] && !fraction.isEmpty && fraction.all Char.isDigit
      | _ => false
  | _ => false

/-- Whether the text is a distance from universal time. -/
def isOffset : List Char → Bool
  | ['Z'] => true
  | ['z'] => true
  | sign :: h1 :: h2 :: ':' :: rest =>
    (sign == '+' || sign == '-') && isFieldUpTo 23 [h1, h2] && isFieldUpTo 59 rest
  | _ => false

/-- Whether the text is a time of day with or without an offset. -/
def isOffsetTime (text : List Char) : Bool :=
  let isSign := fun c => c == '+' || c == '-' || c == 'Z' || c == 'z'
  let time := text.takeWhile (!isSign ·)
  let offset := text.dropWhile (!isSign ·)
  isTime time && (offset.isEmpty || isOffset offset)

/-- Whether the token is a date, a time, or both. -/
def isDateTime (token : List Char) : Bool :=
  let date := token.take 10
  if isDate date then
    match token.drop 10 with
    | [] => true
    | mark :: time => (mark == 'T' || mark == 't' || mark == ' ') && isOffsetTime time
  else
    isTime token

/-- Whether the token is a number, a date or a time. -/
def isScalar (token : List Char) : Bool :=
  isInteger token || isFloat token || isDateTime token

end SqlDialect.Toml.Scalar
