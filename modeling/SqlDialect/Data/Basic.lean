/-!
# Data for other programs

Summaries and listings can be printed for other programs to read.  `Data` is what they hold; each
format has a printer of its own.
-/

namespace SqlDialect

/-- A value that can be printed in a format for data. -/
inductive Data where
  /-- A text. -/
  | text (chars : List Char)
  /-- A number. -/
  | number (n : Nat)
  /-- A truth value. -/
  | flag (b : Bool)
  /-- Values in an order. -/
  | list (items : List Data)
  /-- Values under keys, in an order. -/
  | record (fields : List (List Char × Data))
deriving Repr

namespace Data

/-- The text of a string. -/
def ofString (s : String) : Data := .text s.toList

/-- A value under a key. -/
def field (key : String) (value : Data) : List Char × Data := (key.toList, value)

/-- The word for a truth value. -/
def flagWord (b : Bool) : List Char :=
  if b then "true".toList else "false".toList

/-- The digits of a number. -/
def numeral (n : Nat) : List Char := (toString n).toList

/-- As many spaces. -/
def spaces (n : Nat) : List Char := List.replicate n ' '

/-- The digit of a hexadecimal numeral with lower-case letters. -/
def hexDigit (n : Nat) : Char :=
  if n < 10 then Char.ofNat ('0'.toNat + n) else Char.ofNat ('a'.toNat + (n - 10))

/-- The last `width` digits of the hexadecimal numeral of a number. -/
def hexNumeral : (width : Nat) → (n : Nat) → List Char
  | 0, _ => []
  | width + 1, n => hexNumeral width (n / 16) ++ [hexDigit (n % 16)]

end Data

end SqlDialect
