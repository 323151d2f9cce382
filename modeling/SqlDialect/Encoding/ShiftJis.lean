import SqlDialect.Encoding.ShiftJisTable

/-!
# Shift_JIS

A character is one octet, or a lead octet and a trail octet.  The pairs count through the rows of
`ShiftJis.rows`, except for a block of lead octets whose pairs are private-use characters.
-/

namespace SqlDialect.ShiftJis

/-- The character that the octet stands for by itself. -/
def single? (b : UInt8) : Option Char :=
  let n := b.toNat
  if n ≤ 0x80 then some (Char.ofNat n)
  else if 0xA1 ≤ n && n ≤ 0xDF then some (Char.ofNat (0xFF61 + (n - 0xA1)))
  else none

/-- Whether the octet is the first one of a pair. -/
def isLead (b : UInt8) : Bool :=
  let n := b.toNat
  (0x81 ≤ n && n ≤ 0x9F) || (0xE0 ≤ n && n ≤ 0xFC)

/-- The number of a pair whose lead octet is one. -/
def number? (lead trail : UInt8) : Option Nat :=
  let l := lead.toNat
  let t := trail.toNat
  if (0x40 ≤ t && t ≤ 0x7E) || (0x80 ≤ t && t ≤ 0xFC) then
    some ((if l < 0xA0 then l - 0x81 else l - 0xC1) * 188 +
      (if t < 0x7F then t - 0x40 else t - 0x41))
  else
    none

/-- The number of the first private-use pair. -/
def firstPrivate : Nat := 8836

/-- The number of private-use pairs. -/
def privateCount : Nat := 1880

/-- The character that the pair stands for. -/
def pair? (lead trail : UInt8) : Option Char := do
  let number ← number? lead trail
  if firstPrivate ≤ number && number < firstPrivate + privateCount then
    some (Char.ofNat (0xE000 + (number - firstPrivate)))
  else
    character? number

/-- The characters of the text, when those before it were collected last one first. -/
def decodeFrom (done : List Char) : List UInt8 → Option (List Char)
  | [] => some done.reverse
  | b :: rest =>
    match single? b with
    | some c => decodeFrom (c :: done) rest
    | none =>
      if isLead b then
        match rest with
        | [] => none
        | trail :: rest =>
          match pair? b trail with
          | some c => decodeFrom (c :: done) rest
          | none => none
      else
        none

/-- The characters of a text in Shift_JIS; nothing if the octets are not one. -/
def decode? (octets : List UInt8) : Option (List Char) :=
  decodeFrom [] octets

end SqlDialect.ShiftJis
