/-!
# Decimal sizes

Widths and counts inside a type name are written in plain decimal: ASCII
digits, no sign, and no zero in front of another digit. With that every
number has one spelling, `Nat.repr`. Sizes are 64-bit, so a number beyond
`maxSize` is no size.
-/

namespace EthCall

/-- The largest size, count or offset. -/
def maxSize : Nat := 0xffffffffffffffff

namespace Text

/-- Whether the characters are the plain decimal form of some number. -/
def isPlainDecimal (cs : List Char) : Bool :=
  match cs with
  | [] => false
  | ['0'] => true
  | c :: rest => c != '0' && (c :: rest).all Char.isDigit

/-- The number digits spell. -/
def decimalValue (cs : List Char) : Nat :=
  Nat.ofDigitChars 10 cs 0

/-- **The size that characters spell in plain decimal**, if they do. -/
def size? (cs : List Char) : Option Nat :=
  if isPlainDecimal cs ∧ decimalValue cs ≤ maxSize then some (decimalValue cs) else none

end Text

end EthCall
