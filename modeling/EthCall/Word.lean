import EthCall.Hex

/-!
# Words

The unit of everything a contract computes and exchanges is the **word**,
32 bytes. Whether a word holds an unsigned number or a signed one in two's
complement is the reader's business, so both readings are here, and both
ways into a word refuse a number that does not fit rather than cut it.

`UInt256` is the number a word holds while a machine computes with it;
`Word.toUInt256` and `Word.ofUInt256` go between the two.
-/

namespace EthCall

/-- **A word**: 32 bytes, most significant first. -/
abbrev Word := FixedBytes 32

/-- An unsigned number below `2 ^ 256`, with arithmetic modulo
`2 ^ 256`. -/
abbrev UInt256 := BitVec 256

/-- Why there is no such word. -/
inductive WordError where
  /-- A byte string of another size. -/
  | invalidLength (length : Nat)
  /-- Hexadecimal text for more than 32 bytes. -/
  | tooLong (length : Nat)
  /-- A number of `2 ^ 256` or more. -/
  | unsignedOverflow
  /-- A number outside `-2 ^ 255 … 2 ^ 255 - 1`. -/
  | signedOverflow
  /-- Text that is not hexadecimal. -/
  | hex (error : HexError)
  deriving DecidableEq

/-- The text of the error. -/
def WordError.message : WordError → String
  | .invalidLength length => s!"Invalid word length: expected 32 bytes, got {length}"
  | .tooLong length => s!"Hex value too long for a word: {length} bytes"
  | .unsignedOverflow => "Unsigned value does not fit in 256 bits"
  | .signedOverflow => "Signed value outside the int256 range"
  | .hex error => error.message

/-- How many values `bits` bits can take. -/
def powerOfTwo (bits : Nat) : Nat :=
  Nat.pow 2 bits

/-- Whether an unsigned number fits in `bits` bits. -/
def fitsUnsigned (n bits : Nat) : Bool :=
  n < powerOfTwo bits

/-- Whether a signed number fits in `bits` bits as two's complement: one
bit is for the sign. Nothing fits in no bits. -/
def fitsSigned (z : Int) (bits : Nat) : Bool :=
  bits ≠ 0 && -(powerOfTwo (bits - 1) : Int) ≤ z && z < powerOfTwo (bits - 1)

namespace Word

/-! ## Into a word -/

/-- The word made of exactly these bytes. -/
def ofBytes (bs : Bytes) : Except WordError Word :=
  match FixedBytes.ofBytes? 32 bs with
  | some w => .ok w
  | none => .error (.invalidLength bs.length)

/-- The word that holds a number already known to fit; any other is
reduced. -/
def ofNat (n : Nat) : Word :=
  FixedBytes.ofNat 32 n

/-- The two's complement of a number already known to fit: a negative
number is written as its complement to `2 ^ 256`. -/
def ofInt (z : Int) : Word :=
  ofNat (z % powerOfTwo 256).toNat

/-- **The word that holds an unsigned number.** -/
def ofUnsigned (n : Nat) : Except WordError Word :=
  if fitsUnsigned n 256 then .ok (ofNat n) else .error .unsignedOverflow

/-- **The word that holds a signed number** in two's complement. -/
def ofSigned (z : Int) : Except WordError Word :=
  if fitsSigned z 256 then .ok (ofInt z) else .error .signedOverflow

/-- **The word a hexadecimal text spells**, short texts being padded with
zero bytes in front. -/
def parseHex (s : String) : Except WordError Word :=
  match Hex.parse s with
  | .error e => .error (.hex e)
  | .ok bs => if bs.length ≤ 32 then .ok (ofNat (Bytes.toNat bs)) else .error (.tooLong bs.length)

/-! ## Out of a word -/

/-- The unsigned reading. -/
def toUnsigned (w : Word) : Nat :=
  w.toNat

/-- The sign bit, the top bit of the first byte. -/
def isNegative (w : Word) : Bool :=
  w.bytes.headD 0 &&& 0x80 != 0

/-- **The signed reading**, two's complement. -/
def toSigned (w : Word) : Int :=
  if w.isNegative then (w.toUnsigned : Int) - powerOfTwo 256 else w.toUnsigned

/-- The number of a word whose first 24 bytes are zero. -/
def toUInt64? (w : Word) : Option Nat :=
  if Bytes.allZero (w.bytes.take 24) then some (Bytes.toNat (w.bytes.drop 24)) else none

/-- Whether every byte is zero. -/
def isZero (w : Word) : Bool :=
  Bytes.allZero w.bytes

/-- The written form, all 32 bytes. -/
def toHex (w : Word) : String :=
  Hex.write w.bytes

/-- The form for the eye. -/
def toShortHex (w : Word) : String :=
  Hex.writeShort w.bytes

/-! ## Words and machine numbers -/

/-- The machine number a word holds. -/
def toUInt256 (w : Word) : UInt256 :=
  BitVec.ofNat 256 w.toUnsigned

/-- The word that holds a machine number. -/
def ofUInt256 (x : UInt256) : Word :=
  ofNat x.toNat

/-! ## Order -/

/-- The bytes of one word come before those of another in dictionary
order. -/
def precedes (a b : Word) : Bool :=
  decide (a.bytes < b.bytes)

/-- Words in ascending order, each of them once. -/
def sortDistinct (ws : List Word) : List Word :=
  let sorted := ws.mergeSort fun a b => !precedes b a
  sorted.foldr (fun w kept => if kept.head? = some w then kept else w :: kept) []

end Word

end EthCall
