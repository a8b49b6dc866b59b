import EthCall.Bytes
import EthCall.Text.Quoted

/-!
# Hexadecimal text

Bytes travel as hexadecimal text: two digits a byte, marked by a leading
`0x`. There is one written form – marked, lower case, every byte present –
and reading is more liberal, for the marker is optional and the digits may
be of either case. Reading never truncates: a character that is no digit,
or a digit without its partner, is an error that says where.

* `Hex.write` and `Hex.parse` are the two directions;
* `Hex.writeShort` is for the eye and leaves leading zero bytes out.
-/

namespace EthCall

/-- Why a text is not hexadecimal. -/
inductive HexError where
  /-- All characters are digits, but their number is odd. -/
  | oddLength (digits : Nat)
  /-- A character is not a digit. The index counts bytes of the text
  behind its marker. -/
  | invalidCharacter (c : Char) (index : Nat)
  deriving DecidableEq

/-- The text of the error. -/
def HexError.message : HexError → String
  | .oddLength digits => s!"Odd number of hex digits: {digits}"
  | .invalidCharacter c index =>
    "Invalid hex character " ++ Text.quotedChar c ++ s!" at position {index}"

namespace Hex

/-! ## Digits -/

/-- The value of a hexadecimal digit of either case. -/
def digitValue? (c : Char) : Option Nat :=
  if '0' ≤ c ∧ c ≤ '9' then some (c.toNat - '0'.toNat)
  else if 'a' ≤ c ∧ c ≤ 'f' then some (c.toNat - 'a'.toNat + 10)
  else if 'A' ≤ c ∧ c ≤ 'F' then some (c.toNat - 'A'.toNat + 10)
  else none

/-- Whether a character is a hexadecimal digit. -/
def isDigit (c : Char) : Bool :=
  (digitValue? c).isSome

/-- The digits of a byte string, lower case and without a marker. -/
def digits (bs : Bytes) : List Char :=
  bs.flatMap fun b => [Nat.digitChar (b.toNat / 16), Nat.digitChar (b.toNat % 16)]

/-- The bytes that digits spell two by two, behind the reversed bytes
`acc`. -/
def ofDigitsOnto : (acc : Bytes) → List Char → Bytes
  | acc, high :: low :: rest =>
    let value := fun c => (digitValue? c).getD 0
    ofDigitsOnto (UInt8.ofNat (value high * 16 + value low) :: acc) rest
  | acc, _ => acc.reverse

/-! ## Writing -/

/-- The text without a marker. -/
def writeBare (bs : Bytes) : String :=
  String.ofList (digits bs)

/-- **The written form of a byte string.** -/
def write (bs : Bytes) : String :=
  String.ofList ('0' :: 'x' :: digits bs)

/-- The form for the eye: leading zero bytes are left out, but one zero
byte is shown where nothing else is left. -/
def writeShort (bs : Bytes) : String :=
  match Bytes.dropLeadingZeros bs with
  | [] => write [0]
  | b :: rest => write (b :: rest)

/-! ## Reading -/

/-- The characters behind the marker, if there is one. -/
def dropMarker : List Char → List Char
  | '0' :: 'x' :: rest => rest
  | '0' :: 'X' :: rest => rest
  | cs => cs

/-- The first character that is not a digit, with its position. All
characters before it are digits, so positions count bytes. -/
def firstInvalid? : (index : Nat) → List Char → Option (Char × Nat)
  | _, [] => none
  | index, c :: rest => if isDigit c then firstInvalid? (index + 1) rest else some (c, index)

/-- How many bytes the characters take in UTF-8. -/
def utf8Length (cs : List Char) : Nat :=
  cs.foldl (fun n c => n + c.utf8Size) 0

/-- The character whose code is the first UTF-8 byte of a character: the
character itself where it is ASCII. -/
def leadingByte (c : Char) : Char :=
  Char.ofNat ((String.utf8EncodeChar c).headD 0).toNat

/-- **Read hexadecimal text.** A character that is no digit is reported
before an odd number of digits. Where the text has an even number of
bytes it is examined byte by byte, so that what is reported of a character
outside ASCII is its first byte. -/
def parse (s : String) : Except HexError Bytes :=
  let body := dropMarker s.toList
  match firstInvalid? 0 body with
  | some (c, index) =>
    .error (.invalidCharacter (if utf8Length body % 2 = 0 then leadingByte c else c) index)
  | none =>
    if body.length % 2 = 0 then .ok (ofDigitsOnto [] body)
    else .error (.oddLength body.length)

end Hex

/-! ## Byte strings of known size -/

/-- Why a text is not a byte string of the size asked for. -/
inductive FixedHexError where
  /-- It is not hexadecimal. -/
  | hex (error : HexError)
  /-- It is a byte string of another size. -/
  | size (expected got : Nat)
  deriving DecidableEq

/-- The text of the error. -/
def FixedHexError.message : FixedHexError → String
  | .hex error => error.message
  | .size expected got => s!"expected {expected} bytes, got {got}"

/-- A byte string of known size from hexadecimal text. -/
def FixedBytes.parseHex (n : Nat) (s : String) : Except FixedHexError (FixedBytes n) :=
  match Hex.parse s with
  | .error e => .error (.hex e)
  | .ok bs =>
    match FixedBytes.ofBytes? n bs with
    | some b => .ok b
    | none => .error (.size n bs.length)

end EthCall
