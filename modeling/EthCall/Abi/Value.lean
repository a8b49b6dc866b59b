import EthCall.Abi.Schema
import EthCall.Word

/-!
# Values

A **value** is what is encoded and decoded: a number, an address, a list
of values. A value carries enough shape to have exactly one schema
(`Value.schema`): a number keeps its declared width, and an array the
schema of its elements, so that even an empty array is an array of
something.

Nothing keeps the number in a value within its width. That is checked when
the value is encoded.
-/

namespace EthCall.Abi

/-- **What is encoded and decoded.** -/
inductive Value where
  /-- An unsigned number of a declared width. -/
  | uint (bits : Nat) (n : Nat)
  /-- A signed number of a declared width. -/
  | int (bits : Nat) (z : Int)
  /-- The address of an account. -/
  | address (a : Address)
  /-- A truth value. -/
  | bool (b : Bool)
  /-- A byte string whose size is part of its schema. -/
  | fixedBytes (bs : Bytes)
  /-- A byte string. -/
  | bytes (bs : Bytes)
  /-- A text. -/
  | string (s : String)
  /-- Items that are declared to have one schema, in any number. -/
  | array (element : Schema) (items : List Value)
  /-- Items that are declared to have one schema, their number being part
  of the schema of the whole. -/
  | fixedArray (element : Schema) (items : List Value)
  /-- One item after the other, each with its own schema. -/
  | tuple (items : List Value)
  deriving Inhabited

namespace Value

/-! ## The schema of a value -/

mutual

/-- **The one schema a value has.** That of an array is the declared one;
its items are not looked at. -/
def schema : Value → Schema
  | uint bits _ => .uint bits
  | int bits _ => .int bits
  | address _ => .address
  | bool _ => .bool
  | fixedBytes bs => .fixedBytes bs.length
  | bytes _ => .bytes
  | string _ => .string
  | array element _ => .array element
  | fixedArray element items => .fixedArray element items.length
  | tuple items => .tuple (schemas items)

/-- The schemas of several values. -/
def schemas : List Value → List Schema
  | [] => []
  | item :: rest => schema item :: schemas rest

end

/-! ## Equality -/

mutual

/-- Whether two values are the same. -/
def same : Value → Value → Bool
  | uint a m, uint b n => a == b && m == n
  | int a y, int b z => a == b && y == z
  | address a, address b => a == b
  | bool a, bool b => a == b
  | fixedBytes as, fixedBytes bs => as == bs
  | bytes as, bytes bs => as == bs
  | string a, string b => a == b
  | array s as, array t bs => s == t && sameAll as bs
  | fixedArray s as, fixedArray t bs => s == t && sameAll as bs
  | tuple as, tuple bs => sameAll as bs
  | _, _ => false

/-- Whether two lists of values are the same. -/
def sameAll : List Value → List Value → Bool
  | [], [] => true
  | a :: as, b :: bs => same a b && sameAll as bs
  | _, _ => false

end

mutual

/-- The test is equality. -/
theorem same_iff : (v w : Value) → (same v w = true ↔ v = w)
  | uint _ _, w => by cases w <;> simp [same]
  | int _ _, w => by cases w <;> simp [same]
  | address _, w => by cases w <;> simp [same]
  | bool _, w => by cases w <;> simp [same]
  | fixedBytes _, w => by cases w <;> simp [same]
  | bytes _, w => by cases w <;> simp [same]
  | string _, w => by cases w <;> simp [same]
  | array _ as, w => by cases w <;> simp [same, sameAll_iff as]
  | fixedArray _ as, w => by cases w <;> simp [same, sameAll_iff as]
  | tuple as, w => by cases w <;> simp [same, sameAll_iff as]

/-- The test on lists is equality. -/
theorem sameAll_iff : (vs ws : List Value) → (sameAll vs ws = true ↔ vs = ws)
  | [], ws => by cases ws <;> simp [sameAll]
  | v :: vs, ws => by cases ws <;> simp [sameAll, same_iff v, sameAll_iff vs]

end

instance : DecidableEq Value := fun v w => decidable_of_iff _ (same_iff v w)

/-! ## Showing a value -/

mutual

/-- **The text of a value**: numbers in decimal, bytes in hexadecimal,
texts quoted, the items of an array between brackets and those of a tuple
between parentheses. -/
def text : Value → String
  | uint _ n => Nat.repr n
  | int _ z => toString z
  | address a => Hex.write a.bytes
  | bool b => if b then "true" else "false"
  | fixedBytes bs => Hex.write bs
  | bytes bs => Hex.write bs
  | string s => Text.quoted s
  | array _ items => "[" ++ ", ".intercalate (texts items) ++ "]"
  | fixedArray _ items => "[" ++ ", ".intercalate (texts items) ++ "]"
  | tuple items => "(" ++ ", ".intercalate (texts items) ++ ")"

/-- The texts of several values. -/
def texts : List Value → List String
  | [] => []
  | item :: rest => text item :: texts rest

end

instance : ToString Value := ⟨text⟩

/-! ## What a value holds -/

/-- The number of an unsigned value. -/
def asUnsigned? : Value → Option Nat
  | uint _ n => some n
  | _ => none

/-- The number of a signed value. -/
def asSigned? : Value → Option Int
  | int _ z => some z
  | _ => none

/-- The address, if the value is one. -/
def asAddress? : Value → Option Address
  | address a => some a
  | _ => none

/-- The truth value, if the value is one. -/
def asBool? : Value → Option Bool
  | bool b => some b
  | _ => none

/-- The bytes of a byte string, of fixed size or not. -/
def asBytes? : Value → Option Bytes
  | bytes bs => some bs
  | fixedBytes bs => some bs
  | _ => none

/-- The text, if the value is one. -/
def asText? : Value → Option String
  | string s => some s
  | _ => none

/-- The items of an array or a tuple. -/
def items? : Value → Option (List Value)
  | array _ items => some items
  | fixedArray _ items => some items
  | tuple items => some items
  | _ => none

end Value

/-! ## Values from text -/

/-- Why a text is not the value that was asked for. -/
inductive ValueError where
  /-- It is not hexadecimal. -/
  | hex (error : HexError)
  /-- It is neither marked hexadecimal nor decimal. -/
  | notDecimal (s : String)
  /-- It is hexadecimal, but not of 20 bytes. -/
  | addressSize
  deriving DecidableEq

/-- The text of the error. -/
def ValueError.message : ValueError → String
  | .hex error => error.message
  | .notDecimal s => "Invalid decimal integer: " ++ s
  | .addressSize => "Address must be 20 bytes"

namespace Value

/-- Whether a text is marked as hexadecimal. -/
def isMarkedHex (s : String) : Bool :=
  match s.toList with
  | '0' :: 'x' :: _ => true
  | '0' :: 'X' :: _ => true
  | _ => false

/-- **A decimal number of any size.** One plus sign may stand in front,
and underscores anywhere behind the first digit. -/
def readDecimal? (s : String) : Option Nat :=
  let body := match s.toList with
    | '+' :: rest => rest
    | cs => cs
  match body with
  | [] => none
  | c :: rest =>
    if c.isDigit && rest.all fun d => d.isDigit || d == '_' then
      some (Nat.ofDigitChars 10 (c :: rest.filter Char.isDigit) 0)
    else none

/-- A 256-bit unsigned value from hexadecimal text, if it is marked, or
else from decimal text. The number may be too large for its width. -/
def uint256OfText (s : String) : Except ValueError Value :=
  if isMarkedHex s then
    match Hex.parse s with
    | .error e => .error (.hex e)
    | .ok bs => .ok (.uint 256 (Bytes.toNat bs))
  else
    match readDecimal? s with
    | some n => .ok (.uint 256 n)
    | none => .error (.notDecimal s)

/-- An address from hexadecimal text. -/
def addressOfText (s : String) : Except ValueError Value :=
  match Hex.parse s with
  | .error e => .error (.hex e)
  | .ok bs =>
    match FixedBytes.ofBytes? 20 bs with
    | some a => .ok (.address a)
    | none => .error .addressSize

/-- A byte string from hexadecimal text. -/
def bytesOfHex (s : String) : Except ValueError Value :=
  match Hex.parse s with
  | .error e => .error (.hex e)
  | .ok bs => .ok (.bytes bs)

end Value

end EthCall.Abi
