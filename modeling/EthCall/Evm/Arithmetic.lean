import EthCall.Evm.Opcode
import EthCall.Word

/-!
# What instructions compute

The numbers on the stack are `UInt256`, numbers modulo `2 ^ 256`. Signed
instructions read them in two's complement. Division by zero gives zero,
and so does the remainder of it; a shift or an index that is out of range
gives what an unbounded one would.
-/

namespace EthCall.Evm

/-- One for true, zero for false. -/
def flag (b : Bool) : UInt256 := if b then 1 else 0

/-- The number big-endian bytes spell, reduced. -/
def numberOfBytes (bs : Bytes) : UInt256 :=
  BitVec.ofNat 256 (Bytes.toNat bs)

/-- **Powers, reduced at each step**, by repeated squaring. -/
def power (base : UInt256) (exponent : Nat) : UInt256 :=
  if exponent = 0 then 1
  else
    let half := power (base * base) (exponent / 2)
    if exponent % 2 = 1 then base * half else half
termination_by exponent

/-- The signed number in the low `byteIndex + 1` bytes, widened. An index
past the last byte leaves the number as it is. -/
def signExtend (byteIndex x : UInt256) : UInt256 :=
  if byteIndex.toNat < 31 then (x.setWidth (8 * (byteIndex.toNat + 1))).signExtend 256 else x

/-- The byte at an index counted from the most significant one. -/
def byteAt (index x : UInt256) : UInt256 :=
  if index.toNat < 32 then (x >>> (8 * (31 - index.toNat))) &&& 0xff else 0

/-- What a unary instruction computes. -/
def UnaryOp.apply : UnaryOp → UInt256 → UInt256
  | isZero, a => flag (a == 0)
  | not, a => ~~~a

/-- **What a binary instruction computes** from the top of the stack and
the number below it. -/
def BinaryOp.apply : BinaryOp → (top below : UInt256) → UInt256
  | add, a, b => a + b
  | mul, a, b => a * b
  | sub, a, b => a - b
  | div, a, b => a / b
  | sdiv, a, b => a.sdiv b
  | mod, a, b => if b = 0 then 0 else a % b
  | smod, a, b => if b = 0 then 0 else a.srem b
  | exp, a, b => power a b.toNat
  | signExtend, a, b => Evm.signExtend a b
  | lt, a, b => flag (a.ult b)
  | gt, a, b => flag (b.ult a)
  | slt, a, b => flag (a.slt b)
  | sgt, a, b => flag (b.slt a)
  | eq, a, b => flag (a == b)
  | and, a, b => a &&& b
  | or, a, b => a ||| b
  | xor, a, b => a ^^^ b
  | byte, a, b => byteAt a b
  | shl, a, b => if a.toNat < 256 then b <<< a.toNat else 0
  | shr, a, b => if a.toNat < 256 then b >>> a.toNat else 0
  | sar, a, b => b.sshiftRight (min a.toNat 256)

/-- What a ternary instruction computes. The sum and the product are not
reduced before the remainder is taken. -/
def TernaryOp.apply : TernaryOp → (top second third : UInt256) → UInt256
  | addMod, a, b, n => if n = 0 then 0 else BitVec.ofNat 256 ((a.toNat + b.toNat) % n.toNat)
  | mulMod, a, b, n => if n = 0 then 0 else BitVec.ofNat 256 (a.toNat * b.toNat % n.toNat)

end EthCall.Evm
