/-!
# Byte strings

Everything exchanged with a contract is a byte string: bytecode, calldata,
return data, the payload of a revert. A byte string is a list, so that the
laws of lists are the laws of byte strings, and two readings of it are
used throughout:

* `Bytes.toNat` reads it as a big-endian number, and `Bytes.ofNat` writes
  a number into a given width, dropping what does not fit;
* `FixedBytes n` is a byte string that is known to have `n` bytes – an
  address has 20, a word 32, a selector 4.
-/

namespace EthCall

/-- A byte string, first byte first. -/
abbrev Bytes := List UInt8

namespace Bytes

/-- The number a byte string spells, most significant byte first. -/
def toNat (bs : Bytes) : Nat :=
  bs.foldl (fun n b => n * 256 + b.toNat) 0

/-- The `width` low bytes of `n`, most significant first, in front of
`acc`. -/
def ofNatOnto : (width n : Nat) → (acc : Bytes) → Bytes
  | 0, _, acc => acc
  | width + 1, n, acc => ofNatOnto width (n / 256) (UInt8.ofNat n :: acc)

/-- **The big-endian form of a number in a given width.** The number is
reduced modulo `256 ^ width`. -/
def ofNat (width n : Nat) : Bytes :=
  ofNatOnto width n []

/-- Zero bytes. -/
def zeros (n : Nat) : Bytes :=
  List.replicate n 0

/-- A byte string without its leading zero bytes. -/
def dropLeadingZeros (bs : Bytes) : Bytes :=
  bs.dropWhile (· == 0)

/-- Whether every byte is zero. -/
def allZero (bs : Bytes) : Bool :=
  bs.all (· == 0)

/-- The bytes of a text in UTF-8. -/
def ofText (s : String) : Bytes :=
  s.toUTF8.data.toList

/-- The text whose UTF-8 form the bytes are, if they are one. -/
def toText? (bs : Bytes) : Option String :=
  String.fromUTF8? bs.toByteArray

/-! ## Sizes -/

theorem length_ofNatOnto (width n : Nat) (acc : Bytes) :
    (ofNatOnto width n acc).length = width + acc.length := by
  induction width generalizing n acc with
  | zero => simp [ofNatOnto]
  | succ k ih => simp [ofNatOnto, ih]; omega

/-- The big-endian form has the width asked for. -/
@[simp] theorem length_ofNat (width n : Nat) : (ofNat width n).length = width := by
  simp [ofNat, length_ofNatOnto]

@[simp] theorem length_zeros (n : Nat) : (zeros n).length = n :=
  List.length_replicate

end Bytes

/-- **A byte string of known size.** -/
structure FixedBytes (n : Nat) where
  /-- The bytes. -/
  bytes : Bytes
  /-- There are `n` of them. -/
  length_bytes : bytes.length = n
  deriving DecidableEq

namespace FixedBytes

variable {n : Nat}

/-- A byte string of the size demanded, or nothing. -/
def ofBytes? (n : Nat) (bs : Bytes) : Option (FixedBytes n) :=
  if h : bs.length = n then some ⟨bs, h⟩ else none

/-- The big-endian form of a number, reduced to `n` bytes. -/
def ofNat (n value : Nat) : FixedBytes n :=
  ⟨Bytes.ofNat n value, Bytes.length_ofNat n value⟩

/-- The number the bytes spell. -/
def toNat (b : FixedBytes n) : Nat :=
  Bytes.toNat b.bytes

/-- All bytes zero. -/
def zero (n : Nat) : FixedBytes n :=
  ⟨Bytes.zeros n, Bytes.length_zeros n⟩

instance : Inhabited (FixedBytes n) := ⟨zero n⟩

/-- Equal bytes are equal: the size adds nothing. -/
@[ext] theorem ext {a b : FixedBytes n} (h : a.bytes = b.bytes) : a = b := by
  cases a
  cases b
  cases h
  rfl

@[simp] theorem ofBytes?_bytes (b : FixedBytes n) : ofBytes? n b.bytes = some b := by
  simp [ofBytes?, b.length_bytes]

end FixedBytes

/-- The address of an account. -/
abbrev Address := FixedBytes 20

/-- The first bytes of calldata or of a revert payload, naming the
function or the error the rest belongs to. -/
abbrev Selector := FixedBytes 4

end EthCall
