import EthCall.Abi.Encode
import EthCall.Proofs.Abi.Trapping

/-!
# Encoding, operation by operation

The encoder of `EthCall.Abi.Encode` once more, with operations that can
trap (`Trap`). Three things are left open there that a program cannot leave
open. Sizes are added without an end. A number that was found to fit its
width is made a word, which refuses numbers as well. And the values of a
sequence are paired with its schemas, whatever is left over of the one or
the other.

The last is no trap of the program, which would leave the rest out in
silence. It is one here (`encodeMembers`), so that a writing without a trap
is one that leaves nothing out.

What becomes of a size beyond 64 bits is not the program's choice, but is
made when it is compiled (`Excess`). Both ways are written down.
-/

namespace EthCall.Abi.Trapping

/-! ## Writings -/

/-- A computation that encodes, and that traps where an operation has no
result. -/
abbrev Writing := ExceptT AbiError (Except Trap)

/-- **What becomes of a size that exceeds 64 bits.** A program is compiled
in one of two ways. -/
inductive Excess where
  /-- What exceeds 64 bits is lost. -/
  | wraps
  /-- The operation has no result. -/
  | traps
  deriving DecidableEq

/-- A number that is computed as a size. -/
def size (excess : Excess) (n : Nat) : Except Trap Nat :=
  match excess with
  | .wraps => .ok (n % (maxSize + 1))
  | .traps => if n ≤ maxSize then .ok n else .error .overflow

/-- A number made a word. It is known to fit by then, and a refusal would
be for nothing that encoding has looked for. -/
def converted (w : Except WordError Word) : Except Trap Word :=
  match w with
  | .ok w => .ok w
  | .error _ => .error .overflow

/-- A byte string, cut or filled with zero bytes to a length. -/
def resize (bs : Bytes) (length : Nat) : Bytes :=
  bs.take length ++ Bytes.zeros (length - bs.length)

/-- A byte string behind its length, padded to whole words. -/
def lengthPrefixed (excess : Excess) (bs : Bytes) : Except Trap Bytes := do
  let padded ← size excess ((bs.length + 31) / 32 * 32)
  let total ← size excess (32 + padded)
  return resize ((Word.ofNat bs.length).bytes ++ bs) total

mutual

/-- **The encoding of a value against a schema.** The two are taken apart
together once they are known to belong together, and that they then do not
is what the last line is for. -/
def encodeValue (excess : Excess) (v : Value) (s : Schema) : Writing Bytes :=
  if v.schema = s then
    match v, s with
    | .uint _ n, .uint bits =>
      if fitsUnsigned n bits then do
        let w ← converted (Word.ofUnsigned n)
        return w.bytes
      else throw (.overflow (.uint bits) n)
    | .int _ z, .int bits => do
      if ← fitsSigned z bits then
        let w ← converted (Word.ofSigned z)
        return w.bytes
      else throw (.overflow (.int bits) z)
    | .address a, .address => Trap.overwrite (Bytes.zeros 32) 12 32 a.bytes
    | .bool b, .bool => return (Word.ofNat b.toNat).bytes
    | .fixedBytes bs, .fixedBytes _ => Trap.overwrite (Bytes.zeros 32) 0 bs.length bs
    | .bytes bs, .bytes => lengthPrefixed excess bs
    | .string s, .string => lengthPrefixed excess (Bytes.ofText s)
    | .array _ items, .array element => do
      let body ← encodeMembers excess
        (Schema.headSizes (List.replicate items.length element)) items
        (List.replicate items.length element) [] []
      return (Word.ofNat items.length).bytes ++ body
    | .fixedArray _ items, .fixedArray element _ =>
      encodeMembers excess (Schema.headSizes (List.replicate items.length element)) items
        (List.replicate items.length element) [] []
    | .tuple items, .tuple members =>
      encodeMembers excess (Schema.headSizes members) items members [] []
    | _, _ => throw (.typeMismatch s v.schema)
  else throw (.typeMismatch s v.schema)

/-- The encodings of the values of a sequence, behind the heads and tails
that are there already. Values that are left when the schemas are used up,
or the other way round, would be left out. -/
def encodeMembers (excess : Excess) (headSize : Nat) (vs : List Value) (ss : List Schema)
    (heads tails : Bytes) : Writing Bytes :=
  match vs, ss with
  | v :: vs, s :: ss => do
    let body ← encodeValue excess v s
    if s.isDynamic then
      let offset ← size excess (headSize + tails.length)
      encodeMembers excess headSize vs ss (heads ++ (Word.ofNat offset).bytes) (tails ++ body)
    else encodeMembers excess headSize vs ss (heads ++ body) tails
  | [], [] => return heads ++ tails
  | _, _ => liftM (.error .lengthMismatch : Except Trap Bytes)

end

/-- **The encoding of values against as many schemas.** -/
def encode (excess : Excess) (values : List Value) (schemas : List Schema) : Writing Bytes :=
  match Schema.defectIn? schemas with
  | some e => throw (.invalidType e)
  | none =>
    if values.length = schemas.length then
      encodeMembers excess (Schema.headSizes schemas) values schemas [] []
    else throw (.lengthMismatch schemas.length values.length)

end EthCall.Abi.Trapping
