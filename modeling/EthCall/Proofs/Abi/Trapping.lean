import EthCall.Abi.Payload
import EthCall.Proofs.Trap

/-!
# Decoding, operation by operation

The readers of `EthCall.Abi.Decode` have numbers without an end, and a
slice of a buffer is whatever part of it is there. Here they are written
once more with operations that can trap (`Trap`): every offset that is
added to is a size of 64 bits, every slice and index has to exist, and the
bytes of a word are counted as they are copied.

A sum that a reader checks by itself is refused as an error, and traps
nowhere; it is `Trap.checkedAdd?`. All others are `Trap.add`. Which of the
two a reader uses at which place is the whole content of this module.

`Usage` keeps account of what a reading does to the memory it has: of
which bytes were looked at, and of how many items there is to be room for
whenever a list is set up for the items of an array.
-/

namespace EthCall.Abi.Trapping

/-! ## Readings -/

/-- **What a reading has used** of its buffer and of the memory, so
far. -/
structure Usage where
  /-- How many bytes may still be charged. -/
  remaining : Nat
  /-- The stretches that were looked at, the latest first. -/
  read : List Span
  /-- For how many items lists were set up, the latest first. -/
  allocated : List Nat

/-- Nothing is used yet of so many bytes. -/
def Usage.fresh (size : Nat) : Usage := ⟨size, [], []⟩

/-- A computation that decodes, and that traps where an operation has no
result. -/
abbrev Reading := ExceptT AbiError (StateT Usage (Except Trap))

/-- Look at the bytes from `first` on that are in front of `last`. They are
on record also if they are not there. -/
def slice (b : Buffer) (first last : Nat) : Reading Bytes := do
  modify fun usage => { usage with read := ⟨first, last - first⟩ :: usage.read }
  Trap.slice b.bytes.toList first last

/-- Set up a list for so many items. -/
def allocate (count : Nat) : Reading Unit :=
  modify fun usage => { usage with allocated := count :: usage.allocated }

/-- Charge for so many bytes. -/
def charge (len : Nat) : Reading Unit := do
  let usage ← get
  match Trap.checkedSub? usage.remaining len with
  | some rest => set { usage with remaining := rest }
  | none => throw (.corrupt .overlap)

/-! ## The bytes of a word -/

/-- A word as a size: 24 bytes that are zero, and 8 that are read. -/
def toSize? (w : Word) : Except Trap (Option Nat) := do
  let high ← Trap.slice w.bytes 0 24
  if Bytes.allZero high then
    let low ← Trap.fixed 8 (← Trap.slice w.bytes 24 32)
    return some low.toNat
  else return none

/-- A word as a signed number. The sign is in its first byte. -/
def toSigned (w : Word) : Except Trap Int := do
  let first ← Trap.index w.bytes 0
  if first &&& 0x80 != 0 then return (w.toUnsigned : Int) - powerOfTwo 256
  else return w.toUnsigned

/-- Whether a signed number fits in `bits` bits. -/
def fitsSigned (z : Int) (bits : Nat) : Except Trap Bool :=
  if bits = 0 then return false
  else do
    let width ← Trap.sub bits 1
    return -(powerOfTwo width : Int) ≤ z && z < powerOfTwo width

/-! ## Reading from the buffer -/

/-- A stretch has to be inside the buffer. -/
def ensure (b : Buffer) (offset len : Nat) : Reading Unit :=
  match Trap.checkedAdd? maxSize offset len with
  | some last => if last ≤ b.size then pure () else throw (.outOfBounds offset len b.size)
  | none => throw (.outOfBounds offset len b.size)

/-- There has to be room for the heads of so many items. -/
def ensureItems (b : Buffer) (base count : Nat) (element : Schema) : Reading Unit :=
  match Trap.checkedMul? maxSize count element.headSize with
  | some needed => ensure b base needed
  | none => throw (.outOfBounds base maxSize b.size)

/-- The word at an offset. -/
def word (b : Buffer) (offset : Nat) : Reading Word := do
  ensure b offset 32
  let last ← Trap.add maxSize offset 32
  let bs ← slice b offset last
  Trap.fixed 32 bs

/-- The word of a scalar, which is charged. -/
def scalar (b : Buffer) (offset : Nat) : Reading Word := do
  let w ← word b offset
  charge 32
  return w

/-- The word at an offset, as a size. -/
def sizeAt (b : Buffer) (offset : Nat) (role : SizeRole) : Reading Nat := do
  let w ← word b offset
  match ← toSize? w with
  | some n => return n
  | none => throw (.corrupt (.sizeRange role w offset))

/-- The place an offset points at, counted from `base`. -/
def target (b : Buffer) (base relative : Nat) : Reading Nat :=
  match Trap.checkedAdd? maxSize base relative with
  | some place => pure place
  | none => throw (.outOfBounds base relative b.size)

/-- A byte string behind its length. What is charged is held at the
largest size. -/
def lengthPrefixedAt (b : Buffer) (offset : Nat) : Reading Bytes := do
  let len ← sizeAt b offset .length
  let start ← target b offset 32
  ensure b start len
  charge (min (32 + len) maxSize)
  let last ← Trap.add maxSize start len
  slice b start last

/-- Read a value of a sequence: in place, or where the offset in its place
points. -/
def readPlaced (b : Buffer) (base : Nat) (isDynamic : Bool)
    (read : Nat → Reading (Value × Nat)) (head : Nat) : Reading (Value × Nat) :=
  if isDynamic then do
    let relative ← sizeAt b head .offset
    let place ← target b base relative
    let (v, _) ← read place
    let next ← Trap.add maxSize head 32
    return (v, next)
  else read head

/-- Read so many values one after the other. -/
def readRepeated (read : Nat → Reading (Value × Nat)) :
    (count head : Nat) → Reading (List Value × Nat)
  | 0, head => return ([], head)
  | count + 1, head => do
    let (v, next) ← read head
    let (vs, last) ← readRepeated read count next
    return (v :: vs, last)

/-! ## Reading values -/

mutual

/-- **Read a value of a schema**, with the offset just behind its head. -/
def readValue (b : Buffer) : Schema → (offset : Nat) → Reading (Value × Nat)
  | .uint bits, offset => do
    let w ← scalar b offset
    if fitsUnsigned w.toUnsigned bits then
      return (.uint bits w.toUnsigned, ← Trap.add maxSize offset 32)
    else throw (.corrupt (.uintRange w offset bits))
  | .int bits, offset => do
    let w ← scalar b offset
    let z ← toSigned w
    if ← fitsSigned z bits then return (.int bits z, ← Trap.add maxSize offset 32)
    else throw (.corrupt (.intRange w offset bits))
  | .address, offset => do
    let w ← scalar b offset
    if Bytes.allZero (← Trap.slice w.bytes 0 12) then
      let a ← Trap.fixed 20 (← Trap.slice w.bytes 12 32)
      return (.address a, ← Trap.add maxSize offset 32)
    else throw (.corrupt (.addressPadding offset))
  | .bool, offset => do
    let w ← scalar b offset
    match ← toSize? w with
    | some 0 => return (.bool false, ← Trap.add maxSize offset 32)
    | some 1 => return (.bool true, ← Trap.add maxSize offset 32)
    | _ => throw (.corrupt (.boolRange w offset))
  | .fixedBytes size, offset => do
    let w ← scalar b offset
    if 32 < size then throw (.corrupt (.bytesPadding size offset))
    else if Bytes.allZero (← Trap.slice w.bytes size 32) then
      let bs ← Trap.slice w.bytes 0 size
      return (.fixedBytes bs, ← Trap.add maxSize offset 32)
    else throw (.corrupt (.bytesPadding size offset))
  | .bytes, offset => do
    let bs ← lengthPrefixedAt b offset
    return (.bytes bs, ← Trap.add maxSize offset 32)
  | .string, offset => do
    let bs ← lengthPrefixedAt b offset
    match Bytes.toText? bs with
    | some s => return (.string s, ← Trap.add maxSize offset 32)
    | none => throw (.corrupt .textEncoding)
  | .array element, offset => do
    let count ← sizeAt b offset .arrayLength
    charge 32
    let base ← target b offset 32
    ensureItems b base count element
    allocate count
    let (items, _) ← readRepeated
      (readPlaced b base element.isDynamic (readValue b element)) count base
    return (.array element items, ← Trap.add maxSize offset 32)
  | .fixedArray element size, offset => do
    ensureItems b offset size element
    allocate size
    let (items, next) ← readRepeated
      (readPlaced b offset element.isDynamic (readValue b element)) size offset
    return (.fixedArray element items, next)
  | .tuple members, offset => do
    let (items, next) ← readMembers b offset members offset
    return (.tuple items, next)

/-- Read a value for each schema, the heads starting at `base` and the
next head being at `head`. -/
def readMembers (b : Buffer) (base : Nat) :
    List Schema → (head : Nat) → Reading (List Value × Nat)
  | [], head => return ([], head)
  | member :: rest, head => do
    let (v, next) ← readPlaced b base member.isDynamic (readValue b member) head
    let (vs, last) ← readMembers b base rest next
    return (v :: vs, last)

end

/-- What is behind a selector, which has to be the one given. -/
def behindSelector (b : Buffer) (selector : Selector) : Reading Bytes := do
  ensure b 0 4
  if (← slice b 0 4) = selector.bytes then slice b 4 b.size
  else throw (.selectorMismatch selector.bytes (← slice b 0 4))

/-! ## Decoding byte strings -/

/-- **What was done with a byte string** that was decoded. -/
structure Use where
  /-- The bytes. -/
  bytes : Bytes
  /-- The stretches of them that were looked at. -/
  read : List Span
  /-- For how many items lists were set up. -/
  allocated : List Nat

/-- A computation that decodes any number of byte strings, each with a
budget of its own. -/
abbrev Run := ExceptT AbiError (StateT (List Use) (Except Trap))

/-- Decode a byte string. -/
def readFrom {α : Type} (bs : Bytes) (reading : Buffer → Reading α) : Run α := fun uses => do
  let (result, usage) ← (reading (Buffer.ofBytes bs)).run.run (.fresh bs.length)
  return (result, ⟨bs, usage.read, usage.allocated⟩ :: uses)

/-- Decode one value at an offset. -/
def decodeValueAt (data : Bytes) (s : Schema) (offset : Nat) : Run (Value × Nat) :=
  match s.defect? with
  | some e => throw (.invalidType e)
  | none => readFrom data fun b => readValue b s offset

/-- Decode a sequence of values. -/
def decode (data : Bytes) (schemas : List Schema) : Run (List Value) :=
  match Schema.defectIn? schemas with
  | some e => throw (.invalidType e)
  | none => do
    let (values, _) ← readFrom data fun b => readMembers b 0 schemas 0
    match checkSchemas values schemas with
    | .error e => throw e
    | .ok () => return values

/-- Decode the only value of a sequence. -/
def decodeSingle (data : Bytes) (s : Schema) : Run Value := do
  let values ← decode data [s]
  match values.getLast? with
  | some v => return v
  | none => throw (.corrupt .emptyResult)

/-- Decode a sequence of values behind a selector. -/
def decodeBehind (selector : Selector) (payload : Bytes) (schemas : List Schema) :
    Run (List Value) := do
  let data ← readFrom payload fun b => behindSelector b selector
  decode data schemas

/-- The arguments of a call. -/
def decodeCall (f : Function) (calldata : Bytes) : Run (List Value) :=
  decodeBehind f.selector calldata f.inputSchemas

/-- The parameters of an error. -/
def decodeRevert (e : CustomError) (payload : Bytes) : Run (List Value) :=
  decodeBehind e.selector payload e.inputSchemas

/-- The value of an indexed parameter. -/
def decodeTopic (s : Schema) (topic : Word) : Run Value :=
  if s.isDynamic then return .fixedBytes topic.bytes else decodeSingle topic.bytes s

/-- The parameters of an event, each with its value. -/
def assign : List EventParam → (topics : List Word) → (values : List Value) →
    Run (List (String × Value))
  | [], _, _ => return []
  | p :: rest, topics, values =>
    if p.indexed then
      match topics with
      | [] => throw (.corrupt .missingParameterTopic)
      | topic :: topics => do
        let v ← decodeTopic p.param.schema topic
        let assigned ← assign rest topics values
        return (p.param.name, v) :: assigned
    else
      match values with
      | [] => throw (.corrupt .missingDataValue)
      | v :: values => do
        let assigned ← assign rest topics values
        return (p.param.name, v) :: assigned

/-- The named values of a log. -/
def decodeEvent (e : Event) (topics : List Word) (data : Bytes) :
    Run (List (String × Value)) :=
  match e.parameterTopics topics with
  | .error err => throw err
  | .ok topics => do
    let values ← decode data e.dataSchemas
    assign e.inputs topics values

end EthCall.Abi.Trapping
