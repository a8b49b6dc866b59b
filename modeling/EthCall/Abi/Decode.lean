import EthCall.Abi.Error

/-!
# Decoding

Decoding reads what encoding wrote, and reads nothing else: every scalar
has to be padded as the format pads it, and a length or an offset is
checked against the buffer before it is used. Bytes behind the last tail
are allowed.

Offsets are free to point anywhere, in particular several at the same
bytes, and a short buffer could so be decoded to a very large value. The
**budget** (`Budget`) stops that. An encoding never yields more than its
own length, since every scalar, length and payload has bytes of its own;
so each is charged for the bytes it was read from, and no more is charged
than the buffer has.
-/

namespace EthCall.Abi

/-! ## The buffer -/

/-- The bytes that are decoded. -/
structure Buffer where
  /-- The bytes, for access by position. -/
  bytes : Array UInt8

namespace Buffer

/-- A byte string, to be decoded. -/
def ofBytes (bs : Bytes) : Buffer := ⟨bs.toArray⟩

/-- The number of bytes. -/
def size (b : Buffer) : Nat := b.bytes.size

/-- The `len` bytes from `offset` on. -/
def slice (b : Buffer) (offset len : Nat) : Bytes :=
  (b.bytes.extract offset (offset + len)).toList

theorem length_slice {b : Buffer} {offset len : Nat} (h : offset + len ≤ b.size) :
    (b.slice offset len).length = len := by
  unfold size at h
  simp [slice]
  omega

end Buffer

/-! ## The budget -/

/-- A stretch of the buffer. -/
structure Span where
  /-- Where it starts. -/
  offset : Nat
  /-- How many bytes it has. -/
  length : Nat

/-- **What decoding may still charge for, and what it has charged
for.** -/
structure Budget where
  /-- The number of bytes that may still be charged. -/
  remaining : Nat
  /-- The stretches charged, the latest first. -/
  charged : List Span

/-- The budget of a buffer: as many bytes as it has. -/
def Budget.ofBuffer (b : Buffer) : Budget := ⟨b.size, []⟩

/-- A computation that decodes: it may fail, and it keeps the budget also
when it does. -/
abbrev Decoding := ExceptT AbiError (StateM Budget)

/-- Charge for a stretch. -/
def charge (span : Span) : Decoding Unit := do
  let budget ← get
  set { budget with charged := span :: budget.charged, remaining := budget.remaining - span.length }
  if budget.remaining < span.length then
    throw (.corrupt .overlap)

/-! ## Reading from the buffer -/

namespace Buffer

/-- A stretch has to be inside the buffer. -/
def ensure (b : Buffer) (offset len : Nat) : Decoding Unit :=
  if offset + len ≤ b.size then pure () else throw (.outOfBounds offset len b.size)

/-- There has to be room for the heads of so many items. -/
def ensureItems (b : Buffer) (base count : Nat) (element : Schema) : Decoding Unit :=
  b.ensure base (min (count * element.headSize) maxSize)

/-- The word at an offset. -/
def word (b : Buffer) (offset : Nat) : Decoding Word :=
  if h : offset + 32 ≤ b.size then pure ⟨b.slice offset 32, length_slice h⟩
  else throw (.outOfBounds offset 32 b.size)

/-- The word of a scalar, which is charged. -/
def scalar (b : Buffer) (offset : Nat) : Decoding Word := do
  let w ← b.word offset
  charge ⟨offset, 32⟩
  return w

/-- The word at an offset, as a size. -/
def sizeAt (b : Buffer) (offset : Nat) (role : SizeRole) : Decoding Nat := do
  let w ← b.word offset
  match w.toUInt64? with
  | some n => return n
  | none => throw (.corrupt (.sizeRange role w offset))

/-- A byte string behind its length. -/
def lengthPrefixedAt (b : Buffer) (offset : Nat) : Decoding Bytes := do
  let len ← b.sizeAt offset .length
  b.ensure (offset + 32) len
  charge ⟨offset, 32 + len⟩
  return b.slice (offset + 32) len

end Buffer

/-- The place an offset points at, counted from `base`. -/
def target (b : Buffer) (base relative : Nat) : Decoding Nat :=
  if base + relative ≤ maxSize then pure (base + relative)
  else throw (.outOfBounds base relative b.size)

/-- Read a value of a sequence whose heads start at `base`: in place, or
where the offset in its place points. The result comes with the place of
the next head. -/
def readPlaced (b : Buffer) (base : Nat) (isDynamic : Bool)
    (read : Nat → Decoding (Value × Nat)) (head : Nat) : Decoding (Value × Nat) :=
  if isDynamic then do
    let relative ← b.sizeAt head .offset
    let place ← target b base relative
    let (v, _) ← read place
    return (v, head + 32)
  else read head

/-- Read so many values one after the other. -/
def readRepeated (read : Nat → Decoding (Value × Nat)) :
    (count head : Nat) → Decoding (List Value × Nat)
  | 0, head => return ([], head)
  | count + 1, head => do
    let (v, next) ← read head
    let (vs, last) ← readRepeated read count next
    return (v :: vs, last)

/-! ## Reading values -/

mutual

/-- **Read a value of a schema.** The result comes with the offset just
behind the head of the value. -/
def readValue (b : Buffer) : Schema → (offset : Nat) → Decoding (Value × Nat)
  | .uint bits, offset => do
    let w ← b.scalar offset
    if fitsUnsigned w.toUnsigned bits then return (.uint bits w.toUnsigned, offset + 32)
    else throw (.corrupt (.uintRange w offset bits))
  | .int bits, offset => do
    let w ← b.scalar offset
    if fitsSigned w.toSigned bits then return (.int bits w.toSigned, offset + 32)
    else throw (.corrupt (.intRange w offset bits))
  | .address, offset => do
    let w ← b.scalar offset
    if Bytes.allZero (w.bytes.take 12) then
      return (.address ⟨w.bytes.drop 12, by simp [w.length_bytes]⟩, offset + 32)
    else throw (.corrupt (.addressPadding offset))
  | .bool, offset => do
    let w ← b.scalar offset
    match w.toUInt64? with
    | some 0 => return (.bool false, offset + 32)
    | some 1 => return (.bool true, offset + 32)
    | _ => throw (.corrupt (.boolRange w offset))
  | .fixedBytes size, offset => do
    let w ← b.scalar offset
    if size ≤ 32 ∧ Bytes.allZero (w.bytes.drop size) then
      return (.fixedBytes (w.bytes.take size), offset + 32)
    else throw (.corrupt (.bytesPadding size offset))
  | .bytes, offset => do
    let bs ← b.lengthPrefixedAt offset
    return (.bytes bs, offset + 32)
  | .string, offset => do
    let bs ← b.lengthPrefixedAt offset
    match Bytes.toText? bs with
    | some s => return (.string s, offset + 32)
    | none => throw (.corrupt .textEncoding)
  | .array element, offset => do
    let count ← b.sizeAt offset .arrayLength
    charge ⟨offset, 32⟩
    -- There has to be room for all items before the first one is read.
    b.ensureItems (offset + 32) count element
    let (items, _) ← readRepeated
      (readPlaced b (offset + 32) element.isDynamic (readValue b element)) count (offset + 32)
    return (.array element items, offset + 32)
  | .fixedArray element size, offset => do
    b.ensureItems offset size element
    let (items, next) ← readRepeated
      (readPlaced b offset element.isDynamic (readValue b element)) size offset
    return (.fixedArray element items, next)
  | .tuple members, offset => do
    let (items, next) ← readMembers b offset members offset
    return (.tuple items, next)

/-- Read a value for each schema, the heads starting at `base` and the
next head being at `head`. -/
def readMembers (b : Buffer) (base : Nat) :
    List Schema → (head : Nat) → Decoding (List Value × Nat)
  | [], head => return ([], head)
  | member :: rest, head => do
    let (v, next) ← readPlaced b base member.isDynamic (readValue b member) head
    let (vs, last) ← readMembers b base rest next
    return (v :: vs, last)

end

/-- The result of decoding from a buffer. -/
def Decoding.result {α : Type} (b : Buffer) (decoding : Decoding α) : Except AbiError α :=
  (decoding.run.run (Budget.ofBuffer b)).1

/-! ## Decoding byte strings -/

/-- **Decode one value at an offset**, with the offset just behind its
head. -/
def decodeValueAt (data : Bytes) (s : Schema) (offset : Nat) : Except AbiError (Value × Nat) :=
  match s.defect? with
  | some e => .error (.invalidType e)
  | none =>
    let b := Buffer.ofBytes data
    (readValue b s offset).result b

/-- Values that have the schemas demanded. -/
def checkSchemas : List Value → List Schema → Except AbiError Unit
  | v :: vs, s :: ss =>
    if v.schema = s then checkSchemas vs ss else .error (.typeMismatch s v.schema)
  | _, _ => .ok ()

/-- **Decode a sequence of values**, as arguments and results are
encoded. -/
def decode (data : Bytes) (schemas : List Schema) : Except AbiError (List Value) :=
  match Schema.defectIn? schemas with
  | some e => .error (.invalidType e)
  | none =>
    let b := Buffer.ofBytes data
    match (readMembers b 0 schemas 0).result b with
    | .error e => .error e
    | .ok (values, _) =>
      match checkSchemas values schemas with
      | .error e => .error e
      | .ok () => .ok values

/-- Decode the only value of a sequence. -/
def decodeSingle (data : Bytes) (s : Schema) : Except AbiError Value :=
  match decode data [s] with
  | .error e => .error e
  | .ok values =>
    match values.getLast? with
    | some v => .ok v
    | none => .error (.corrupt .emptyResult)

end EthCall.Abi
