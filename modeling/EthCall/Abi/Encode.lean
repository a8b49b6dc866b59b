import EthCall.Abi.Error

/-!
# Encoding

The values of a sequence – the arguments of a call, the items of an array,
the members of a tuple – are encoded in two stretches. In the first, the
*heads*, each value has its place: a value of a static schema stands there
itself, and for one of a dynamic schema there is an offset, counted from
the start of the heads. The second stretch holds the *tails*, the
encodings the offsets point at, in order.

The encoding of a value is computed from the value alone
(`Value.encode`), because a value determines its schema. That the schema
is the one demanded is checked beforehand, and again for each item of an
array, which the schema of the array does not see.
-/

namespace EthCall.Abi

/-! ## Heads and tails -/

/-- One value of a sequence, encoded. -/
structure Part where
  /-- Whether it stands among the tails. -/
  isDynamic : Bool
  /-- The encoding of the value. -/
  body : Bytes

namespace Part

/-- The heads, when the next tail starts at `offset`. -/
def heads : (offset : Nat) → List Part → Bytes
  | _, [] => []
  | offset, part :: rest =>
    if part.isDynamic then
      (Word.ofNat offset).bytes ++ heads (offset + part.body.length) rest
    else part.body ++ heads offset rest

/-- The tails. -/
def tails : List Part → Bytes
  | [] => []
  | part :: rest => if part.isDynamic then part.body ++ tails rest else tails rest

/-- **A sequence**: the heads, which take `headSize` bytes, and behind
them the tails. -/
def layout (headSize : Nat) (parts : List Part) : Bytes :=
  heads headSize parts ++ tails parts

end Part

/-! ## Values -/

/-- How many bytes complete a number of bytes to whole words. -/
def paddingLength (length : Nat) : Nat :=
  (length + 31) / 32 * 32 - length

/-- A byte string behind its length, padded to whole words. -/
def lengthPrefixed (bs : Bytes) : Bytes :=
  (Word.ofNat bs.length).bytes ++ bs ++ Bytes.zeros (paddingLength bs.length)

namespace Value

mutual

/-- **The encoding of a value against its own schema.** The one thing that
can be wrong on the way is a number too large for its width, or an item of
an array that is not what the array is declared to hold. -/
def encode : Value → Except AbiError Bytes
  | uint bits n =>
    if fitsUnsigned n bits then .ok (Word.ofNat n).bytes else .error (.overflow (.uint bits) n)
  | int bits z =>
    if fitsSigned z bits then .ok (Word.ofInt z).bytes else .error (.overflow (.int bits) z)
  | address a => .ok (Bytes.zeros 12 ++ a.bytes)
  | bool b => .ok (Word.ofNat b.toNat).bytes
  | fixedBytes bs => .ok (bs ++ Bytes.zeros (32 - bs.length))
  | bytes bs => .ok (lengthPrefixed bs)
  | string s => .ok (lengthPrefixed (Bytes.ofText s))
  | array element items =>
    match encodeParts items (List.replicate items.length element) with
    | .error e => .error e
    | .ok parts =>
      .ok ((Word.ofNat items.length).bytes ++
        Part.layout (Schema.headSizes (List.replicate items.length element)) parts)
  | fixedArray element items =>
    match encodeParts items (List.replicate items.length element) with
    | .error e => .error e
    | .ok parts =>
      .ok (Part.layout (Schema.headSizes (List.replicate items.length element)) parts)
  | tuple items =>
    match encodeParts items (schemas items) with
    | .error e => .error e
    | .ok parts => .ok (Part.layout (Schema.headSizes (schemas items)) parts)

/-- The encodings of the values of a sequence, each against the schema
demanded of it. -/
def encodeParts : List Value → List Schema → Except AbiError (List Part)
  | v :: vs, s :: ss =>
    if v.schema = s then
      match encode v with
      | .error e => .error e
      | .ok body =>
        match encodeParts vs ss with
        | .error e => .error e
        | .ok parts => .ok (⟨s.isDynamic, body⟩ :: parts)
    else .error (.typeMismatch s v.schema)
  | _, _ => .ok []

end

/-- **The encoding of a value against a schema.** -/
def encodeAs (s : Schema) (v : Value) : Except AbiError Bytes :=
  match s.defect? with
  | some e => .error (.invalidType e)
  | none => if v.schema = s then v.encode else .error (.typeMismatch s v.schema)

end Value

/-- **The encoding of values against as many schemas**, as the arguments
of a call are encoded. The schemas are examined before the values. -/
def encode (values : List Value) (schemas : List Schema) : Except AbiError Bytes :=
  match Schema.defectIn? schemas with
  | some e => .error (.invalidType e)
  | none =>
    if values.length = schemas.length then
      match Value.encodeParts values schemas with
      | .error e => .error e
      | .ok parts => .ok (Part.layout (Schema.headSizes schemas) parts)
    else .error (.lengthMismatch schemas.length values.length)

end EthCall.Abi
