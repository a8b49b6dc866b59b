import EthCall.Text.Decimal

/-!
# Schemas

A **schema** says what a stretch of encoded bytes holds: a number of some
width, an address, a text, or a composite of such. Its name – `uint256`,
`(address,bytes)[]` – is how signatures spell it, and its shape decides
the layout of the encoding:

* a schema is *dynamic* (`Schema.isDynamic`) when the size of its values
  is not fixed by the schema; their encoding then stands apart from the
  place where it is expected, which holds an offset instead;
* `Schema.headSize` is the number of bytes taken at that place.

Not every term of the type is a schema the format defines: an integer
width must be a multiple of 8 up to 256, and so on. `Schema.defect?` finds
what is wrong.
-/

namespace EthCall.Abi

/-- **What a stretch of encoded bytes holds.** -/
inductive Schema where
  /-- An unsigned number of a width in bits. -/
  | uint (bits : Nat)
  /-- A signed number of a width in bits. -/
  | int (bits : Nat)
  /-- The address of an account. -/
  | address
  /-- A truth value. -/
  | bool
  /-- A byte string of this size. -/
  | fixedBytes (size : Nat)
  /-- A byte string of any size. -/
  | bytes
  /-- A text. -/
  | string
  /-- Any number of items of one schema. -/
  | array (element : Schema)
  /-- So many items of one schema. -/
  | fixedArray (element : Schema) (size : Nat)
  /-- One item for each of the schemas. -/
  | tuple (members : List Schema)
  deriving Inhabited

namespace Schema

/-! ## Equality

Schemas are compared to tell whether a value is what was asked for. -/

mutual

/-- Whether two schemas are the same. -/
def same : Schema → Schema → Bool
  | uint a, uint b => a == b
  | int a, int b => a == b
  | address, address => true
  | bool, bool => true
  | fixedBytes a, fixedBytes b => a == b
  | bytes, bytes => true
  | string, string => true
  | array a, array b => same a b
  | fixedArray a m, fixedArray b n => m == n && same a b
  | tuple as, tuple bs => sameAll as bs
  | _, _ => false

/-- Whether two lists of schemas are the same. -/
def sameAll : List Schema → List Schema → Bool
  | [], [] => true
  | a :: as, b :: bs => same a b && sameAll as bs
  | _, _ => false

end

mutual

/-- The test is equality. -/
theorem same_iff : (s t : Schema) → (same s t = true ↔ s = t)
  | uint _, t => by cases t <;> simp [same]
  | int _, t => by cases t <;> simp [same]
  | address, t => by cases t <;> simp [same]
  | bool, t => by cases t <;> simp [same]
  | fixedBytes _, t => by cases t <;> simp [same]
  | bytes, t => by cases t <;> simp [same]
  | string, t => by cases t <;> simp [same]
  | array a, t => by cases t <;> simp [same, same_iff a]
  | fixedArray a _, t => by
    cases t <;> simp [same, same_iff a, and_comm]
  | tuple as, t => by cases t <;> simp [same, sameAll_iff as]

/-- The test on lists is equality. -/
theorem sameAll_iff : (ss ts : List Schema) → (sameAll ss ts = true ↔ ss = ts)
  | [], ts => by cases ts <;> simp [sameAll]
  | s :: ss, ts => by cases ts <;> simp [sameAll, same_iff s, sameAll_iff ss]

end

instance : DecidableEq Schema := fun s t => decidable_of_iff _ (same_iff s t)

/-! ## Names -/

mutual

/-- **The canonical name**, as it stands in the signature that is
hashed. -/
def name : Schema → String
  | uint bits => "uint" ++ Nat.repr bits
  | int bits => "int" ++ Nat.repr bits
  | address => "address"
  | bool => "bool"
  | fixedBytes size => "bytes" ++ Nat.repr size
  | bytes => "bytes"
  | string => "string"
  | array element => name element ++ "[]"
  | fixedArray element size => name element ++ "[" ++ Nat.repr size ++ "]"
  | tuple members => "(" ++ ",".intercalate (names members) ++ ")"

/-- The names of several schemas. -/
def names : List Schema → List String
  | [] => []
  | member :: rest => name member :: names rest

end

instance : ToString Schema := ⟨name⟩

/-! ## Layout -/

mutual

/-- **Whether the encoding stands apart**, with an offset in its
place. -/
def isDynamic : Schema → Bool
  | bytes => true
  | string => true
  | array _ => true
  | fixedArray element _ => isDynamic element
  | tuple members => anyDynamic members
  | _ => false

/-- Whether one of the schemas is dynamic. -/
def anyDynamic : List Schema → Bool
  | [] => false
  | member :: rest => isDynamic member || anyDynamic rest

end

mutual

/-- **The bytes taken in place**: everything for a static schema, one word
for the offset of a dynamic one. The size of a static schema can exceed
every buffer; it is then held at `maxSize`, which no buffer reaches
either. -/
def headSize : Schema → Nat
  | fixedArray element size =>
    if isDynamic element then 32 else min (headSize element * size) maxSize
  | tuple members => if anyDynamic members then 32 else headSizes members
  | _ => 32

/-- The bytes that several schemas take in place, one after the other. -/
def headSizes : List Schema → Nat
  | [] => 0
  | member :: rest => min (headSize member + headSizes rest) maxSize

end

end Schema

/-! ## Validity -/

/-- Why a schema, or the name of one, is refused. -/
inductive SchemaError where
  /-- An integer of a width the format does not know. -/
  | integerWidth (bits : Nat)
  /-- A fixed byte string that is empty or longer than a word. -/
  | bytesSize (size : Nat)
  /-- A fixed array without room for an item, or with room for more items
  than any size can count. -/
  | fixedArraySize (size : Nat)
  /-- A tuple without members. Its values would take no bytes, and an
  array of them would have no bound. -/
  | emptyTuple
  /-- Parentheses that do not match, in the members of a tuple. -/
  | unbalanced (members : String)
  /-- Nothing where a member of a tuple is expected. -/
  | emptyComponent (members : String)
  /-- A width or size that is not written in plain decimal. -/
  | malformedSize (kind digits : String)
  /-- The size of a fixed array that is not written in plain decimal. -/
  | malformedArraySize (digits : String)
  /-- No such type. -/
  | unknown (name : String)
  deriving DecidableEq

/-- The text of the error. -/
def SchemaError.message : SchemaError → String
  | .integerWidth bits => s!"integer width must be a multiple of 8 in 8..=256: {bits}"
  | .bytesSize size => s!"bytes size must be 1-32: {size}"
  | .fixedArraySize size => s!"fixed array of size {size}"
  | .emptyTuple => "empty tuple"
  | .unbalanced members => "Unbalanced parentheses: " ++ members
  | .emptyComponent members => "Empty tuple component: (" ++ members ++ ")"
  | .malformedSize kind digits => "Invalid " ++ kind ++ " size: " ++ digits
  | .malformedArraySize digits => "Invalid array size: " ++ digits
  | .unknown name => "Unknown type: " ++ name

namespace Schema

/-- What is wrong with a width of an integer. -/
def widthDefect? (bits : Nat) : Option SchemaError :=
  if bits = 0 ∨ 256 < bits ∨ bits % 8 ≠ 0 then some (.integerWidth bits) else none

mutual

/-- **The first thing wrong with a schema**, from the outside in and from
left to right. -/
def defect? : Schema → Option SchemaError
  | uint bits => widthDefect? bits
  | int bits => widthDefect? bits
  | fixedBytes size => if size = 0 ∨ 32 < size then some (.bytesSize size) else none
  | array element => defect? element
  | fixedArray element size =>
    if size = 0 ∨ maxSize < size then some (.fixedArraySize size) else defect? element
  | tuple [] => some .emptyTuple
  | tuple (member :: rest) => defectIn? (member :: rest)
  | _ => none

/-- The first thing wrong with one of the schemas. -/
def defectIn? : List Schema → Option SchemaError
  | [] => none
  | member :: rest =>
    match defect? member with
    | some e => some e
    | none => defectIn? rest

end

/-- A schema the format defines. -/
def IsValid (s : Schema) : Prop :=
  s.defect? = none

instance : DecidablePred IsValid := fun s => inferInstanceAs (Decidable (s.defect? = none))

end Schema

end EthCall.Abi
