import EthCall.Proofs.Abi.Encoding
import EthCall.Proofs.Word

/-!
# Values that conform to a schema

The schema of a value (`Value.schema`) says little about what is inside:
that of an array is the declared one, whatever its items are, and a number
need not fit in its width. `Value.Conforms` is the relation that looks all
the way down. It is what an encoding needs and a decoding has to provide:
a value that conforms to a schema can be encoded (`Value.Conforms.encodes`).
-/

namespace EthCall.Abi

/-- **What a value of a schema is, at every depth.** A number is in the
range of its width, the items of an array conform to its element schema,
and those of a tuple to its members, one to one. -/
inductive Value.Conforms : Value → Schema → Prop
  | uint {bits n : Nat} (hrange : n < 2 ^ bits) : Conforms (.uint bits n) (.uint bits)
  | int {bits : Nat} {z : Int} (hbits : 0 < bits) (hlow : -2 ^ (bits - 1) ≤ z)
    (hhigh : z < 2 ^ (bits - 1)) : Conforms (.int bits z) (.int bits)
  | address (a : Address) : Conforms (.address a) .address
  | bool (flag : Bool) : Conforms (.bool flag) .bool
  | fixedBytes {bs : Bytes} {size : Nat} (hsize : bs.length = size) :
    Conforms (.fixedBytes bs) (.fixedBytes size)
  | bytes (bs : Bytes) : Conforms (.bytes bs) .bytes
  | string (s : String) : Conforms (.string s) .string
  | array {element : Schema} {items : List Value} (hitems : ∀ v ∈ items, Conforms v element) :
    Conforms (.array element items) (.array element)
  | fixedArray {element : Schema} {items : List Value} {size : Nat}
    (hsize : items.length = size) (hitems : ∀ v ∈ items, Conforms v element) :
    Conforms (.fixedArray element items) (.fixedArray element size)
  | tuple {items : List Value} {members : List Schema}
    (hitems : List.Forall₂ Conforms items members) : Conforms (.tuple items) (.tuple members)

namespace Value

/-! ## Lists -/

/-- To conform item by item to one schema, repeated, is to conform to it
everywhere. -/
theorem forall₂_conforms_replicate_iff {items : List Value} {element : Schema} :
    List.Forall₂ Conforms items (List.replicate items.length element)
      ↔ ∀ v ∈ items, v.Conforms element := by
  induction items with
  | nil => simp
  | cons v items ih =>
    rw [List.length_cons, List.replicate_succ, List.forall₂_cons, ih, List.forall_mem_cons]

/-! ## Encoding what conforms -/

/-- The range of a signed number, as the encoder tests it. -/
theorem fitsSigned_iff_range {z : Int} {bits : Nat} :
    fitsSigned z bits = true ↔ 0 < bits ∧ -2 ^ (bits - 1) ≤ z ∧ z < 2 ^ (bits - 1) := by
  have hpow : ((powerOfTwo (bits - 1) : Nat) : Int) = 2 ^ (bits - 1) := by
    rw [powerOfTwo_eq, Int.natCast_pow]
    rfl
  rw [fitsSigned_iff, hpow, Nat.pos_iff_ne_zero]

/-- A value that has the schema and can be encoded. -/
def Encodes (v : Value) (s : Schema) : Prop :=
  v.schema = s ∧ ∃ body, v.encode = .ok body

/-- A sequence can be encoded when each of its values can. -/
theorem exists_encodesTo_of_conforms {items : List Value} {members : List Schema}
    (hmembers : ∀ s ∈ members, ∀ v : Value, v.Conforms s → v.Encodes s)
    (h : List.Forall₂ Conforms items members) : ∃ parts, EncodesTo items members parts := by
  induction h with
  | nil => exact ⟨[], .nil⟩
  | @cons v s items members hv hitems ih =>
    obtain ⟨hs, hrest⟩ := List.forall_mem_cons.mp hmembers
    obtain ⟨parts, hparts⟩ := ih hrest
    obtain ⟨rfl, body, hbody⟩ := hs v hv
    exact ⟨_, .cons hbody hparts⟩

/-- **Conforming is enough for the encoder.** -/
theorem Conforms.encodes {v : Value} {s : Schema} (h : v.Conforms s) : v.Encodes s := by
  induction s using Schema.ind generalizing v with
  | scalar s hscalar =>
    cases h with
    | uint hrange => exact ⟨rfl, _, by rw [encode, if_pos (fitsUnsigned_iff.mpr hrange)]⟩
    | int hbits hlow hhigh =>
      exact ⟨rfl, _, by rw [encode, if_pos (fitsSigned_iff_range.mpr ⟨hbits, hlow, hhigh⟩)]⟩
    | address a => exact ⟨rfl, _, rfl⟩
    | bool flag => exact ⟨rfl, _, rfl⟩
    | fixedBytes hsize => exact ⟨congrArg Schema.fixedBytes hsize, _, rfl⟩
    | _ => cases hscalar
  | bytes =>
    cases h
    exact ⟨rfl, _, rfl⟩
  | string =>
    cases h
    exact ⟨rfl, _, rfl⟩
  | array element ih =>
    cases h with
    | array hitems =>
      obtain ⟨parts, hparts⟩ := exists_encodesTo_of_conforms
        (List.forall_mem_replicate.mpr (.inr fun _ => ih))
        (forall₂_conforms_replicate_iff.mpr hitems)
      exact ⟨rfl, _, encode_array_eq_ok_iff.mpr ⟨parts, hparts, rfl⟩⟩
  | fixedArray element size ih =>
    cases h with
    | fixedArray hsize hitems =>
      obtain ⟨parts, hparts⟩ := exists_encodesTo_of_conforms
        (List.forall_mem_replicate.mpr (.inr fun _ => ih))
        (forall₂_conforms_replicate_iff.mpr hitems)
      exact ⟨congrArg (Schema.fixedArray element) hsize, _,
        encode_fixedArray_eq_ok_iff.mpr ⟨parts, hparts, rfl⟩⟩
  | tuple members ih =>
    cases h with
    | tuple hitems =>
      obtain ⟨parts, hparts⟩ := exists_encodesTo_of_conforms (fun s hs _ => ih s hs) hitems
      obtain rfl := hparts.schemas_eq
      exact ⟨rfl, _, encode_tuple_eq_ok_iff.mpr ⟨parts, hparts, rfl⟩⟩

/-- The word of a scalar is that of a value that conforms. -/
theorem conforms_of_isScalar {v : Value} {body : Bytes} (hs : v.schema.isScalar = true)
    (h : v.encode = .ok body) : v.Conforms v.schema := by
  cases v with
  | uint bits n =>
    rw [encode] at h
    split at h
    case isTrue hfits => exact .uint (fitsUnsigned_iff.mp hfits)
    case isFalse => cases h
  | int bits z =>
    rw [encode] at h
    split at h
    case isTrue hfits =>
      obtain ⟨hbits, hlow, hhigh⟩ := fitsSigned_iff_range.mp hfits
      exact .int hbits hlow hhigh
    case isFalse => cases h
  | address a => exact .address a
  | bool flag => exact .bool flag
  | fixedBytes bs => exact .fixedBytes rfl
  | _ => cases hs

end Value

/-- **Values that conform to valid schemas can be encoded.** -/
theorem exists_encode_of_conforms {values : List Value} {schemas : List Schema}
    (hschemas : ∀ s ∈ schemas, s.IsValid) (h : List.Forall₂ Value.Conforms values schemas) :
    ∃ bs, encode values schemas = .ok bs := by
  obtain ⟨parts, hparts⟩ :=
    Value.exists_encodesTo_of_conforms (fun _ _ _ => Value.Conforms.encodes) h
  exact ⟨_, encode_eq_ok_iff.mpr ⟨hschemas, parts, hparts, rfl⟩⟩

end EthCall.Abi
