import EthCall.Proofs.Abi.Encoding

/-!
# The format

The format is defined here once more, as its description has it and
without a head size (`Format.enc`). A sequence has a head and a tail for
each of its values. A static value is its own head, and a dynamic one its
own tail; the head of the latter is the number of bytes that all heads and
the earlier tails *actually occupy* (`Format.distance_eq`). Which schemas
are dynamic is part of the description as well (`Schema.Dynamic`).

Nothing here is taken from the encoder, except that `Part` is one value of
a sequence. That the encoder follows the format is shown in
`EthCall.Proofs.Abi.Agreement`.
-/

namespace EthCall.Abi

/-! ## Dynamic schemas -/

/-- **The dynamic schemas**, as the format lists them. -/
inductive Schema.Dynamic : Schema → Prop
  | bytes : Dynamic .bytes
  | string : Dynamic .string
  | array (element : Schema) : Dynamic (.array element)
  | fixedArray {element : Schema} (size : Nat) (helement : Dynamic element) :
    Dynamic (.fixedArray element size)
  | tuple {members : List Schema} {member : Schema} (hmem : member ∈ members)
    (hmember : Dynamic member) : Dynamic (.tuple members)

/-- The test finds them. -/
theorem Schema.isDynamic_eq_true_iff {s : Schema} : s.isDynamic = true ↔ s.Dynamic := by
  induction s using ind with
  | scalar s hscalar =>
    rw [isDynamic_of_isScalar hscalar]
    refine iff_of_false Bool.false_ne_true fun h => ?_
    cases h <;> cases hscalar
  | bytes => exact iff_of_true rfl .bytes
  | string => exact iff_of_true rfl .string
  | array element => exact iff_of_true rfl (.array element)
  | fixedArray element size ih =>
    rw [isDynamic_fixedArray, ih]
    refine ⟨Dynamic.fixedArray size, fun h => ?_⟩
    cases h with
    | fixedArray _ helement => exact helement
  | tuple members ih =>
    rw [isDynamic_tuple, anyDynamic_eq_true_iff]
    constructor
    · rintro ⟨member, hmem, hd⟩
      exact .tuple hmem ((ih member hmem).mp hd)
    · intro h
      cases h with
      | tuple hmem hd => exact ⟨_, hmem, (ih _ hmem).mpr hd⟩

instance : DecidablePred Schema.Dynamic := fun _ => decidable_of_iff _ Schema.isDynamic_eq_true_iff

/-- The decision is the test. -/
@[simp] theorem Schema.decide_dynamic (s : Schema) : decide s.Dynamic = s.isDynamic := by
  rw [Bool.eq_iff_iff, decide_eq_true_iff, isDynamic_eq_true_iff]

namespace Format

/-! ## Sequences -/

/-- What stands among the heads for one value: the value itself, or how
far from the first head its tail is. -/
def head (distance : Nat) (x : Part) : Bytes :=
  if x.isDynamic then Bytes.ofNat 32 distance else x.body

/-- What stands among the tails for one value. -/
def tail (x : Part) : Bytes :=
  if x.isDynamic then x.body else []

/-- **The bytes that the heads occupy.** A distance takes a word, whatever
it is, so that they can be measured before the distances are known. -/
def headsLength (xs : List Part) : Nat :=
  (xs.flatMap (head 0)).length

/-- How far from the first head the tail at a position is: all heads and
the tails before it lie in between. -/
def distance (xs : List Part) (i : Nat) : Nat :=
  headsLength xs + ((xs.take i).flatMap tail).length

/-- The heads, in order. -/
def heads (xs : List Part) : List Bytes :=
  xs.mapIdx fun i x => head (distance xs i) x

/-- **The encoding of a sequence.** -/
def sequence (xs : List Part) : Bytes :=
  (heads xs).flatten ++ xs.flatMap tail

/-! ## Values -/

/-- Bytes, completed with zero bytes to whole words. -/
def padded (bs : Bytes) : Bytes :=
  bs ++ Bytes.zeros ((32 - bs.length % 32) % 32)

mutual

/-- **The encoding of a value**, as the format defines it. A negative
number is written as its complement to `2 ^ 256`. -/
def enc : Value → Bytes
  | .uint _ n => Bytes.ofNat 32 n
  | .int _ z => Bytes.ofNat 32 (z % 2 ^ 256).toNat
  | .address a => Bytes.zeros 12 ++ a.bytes
  | .bool flag => Bytes.ofNat 32 (if flag then 1 else 0)
  | .fixedBytes bs => padded bs
  | .bytes bs => Bytes.ofNat 32 bs.length ++ padded bs
  | .string s => Bytes.ofNat 32 (Bytes.ofText s).length ++ padded (Bytes.ofText s)
  | .array _ items => Bytes.ofNat 32 items.length ++ sequence (parts items)
  | .fixedArray _ items => sequence (parts items)
  | .tuple items => sequence (parts items)

/-- The values of a sequence, each encoded by itself. -/
def parts : List Value → List Part
  | [] => []
  | v :: vs => ⟨decide v.schema.Dynamic, enc v⟩ :: parts vs

end

/-! ## Measuring a sequence -/

/-- A head has one length at any distance. -/
theorem length_head (m n : Nat) (x : Part) : (head m x).length = (head n x).length := by
  unfold head
  split
  · rw [Bytes.length_ofNat, Bytes.length_ofNat]
  · rfl

/-- **The heads occupy what was measured**, with whatever distances. -/
theorem length_flatten_mapIdx_head (distances : Nat → Nat) (xs : List Part) :
    (xs.mapIdx fun i x => head (distances i) x).flatten.length = headsLength xs := by
  induction xs generalizing distances with
  | nil => rfl
  | cons x xs ih =>
    rw [List.mapIdx_cons, List.flatten_cons, List.length_append, ih, length_head _ 0]
    show _ = (head 0 x ++ xs.flatMap (head 0)).length
    rw [List.length_append]
    rfl

/-- **A distance is what the description says**: the bytes of all heads
and of the tails in front. -/
theorem distance_eq (xs : List Part) (i : Nat) :
    distance xs i = ((heads xs).flatten ++ (xs.take i).flatMap tail).length := by
  rw [List.length_append, heads, length_flatten_mapIdx_head]
  rfl

/-- The codec writes the same heads when it is told where the tails
start. -/
theorem flatten_mapIdx_head (start : Nat) (xs : List Part) :
    (xs.mapIdx fun i x => head (start + ((xs.take i).flatMap tail).length) x).flatten
      = Part.heads start xs := by
  induction xs generalizing start with
  | nil => rfl
  | cons x xs ih =>
    obtain ⟨isDynamic, body⟩ := x
    rw [List.mapIdx_cons, List.flatten_cons]
    cases isDynamic with
    | true =>
      rw [Part.heads_cons_dynamic, ← ih]
      simp only [List.take_succ_cons, List.flatMap_cons, List.length_append, Nat.add_assoc]
      rfl
    | false =>
      rw [Part.heads_cons_static, ← ih]
      simp only [List.take_succ_cons, List.flatMap_cons, List.length_append]
      simp [head, tail]

/-- The codec writes the same tails. -/
theorem flatMap_tail (xs : List Part) : xs.flatMap tail = Part.tails xs := by
  induction xs with
  | nil => rfl
  | cons x xs ih =>
    rw [List.flatMap_cons, ih, tail, Part.tails]
    split <;> rfl

/-- **The codec lays a sequence out as the format does** when it is told
what the heads occupy. -/
theorem sequence_eq_layout (xs : List Part) : sequence xs = Part.layout (headsLength xs) xs := by
  unfold sequence Part.layout heads distance
  rw [flatten_mapIdx_head, flatMap_tail]

/-- The heads the codec writes occupy as much. -/
theorem headsLength_eq (start : Nat) (xs : List Part) :
    headsLength xs = (Part.heads start xs).length := by
  rw [← flatten_mapIdx_head, length_flatten_mapIdx_head]

/-! ## Whole words -/

theorem dvd_length_number (n : Nat) : 32 ∣ (Bytes.ofNat 32 n).length :=
  ⟨1, Bytes.length_ofNat 32 n⟩

/-- Whole words one after the other are whole words. -/
theorem dvd_length_flatMap {f : Part → Bytes} {xs : List Part}
    (h : ∀ x ∈ xs, 32 ∣ (f x).length) : 32 ∣ (xs.flatMap f).length := by
  induction xs with
  | nil => exact Nat.dvd_zero 32
  | cons x xs ih =>
    obtain ⟨hx, hxs⟩ := List.forall_mem_cons.mp h
    rw [List.flatMap_cons, List.length_append]
    exact Nat.dvd_add hx (ih hxs)

/-- A sequence of whole words is whole words. -/
theorem dvd_length_sequence {xs : List Part} (h : ∀ x ∈ xs, 32 ∣ x.body.length) :
    32 ∣ (sequence xs).length := by
  have hhead : ∀ x ∈ xs, 32 ∣ (head 0 x).length := by
    intro x hx
    unfold head
    split
    · exact dvd_length_number 0
    · exact h x hx
  have htail : ∀ x ∈ xs, 32 ∣ (tail x).length := by
    intro x hx
    unfold tail
    split
    · exact h x hx
    · exact Nat.dvd_zero 32
  rw [sequence, List.length_append, heads, length_flatten_mapIdx_head]
  exact Nat.dvd_add (dvd_length_flatMap hhead) (dvd_length_flatMap htail)

/-- Padding completes whole words. -/
theorem dvd_length_padded (bs : Bytes) : 32 ∣ (padded bs).length := by
  rw [padded, List.length_append, Bytes.length_zeros]
  omega

/-- The parts of a sequence are the encodings of its values. -/
theorem exists_of_mem_parts {x : Part} {vs : List Value} (h : x ∈ parts vs) :
    ∃ v ∈ vs, x.body = enc v := by
  induction vs with
  | nil => cases h
  | cons v vs ih =>
    rw [parts, List.mem_cons] at h
    rcases h with rfl | h
    · exact ⟨v, List.mem_cons_self, rfl⟩
    · obtain ⟨w, hw, hx⟩ := ih h
      exact ⟨w, List.mem_cons_of_mem v hw, hx⟩

/-- If the values are whole words, so is their sequence. -/
theorem dvd_length_sequence_parts {vs : List Value} (h : ∀ v ∈ vs, 32 ∣ (enc v).length) :
    32 ∣ (sequence (parts vs)).length := by
  refine dvd_length_sequence fun x hx => ?_
  obtain ⟨v, hv, hbody⟩ := exists_of_mem_parts hx
  rw [hbody]
  exact h v hv

/-- **Every encoding is whole words.** -/
theorem dvd_length_enc (v : Value) : 32 ∣ (enc v).length := by
  induction v using Value.ind with
  | scalar v hs =>
    cases v with
    | uint bits n => exact dvd_length_number n
    | int bits z => exact dvd_length_number _
    | address a =>
      have hlen : (Bytes.zeros 12 ++ a.bytes).length = 12 + 20 := by
        rw [List.length_append, Bytes.length_zeros, a.length_bytes]
      exact ⟨1, hlen⟩
    | bool flag => exact dvd_length_number _
    | fixedBytes bs => exact dvd_length_padded bs
    | _ => cases hs
  | bytes bs =>
    rw [enc, List.length_append]
    exact Nat.dvd_add (dvd_length_number _) (dvd_length_padded bs)
  | string s =>
    rw [enc, List.length_append]
    exact Nat.dvd_add (dvd_length_number _) (dvd_length_padded _)
  | array element items ih =>
    rw [enc, List.length_append]
    exact Nat.dvd_add (dvd_length_number _) (dvd_length_sequence_parts ih)
  | fixedArray element items ih =>
    rw [enc]
    exact dvd_length_sequence_parts ih
  | tuple items ih =>
    rw [enc]
    exact dvd_length_sequence_parts ih

end Format

end EthCall.Abi
