import EthCall.Abi.Schema
import Mathlib

/-!
# Shapes and sizes of schemas

A schema is a *scalar* (`Schema.isScalar`), whose values are one word, a
byte string or a text, or a composite of other schemas. `Schema.ind` is
the induction over this shape: it treats the scalars alike and gives the
members of a tuple by membership.

The size of a schema is measured here without a bound
(`Schema.inlineSize`). The head size the codec computes with is that size
held at `maxSize` (`Schema.headSize_eq`): holding an inner size down never
makes an outer one come out smaller than it should.
-/

namespace EthCall.Abi

namespace Schema

/-! ## Shapes -/

/-- **Whether the values are one word.** -/
def isScalar : Schema → Bool
  | uint _ => true
  | int _ => true
  | address => true
  | bool => true
  | fixedBytes _ => true
  | _ => false

/-- **Induction over the shape of a schema.** -/
@[elab_as_elim]
theorem ind {motive : Schema → Prop} (scalar : ∀ s, s.isScalar = true → motive s)
    (bytes : motive bytes) (string : motive string)
    (array : ∀ element, motive element → motive (array element))
    (fixedArray : ∀ element size, motive element → motive (fixedArray element size))
    (tuple : ∀ members, (∀ s ∈ members, motive s) → motive (tuple members)) (s : Schema) :
    motive s :=
  Schema.rec (motive_1 := motive) (motive_2 := fun members => ∀ s ∈ members, motive s)
    (fun _ => scalar _ rfl) (fun _ => scalar _ rfl) (scalar _ rfl) (scalar _ rfl)
    (fun _ => scalar _ rfl) bytes string array fixedArray tuple
    (fun _ h => nomatch h)
    (fun _ _ hmember hrest => List.forall_mem_cons.mpr ⟨hmember, hrest⟩) s

/-- A scalar stands in its place. -/
theorem isDynamic_of_isScalar {s : Schema} (h : s.isScalar = true) : s.isDynamic = false := by
  cases s <;> first | rfl | cases h

/-- One dynamic schema makes the list dynamic. -/
theorem anyDynamic_eq_true_iff {ss : List Schema} :
    anyDynamic ss = true ↔ ∃ s ∈ ss, s.isDynamic = true := by
  induction ss with
  | nil => simp [anyDynamic]
  | cons s ss ih => simp [anyDynamic, ih]

/-- A list is static when all of its schemas are. -/
theorem anyDynamic_eq_false_iff {ss : List Schema} :
    anyDynamic ss = false ↔ ∀ s ∈ ss, s.isDynamic = false := by
  rw [← Bool.not_eq_true, anyDynamic_eq_true_iff]
  simp

/-- Repeating a static schema does not make it dynamic. -/
theorem isDynamic_of_anyDynamic_replicate {s : Schema} {count : Nat}
    (h : anyDynamic (List.replicate count s) = true) : s.isDynamic = true := by
  obtain ⟨t, ht, hd⟩ := anyDynamic_eq_true_iff.mp h
  rwa [List.eq_of_mem_replicate ht] at hd

@[simp] theorem isDynamic_fixedArray (element : Schema) (size : Nat) :
    (fixedArray element size).isDynamic = element.isDynamic := rfl

@[simp] theorem isDynamic_tuple (members : List Schema) :
    (tuple members).isDynamic = anyDynamic members := rfl

/-! ## Validity -/

/-- A list is free of defects when each of its schemas is. -/
theorem defectIn?_eq_none_iff {ss : List Schema} :
    defectIn? ss = none ↔ ∀ s ∈ ss, s.IsValid := by
  induction ss with
  | nil => simp [defectIn?]
  | cons s ss ih =>
    rw [List.forall_mem_cons, ← ih, defectIn?]
    unfold IsValid
    cases s.defect? <;> simp

/-- The widths of integers end at that of a word. -/
theorem isValid_uint_iff {bits : Nat} :
    (uint bits).IsValid ↔ bits ≠ 0 ∧ bits ≤ 256 ∧ bits % 8 = 0 := by
  show widthDefect? bits = none ↔ _
  unfold widthDefect?
  rw [ite_eq_right_iff]
  simp

theorem isValid_int_iff {bits : Nat} :
    (int bits).IsValid ↔ bits ≠ 0 ∧ bits ≤ 256 ∧ bits % 8 = 0 :=
  isValid_uint_iff

/-- The sizes of fixed byte strings end at that of a word. -/
theorem isValid_fixedBytes_iff {size : Nat} :
    (fixedBytes size).IsValid ↔ size ≠ 0 ∧ size ≤ 32 := by
  unfold IsValid
  rw [defect?, ite_eq_right_iff]
  simp

/-- An array is as valid as its elements. -/
theorem isValid_array_iff {element : Schema} :
    (array element).IsValid ↔ element.IsValid := by
  unfold IsValid
  rw [defect?]

/-- A fixed array has an item, and not more than a size can count. -/
theorem isValid_fixedArray_iff {element : Schema} {size : Nat} :
    (fixedArray element size).IsValid ↔ size ≠ 0 ∧ size ≤ maxSize ∧ element.IsValid := by
  unfold IsValid
  rw [defect?]
  by_cases h : size = 0 ∨ maxSize < size
  · rw [if_pos h]
    refine iff_of_false (by simp) fun hsize => ?_
    omega
  · rw [if_neg h]
    exact ⟨fun he => ⟨by omega, by omega, he⟩, fun he => he.2.2⟩

/-- A tuple has members, and each of them is valid. -/
theorem isValid_tuple_iff {members : List Schema} :
    (tuple members).IsValid ↔ members ≠ [] ∧ ∀ s ∈ members, s.IsValid := by
  cases members with
  | nil => simp [IsValid, defect?]
  | cons s ss =>
    show defectIn? (s :: ss) = none ↔ _
    rw [defectIn?_eq_none_iff]
    simp

/-! ## Sizes -/

mutual

/-- **The bytes taken in place**, however many they are. -/
def inlineSize : Schema → Nat
  | fixedArray element size => if isDynamic element then 32 else size * inlineSize element
  | tuple members => if anyDynamic members then 32 else inlineSizes members
  | _ => 32

/-- The bytes that several schemas take in place, one after the other. -/
def inlineSizes : List Schema → Nat
  | [] => 0
  | member :: rest => inlineSize member + inlineSizes rest

end

/-- One offset takes the place of what is dynamic. -/
theorem inlineSize_of_isDynamic {s : Schema} (h : s.isDynamic = true) : s.inlineSize = 32 := by
  cases s with
  | fixedArray element size =>
    rw [isDynamic_fixedArray] at h
    rw [inlineSize, if_pos h]
  | tuple members =>
    rw [isDynamic_tuple] at h
    rw [inlineSize, if_pos h]
  | _ => rw [inlineSize] <;> simp

theorem inlineSize_of_isScalar {s : Schema} (h : s.isScalar = true) : s.inlineSize = 32 := by
  cases s <;> first | rfl | cases h

/-- Repetitions take the same bytes each. -/
theorem inlineSizes_replicate (count : Nat) (s : Schema) :
    inlineSizes (List.replicate count s) = count * s.inlineSize := by
  induction count with
  | zero => simp [inlineSizes]
  | succ n ih => rw [List.replicate_succ, inlineSizes, ih, Nat.succ_mul, Nat.add_comm]

/-- **Nothing valid takes less than a word in place**, since a fixed array
has an item and a tuple a member. -/
theorem le_inlineSize_of_isValid {s : Schema} (hs : s.IsValid) : 32 ≤ s.inlineSize := by
  induction s using ind with
  | scalar s hscalar => exact Nat.le_of_eq (inlineSize_of_isScalar hscalar).symm
  | bytes => exact Nat.le_refl 32
  | string => exact Nat.le_refl 32
  | array element => exact Nat.le_refl 32
  | fixedArray element size ih =>
    obtain ⟨hsize, -, helement⟩ := isValid_fixedArray_iff.mp hs
    rw [inlineSize]
    split
    · exact Nat.le_refl 32
    · exact Nat.le_trans (ih helement) (Nat.le_mul_of_pos_left _ (Nat.pos_of_ne_zero hsize))
  | tuple members ih =>
    obtain ⟨hne, hmembers⟩ := isValid_tuple_iff.mp hs
    rw [inlineSize]
    split
    · exact Nat.le_refl 32
    · cases members with
      | nil => exact absurd rfl hne
      | cons s ss =>
        have hfirst := ih s List.mem_cons_self (hmembers s List.mem_cons_self)
        rw [inlineSizes]
        omega

/-- Holding a factor at the largest size is undone by holding the
product. -/
theorem min_mul_maxSize (m n : Nat) :
    min (min m maxSize * n) maxSize = min (n * m) maxSize := by
  -- no factor undoes the bound, except zero
  rcases Nat.eq_zero_or_pos n with rfl | hn
  · simp
  · rcases Nat.le_total m maxSize with hm | hm
    · rw [Nat.min_eq_left hm, Nat.mul_comm]
    · have hle : maxSize ≤ maxSize * n := Nat.le_mul_of_pos_right _ hn
      have hle' : maxSize ≤ n * m :=
        Nat.le_trans hm (Nat.le_mul_of_pos_left _ hn)
      rw [Nat.min_eq_right hm, Nat.min_eq_right hle, Nat.min_eq_right hle']

mutual

/-- **The head size is the size in place, held at the largest size.** -/
theorem headSize_eq : (s : Schema) → s.headSize = min s.inlineSize maxSize
  | fixedArray element size => by
    rw [headSize, inlineSize]
    split
    · rfl
    · rw [headSize_eq element, min_mul_maxSize]
  | tuple members => by
    rw [headSize, inlineSize]
    split
    · rfl
    · exact headSizes_eq members
  | uint _ => rfl
  | int _ => rfl
  | address => rfl
  | bool => rfl
  | fixedBytes _ => rfl
  | bytes => rfl
  | string => rfl
  | array _ => rfl

/-- The same for several schemas. -/
theorem headSizes_eq : (ss : List Schema) → headSizes ss = min (inlineSizes ss) maxSize
  | [] => rfl
  | s :: ss => by
    rw [headSizes, inlineSizes, headSize_eq s, headSizes_eq ss]
    omega

end

/-- The head size has the same lower bound. -/
theorem le_headSize_of_isValid {s : Schema} (hs : s.IsValid) : 32 ≤ s.headSize := by
  have hinline := le_inlineSize_of_isValid hs
  have hmax : 32 ≤ maxSize := by decide
  rw [headSize_eq]
  omega

/-- Holding the sizes down never makes them larger. -/
theorem headSizes_le (ss : List Schema) : headSizes ss ≤ inlineSizes ss := by
  rw [headSizes_eq]
  exact Nat.min_le_left _ _

/-- The room asked for the items of an array is the head size of that many
members. -/
theorem min_mul_headSize (count : Nat) (s : Schema) :
    min (count * s.headSize) maxSize = headSizes (List.replicate count s) := by
  rw [headSizes_eq, inlineSizes_replicate, headSize_eq, Nat.mul_comm, min_mul_maxSize]

end Schema

end EthCall.Abi
