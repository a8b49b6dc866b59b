import EthCall.Proofs.Abi.Untrapped
import Mathlib

/-!
# Head sizes of 64 bits

A schema can describe more bytes than a number of 64 bits counts; a fixed
array of fixed arrays is enough. The head size is therefore computed with
sums and products that stop at the largest size
(`Trapping.headSize`), and a reader that asks whether there is room for so
many items multiplies a number that may be far too small.

It is asked of a buffer, and that is why nothing goes wrong. A size that
was held down is larger than every buffer, and so is whatever it is a part
of, for a valid fixed array has an item at least. The answer is the one
that arithmetic without a bound would give (`Buffer.ensureItems_eq`).
-/

namespace EthCall.Abi

open Decoding

/-! ## The largest size -/

namespace Schema

/-- No sum of head sizes exceeds the largest size. -/
theorem headSizes_le_maxSize (ss : List Schema) : headSizes ss ≤ maxSize := by
  rw [headSizes_eq]
  exact Nat.min_le_right _ _

/-- Of the room for some items as much is asked for as the largest size
allows, whether the size of one was held down or not. -/
theorem min_mul_headSize_eq (count : Nat) (s : Schema) :
    min (count * s.headSize) maxSize = min (count * s.inlineSize) maxSize := by
  rw [min_mul_headSize, headSizes_eq, inlineSizes_replicate]

end Schema

/-- **There is room for some items exactly if they fit**, however large
they are. A number that was held down is larger than the buffer. -/
theorem Buffer.ensureItems_eq {b : Buffer} (hb : b.size < maxSize) (base count : Nat)
    (s : Schema) :
    b.ensureItems base count s
      = if base + count * s.inlineSize ≤ b.size then pure ()
        else throw (.outOfBounds base (min (count * s.inlineSize) maxSize) b.size) := by
  have hroom : base + min (count * s.inlineSize) maxSize ≤ b.size
      ↔ base + count * s.inlineSize ≤ b.size := by
    omega
  unfold ensureItems ensure
  rw [Schema.min_mul_headSize_eq]
  simp only [hroom]

/-! ## One operation after the other -/

namespace Trapping

/-- A sum, or the largest size where it has none. -/
def saturatingAdd (m n : Nat) : Nat :=
  (Trap.checkedAdd? maxSize m n).getD maxSize

/-- A product, or the largest size where it has none. -/
def saturatingMul (m n : Nat) : Nat :=
  (Trap.checkedMul? maxSize m n).getD maxSize

mutual

/-- **The head size, with operations on sizes.** -/
def headSize : Schema → Nat
  | .fixedArray element size =>
    if element.isDynamic then 32 else saturatingMul (headSize element) size
  | .tuple members => if Schema.anyDynamic members then 32 else headSizesFrom 0 members
  | _ => 32

/-- The head sizes of several schemas, added to a total from the first one
on. -/
def headSizesFrom (total : Nat) : List Schema → Nat
  | [] => total
  | member :: rest => headSizesFrom (saturatingAdd total (headSize member)) rest

end

theorem saturatingAdd_eq (m n : Nat) : saturatingAdd m n = min (m + n) maxSize := by
  unfold saturatingAdd Trap.checkedAdd?
  split
  case isTrue h => exact (Nat.min_eq_left h).symm
  case isFalse h => exact (Nat.min_eq_right (Nat.le_of_not_le h)).symm

theorem saturatingMul_eq (m n : Nat) : saturatingMul m n = min (m * n) maxSize := by
  unfold saturatingMul Trap.checkedMul?
  split
  case isTrue h => exact (Nat.min_eq_left h).symm
  case isFalse h => exact (Nat.min_eq_right (Nat.le_of_not_le h)).symm

mutual

/-- **The operations come to the head size.** -/
theorem headSize_eq : (s : Schema) → headSize s = s.headSize
  | .fixedArray element size => by
    rw [headSize, Schema.headSize, saturatingMul_eq, headSize_eq element]
  | .tuple members => by
    rw [headSize, Schema.headSize, headSizesFrom_eq (Nat.zero_le _) members, Nat.zero_add,
      Nat.min_eq_left (Schema.headSizes_le_maxSize members)]
  | .uint _ => rfl
  | .int _ => rfl
  | .address => rfl
  | .bool => rfl
  | .fixedBytes _ => rfl
  | .bytes => rfl
  | .string => rfl
  | .array _ => rfl

/-- It does not matter from which end the sizes are added. -/
theorem headSizesFrom_eq {total : Nat} (h : total ≤ maxSize) :
    (ss : List Schema) → headSizesFrom total ss = min (total + Schema.headSizes ss) maxSize
  | [] => (Nat.min_eq_left h).symm
  | s :: ss => by
    have hsum : saturatingAdd total s.headSize ≤ maxSize := by
      rw [saturatingAdd_eq]
      exact Nat.min_le_right _ _
    rw [headSizesFrom, headSize_eq s, headSizesFrom_eq hsum ss, saturatingAdd_eq,
      Schema.headSizes]
    omega

end

end Trapping

/-! ## Room for items -/

/-- Room is found where the items fit, -/
theorem Buffer.ensureItems_returns_iff {b : Buffer} (hb : b.size < maxSize) (base count : Nat)
    (s : Schema) (budget : Budget) :
    (b.ensureItems base count s).Returns budget () budget
      ↔ base + count * s.inlineSize ≤ b.size := by
  rw [ensureItems_eq hb, returns_guard, returns_pure]
  simp

/-- and refused where they do not. -/
theorem Buffer.ensureItems_fails_iff {b : Buffer} (hb : b.size < maxSize) (base count : Nat)
    (s : Schema) (budget : Budget) :
    (b.ensureItems base count s).Fails budget
        (.outOfBounds base (min (count * s.inlineSize) maxSize) b.size) budget
      ↔ b.size < base + count * s.inlineSize := by
  rw [ensureItems_eq hb, ← Nat.not_le]
  by_cases h : base + count * s.inlineSize ≤ b.size
  · rw [if_pos h]
    exact iff_of_false not_fails_pure (not_not.mpr h)
  · rw [if_neg h]
    exact iff_of_true (fails_throw.mpr ⟨rfl, rfl⟩) h

namespace Schema

/-- **A head size that is held down never asks for too little.** The head
size of a valid schema is its size in place, or the largest size if that
is smaller, and a word at least. It is computed as such with sums and
products that stop at the largest size. Whether a buffer has room for so
many items is decided by the sizes in place all the same; and the
operations it is decided with do not trap. -/
theorem headSize_never_underreports {s : Schema} (hs : s.IsValid) :
    s.headSize = min s.inlineSize (2 ^ 64 - 1)
    ∧ 32 ≤ s.headSize
    ∧ Trapping.headSize s = s.headSize
    ∧ ∀ (data : Bytes) (base count : Nat) (budget : Budget), data.length < 2 ^ 63 →
      (((Buffer.ofBytes data).ensureItems base count s).Returns budget () budget
        ↔ base + count * s.inlineSize ≤ data.length)
      ∧ (((Buffer.ofBytes data).ensureItems base count s).Fails budget
          (.outOfBounds base (min (count * s.inlineSize) (2 ^ 64 - 1)) data.length) budget
        ↔ data.length < base + count * s.inlineSize)
      ∧ Trapping.Follows (Buffer.ofBytes data)
          (Trapping.ensureItems (Buffer.ofBytes data) base count s)
          ((Buffer.ofBytes data).ensureItems base count s) := by
  have hmax : maxSize = 2 ^ 64 - 1 := by decide
  refine ⟨?_, le_headSize_of_isValid hs, Trapping.headSize_eq s, ?_⟩
  · rw [headSize_eq, hmax]
  · intro data base count budget hdata
    have hb : (Buffer.ofBytes data).size < maxSize := by
      rw [Buffer.size_ofBytes, hmax]
      omega
    have hreturns := Buffer.ensureItems_returns_iff hb base count s budget
    have hfails := Buffer.ensureItems_fails_iff hb base count s budget
    rw [Buffer.size_ofBytes] at hreturns hfails
    rw [hmax] at hfails
    exact ⟨hreturns, hfails, Trapping.follows_ensureItems hb base count s⟩

/-- Items of two dimensions that are no size together. -/
def beyondMaxSize : Schema :=
  .tuple [.fixedArray (.fixedArray (.uint 256) (2 ^ 63)) (2 ^ 63), .bool]

/-- Two words have no room for one such item, but they have for none. -/
theorem headSize_never_underreports_beyondMaxSize :
    beyondMaxSize.IsValid
    ∧ (Bytes.zeros 64).length < 2 ^ 63
    ∧ beyondMaxSize.inlineSize = 2 ^ 131 + 32
    ∧ beyondMaxSize.headSize = 2 ^ 64 - 1
    ∧ ((Buffer.ofBytes (Bytes.zeros 64)).ensureItems 0 1 beyondMaxSize).Fails ⟨64, []⟩
        (.outOfBounds 0 (2 ^ 64 - 1) 64) ⟨64, []⟩
    ∧ ((Buffer.ofBytes (Bytes.zeros 64)).ensureItems 64 0 beyondMaxSize).Returns ⟨64, []⟩ ()
        ⟨64, []⟩ := by
  have hvalid : beyondMaxSize.IsValid := by decide +kernel
  have hlength : (Bytes.zeros 64).length < 2 ^ 63 := by decide +kernel
  obtain ⟨hhead, -, -, hroom⟩ := headSize_never_underreports hvalid
  obtain ⟨-, hfails, -⟩ := hroom (Bytes.zeros 64) 0 1 ⟨64, []⟩ hlength
  obtain ⟨hreturns, -, -⟩ := hroom (Bytes.zeros 64) 64 0 ⟨64, []⟩ hlength
  have hinline : beyondMaxSize.inlineSize = 2 ^ 131 + 32 := by decide +kernel
  refine ⟨hvalid, hlength, hinline, ?_, ?_, ?_⟩
  · rw [hhead, hinline]
    rfl
  · rw [hinline] at hfails
    exact hfails.mpr (by decide +kernel)
  · rw [Nat.zero_mul] at hreturns
    exact hreturns.mpr (by decide +kernel)

end Schema

end EthCall.Abi
