import EthCall.Proofs.Abi.Decoding
import EthCall.Proofs.Word

/-!
# Readings of a buffer

What it means to read is said once, by `Buffer.Holds`: some bytes stand at
some offset of the buffer. Bytes that follow one another are held one
behind the other (`Buffer.holds_append`), which is all that is needed to
find the parts of an encoding where they were written.

The lemmas on the readers – of words, sizes, offsets and length-prefixed
byte strings – are equivalences, so that they serve to show that a reading
succeeds as well as to see what a successful one has read. Nothing further
on unfolds a reader.
-/

namespace EthCall.Abi

open Decoding

variable {b : Buffer} {budget rest : Budget} {offset : Nat}

/-! ## What stands where -/

namespace Buffer

@[simp] theorem size_ofBytes (bs : Bytes) : (ofBytes bs).size = bs.length := by
  simp [ofBytes, size]

/-- A slice, on the list of bytes. -/
theorem slice_eq (b : Buffer) (offset len : Nat) :
    b.slice offset len = (b.bytes.toList.drop offset).take len := by
  unfold slice
  rw [Array.toList_extract, List.extract_eq_take_drop, Nat.add_sub_cancel_left]

/-- A slice is cut anywhere. -/
theorem slice_add (b : Buffer) (offset m n : Nat) :
    b.slice offset (m + n) = b.slice offset m ++ b.slice (offset + m) n := by
  rw [slice_eq, slice_eq, slice_eq, List.take_add, List.drop_drop]

/-- **The bytes that stand at an offset.** -/
def Holds (b : Buffer) (offset : Nat) (bs : Bytes) : Prop :=
  offset + bs.length ≤ b.size ∧ b.slice offset bs.length = bs

/-- What is held lies inside the buffer. -/
theorem Holds.le_size {bs : Bytes} (h : b.Holds offset bs) : offset + bs.length ≤ b.size := h.1

/-- So does a word. -/
theorem Holds.word_le_size {w : Word} (h : b.Holds offset w.bytes) : offset + 32 ≤ b.size := by
  have hsize := h.le_size
  rwa [w.length_bytes] at hsize

/-- No bytes stand at every place up to the end. -/
theorem holds_nil : b.Holds offset [] ↔ offset ≤ b.size := by
  unfold Holds
  rw [slice_eq]
  simp

/-- A slice inside the buffer is held where it was taken. -/
theorem holds_slice {len : Nat} (h : offset + len ≤ b.size) :
    b.Holds offset (b.slice offset len) := by
  unfold Holds
  rw [length_slice h]
  exact ⟨h, rfl⟩

/-- **Bytes that follow one another are held one behind the other.** -/
theorem holds_append {xs ys : Bytes} :
    b.Holds offset (xs ++ ys) ↔ b.Holds offset xs ∧ b.Holds (offset + xs.length) ys := by
  unfold Holds
  rw [List.length_append, slice_add]
  constructor
  · rintro ⟨hsize, heq⟩
    have hx : (b.slice offset xs.length).length = xs.length := length_slice (by omega)
    obtain ⟨hxs, hys⟩ := List.append_inj heq hx
    exact ⟨⟨by omega, hxs⟩, by omega, hys⟩
  · rintro ⟨⟨-, hxs⟩, hsize, hys⟩
    refine ⟨by omega, ?_⟩
    rw [hxs, hys]

/-- A buffer holds its prefixes at its start. -/
theorem holds_ofBytes_iff {data bs : Bytes} : (ofBytes data).Holds 0 bs ↔ bs <+: data := by
  unfold Holds
  rw [size_ofBytes, slice_eq, List.drop_zero, Nat.zero_add]
  show bs.length ≤ data.length ∧ data.take bs.length = bs ↔ _
  constructor
  · rintro ⟨-, h⟩
    exact h ▸ List.take_prefix _ _
  · intro h
    exact ⟨h.length_le, (List.prefix_iff_eq_take.mp h).symm⟩

/-! ## Words and sizes -/

/-- Room for so many bytes. -/
theorem ensure_returns {len : Nat} {u : Unit} :
    (b.ensure offset len).Returns budget u rest ↔ offset + len ≤ b.size ∧ rest = budget := by
  unfold ensure
  rw [returns_guard, returns_pure]
  simp

/-- **Reading a word.** -/
theorem word_returns {w : Word} :
    (b.word offset).Returns budget w rest ↔ b.Holds offset w.bytes ∧ rest = budget := by
  unfold word
  split
  case isTrue h =>
    rw [returns_pure]
    refine and_congr_left fun _ => ⟨fun hw => ?_, fun hw => ?_⟩
    · rw [hw]
      exact holds_slice h
    · refine FixedBytes.ext ?_
      rw [← hw.2, w.length_bytes]
  case isFalse h => exact iff_of_false not_returns_throw fun hw => h hw.1.word_le_size

/-- **Reading the word of a scalar**, which is charged. -/
theorem scalar_returns {w : Word} :
    (b.scalar offset).Returns budget w rest
      ↔ b.Holds offset w.bytes ∧ 32 ≤ budget.remaining ∧ rest = budget.spend ⟨offset, 32⟩ := by
  unfold scalar
  simp only [returns_bind, word_returns, charge_returns, returns_pure]
  constructor
  · rintro ⟨w', _, ⟨hw, rfl⟩, _, _, ⟨hcharge, rfl⟩, rfl, rfl⟩
    exact ⟨hw, hcharge, rfl⟩
  · rintro ⟨hw, hcharge, rfl⟩
    exact ⟨w, _, ⟨hw, rfl⟩, (), _, ⟨hcharge, rfl⟩, rfl, rfl⟩

/-- **Reading a size.** -/
theorem sizeAt_returns {role : SizeRole} {n : Nat} :
    (b.sizeAt offset role).Returns budget n rest
      ↔ n ≤ maxSize ∧ b.Holds offset (Word.ofNat n).bytes ∧ rest = budget := by
  unfold sizeAt
  simp only [returns_bind, word_returns]
  constructor
  · rintro ⟨w, _, ⟨hw, rfl⟩, h⟩
    split at h
    case h_2 => exact absurd h not_returns_throw
    case h_1 m hn =>
      obtain ⟨rfl, rfl⟩ := returns_pure.mp h
      obtain ⟨hmax, rfl⟩ := Word.toUInt64?_eq_some_iff.mp hn
      exact ⟨hmax, hw, rfl⟩
  · rintro ⟨hmax, hw, rfl⟩
    refine ⟨_, _, ⟨hw, rfl⟩, ?_⟩
    rw [Word.toUInt64?_ofNat hmax]
    exact returns_pure.mpr ⟨rfl, rfl⟩

/-- **Reading a byte string behind its length**, both of which are
charged. -/
theorem lengthPrefixedAt_returns {bs : Bytes} :
    (b.lengthPrefixedAt offset).Returns budget bs rest
      ↔ bs.length ≤ maxSize ∧ b.Holds offset (Word.ofNat bs.length).bytes
        ∧ b.Holds (offset + 32) bs ∧ 32 + bs.length ≤ budget.remaining
        ∧ rest = budget.spend ⟨offset, 32 + bs.length⟩ := by
  unfold lengthPrefixedAt
  simp only [returns_bind, sizeAt_returns, ensure_returns, charge_returns, returns_pure]
  constructor
  · rintro ⟨len, _, ⟨hmax, hlen, rfl⟩, _, _, ⟨hsize, rfl⟩, _, _, ⟨hcharge, rfl⟩, rfl, rfl⟩
    rw [length_slice hsize]
    exact ⟨hmax, hlen, holds_slice hsize, hcharge, rfl⟩
  · rintro ⟨hmax, hlen, hbs, hcharge, rfl⟩
    exact ⟨bs.length, _, ⟨hmax, hlen, rfl⟩, (), _, ⟨hbs.le_size, rfl⟩, (), _,
      ⟨hcharge, rfl⟩, hbs.2.symm, rfl⟩

end Buffer

/-- Where an offset points. -/
theorem target_returns {base relative place : Nat} :
    (target b base relative).Returns budget place rest
      ↔ place = base + relative ∧ place ≤ maxSize ∧ rest = budget := by
  unfold target
  rw [returns_guard, returns_pure]
  constructor
  · rintro ⟨hmax, rfl, rfl⟩
    exact ⟨rfl, hmax, rfl⟩
  · rintro ⟨rfl, hmax, rfl⟩
    exact ⟨hmax, rfl, rfl⟩

end EthCall.Abi
