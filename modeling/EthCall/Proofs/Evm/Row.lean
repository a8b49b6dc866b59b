import EthCall.Proofs.Evm.Change
import Mathlib.Data.List.GetD
import Std.Data.TreeMap.Lemmas

/-!
# Rows of bytes

A `Row` is an endless row of bytes. Nothing about it is ever reserved, it
has no size, and every stretch of it can be read and overwritten. A
contract may think of its memory as a row that is zero at the start; the
memory of a machine is one as long as no byte is set beyond what is in use
(`Memory.row_eq_byte`).
-/

namespace EthCall.Evm

/-- **An endless row of bytes.** -/
abbrev Row : Type := Nat → UInt8

namespace Row

/-- The row that is zero everywhere. -/
def zero : Row := fun _ => 0

/-- A byte string, and zeros behind it. -/
def ofBytes (bs : Bytes) : Row := fun i => bs.getD i 0

/-- **The `len` bytes from an offset on.** -/
def stretch (A : Row) (offset len : Nat) : Bytes :=
  (List.range len).map fun i => A (offset + i)

/-- **The row with other bytes from an offset on**, as many as are
given. -/
def overwrite (A : Row) (offset : Nat) (bs : Bytes) : Row := fun i =>
  if offset ≤ i then bs.getD (i - offset) (A i) else A i

/-- Nothing is overwritten in front of the offset. -/
theorem overwrite_of_lt (A : Row) {offset i : Nat} (bs : Bytes) (h : i < offset) :
    A.overwrite offset bs i = A i :=
  if_neg (Nat.not_le.mpr h)

/-- The bytes given stand in the row. -/
theorem overwrite_add (A : Row) (offset i : Nat) (bs : Bytes) :
    A.overwrite offset bs (offset + i) = bs.getD i (A (offset + i)) := by
  unfold overwrite
  rw [if_pos (Nat.le_add_right offset i), Nat.add_sub_cancel_left]

/-- Nothing is overwritten behind the last of them. -/
theorem overwrite_of_le (A : Row) {offset i : Nat} {bs : Bytes} (h : offset + bs.length ≤ i) :
    A.overwrite offset bs i = A i := by
  obtain ⟨j, rfl⟩ := Nat.exists_eq_add_of_le (Nat.le_trans (Nat.le_add_right _ _) h)
  rw [overwrite_add]
  exact List.getD_eq_default _ _ (by omega)

@[simp] theorem overwrite_nil (A : Row) (offset : Nat) : A.overwrite offset [] = A := by
  funext i
  unfold overwrite
  split <;> rfl

/-- Bytes are put in one after the other. -/
theorem overwrite_cons (A : Row) (offset : Nat) (b : UInt8) (bs : Bytes) :
    A.overwrite offset (b :: bs) = (A.overwrite offset [b]).overwrite (offset + 1) bs := by
  funext i
  rcases Nat.lt_trichotomy i offset with hlt | rfl | hgt
  · rw [overwrite_of_lt _ _ hlt, overwrite_of_lt _ _ (Nat.lt_succ_of_lt hlt),
      overwrite_of_lt _ _ hlt]
  · rw [overwrite_of_lt _ _ (Nat.lt_succ_self i)]
    exact (overwrite_add A i 0 (b :: bs)).trans (overwrite_add A i 0 [b]).symm
  · obtain ⟨j, rfl⟩ := Nat.exists_eq_add_of_le (show offset + 1 ≤ i from hgt)
    have hbehind : A.overwrite offset [b] (offset + 1 + j) = A (offset + 1 + j) :=
      overwrite_of_le A (Nat.le_add_right _ j)
    rw [overwrite_add, hbehind, Nat.add_assoc, overwrite_add, Nat.add_comm 1 j]
    rfl

/-! ## Stretches -/

@[simp] theorem length_stretch (A : Row) (offset len : Nat) :
    (A.stretch offset len).length = len := by
  unfold stretch
  rw [List.length_map, List.length_range]

/-- Stretches are joined. -/
theorem stretch_add (A : Row) (offset m n : Nat) :
    A.stretch offset (m + n) = A.stretch offset m ++ A.stretch (offset + m) n := by
  unfold stretch
  rw [List.range_add, List.map_append, List.map_map]
  simp only [Function.comp_def, Nat.add_assoc]

/-- A stretch is told by its bytes. -/
theorem stretch_eq {A : Row} {offset len : Nat} {bs : Bytes} (hlen : bs.length = len)
    (h : ∀ (i : Nat) (hi : i < bs.length), A (offset + i) = bs[i]) : A.stretch offset len = bs := by
  subst hlen
  refine List.ext_getElem (length_stretch A offset bs.length) fun i _ hi => ?_
  refine (List.getElem_map _).trans ?_
  rw [List.getElem_range]
  exact h i hi

/-- A stretch in front of what is overwritten stays. -/
theorem stretch_overwrite_of_le (A : Row) {offset len start : Nat} (bs : Bytes)
    (h : offset + len ≤ start) : (A.overwrite start bs).stretch offset len = A.stretch offset len :=
  List.map_congr_left fun _ hi => overwrite_of_lt A bs (by have := List.mem_range.mp hi; omega)

/-- What is written is read, from its start on. -/
theorem stretch_overwrite (A : Row) (offset : Nat) (bs rest : Bytes) :
    (A.overwrite offset (bs ++ rest)).stretch offset bs.length = bs := by
  refine stretch_eq rfl fun i hi => ?_
  rw [overwrite_add, List.getD_append _ _ _ _ hi, List.getD_eq_getElem _ _ hi]

/-- A byte string is a stretch of what it is part of. -/
theorem stretch_ofBytes (front bs rest : Bytes) :
    (ofBytes (front ++ (bs ++ rest))).stretch front.length bs.length = bs := by
  refine stretch_eq rfl fun i hi => ?_
  unfold ofBytes
  rw [List.getD_append_right _ _ _ _ (Nat.le_add_right _ _), Nat.add_sub_cancel_left,
    List.getD_append _ _ _ _ hi, List.getD_eq_getElem _ _ hi]

/-- Zeros behind a byte string do not change the row it is read as. -/
theorem ofBytes_append_zeros (bs : Bytes) (k : Nat) :
    ofBytes (bs ++ Bytes.zeros k) = ofBytes bs := by
  funext i
  unfold ofBytes Bytes.zeros
  rcases Nat.lt_or_ge i bs.length with hin | hout
  · rw [List.getD_append _ _ _ _ hin]
  · rw [List.getD_append_right _ _ _ _ hout, List.getD_eq_default _ _ hout]
    exact (List.getD_eq_getElem?_getD ..).trans (List.getElem?_getD_replicate_default_eq _ _ _)

end Row

/-- The bytes of calldata and code are read as a row. -/
theorem zeroExtended_toArray (bs : Bytes) (offset len : Nat) :
    zeroExtended bs.toArray offset len = (Row.ofBytes bs).stretch offset len := by
  unfold zeroExtended Row.stretch Row.ofBytes
  refine List.map_congr_left fun i _ => ?_
  rw [Array.getD_eq_getD_getElem?, List.getElem?_toArray, List.getD_eq_getElem?_getD]

/-- The first bytes, completed by zeros. -/
theorem zeroExtended_zero (bs : Bytes) (len : Nat) :
    zeroExtended bs.toArray 0 len = (bs ++ Bytes.zeros len).take len := by
  rw [zeroExtended_toArray]
  have hlen : ((bs ++ Bytes.zeros len).take len).length = len := by
    rw [List.length_take, List.length_append, Bytes.length_zeros]
    omega
  refine Row.stretch_eq hlen fun i _ => ?_
  rw [List.getElem_take, Nat.zero_add]
  unfold Row.ofBytes
  rcases Nat.lt_or_ge i bs.length with hin | hout
  · rw [List.getElem_append_left hin, List.getD_eq_getElem _ _ hin]
  · rw [List.getElem_append_right hout, List.getD_eq_default _ _ hout]
    exact (List.getElem_replicate _).symm

namespace Memory

/-- **The row a memory stands for**: its bytes as far as it is in use, and
zeros behind them. -/
def row (m : Memory) : Row := fun i => if i < m.size then m.byte i else 0

/-- No byte is set beyond what is in use. -/
def ZeroBeyond (m : Memory) : Prop :=
  ∀ i, m.size ≤ i → m.byte i = 0

/-- Then the bytes of a memory are the row it stands for. -/
theorem row_eq_byte {m : Memory} (h : m.ZeroBeyond) : m.row = m.byte := by
  funext i
  unfold row
  split
  · rfl
  · rename_i hi
    exact (h i (Nat.le_of_not_lt hi)).symm

/-- What is read is a stretch of the row. -/
theorem read_eq_stretch (m : Memory) (offset len : Nat) :
    m.read offset len = Row.stretch m.byte offset len := rfl

/-! ## Growing -/

@[simp] theorem byte_grow (m : Memory) (size : Nat) : (m.grow size).byte = m.byte := rfl

theorem ZeroBeyond.grow {m : Memory} (h : m.ZeroBeyond) (size : Nat) :
    (m.grow size).ZeroBeyond :=
  fun i hi => h i (Nat.le_trans (Nat.le_max_left _ _) hi)

/-- **Growing does not change the row.** -/
theorem row_grow {m : Memory} (h : m.ZeroBeyond) (size : Nat) : (m.grow size).row = m.row := by
  rw [row_eq_byte (h.grow size), row_eq_byte h, byte_grow]

/-! ## Writing -/

/-- One byte is written. A zero is not stored, and is read all the
same. -/
theorem byte_setByte (m : Memory) (i : Nat) (b : UInt8) :
    (m.setByte i b).byte = Row.overwrite m.byte i [b] := by
  funext j
  have hset : (m.setByte i b).byte j = if i = j then b else m.byte j := by
    unfold setByte byte
    split
    case isTrue hb => simp [Std.TreeMap.getD_erase, hb]
    case isFalse => simp [Std.TreeMap.getD_insert]
  rw [hset]
  rcases Nat.lt_trichotomy j i with hlt | rfl | hgt
  · rw [Row.overwrite_of_lt _ _ hlt, if_neg (Nat.ne_of_gt hlt)]
  · rw [if_pos rfl]
    exact (Row.overwrite_add m.byte j 0 [b]).symm
  · have hbehind : Row.overwrite m.byte i [b] j = m.byte j := Row.overwrite_of_le m.byte hgt
    rw [hbehind, if_neg (Nat.ne_of_lt hgt)]

/-- **Writing overwrites the row.** -/
theorem byte_write (m : Memory) (offset : Nat) (bs : Bytes) :
    (m.write offset bs).byte = Row.overwrite m.byte offset bs := by
  induction bs generalizing m offset with
  | nil => exact (Row.overwrite_nil _ _).symm
  | cons b rest ih => rw [write, ih, byte_setByte, ← Row.overwrite_cons]

/-- Writing within the memory in use sets nothing beyond it. -/
theorem ZeroBeyond.write {m : Memory} (h : m.ZeroBeyond) {offset : Nat} {bs : Bytes}
    (hcovers : m.Covers offset bs.length) : (m.write offset bs).ZeroBeyond := by
  intro i hi
  rw [size_write] at hi
  rw [byte_write]
  rcases Nat.lt_or_ge i offset with hlt | hge
  · rw [Row.overwrite_of_lt _ _ hlt]
    exact h i hi
  · -- the stretch ends before `i`, which is not in use
    have hend : offset + bs.length ≤ i := by
      rcases Nat.lt_or_ge i (offset + bs.length) with hin | hend
      · have := hcovers (i - offset) (by omega)
        omega
      · exact hend
    rw [Row.overwrite_of_le _ hend]
    exact h i hi

end Memory

end EthCall.Evm
