import EthCall.Proofs.Evm.TrappingArithmetic
import EthCall.Proofs.Trap
import EthCall.Proofs.Word
import Mathlib

/-!
# Numbers made into words, byte by byte

`Word.ofSigned` asks of a number whether it lies in the range of a word.
A program that has the bytes of a number and no powers to compare it with
finds that out from the bytes, and this in two ways at once. There may be
more than 32 of them; and 32 of them may have the wrong sign bit, once they
are in their place.

Here are the conversions as they are done on bytes. A number that is not
negative is written with zero bytes in front of it. A negative one has no
bytes: those of the number `-(z + 1)` are written, which is none the less
unbounded, with every bit the other way round (`Bytes.complement`). This is
two's complement because a byte string and its complement spell all of the
numbers of their width together (`Bytes.toNat_complement`). Nothing is ever
put into a place that is too small for it, and what comes out is the word of
the number, or the refusal, that `Word.ofSigned` has
(`Word.Trapping.ofSigned_eq`).
-/

namespace EthCall

namespace Bytes

/-- **The complement of a byte string**: every bit the other way round. -/
def complement (bs : Bytes) : Bytes :=
  bs.map (~~~ ·)

@[simp] theorem length_complement (bs : Bytes) : (complement bs).length = bs.length :=
  List.length_map ..

@[simp] theorem complement_append (as bs : Bytes) :
    complement (as ++ bs) = complement as ++ complement bs :=
  List.map_append

/-- The complement of zero bytes. -/
@[simp] theorem complement_zeros (n : Nat) : complement (zeros n) = List.replicate n 0xff :=
  List.map_replicate

/-- A byte and its complement are all bits together. -/
theorem toNat_complement_byte (b : UInt8) : (~~~b).toNat + b.toNat = 255 := by
  have hle : b.toNat ≤ 255 := Nat.le_of_lt_succ b.toNat_lt
  simp [UInt8.toNat_not, hle]

/-- **A byte string and its complement** add up to the largest number of
their width. -/
theorem toNat_complement (bs : Bytes) : toNat (complement bs) + toNat bs + 1 = 256 ^ bs.length := by
  induction bs with
  | nil => rfl
  | cons b bs ih =>
    have hbyte := toNat_complement_byte b
    show toNat (~~~b :: complement bs) + toNat (b :: bs) + 1 = 256 ^ (bs.length + 1)
    rw [toNat_cons, toNat_cons, length_complement]
    calc (~~~b).toNat * 256 ^ bs.length + toNat (complement bs)
          + (b.toNat * 256 ^ bs.length + toNat bs) + 1
        = ((~~~b).toNat + b.toNat) * 256 ^ bs.length
          + (toNat (complement bs) + toNat bs + 1) := by ring
      _ = 255 * 256 ^ bs.length + 256 ^ bs.length := by rw [hbyte, ih]
      _ = 256 ^ (bs.length + 1) := by ring

end Bytes

namespace Evm.Trapping

/-- **How many bytes a number needs** is a question of its size. -/
theorem length_bytesOfNat_le_iff {n k : Nat} (hk : 0 < k) :
    (bytesOfNat n).length ≤ k ↔ n < 256 ^ k := by
  have hpow : 256 ^ k = 2 ^ (8 * k) := by rw [Nat.pow_mul]
  unfold bytesOfNat
  rw [Bytes.length_ofNat, hpow]
  by_cases hn : n = 0
  · simp [hn]
    exact hk
  · rw [← Nat.log2_lt hn]
    omega

end Evm.Trapping

namespace Word

open Evm.Trapping

/-- **The range of signed numbers** in a word. -/
theorem fitsSigned_256_iff {z : Int} :
    fitsSigned z 256 = true ↔ -(powerOfTwo 255 : Int) ≤ z ∧ z < powerOfTwo 255 := by
  rw [fitsSigned_iff]
  exact and_iff_right (by decide)

namespace Trapping

/-- Bytes at the end of a word, and other bytes in front of them. -/
def leftPadded (bs : Bytes) (fill : UInt8) : Except Trap Word := do
  let start ← Trap.sub 32 bs.length
  let padded ← Trap.overwrite (List.replicate 32 fill) start 32 bs
  Trap.fixed 32 padded

/-- **The word that holds an unsigned number.** -/
def ofUnsigned (n : Nat) : Except Trap (Except WordError Word) :=
  let bs := bytesOfNat n
  if 32 < bs.length then return .error .unsignedOverflow
  else do return .ok (← leftPadded bs 0x00)

/-- **The word that holds a signed number.** What is written has to have
the sign of the number. -/
def ofSigned (z : Int) : Except Trap (Except WordError Word) :=
  if 0 ≤ z then
    let bs := bytesOfNat z.natAbs
    if 32 < bs.length then return .error .signedOverflow
    else do
      let w ← leftPadded bs 0x00
      if w.isNegative then return .error .signedOverflow else return .ok w
  else
    let bs := bytesOfNat (-(z + 1)).natAbs
    if 32 < bs.length then return .error .signedOverflow
    else do
      let w ← leftPadded (Bytes.complement bs) 0xff
      if w.isNegative then return .ok w else return .error .signedOverflow

/-- **The signed reading**: that of the complement, with one added and the
sign put back. -/
def toSigned (w : Word) : Int :=
  if w.isNegative then -((Bytes.toNat (Bytes.complement w.bytes) + 1 : Nat) : Int)
  else w.toUnsigned

/-! ## They come to the conversions of numbers -/

variable {bs : Bytes}

/-- **Up to 32 bytes have their place in a word.** -/
theorem leftPadded_of_le (h : bs.length ≤ 32) (fill : UInt8) : ∃ w : Word,
    w.bytes = List.replicate (32 - bs.length) fill ++ bs ∧ leftPadded bs fill = .ok w := by
  have hlen : (List.replicate (32 - bs.length) fill ++ bs).length = 32 := by
    rw [List.length_append, List.length_replicate, Nat.sub_add_cancel h]
  refine ⟨⟨_, hlen⟩, rfl, ?_⟩
  refine Trap.bind_eq (Trap.sub_of_le h) (Trap.bind_eq ?_ (Trap.fixed_of_length hlen))
  rw [Trap.overwrite_of_le (Nat.sub_le _ _) (by simp) (Nat.sub_sub_self h).symm,
    List.take_replicate, Nat.min_eq_left (Nat.sub_le _ _), List.drop_replicate, Nat.sub_self,
    List.replicate_zero, List.append_nil]

/-- Zero bytes in front of a number do not change it. -/
theorem leftPadded_zero (h : bs.length ≤ 32) :
    leftPadded bs 0x00 = .ok (ofNat (Bytes.toNat bs)) := by
  obtain ⟨w, hbytes, hw⟩ := leftPadded_of_le h 0x00
  have hvalue : w.toUnsigned = Bytes.toNat bs := by
    show Bytes.toNat w.bytes = _
    rw [hbytes, Bytes.toNat_append]
    show Bytes.toNat (Bytes.zeros _) * _ + _ = _
    rw [Bytes.toNat_zeros, Nat.zero_mul, Nat.zero_add]
  rw [hw, ← hvalue, ofNat_toUnsigned]

/-- **A complement in front of which all bits are set** is two's
complement. -/
theorem leftPadded_complement (h : bs.length ≤ 32) :
    leftPadded (Bytes.complement bs) 0xff = .ok (ofInt (-(Bytes.toNat bs + 1 : Int))) := by
  obtain ⟨w, hbytes, hw⟩ := leftPadded_of_le (by rwa [Bytes.length_complement]) 0xff
  have hwhole : w.bytes = Bytes.complement (Bytes.zeros (32 - bs.length) ++ bs) := by
    rw [hbytes, Bytes.length_complement, Bytes.complement_append, Bytes.complement_zeros]
  have hsum := Bytes.toNat_complement (Bytes.zeros (32 - bs.length) ++ bs)
  rw [← hwhole, Bytes.toNat_append, Bytes.toNat_zeros, Nat.zero_mul, Nat.zero_add,
    List.length_append, Bytes.length_zeros, Nat.sub_add_cancel h] at hsum
  have hvalue : (w.toUnsigned : Int) = -(Bytes.toNat bs + 1 : Int) + powerOfTwo 256 := by
    have hsum : w.toUnsigned + Bytes.toNat bs + 1 = powerOfTwo 256 := hsum
    omega
  have hmod : (-(Bytes.toNat bs + 1 : Int) % powerOfTwo 256) = w.toUnsigned := by
    rw [← Int.add_emod_right, ← hvalue]
    exact Int.emod_eq_of_lt (Int.natCast_nonneg _) (Int.ofNat_lt.mpr w.toUnsigned_lt)
  rw [hw, ofInt, hmod, Int.toNat_natCast, ofNat_toUnsigned]

/-- **The unsigned conversion never traps**, and refuses what it has to. -/
theorem ofUnsigned_eq (n : Nat) : ofUnsigned n = .ok (Word.ofUnsigned n) := by
  have hsize : (bytesOfNat n).length ≤ 32 ↔ fitsUnsigned n 256 = true := by
    rw [length_bytesOfNat_le_iff (by decide), fitsUnsigned_iff, powerOfTwo_256]
  unfold ofUnsigned Word.ofUnsigned
  by_cases h : (bytesOfNat n).length ≤ 32
  · rw [if_neg (Nat.not_lt.mpr h), if_pos (hsize.mp h)]
    have hpadded := leftPadded_zero h
    rw [toNat_bytesOfNat] at hpadded
    exact Trap.bind_eq hpadded rfl
  · rw [if_pos (Nat.lt_of_not_le h), if_neg (mt hsize.mpr h)]
    rfl

/-- **The sign bit tells what is too large**, of the numbers that have no
more than 32 bytes. -/
theorem isNegative_ofNat {n : Nat} (h : n < powerOfTwo 256) :
    (ofNat n).isNegative = decide (powerOfTwo 255 ≤ n) := by
  rw [isNegative_iff, toUnsigned_ofNat_of_lt h]

/-- A number that is not negative is its own two's complement. -/
theorem ofInt_natCast {n : Nat} (h : n < powerOfTwo 256) : ofInt n = ofNat n := by
  unfold ofInt
  rw [Int.emod_eq_of_lt (Int.natCast_nonneg n) (Int.ofNat_lt.mpr h), Int.toNat_natCast]

/-- Two's complement has its sign bit set for the small negative numbers
only. -/
theorem isNegative_ofInt_negSucc {n : Nat} (h : n < powerOfTwo 256) :
    (ofInt (-(n + 1 : Int))).isNegative = decide (n < powerOfTwo 255) := by
  have htwo := powerOfTwo_256_eq
  have hmod : -(n + 1 : Int) % powerOfTwo 256 = (powerOfTwo 256 - (n + 1) : Nat) := by
    rw [← Int.add_emod_right, Int.emod_eq_of_lt (by omega) (by omega)]
    omega
  unfold ofInt
  rw [hmod, Int.toNat_natCast, isNegative_ofNat (by omega)]
  exact decide_eq_decide.mpr (by omega)

/-- What has no more than 32 bytes is below `2 ^ 256`. -/
theorem length_bytesOfNat_le_iff_lt {n : Nat} :
    (bytesOfNat n).length ≤ 32 ↔ n < powerOfTwo 256 :=
  length_bytesOfNat_le_iff (by decide)

/-- A number that is not negative is refused for its size or for its
sign bit. -/
theorem ofSigned_natCast (n : Nat) :
    ofSigned n = .ok (if n < powerOfTwo 255 then .ok (ofNat n) else .error .signedOverflow) := by
  have htwo := powerOfTwo_256_eq
  unfold ofSigned
  rw [if_pos (Int.natCast_nonneg n), Int.natAbs_natCast]
  by_cases h : (bytesOfNat n).length ≤ 32
  · have hlt := length_bytesOfNat_le_iff_lt.mp h
    have hpadded := leftPadded_zero h
    rw [toNat_bytesOfNat] at hpadded
    rw [if_neg (Nat.not_lt.mpr h)]
    refine Trap.bind_eq hpadded ?_
    rw [isNegative_ofNat hlt]
    by_cases hneg : powerOfTwo 255 ≤ n
    · rw [decide_eq_true hneg, if_neg (Nat.not_lt.mpr hneg)]
      rfl
    · rw [decide_eq_false hneg, if_pos (Nat.lt_of_not_le hneg)]
      rfl
  · have hge := mt length_bytesOfNat_le_iff_lt.mpr h
    rw [if_pos (Nat.lt_of_not_le h), if_neg (by omega)]
    rfl

/-- A negative number is refused for the size or the sign bit of its
complement. -/
theorem ofSigned_negSucc (n : Nat) :
    ofSigned (-(n + 1 : Int)) = .ok (if n < powerOfTwo 255 then .ok (ofInt (-(n + 1 : Int)))
      else .error .signedOverflow) := by
  have htwo := powerOfTwo_256_eq
  have habs : (-(-(n + 1 : Int) + 1)).natAbs = n := by omega
  unfold ofSigned
  rw [if_neg (by omega), habs]
  by_cases h : (bytesOfNat n).length ≤ 32
  · have hlt := length_bytesOfNat_le_iff_lt.mp h
    have hpadded := leftPadded_complement h
    rw [toNat_bytesOfNat] at hpadded
    rw [if_neg (Nat.not_lt.mpr h)]
    refine Trap.bind_eq hpadded ?_
    rw [isNegative_ofInt_negSucc hlt]
    by_cases hneg : n < powerOfTwo 255
    · rw [decide_eq_true hneg, if_pos hneg]
      rfl
    · rw [decide_eq_false hneg, if_neg hneg]
      rfl
  · have hge := mt length_bytesOfNat_le_iff_lt.mpr h
    rw [if_pos (Nat.lt_of_not_le h), if_neg (by omega)]
    rfl

/-- **The signed conversion never traps**, and refuses what it has to. -/
theorem ofSigned_eq (z : Int) : ofSigned z = .ok (Word.ofSigned z) := by
  have htwo := powerOfTwo_256_eq
  unfold Word.ofSigned
  cases z with
  | ofNat n =>
    show ofSigned (n : Int) = .ok (if fitsSigned (n : Int) 256 then .ok (ofInt (n : Int)) else _)
    have hfits : fitsSigned (n : Int) 256 = true ↔ n < powerOfTwo 255 := by
      rw [fitsSigned_256_iff]
      omega
    rw [ofSigned_natCast]
    simp only [hfits]
    by_cases h : n < powerOfTwo 255
    · rw [if_pos h, if_pos h, ofInt_natCast (by omega)]
    · rw [if_neg h, if_neg h]
  | negSucc n =>
    have hfits : fitsSigned (-(n + 1 : Int)) 256 = true ↔ n < powerOfTwo 255 := by
      rw [fitsSigned_256_iff]
      omega
    rw [Int.negSucc_eq, ofSigned_negSucc]
    simp only [hfits]

/-- The signed reading is the one through the complement. -/
theorem toSigned_eq (w : Word) : toSigned w = w.toSigned := by
  have hsum := Bytes.toNat_complement w.bytes
  rw [w.length_bytes] at hsum
  have hsum : Bytes.toNat (Bytes.complement w.bytes) + w.toUnsigned + 1 = powerOfTwo 256 := hsum
  unfold toSigned Word.toSigned
  split
  · omega
  · rfl

end Trapping

/-! ## The conversions undo one another -/

/-- The sign bit is the sign of the signed reading. -/
theorem isNegative_eq (w : Word) : w.isNegative = decide (w.toSigned < 0) := by
  have hlt := w.toUnsigned_lt
  unfold toSigned
  split
  case isTrue h =>
    rw [h]
    exact (decide_eq_true (by omega)).symm
  case isFalse h =>
    rw [Bool.not_eq_true] at h
    rw [h]
    exact (decide_eq_false (by omega)).symm

/-- The signed reading is in the range of a word. -/
theorem fitsSigned_toSigned (w : Word) : fitsSigned w.toSigned 256 = true := by
  have hlt := w.toUnsigned_lt
  have htwo := powerOfTwo_256_eq
  rw [fitsSigned_256_iff, toSigned_eq]
  split <;> omega

/-- **Words and numbers are converted into one another without loss.** For
all numbers and all words,

* a signed number is made a word exactly if it is at least `-2 ^ 255` and
  below `2 ^ 255`, and any other is refused; the word is read as the number
  again, and its sign bit is the number's sign;
* an unsigned number is made a word exactly if it is below `2 ^ 256`, and any
  other is refused; the word is read as the number again;
* the word of either reading of a word is the word itself, and the two
  readings agree modulo `2 ^ 256`;
* on the bytes of a number the conversions come to the same, and never try to
  put more into a word than it has room for. -/
theorem converts_exactly (z : Int) (n : Nat) (w : Word) :
    (if -(powerOfTwo 255 : Int) ≤ z ∧ z < powerOfTwo 255 then
        ∃ x, ofSigned z = .ok x ∧ x.toSigned = z ∧ x.isNegative = decide (z < 0)
      else ofSigned z = .error .signedOverflow)
    ∧ (if n < powerOfTwo 256 then ∃ x, ofUnsigned n = .ok x ∧ x.toUnsigned = n
      else ofUnsigned n = .error .unsignedOverflow)
    ∧ ofSigned w.toSigned = .ok w
    ∧ ofUnsigned w.toUnsigned = .ok w
    ∧ w.toSigned ≡ w.toUnsigned [ZMOD powerOfTwo 256]
    ∧ Trapping.ofSigned z = .ok (ofSigned z)
    ∧ Trapping.ofUnsigned n = .ok (ofUnsigned n)
    ∧ Trapping.toSigned w = w.toSigned := by
  refine ⟨?_, ?_, ?_, ?_, ?_, Trapping.ofSigned_eq z, Trapping.ofUnsigned_eq n,
    Trapping.toSigned_eq w⟩
  · split
    case isTrue h =>
      have hfits := fitsSigned_256_iff.mpr h
      have hback := toSigned_ofInt hfits
      exact ⟨ofInt z, if_pos hfits, hback, by rw [isNegative_eq, hback]⟩
    case isFalse h => exact if_neg (mt fitsSigned_256_iff.mp h)
  · split
    case isTrue h => exact ⟨ofNat n, if_pos (fitsUnsigned_iff.mpr h), toUnsigned_ofNat_of_lt h⟩
    case isFalse h => exact if_neg (mt fitsUnsigned_iff.mp h)
  · exact (if_pos w.fitsSigned_toSigned).trans (by rw [ofInt_toSigned])
  · exact (if_pos (fitsUnsigned_iff.mpr w.toUnsigned_lt)).trans (by rw [ofNat_toUnsigned])
  · show w.toSigned % powerOfTwo 256 = w.toUnsigned % powerOfTwo 256
    rw [toSigned_emod, Int.emod_eq_of_lt (Int.natCast_nonneg _) (Int.ofNat_lt.mpr w.toUnsigned_lt)]

/-- The least number is one sign bit, and what is below it has no fewer
bytes. -/
example : (Trapping.ofSigned (-(powerOfTwo 255 : Int))).toOption.bind
        (fun w => w.toOption.map FixedBytes.bytes) = some (0x80 :: Bytes.zeros 31)
      ∧ Trapping.ofSigned (-(powerOfTwo 255 : Int) - 1) = .ok (.error .signedOverflow) := by
  decide +kernel

end Word

end EthCall
