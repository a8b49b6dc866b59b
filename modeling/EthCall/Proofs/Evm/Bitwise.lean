import EthCall.Proofs.Evm.SignedDivision
import Mathlib

/-!
# Shifts, bytes and comparisons

Some instructions are about the bits of a number, and still each of them
has its meaning among the integers. A shift divides, rounding down, or
multiplies; a byte is a digit to the base 256; to widen a number is to read
its low bits in two's complement (`twosComplement`); and a comparison of
signed numbers is one of integers.

None of them has a limit for its first operand that an integer would not
have. A shift by more than all bits divides by a power of two that is
greater than any number, and leaves zero, or minus one of a negative number
(`ediv_powerOfTwo`); there is no byte behind the last, which is read as
zero, and a number that has all its bytes is not widened.

Numbers without a sign are enough to compare numbers with one. With the
sign bit the other way round, the signed numbers are those without a sign
in the same order (`unsigned_flipped`).
-/

namespace EthCall.Evm

/-- **What a binary instruction gives**: a number with this signed
reading. -/
def BinaryOp.GivesSigned (op : BinaryOp) (a b : UInt256) (z : Int) : Prop :=
  ∃ x, op.Computes a b x ∧ signed x = z

/-! ## Shifts -/

/-- Rounded down, a small number by a large power of two is zero or minus
one. -/
theorem ediv_powerOfTwo (x : UInt256) {n : Nat} (h : 256 ≤ n) :
    signed x / powerOfTwo n = if signed x < 0 then -1 else 0 := by
  obtain ⟨hlow, hhigh⟩ := signed_mem x
  have hhalf := powerOfTwo_256_eq
  have hle := powerOfTwo_mono h
  split
  case isTrue hneg =>
    refine Int.ediv_eq_neg_one_of_neg_of_le hneg ?_
    omega
  case isFalse hneg => exact Int.ediv_eq_zero_of_lt (Int.not_lt.mp hneg) (by omega)

section Shifts

variable (s x : UInt256)

/-- Bits that are shifted out on the left are multiples of `2 ^ 256`. -/
theorem shl_gives :
    BinaryOp.shl.Gives s x (unsigned x * powerOfTwo (unsigned s) % powerOfTwo 256) := by
  have happly : BinaryOp.shl.apply s x = if s.toNat < 256 then x <<< s.toNat else 0 := rfl
  rw [unsigned_eq, unsigned_eq]
  refine BinaryOp.shl.gives_of_toNat (z := x.toNat * powerOfTwo s.toNat % powerOfTwo 256) ?_
  rw [happly, powerOfTwo_eq, powerOfTwo_eq]
  split
  case isTrue => rw [BitVec.toNat_shiftLeft, Nat.shiftLeft_eq]
  case isFalse h =>
    have hdvd : 2 ^ 256 ∣ x.toNat * 2 ^ s.toNat :=
      Dvd.dvd.mul_left (Nat.pow_dvd_pow 2 (Nat.le_of_not_lt h)) _
    exact (Nat.mod_eq_zero_of_dvd hdvd).symm

/-- Bits that are shifted out on the right are the remainder. -/
theorem shr_gives : BinaryOp.shr.Gives s x (unsigned x / powerOfTwo (unsigned s)) := by
  have happly : BinaryOp.shr.apply s x = if s.toNat < 256 then x >>> s.toNat else 0 := rfl
  rw [unsigned_eq, unsigned_eq]
  refine BinaryOp.shr.gives_of_toNat ?_
  rw [happly, powerOfTwo_eq]
  split
  case isTrue => rw [BitVec.toNat_ushiftRight, Nat.shiftRight_eq_div_pow]
  case isFalse h =>
    have hlt : x.toNat < 2 ^ s.toNat :=
      Nat.lt_of_lt_of_le x.isLt (Nat.pow_le_pow_right (by decide) (Nat.le_of_not_lt h))
    exact (Nat.div_eq_of_lt hlt).symm

/-- The sign bit moves in from the left, so that the quotient is rounded
down. -/
theorem sar_gives :
    BinaryOp.sar.GivesSigned s x ((signed x).fdiv (powerOfTwo (unsigned s))) := by
  refine ⟨_, BinaryOp.sar.computes_apply s x, ?_⟩
  show signed (x.sshiftRight (min s.toNat 256)) = _
  rw [unsigned_eq, Int.fdiv_eq_ediv_of_nonneg _ (Int.natCast_nonneg _), signed_eq,
    BitVec.toInt_sshiftRight, Int.shiftRight_eq_div_pow, ← powerOfTwo_eq, ← signed_eq]
  rcases Nat.le_total s.toNat 256 with hle | hge
  · rw [Nat.min_eq_left hle]
  · rw [Nat.min_eq_right hge, ediv_powerOfTwo x (Nat.le_refl 256), ediv_powerOfTwo x hge]

end Shifts

/-! ## Bytes -/

section Bytes

variable (i x : UInt256)

/-- **A byte of a number** is one of the bytes of its word, the first of
which is the most significant one. -/
theorem byte_gives :
    BinaryOp.byte.Gives i x ((Word.ofUInt256 x).bytes[unsigned i]?.getD 0).toNat := by
  have happly : BinaryOp.byte.apply i x
      = if i.toNat < 32 then (x >>> (8 * (31 - i.toNat))) &&& 0xff else 0 := rfl
  refine BinaryOp.byte.gives_of_toNat ?_
  rw [happly, unsigned_eq]
  split
  case isTrue h =>
    have hbyte : (Word.ofUInt256 x).bytes[i.toNat]?
        = some (UInt8.ofNat (x.toNat / 256 ^ (31 - i.toNat))) := Bytes.getElem?_ofNat x.toNat h
    rw [← Trapping.ofNat_byte, hbyte, Option.getD_some, BitVec.toNat_ofNat]
    exact Nat.mod_eq_of_lt (Nat.lt_trans (UInt8.toNat_lt _) (by decide))
  case isFalse h =>
    rw [List.getElem?_eq_none (by rw [FixedBytes.length_bytes]; exact Nat.le_of_not_lt h)]
    rfl

/-- **The number that the low bits of a number spell** in two's
complement. -/
def twosComplement (bits n : Nat) : Int :=
  if n % powerOfTwo bits < powerOfTwo (bits - 1) then (n % powerOfTwo bits : Nat)
  else (n % powerOfTwo bits : Nat) - powerOfTwo bits

theorem toInt_setWidth_eq {bits : Nat} (h : 0 < bits) :
    (x.setWidth bits).toInt = twosComplement bits (unsigned x) := by
  have hhalf : 2 ^ bits = 2 * 2 ^ (bits - 1) := by
    rw [← Nat.pow_succ', Nat.succ_eq_add_one, Nat.sub_add_cancel h]
  unfold twosComplement
  rw [BitVec.toInt_eq_toNat_cond, BitVec.toNat_setWidth, unsigned_eq, powerOfTwo_eq, powerOfTwo_eq]
  split <;> split <;> first | rfl | omega

theorem signExtend_gives (h : unsigned i < 31) :
    BinaryOp.signExtend.GivesSigned i x (twosComplement (8 * (unsigned i + 1)) (unsigned x)) := by
  rw [unsigned_eq] at h
  have hextended : signExtend i x = (x.setWidth (8 * (i.toNat + 1))).signExtend 256 := if_pos h
  refine ⟨_, BinaryOp.signExtend.computes_apply i x, ?_⟩
  rw [unsigned_eq i, ← toInt_setWidth_eq x (by omega), signed_eq]
  show (signExtend i x).toInt = _
  rw [hextended, BitVec.toInt_signExtend_of_le (by omega)]

/-- A number that has all its bytes is not widened. -/
theorem signExtend_computes (h : 31 ≤ unsigned i) : BinaryOp.signExtend.Computes i x x := by
  rw [unsigned_eq] at h
  have hkept : signExtend i x = x := if_neg (Nat.not_lt.mpr h)
  have hcomputes := BinaryOp.signExtend.computes_apply i x
  rwa [show BinaryOp.signExtend.apply i x = x from hkept] at hcomputes

end Bytes

/-! ## Comparisons -/

section Comparisons

variable {a b : UInt256}

/-- A bit that is flipped is flipped in what the number is divided into. -/
theorem xor_powerOfTwo (n k : Nat) :
    n ^^^ powerOfTwo k = powerOfTwo k * (n / powerOfTwo k ^^^ 1) + n % powerOfTwo k := by
  have hhigh : (n ^^^ powerOfTwo k) / powerOfTwo k = n / powerOfTwo k ^^^ 1 := by
    rw [powerOfTwo_eq, Nat.xor_div_two_pow, Nat.div_self (Nat.two_pow_pos k)]
  have hlow : (n ^^^ powerOfTwo k) % powerOfTwo k = n % powerOfTwo k := by
    rw [powerOfTwo_eq, Nat.xor_mod_two_pow, Nat.mod_self, Nat.xor_zero]
  rw [← hhigh, ← hlow, Nat.div_add_mod]

/-- **With the sign bit the other way round**, a number is read without a
sign as what it was with one, and half of all numbers more. -/
theorem unsigned_flipped (x : UInt256) :
    (unsigned (x ^^^ least) : Int) = signed x + powerOfTwo 255 := by
  have hxor : unsigned (x ^^^ least) = x.toNat ^^^ powerOfTwo 255 := by
    rw [unsigned_eq]
    exact BitVec.toNat_xor ..
  have hsplit := Nat.div_add_mod x.toNat (powerOfTwo 255)
  have hlow : x.toNat % powerOfTwo 255 < powerOfTwo 255 := Nat.mod_lt _ (Nat.two_pow_pos 255)
  have hhalf := powerOfTwo_256_eq
  rw [signed_eq_ite, hxor, xor_powerOfTwo, unsigned_eq]
  -- the sign bit is all that is left of the number by the division
  have hbit : x.toNat / powerOfTwo 255 < 2 :=
    Nat.div_lt_of_lt_mul (Nat.lt_of_lt_of_eq x.isLt (powerOfTwo_256_eq.trans (Nat.mul_comm ..)))
  rcases Nat.le_one_iff_eq_zero_or_eq_one.mp (Nat.le_of_lt_succ hbit) with hzero | hone
  · rw [hzero] at hsplit
    rw [hzero, Nat.zero_xor, Nat.mul_one, if_neg (by omega)]
    omega
  · rw [hone] at hsplit
    rw [hone, Nat.xor_self, Nat.mul_zero, if_pos (by omega)]
    omega

/-- So the signed numbers are compared as those without a sign are. -/
theorem ult_flipped : (a ^^^ least).ult (b ^^^ least) = a.slt b := by
  have ha := unsigned_flipped a
  have hb := unsigned_flipped b
  rw [unsigned_eq, signed_eq] at ha hb
  exact decide_eq_decide.mpr (by omega)

/-- An instruction that asks a question gives one for yes and zero for
no. -/
theorem BinaryOp.gives_of_flag (op : BinaryOp) {p : Prop} [Decidable p]
    (h : op.apply a b = flag (decide p)) : op.Gives a b (if p then 1 else 0) := by
  have hflag : (flag (decide p)).toNat = if p then 1 else 0 := by
    by_cases hp : p
    · rw [decide_eq_true hp, if_pos hp]
      rfl
    · rw [decide_eq_false hp, if_neg hp]
      rfl
  have hgives := op.gives_of_toNat ((congrArg BitVec.toNat h).trans hflag)
  rwa [Nat.cast_ite] at hgives

variable (a b)

theorem slt_gives : BinaryOp.slt.Gives a b (if signed a < signed b then 1 else 0) := by
  rw [signed_eq, signed_eq]
  exact BinaryOp.slt.gives_of_flag rfl

theorem sgt_gives : BinaryOp.sgt.Gives a b (if signed b < signed a then 1 else 0) := by
  rw [signed_eq, signed_eq]
  exact BinaryOp.sgt.gives_of_flag rfl

/-- The same question, asked of the numbers without a sign. -/
theorem slt_computes_flipped :
    BinaryOp.slt.Computes a b (flag ((a ^^^ least).ult (b ^^^ least))) := by
  rw [ult_flipped]
  exact BinaryOp.slt.computes_apply a b

theorem sgt_computes_flipped :
    BinaryOp.sgt.Computes a b (flag ((b ^^^ least).ult (a ^^^ least))) := by
  rw [ult_flipped]
  exact BinaryOp.sgt.computes_apply a b

end Comparisons

/-- **What is computed on bits is what integers give.** For all numbers, the
first of which may be a shift or an index beyond any bound,

* a shift to the right is a quotient that is rounded down, of the signed
  number or of the number without a sign, and a shift to the left is a
  product modulo `2 ^ 256`;
* the bytes up to an index below 31 are widened to the signed number that
  they spell, and for any other index the number stays as it is;
* a byte is one of those of the number's word, and zero behind them;
* signed numbers are compared as integers are, and it is the same to
  compare the numbers without a sign once the sign bits are flipped. -/
theorem computes_on_bits (a b : UInt256) :
    BinaryOp.sar.GivesSigned a b ((signed b).fdiv (powerOfTwo (unsigned a)))
      ∧ BinaryOp.shr.Gives a b (unsigned b / powerOfTwo (unsigned a))
      ∧ BinaryOp.shl.Gives a b (unsigned b * powerOfTwo (unsigned a) % powerOfTwo 256)
      ∧ (unsigned a < 31 → BinaryOp.signExtend.GivesSigned a b
        (twosComplement (8 * (unsigned a + 1)) (unsigned b)))
      ∧ (31 ≤ unsigned a → BinaryOp.signExtend.Computes a b b)
      ∧ BinaryOp.byte.Gives a b ((Word.ofUInt256 b).bytes[unsigned a]?.getD 0).toNat
      ∧ BinaryOp.slt.Gives a b (if signed a < signed b then 1 else 0)
      ∧ BinaryOp.slt.Computes a b (flag ((a ^^^ least).ult (b ^^^ least)))
      ∧ BinaryOp.sgt.Gives a b (if signed b < signed a then 1 else 0)
      ∧ BinaryOp.sgt.Computes a b (flag ((b ^^^ least).ult (a ^^^ least))) :=
  ⟨sar_gives a b, shr_gives a b, shl_gives a b, signExtend_gives a b, signExtend_computes a b,
    byte_gives a b, slt_gives a b, slt_computes_flipped a b, sgt_gives a b,
    sgt_computes_flipped a b⟩

/-- Shifted by more than all its bits, the least number is minus one; and
a byte with its highest bit set is widened to a negative number, whatever
stands before it. -/
theorem computes_on_bits_negative : ∃ q e,
    signed q = -1 ∧ signed e = -128
      ∧ Machine.step (Env.new .standard [0x1d] [])
          ⟨{ Frame.initial with stack := [300, least, 7] }, 0⟩
        = .running ⟨{ Frame.initial with pc := 1, stack := [q, 7] }, 1⟩
      ∧ Machine.step (Env.new .standard [0x0b] [])
          ⟨{ Frame.initial with stack := [0, 0x180, 7] }, 0⟩
        = .running ⟨{ Frame.initial with pc := 1, stack := [e, 7] }, 1⟩ := by
  obtain ⟨⟨q, hq, hshifted⟩, -⟩ := computes_on_bits 300 least
  obtain ⟨-, -, -, hwidened, -⟩ := computes_on_bits 0 0x180
  obtain ⟨e, he, hspelled⟩ := hwidened (by decide +kernel)
  have hquotient : (signed least).fdiv (powerOfTwo (unsigned 300)) = -1 := by decide +kernel
  have hbyte : twosComplement (8 * (unsigned 0 + 1)) (unsigned 0x180) = -128 := by decide +kernel
  exact ⟨q, e, hshifted.trans hquotient, hspelled.trans hbyte,
    hq.puts .standard [0x1d] [] _ [7] 1 rfl rfl (by decide) rfl,
    he.puts .standard [0x0b] [] _ [7] 1 rfl rfl (by decide) rfl⟩

end EthCall.Evm
