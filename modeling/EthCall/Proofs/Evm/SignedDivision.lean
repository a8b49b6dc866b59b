import EthCall.Proofs.Evm.Computation
import Mathlib

/-!
# Signed division

The quotient of two signed numbers is rounded towards zero, and the
remainder goes with it: it has the sign of the dividend and is smaller than
the divisor. This is said here of the numbers in two's complement
(`divides_signed`).

There is one quotient that is no such number, that of the least number by
minus one. Its absolute value is one more than the largest number, and it
is reduced to the least number again, as is the absolute value of the least
number when the quotient is put together from those
(`Trapping.sdiv`). So the quotient is the one of the integers modulo
`2 ^ 256`, and together with the remainder it makes up the dividend modulo
`2 ^ 256`, whatever the operands are.
-/

namespace EthCall.Evm

/-! ## The signed reading -/

theorem signed_eq_ite (x : UInt256) :
    signed x = if powerOfTwo 255 ≤ unsigned x then (unsigned x : Int) - powerOfTwo 256
      else unsigned x :=
  Word.toSigned_eq _

/-- The signed reading is that of a row of bits. -/
theorem signed_eq (x : UInt256) : signed x = x.toInt := by
  have hhalf := powerOfTwo_256_eq
  rw [signed_eq_ite, unsigned_eq, BitVec.toInt_eq_toNat_cond, ← powerOfTwo_eq]
  split <;> split <;> first | rfl | omega

/-- A number is told by its signed reading. -/
theorem signed_inj {x y : UInt256} : signed x = signed y ↔ x = y := by
  rw [signed_eq, signed_eq]
  exact BitVec.toInt_inj

theorem signed_zero : signed 0 = 0 := by decide +kernel

/-- The two readings differ by a multiple of `2 ^ 256`. -/
theorem unsigned_eq_emod (x : UInt256) : (unsigned x : Int) = signed x % powerOfTwo 256 :=
  (Word.toSigned_emod _).symm

/-- **The signed numbers** are those from `-2 ^ 255` on below `2 ^ 255`. -/
theorem signed_mem (x : UInt256) :
    -(powerOfTwo 255 : Int) ≤ signed x ∧ signed x < powerOfTwo 255 := by
  have hhalf := powerOfTwo_256_eq
  have hlt := unsigned_lt x
  rw [signed_eq_ite]
  split <;> omega

/-! ## Quotient and remainder -/

section Division

variable (a b : UInt256)

/-- The quotient, as far as it is a signed number. -/
theorem signed_sdiv :
    signed (a.sdiv b) = ((signed a).tdiv (signed b)).bmod (powerOfTwo 256) := by
  rw [signed_eq, signed_eq, signed_eq]
  exact BitVec.toInt_sdiv a b

theorem unsigned_sdiv :
    (unsigned (a.sdiv b) : Int) = (signed a).tdiv (signed b) % powerOfTwo 256 := by
  rw [unsigned_eq_emod, signed_sdiv, Int.bmod_emod]

theorem signed_srem : signed (a.srem b) = (signed a).tmod (signed b) := by
  rw [signed_eq, signed_eq, signed_eq]
  exact BitVec.toInt_srem a b

/-- **Quotient and remainder make up the dividend**, also where the
quotient was reduced. -/
theorem sdiv_mul_add_srem : a.sdiv b * b + a.srem b = a := by
  refine BitVec.eq_of_toInt_eq ?_
  rw [BitVec.toInt_add, BitVec.toInt_mul, BitVec.toInt_sdiv, BitVec.toInt_srem,
    Int.bmod_mul_bmod, Int.bmod_add_bmod, Int.add_comm, Int.tmod_add_tdiv_mul,
    BitVec.toInt_bmod_cancel]

end Division

/-- **Signed numbers are divided as integers are.** For all numbers,

* the quotient is that of the integers, rounded towards zero, modulo
  `2 ^ 256`; that of the least number by minus one is the least number;
* the remainder is what the quotient of the integers leaves: it is smaller
  than the divisor, and has the sign of the dividend unless it is zero;
* both are zero for a zero divisor, and for any other they make up the
  dividend. -/
theorem divides_signed (a b : UInt256) : ∃ q r : UInt256,
    BinaryOp.sdiv.Computes a b q ∧ BinaryOp.smod.Computes a b r
      ∧ (b = 0 → q = 0 ∧ r = 0)
      ∧ (unsigned q : Int) = (signed a).tdiv (signed b) % powerOfTwo 256
      ∧ (signed a = -powerOfTwo 255 → signed b = -1 → signed q = -powerOfTwo 255)
      ∧ (b ≠ 0 → signed a = signed b * (signed a).tdiv (signed b) + signed r
        ∧ (signed r).natAbs < (signed b).natAbs
        ∧ (signed r ≠ 0 → (signed r).sign = (signed a).sign)
        ∧ q * b + r = a) := by
  have hsmod : BinaryOp.smod.apply a b = if b = 0 then 0 else a.srem b := rfl
  refine ⟨_, _, BinaryOp.sdiv.computes_apply a b, BinaryOp.smod.computes_apply a b, ?_⟩
  refine ⟨fun hb => ?_, unsigned_sdiv a b, fun ha hb => ?_, fun hb => ?_⟩
  · rw [hsmod, if_pos hb, hb]
    exact ⟨BitVec.sdiv_zero, rfl⟩
  · refine (signed_sdiv a b).trans ?_
    rw [ha, hb]
    decide +kernel
  · have hpos : 0 < (signed b).natAbs :=
      Int.natAbs_pos.mpr fun hzero => hb (signed_inj.mp (hzero.trans signed_zero.symm))
    rw [hsmod, if_neg hb, signed_srem]
    refine ⟨(Int.mul_tdiv_add_tmod _ _).symm, ?_, fun hne => ?_, sdiv_mul_add_srem a b⟩
    · rw [Int.natAbs_tmod]
      exact Nat.mod_lt _ hpos
    · rw [Int.sign_tmod]
      exact if_neg fun hdvd => hne (Int.tmod_eq_zero_of_dvd hdvd)

/-- The least number. -/
def least : UInt256 := .twoPow 256 255

/-- A machine that divides the least number by minus one has the least
number as the quotient. What is left is smaller than one. -/
theorem divides_signed_least : ∃ q r,
    signed q = -powerOfTwo 255 ∧ (signed r).natAbs < 1 ∧ q * BitVec.allOnes 256 + r = least
      ∧ Machine.step (Env.new .standard [0x05] [])
          ⟨{ Frame.initial with stack := [least, BitVec.allOnes 256, 7] }, 0⟩
        = .running ⟨{ Frame.initial with pc := 1, stack := [q, 7] }, 1⟩
      ∧ Machine.step (Env.new .standard [0x07] [])
          ⟨{ Frame.initial with stack := [least, BitVec.allOnes 256, 7] }, 0⟩
        = .running ⟨{ Frame.initial with pc := 1, stack := [r, 7] }, 1⟩ := by
  obtain ⟨q, r, hq, hr, -, -, hleast, hdivided⟩ := divides_signed least (BitVec.allOnes 256)
  have ha : signed least = -powerOfTwo 255 := by decide +kernel
  have hb : signed (BitVec.allOnes 256) = -1 := by decide +kernel
  obtain ⟨-, hlt, -, heq⟩ := hdivided (by decide)
  rw [hb] at hlt
  exact ⟨q, r, hleast ha hb, hlt, heq,
    hq.puts .standard [0x05] [] _ [7] 1 rfl rfl (by decide) rfl,
    hr.puts .standard [0x07] [] _ [7] 1 rfl rfl (by decide) rfl⟩

end EthCall.Evm
