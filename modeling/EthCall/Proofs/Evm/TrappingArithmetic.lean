import EthCall.Evm.Arithmetic
import EthCall.Proofs.Trap
import EthCall.Proofs.Word

/-!
# What instructions compute, operation by operation

The numbers of `EthCall.Evm.Arithmetic` divide by zero and have a bit at
every index. A machine's do not: a division by zero traps, so does a bit
beyond the last one, and so does a difference below zero where it is
computed as one that may not be.

Here are the instructions as they are computed with such numbers. Most have
no operation that could trap, and are as they were. The signed division and
remainder go through absolute values, a sign is extended with a mask, and a
power, a sum or a product that is not reduced goes through a number without
a bound, of which the last 32 bytes are taken. Each of them comes to what
the instruction computes (`binary_eq`, `ternary_eq`), and it is for this
that its divisor is never zero and its index never too large.
-/

namespace EthCall.Evm.Trapping

/-! ## Numbers of 256 bits -/

/-- A number, if it is a size. -/
def toSize? (x : UInt256) : Option Nat :=
  if x.toNat ≤ maxSize then some x.toNat else none

/-- A bit, counted from the least significant one. -/
def bit (x : UInt256) (i : Nat) : Except Trap Bool :=
  if i < 256 then .ok (x.getLsbD i) else .error .outOfRange

/-- A byte, counted from the least significant one. -/
def byte (x : UInt256) (i : Nat) : Except Trap UInt8 :=
  if i < 32 then .ok (UInt8.ofNat (x.toNat / 256 ^ i)) else .error .outOfRange

/-- A difference that may not be below zero. -/
def sub (x y : UInt256) : Except Trap UInt256 :=
  if y ≤ x then .ok (x - y) else .error .underflow

/-- A quotient. -/
def div (x y : UInt256) : Except Trap UInt256 :=
  if y = 0 then .error .zeroDivisor else .ok (x / y)

/-- A remainder. -/
def mod (x y : UInt256) : Except Trap UInt256 :=
  if y = 0 then .error .zeroDivisor else .ok (x % y)

/-- Whether the sign bit is set. -/
def isNegative (x : UInt256) : Except Trap Bool :=
  bit x 255

/-- The negative in two's complement. -/
def negate (x : UInt256) : UInt256 :=
  ~~~x + 1

/-- The absolute value. That of the least number is itself. -/
def abs (x : UInt256) : Except Trap UInt256 := do
  if ← isNegative x then return negate x else return x

/-- The number that 32 bytes at most spell. -/
def ofBytes (bs : Bytes) : Except Trap UInt256 :=
  if bs.length ≤ 32 then .ok (numberOfBytes bs) else .error .lengthMismatch

/-! ## Numbers without a bound -/

/-- The bytes of a number, as many as it needs. Zero needs one. -/
def bytesOfNat (n : Nat) : Bytes :=
  Bytes.ofNat (n.log2 / 8 + 1) n

/-- A number modulo `2 ^ 256`: its last 32 bytes. -/
def ofNat (n : Nat) : Except Trap UInt256 := do
  let bs := bytesOfNat n
  ofBytes (← Trap.slice bs (bs.length - 32) bs.length)

/-- A power modulo a number. -/
def powerMod (base exponent modulus : Nat) : Except Trap Nat :=
  Trap.mod (base ^ exponent) modulus

/-! ## Instructions -/

/-- The quotient of signed numbers: that of their absolute values, with the
sign put back. -/
def sdiv (x y : UInt256) : Except Trap UInt256 :=
  if y = 0 then return 0
  else do
    let q ← div (← abs x) (← abs y)
    if (← isNegative x) != (← isNegative y) then return negate q else return q

/-- The remainder of signed numbers, which has the sign of the first. -/
def smod (x y : UInt256) : Except Trap UInt256 :=
  if y = 0 then return 0
  else do
    let r ← mod (← abs x) (← abs y)
    if ← isNegative x then return negate r else return r

/-- The signed number in the low bytes, widened with a mask. -/
def signExtend (byteIndex x : UInt256) : Except Trap UInt256 :=
  match toSize? byteIndex with
  | some i =>
    if i < 31 then do
      let sign ← Trap.add maxSize (← Trap.mul maxSize i 8) 7
      let mask ← sub (.twoPow 256 sign) 1
      if ← bit x sign then return x ||| ~~~mask else return x &&& mask
    else return x
  | none => return x

/-- The byte at an index counted from the most significant one. -/
def byteAt (index x : UInt256) : Except Trap UInt256 :=
  match toSize? index with
  | some i =>
    if i < 32 then do
      let b ← byte x (← Trap.sub 31 i)
      return BitVec.ofNat 256 b.toNat
    else return 0
  | none => return 0

/-- A signed number shifted to the right. -/
def sar (shift x : UInt256) : Except Trap UInt256 := do
  let negative ← isNegative x
  match toSize? shift with
  | some s =>
    if s < 256 then return if negative then ~~~(~~~x >>> s) else x >>> s
    else return if negative then BitVec.allOnes 256 else 0
  | none => return if negative then BitVec.allOnes 256 else 0

/-- The remainder of a number without a bound. -/
def remainder (m : Nat) (n : UInt256) : Except Trap UInt256 :=
  if n = 0 then return 0 else do ofNat (← Trap.mod m n.toNat)

/-- **What a binary instruction computes.** Those that are not listed have
no operation that could trap. -/
def binary : BinaryOp → (top below : UInt256) → Except Trap UInt256
  | .sdiv, x, y => sdiv x y
  | .smod, x, y => smod x y
  | .exp, x, y => do ofNat (← powerMod x.toNat y.toNat (powerOfTwo 256))
  | .signExtend, x, y => signExtend x y
  | .byte, x, y => byteAt x y
  | .sar, x, y => sar x y
  | op, x, y => return op.apply x y

/-- **What a ternary instruction computes**, with numbers without a
bound. -/
def ternary : TernaryOp → (top second third : UInt256) → Except Trap UInt256
  | .addMod, x, y, n => remainder (x.toNat + y.toNat) n
  | .mulMod, x, y, n => remainder (x.toNat * y.toNat) n

/-! ## They come to what instructions compute -/

theorem ofBytes_of_le {bs : Bytes} (h : bs.length ≤ 32) : ofBytes bs = .ok (numberOfBytes bs) :=
  if_pos h

theorem isNegative_eq (x : UInt256) : isNegative x = .ok x.msb :=
  rfl

theorem negate_eq (x : UInt256) : negate x = -x :=
  (BitVec.neg_eq_not_add x).symm

theorem abs_eq (x : UInt256) : abs x = .ok x.abs := by
  refine Trap.bind_eq (isNegative_eq x) ?_
  unfold BitVec.abs
  rw [negate_eq]
  split <;> rfl

theorem div_of_ne_zero {x y : UInt256} (h : y ≠ 0) : div x y = .ok (x / y) :=
  if_neg h

theorem mod_of_ne_zero {x y : UInt256} (h : y ≠ 0) : mod x y = .ok (x % y) :=
  if_neg h

theorem abs_ne_zero {x : UInt256} (h : x ≠ 0) : x.abs ≠ 0 := by
  unfold BitVec.abs
  split
  · exact fun hneg => h (BitVec.neg_eq_zero_iff.mp hneg)
  · exact h

/-- The divisor is not zero, and no absolute value makes it zero. -/
theorem sdiv_eq (x y : UInt256) : sdiv x y = .ok (x.sdiv y) := by
  unfold sdiv
  by_cases h : y = 0
  · rw [if_pos h, h]
    exact congrArg Except.ok BitVec.sdiv_zero.symm
  · rw [if_neg h]
    refine Trap.bind_eq (abs_eq x) (Trap.bind_eq (abs_eq y) ?_)
    refine Trap.bind_eq (div_of_ne_zero (abs_ne_zero h)) ?_
    refine Trap.bind_eq (isNegative_eq x) (Trap.bind_eq (isNegative_eq y) ?_)
    rw [negate_eq, BitVec.sdiv_eq]
    unfold BitVec.abs
    cases x.msb <;> cases y.msb <;> rfl

theorem smod_eq (x y : UInt256) : smod x y = .ok (if y = 0 then 0 else x.srem y) := by
  unfold smod
  by_cases h : y = 0
  · rw [if_pos h, if_pos h]
    rfl
  · rw [if_neg h, if_neg h]
    refine Trap.bind_eq (abs_eq x) (Trap.bind_eq (abs_eq y) ?_)
    refine Trap.bind_eq (mod_of_ne_zero (abs_ne_zero h)) (Trap.bind_eq (isNegative_eq x) ?_)
    rw [negate_eq, BitVec.srem_eq]
    unfold BitVec.abs
    cases x.msb <;> cases y.msb <;> rfl

theorem toSize?_of_le {x : UInt256} (h : x.toNat ≤ maxSize) : toSize? x = some x.toNat :=
  if_pos h

theorem toSize?_of_lt {x : UInt256} (h : maxSize < x.toNat) : toSize? x = none :=
  if_neg (Nat.not_le.mpr h)

theorem bit_of_lt {x : UInt256} {i : Nat} (h : i < 256) : bit x i = .ok (x.getLsbD i) :=
  if_pos h

theorem one_le_twoPow {n : Nat} (h : n < 256) : 1 ≤ BitVec.twoPow 256 n := by
  rw [BitVec.le_def, BitVec.toNat_twoPow_of_lt h]
  exact Nat.one_le_two_pow

theorem sub_one_twoPow {n : Nat} (h : n < 256) :
    sub (.twoPow 256 n) 1 = .ok (.twoPow 256 n - 1) :=
  if_pos (one_le_twoPow h)

/-- The mask has the bits below its place. -/
theorem getLsbD_mask {n : Nat} (h : n < 256) (i : Nat) :
    (BitVec.twoPow 256 n - 1).getLsbD i = decide (i < n) := by
  have hmask : (BitVec.twoPow 256 n - 1).toNat = 2 ^ n - 1 := by
    rw [BitVec.toNat_sub_of_le (one_le_twoPow h),
      BitVec.toNat_twoPow_of_lt h]
    rfl
  show Nat.testBit _ i = _
  rw [hmask, Nat.testBit_two_pow_sub_one]

/-- **To widen a number is to make the bits above its sign bit equal to
it.** -/
theorem signExtend_setWidth (x : UInt256) {k : Nat} (h : k < 31) :
    (x.setWidth (8 * (k + 1))).signExtend 256
      = if x.getLsbD (k * 8 + 7) then x ||| ~~~(.twoPow 256 (k * 8 + 7) - 1)
        else x &&& (.twoPow 256 (k * 8 + 7) - 1) := by
  have hsign : k * 8 + 7 < 256 := by omega
  have hlast : 8 * (k + 1) - 1 = k * 8 + 7 := by omega
  refine BitVec.eq_of_getLsbD_eq fun i hi => ?_
  have hleft : ((x.setWidth (8 * (k + 1))).signExtend 256).getLsbD i
      = if i < k * 8 + 7 then x.getLsbD i else x.getLsbD (k * 8 + 7) := by
    rw [BitVec.getLsbD_signExtend, BitVec.getLsbD_setWidth, BitVec.msb_setWidth, hlast]
    rcases Nat.lt_trichotomy i (k * 8 + 7) with hlt | rfl | hgt
    · simp [hi, hlt, show i < 8 * (k + 1) by omega]
    · simp [hi, show k * 8 + 7 < 8 * (k + 1) by omega]
    · simp [hi, show ¬ i < 8 * (k + 1) by omega, show ¬ i < k * 8 + 7 by omega]
  rw [hleft]
  by_cases hneg : x.getLsbD (k * 8 + 7)
  · rw [if_pos hneg, BitVec.getLsbD_or, BitVec.getLsbD_not, getLsbD_mask hsign]
    by_cases hlt : i < k * 8 + 7
    · simp [hlt]
    · simp [hlt, hi, hneg]
  · rw [if_neg hneg, BitVec.getLsbD_and, getLsbD_mask hsign]
    by_cases hlt : i < k * 8 + 7
    · simp [hlt]
    · simp [hlt, hneg]

theorem signExtend_eq (i x : UInt256) : signExtend i x = .ok (Evm.signExtend i x) := by
  unfold signExtend Evm.signExtend
  by_cases h : i.toNat < 31
  · have hmax : i.toNat * 8 + 7 ≤ maxSize := by
      have : 300 ≤ maxSize := by decide
      omega
    rw [toSize?_of_le (by omega), if_pos h, signExtend_setWidth x h]
    dsimp only
    rw [if_pos h]
    refine Trap.bind_eq (Trap.mul_of_le (by omega)) (Trap.bind_eq (Trap.add_of_le hmax) ?_)
    refine Trap.bind_eq (sub_one_twoPow (by omega)) (Trap.bind_eq (bit_of_lt (by omega)) ?_)
    split <;> rfl
  · rw [if_neg h]
    by_cases hsize : i.toNat ≤ maxSize
    · rw [toSize?_of_le hsize]
      exact if_neg h
    · rw [toSize?_of_lt (Nat.lt_of_not_le hsize)]
      rfl

theorem byte_of_lt {x : UInt256} {i : Nat} (h : i < 32) :
    byte x i = .ok (UInt8.ofNat (x.toNat / 256 ^ i)) :=
  if_pos h

/-- A byte is what is left of the number by a shift and a mask. -/
theorem ofNat_byte (x : UInt256) (i : Nat) :
    BitVec.ofNat 256 (UInt8.ofNat (x.toNat / 256 ^ i)).toNat = x >>> (8 * i) &&& 0xff := by
  have hbyte : (UInt8.ofNat (x.toNat / 256 ^ i)).toNat = x.toNat / 256 ^ i % 2 ^ 8 :=
    UInt8.toNat_ofNat'
  refine BitVec.eq_of_toNat_eq ?_
  rw [BitVec.toNat_and, BitVec.toNat_ushiftRight, Nat.shiftRight_eq_div_pow, Nat.pow_mul,
    BitVec.toNat_ofNat, hbyte]
  show x.toNat / 256 ^ i % 2 ^ 8 % 2 ^ 256 = x.toNat / 256 ^ i &&& 2 ^ 8 - 1
  rw [Nat.and_two_pow_sub_one_eq_mod]
  exact Nat.mod_eq_of_lt (Nat.lt_trans (Nat.mod_lt _ (by decide)) (by decide))

theorem byteAt_eq (i x : UInt256) : byteAt i x = .ok (Evm.byteAt i x) := by
  unfold byteAt Evm.byteAt
  by_cases h : i.toNat < 32
  · have hmax : 32 ≤ maxSize := by decide
    rw [toSize?_of_le (by omega), if_pos h]
    dsimp only
    rw [if_pos h, ← ofNat_byte]
    exact Trap.bind_eq (Trap.sub_of_le (by omega)) (Trap.bind_eq (byte_of_lt (by omega)) rfl)
  · rw [if_neg h]
    by_cases hsize : i.toNat ≤ maxSize
    · rw [toSize?_of_le hsize]
      exact if_neg h
    · rw [toSize?_of_lt (Nat.lt_of_not_le hsize)]
      rfl

/-- Shifted beyond its width, a number has nothing left but its sign. -/
theorem sshiftRight_width (x : UInt256) :
    x.sshiftRight 256 = if x.msb then BitVec.allOnes 256 else 0 := by
  cases h : x.msb with
  | true =>
    rw [BitVec.sshiftRight_eq_of_msb_true h, BitVec.ushiftRight_eq_zero (Nat.le_refl 256)]
    rfl
  | false =>
    rw [BitVec.sshiftRight_eq_of_msb_false h, BitVec.ushiftRight_eq_zero (Nat.le_refl 256)]
    rfl

theorem sar_eq (shift x : UInt256) :
    sar shift x = .ok (x.sshiftRight (min shift.toNat 256)) := by
  refine Trap.bind_eq (isNegative_eq x) ?_
  by_cases h : shift.toNat < 256
  · have hmax : 256 ≤ maxSize := by decide
    rw [toSize?_of_le (by omega), Nat.min_eq_left (Nat.le_of_lt h)]
    dsimp only
    rw [if_pos h]
    cases hneg : x.msb with
    | true => exact congrArg Except.ok (BitVec.sshiftRight_eq_of_msb_true hneg).symm
    | false => exact congrArg Except.ok (BitVec.sshiftRight_eq_of_msb_false hneg).symm
  · rw [Nat.min_eq_right (Nat.le_of_not_lt h), sshiftRight_width]
    by_cases hsize : shift.toNat ≤ maxSize
    · rw [toSize?_of_le hsize]
      exact if_neg h
    · rw [toSize?_of_lt (Nat.lt_of_not_le hsize)]
      rfl

/-! ## Numbers without a bound -/

theorem toNat_bytesOfNat (n : Nat) : Bytes.toNat (bytesOfNat n) = n := by
  have hlt : n < 256 ^ (n.log2 / 8 + 1) := by
    have hpow : 256 ^ (n.log2 / 8 + 1) = 2 ^ (8 * (n.log2 / 8 + 1)) := by
      rw [Nat.pow_mul]
    rw [hpow]
    exact Nat.lt_of_lt_of_le Nat.lt_log2_self (Nat.pow_le_pow_right (by decide) (by omega))
  unfold bytesOfNat
  rw [Bytes.toNat_ofNat, Nat.mod_eq_of_lt hlt]

/-- Only the last 32 bytes count. -/
theorem numberOfBytes_drop (bs : Bytes) :
    numberOfBytes (bs.drop (bs.length - 32)) = numberOfBytes bs := by
  rcases Nat.le_total bs.length 32 with hle | hge
  · rw [Nat.sub_eq_zero_of_le hle]
    rfl
  · have hlen : (bs.drop (bs.length - 32)).length = 32 := by
      rw [List.length_drop]
      omega
    have hsplit := Bytes.toNat_append (bs.take (bs.length - 32)) (bs.drop (bs.length - 32))
    rw [List.take_append_drop, hlen] at hsplit
    refine BitVec.eq_of_toNat_eq ?_
    unfold numberOfBytes
    rw [hsplit, BitVec.toNat_ofNat, BitVec.toNat_ofNat]
    show _ = (_ * 2 ^ 256 + _) % 2 ^ 256
    rw [Nat.mul_comm, Nat.mul_add_mod]

/-- **The last 32 bytes of a number are the number modulo `2 ^ 256`.** -/
theorem ofNat_eq (n : Nat) : ofNat n = .ok (BitVec.ofNat 256 n) := by
  have hnumber : numberOfBytes (bytesOfNat n) = BitVec.ofNat 256 n := by
    unfold numberOfBytes
    rw [toNat_bytesOfNat]
  rw [← hnumber, ← numberOfBytes_drop]
  refine Trap.bind_eq (Trap.slice_to_end rfl (Nat.sub_le _ _)) (ofBytes_of_le ?_)
  rw [List.length_drop]
  omega

/-- **Squaring repeatedly computes powers.** -/
theorem power_eq (base : UInt256) (exponent : Nat) :
    power base exponent = BitVec.ofNat 256 (base.toNat ^ exponent) := by
  refine BitVec.eq_of_toNat_eq ?_
  rw [BitVec.toNat_ofNat]
  induction exponent using Nat.strongRecOn generalizing base with
  | ind exponent ih =>
    rw [power]
    by_cases h : exponent = 0
    · rw [if_pos h, h]
      rfl
    · have hhalf := ih (exponent / 2) (by omega) (base * base)
      rw [BitVec.toNat_mul, ← Nat.pow_mod, ← Nat.pow_two, ← Nat.pow_mul] at hhalf
      rw [if_neg h]
      dsimp only
      by_cases hodd : exponent % 2 = 1
      · have hexponent : exponent = 2 * (exponent / 2) + 1 := by omega
        rw [if_pos hodd, BitVec.toNat_mul, hhalf, Nat.mul_mod_mod, ← Nat.pow_succ',
          Nat.succ_eq_add_one, ← hexponent]
      · have hexponent : exponent = 2 * (exponent / 2) := by omega
        rw [if_neg hodd, hhalf, ← hexponent]

/-- **What a binary instruction computes, it computes without a trap.** -/
theorem binary_eq (op : BinaryOp) (x y : UInt256) : binary op x y = .ok (op.apply x y) := by
  cases op with
  | sdiv => exact sdiv_eq x y
  | smod => exact smod_eq x y
  | exp =>
    have hpower : power x y.toNat = BitVec.ofNat 256 (x.toNat ^ y.toNat) := power_eq x y.toNat
    refine Trap.bind_eq (Trap.mod_of_ne_zero (by decide)) ?_
    refine (ofNat_eq _).trans (congrArg Except.ok (Eq.trans ?_ hpower.symm))
    refine BitVec.eq_of_toNat_eq ?_
    rw [BitVec.toNat_ofNat, BitVec.toNat_ofNat]
    exact Nat.mod_mod _ _
  | signExtend => exact signExtend_eq x y
  | byte => exact byteAt_eq x y
  | sar => exact sar_eq x y
  | _ => rfl

theorem remainder_eq (m : Nat) (n : UInt256) :
    remainder m n = .ok (if n = 0 then 0 else BitVec.ofNat 256 (m % n.toNat)) := by
  unfold remainder
  by_cases h : n = 0
  · rw [if_pos h, if_pos h]
    rfl
  · rw [if_neg h, if_neg h]
    exact Trap.bind_eq (Trap.mod_of_ne_zero fun hzero => h (BitVec.eq_of_toNat_eq hzero))
      (ofNat_eq _)

/-- The same for a ternary one. -/
theorem ternary_eq (op : TernaryOp) (x y n : UInt256) :
    ternary op x y n = .ok (op.apply x y n) := by
  cases op with
  | addMod | mulMod => exact remainder_eq _ n

end EthCall.Evm.Trapping
