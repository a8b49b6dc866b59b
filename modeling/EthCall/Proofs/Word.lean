import EthCall.Proofs.Bytes
import EthCall.Text.Decimal
import EthCall.Word

/-!
# Words as numbers

A word and its unsigned reading determine one another, and so do a word
and its signed reading. The signed one is the unsigned one, moved down by
`2 ^ 256` where the sign bit is set, and the sign bit is set exactly from
`2 ^ 255` on (`Word.isNegative_iff`). With the powers kept as atoms
(`powerOfTwo_256`) what remains is linear.

`Word.toUInt64?` is the reading of sizes. It succeeds exactly on the
words of numbers up to `maxSize` (`Word.toUInt64?_eq_some_iff`).
-/

namespace EthCall

/-! ## Powers and widths -/

theorem powerOfTwo_eq (bits : Nat) : powerOfTwo bits = 2 ^ bits := rfl

/-- A word has as many values as its 32 bytes. -/
theorem powerOfTwo_256 : powerOfTwo 256 = 256 ^ 32 := rfl

/-- Half of the values of a word are negative. -/
theorem powerOfTwo_256_eq : powerOfTwo 256 = 2 * powerOfTwo 255 := rfl

/-- Sizes take eight bytes. -/
theorem maxSize_eq : maxSize = 256 ^ 8 - 1 := by decide

/-- A wider word has more values. -/
theorem powerOfTwo_mono {m n : Nat} (h : m ≤ n) : powerOfTwo m ≤ powerOfTwo n :=
  Nat.pow_le_pow_right (by decide) h

/-- The test of an unsigned width, as a bound. -/
theorem fitsUnsigned_iff {n bits : Nat} : fitsUnsigned n bits = true ↔ n < powerOfTwo bits := by
  unfold fitsUnsigned
  rw [decide_eq_true_iff]

/-- The test of a signed width, as bounds. No number fits in no bits. -/
theorem fitsSigned_iff {z : Int} {bits : Nat} :
    fitsSigned z bits = true
      ↔ bits ≠ 0 ∧ -(powerOfTwo (bits - 1) : Int) ≤ z ∧ z < powerOfTwo (bits - 1) := by
  unfold fitsSigned
  simp [and_assoc]

/-- What fits in a width fits in a word. -/
theorem fitsUnsigned_256 {n bits : Nat} (hbits : bits ≤ 256) (h : fitsUnsigned n bits = true) :
    fitsUnsigned n 256 = true := by
  rw [fitsUnsigned_iff] at h ⊢
  exact Nat.lt_of_lt_of_le h (powerOfTwo_mono hbits)

/-- What fits in a signed width fits in a word. -/
theorem fitsSigned_256 {z : Int} {bits : Nat} (hbits : bits ≤ 256)
    (h : fitsSigned z bits = true) : fitsSigned z 256 = true := by
  rw [fitsSigned_iff] at h ⊢
  have hmono : powerOfTwo (bits - 1) ≤ powerOfTwo (256 - 1) := powerOfTwo_mono (by omega)
  omega

namespace Word

/-! ## The unsigned reading -/

/-- The unsigned reading stays below the number of words. -/
theorem toUnsigned_lt (w : Word) : w.toUnsigned < powerOfTwo 256 := by
  have h := Bytes.toNat_lt w.bytes
  rwa [w.length_bytes] at h

/-- A number is read back from its word as far as it fits. -/
theorem toUnsigned_ofNat (n : Nat) : (ofNat n).toUnsigned = n % powerOfTwo 256 :=
  Bytes.toNat_ofNat 32 n

/-- **A number that fits is read back from its word.** -/
theorem toUnsigned_ofNat_of_lt {n : Nat} (h : n < powerOfTwo 256) :
    (ofNat n).toUnsigned = n := by
  rw [toUnsigned_ofNat, Nat.mod_eq_of_lt h]

/-- **A word is the word of its number.** -/
@[simp] theorem ofNat_toUnsigned (w : Word) : ofNat w.toUnsigned = w := by
  have h := Bytes.ofNat_toNat w.bytes
  rw [w.length_bytes] at h
  exact FixedBytes.ext h

/-! ## The signed reading -/

/-- The top bit of a byte is set from 128 on. -/
theorem topBit_iff (b : UInt8) : (b &&& 0x80 != 0) = decide (128 ≤ b.toNat) := by
  have h : ∀ n : Fin 256, (UInt8.ofNat n &&& 0x80 != 0) = decide (128 ≤ n.val) := by
    decide +kernel
  simpa using h ⟨b.toNat, b.toNat_lt⟩

/-- **The sign bit** is set from `2 ^ 255` on. -/
theorem isNegative_iff (w : Word) : w.isNegative = decide (powerOfTwo 255 ≤ w.toUnsigned) := by
  obtain ⟨bs, hbs⟩ := w
  cases bs with
  | nil => simp at hbs
  | cons b rest =>
    have hrest : rest.length = 31 := by simpa using hbs
    -- what the other bytes spell is below the weight of the first one
    have hlt : Bytes.toNat rest < 256 ^ 31 := hrest ▸ Bytes.toNat_lt rest
    have hpow : powerOfTwo 255 = 128 * 256 ^ 31 := rfl
    show (b &&& 0x80 != 0) = decide (powerOfTwo 255 ≤ Bytes.toNat (b :: rest))
    rw [topBit_iff, Bytes.toNat_cons, hrest, hpow]
    refine decide_eq_decide.mpr ⟨fun h => ?_, fun h => ?_⟩
    · exact Nat.le_trans (Nat.mul_le_mul_right _ h) (Nat.le_add_right _ _)
    · omega

/-- The signed reading in terms of the unsigned one. -/
theorem toSigned_eq (w : Word) :
    w.toSigned = if powerOfTwo 255 ≤ w.toUnsigned then (w.toUnsigned : Int) - powerOfTwo 256
      else w.toUnsigned := by
  unfold toSigned
  rw [isNegative_iff]
  simp only [decide_eq_true_eq]

/-- The two readings differ by a multiple of `2 ^ 256`. -/
theorem toSigned_emod (w : Word) : w.toSigned % powerOfTwo 256 = w.toUnsigned := by
  have hlt := toUnsigned_lt w
  rw [toSigned_eq]
  split
  · rw [Int.sub_emod_right, Int.emod_eq_of_lt (by omega) (by omega)]
  · rw [Int.emod_eq_of_lt (by omega) (by omega)]

/-- **A word is the word of its signed number.** -/
@[simp] theorem ofInt_toSigned (w : Word) : ofInt w.toSigned = w := by
  unfold ofInt
  rw [toSigned_emod, Int.toNat_natCast, ofNat_toUnsigned]

/-- **A signed number that fits is read back from its word.** -/
theorem toSigned_ofInt {z : Int} (h : fitsSigned z 256 = true) : (ofInt z).toSigned = z := by
  have htwo := powerOfTwo_256_eq
  obtain ⟨-, hlow, hhigh⟩ := fitsSigned_iff.mp h
  have hlow : -(powerOfTwo 255 : Int) ≤ z := hlow
  have hhigh : z < powerOfTwo 255 := hhigh
  have hn : (ofInt z).toUnsigned = (z % powerOfTwo 256).toNat := by
    have hpos : (0 : Int) < powerOfTwo 256 := by omega
    have := Int.emod_lt_of_pos z hpos
    exact toUnsigned_ofNat_of_lt (by omega)
  rw [toSigned_eq, hn]
  -- a negative number has its remainder one modulus above it
  by_cases hz : 0 ≤ z
  · rw [Int.emod_eq_of_lt hz (by omega)]
    split <;> omega
  · have hmod : z % powerOfTwo 256 = z + powerOfTwo 256 := by
      rw [← Int.add_emod_right, Int.emod_eq_of_lt (by omega) (by omega)]
    rw [hmod]
    split <;> omega

/-! ## The reading as a size -/

/-- The words that are read as a size are those of the sizes. -/
theorem toUInt64?_eq_some_iff {w : Word} {n : Nat} :
    w.toUInt64? = some n ↔ n ≤ maxSize ∧ w = ofNat n := by
  have hmax := maxSize_eq
  have hsplit : w.toUnsigned
      = Bytes.toNat (w.bytes.take 24) * 256 ^ 8 + Bytes.toNat (w.bytes.drop 24) := by
    show Bytes.toNat w.bytes = _
    conv_lhs => rw [← List.take_append_drop 24 w.bytes]
    rw [Bytes.toNat_append, List.length_drop, w.length_bytes]
  have hlow : Bytes.toNat (w.bytes.drop 24) < 256 ^ 8 := by
    have h := Bytes.toNat_lt (w.bytes.drop 24)
    rwa [List.length_drop, w.length_bytes] at h
  have hlen : (w.bytes.take 24).length = 24 := by
    rw [List.length_take, w.length_bytes]
    rfl
  unfold toUInt64?
  constructor
  · intro h
    split at h
    case isFalse => cases h
    case isTrue hzero =>
      cases h
      rw [Bytes.allZero_iff.mp hzero, Bytes.toNat_zeros, Nat.zero_mul, Nat.zero_add] at hsplit
      rw [← hsplit, ofNat_toUnsigned]
      exact ⟨by omega, rfl⟩
  · rintro ⟨hn, hw⟩
    have hval : w.toUnsigned = n := by
      have h256 : powerOfTwo 256 = 256 ^ 24 * 256 ^ 8 := rfl
      rw [hw]
      exact toUnsigned_ofNat_of_lt (by omega)
    have htop : w.bytes.take 24 = Bytes.zeros 24 :=
      Bytes.eq_of_toNat_eq (by rw [hlen, Bytes.length_zeros]) (by rw [Bytes.toNat_zeros]; omega)
    rw [htop, Bytes.allZero_zeros, if_pos rfl]
    rw [htop, Bytes.toNat_zeros, Nat.zero_mul, Nat.zero_add, hval] at hsplit
    rw [hsplit]

/-- The word of a size is read back. -/
theorem toUInt64?_ofNat {n : Nat} (h : n ≤ maxSize) : (ofNat n).toUInt64? = some n :=
  toUInt64?_eq_some_iff.mpr ⟨h, rfl⟩

end Word

end EthCall
