import EthCall.Evm.Arithmetic
import EthCall.Proofs.Word

/-!
# Numbers and their bytes

A machine computes with numbers, and everything around it is bytes. Up to
a word, bytes of one length and the numbers they spell determine one
another (`numberOfBytes_inj`), and a shift to the right by whole bytes
drops the last of them (`numberOfBytes_append_ushiftRight`).
-/

namespace EthCall.Evm

/-- A word spells a number that need not be reduced. -/
theorem toNat_numberOfBytes {bs : Bytes} (h : bs.length ≤ 32) :
    (numberOfBytes bs).toNat = Bytes.toNat bs := by
  have hlt : Bytes.toNat bs < 2 ^ 256 :=
    Nat.lt_of_lt_of_le (Bytes.toNat_lt bs) (Nat.pow_le_pow_right (by decide) h)
  exact Nat.mod_eq_of_lt hlt

/-- **Bytes of one length are told by the number they spell.** -/
theorem numberOfBytes_inj {as bs : Bytes} (hlen : as.length = bs.length) (h : bs.length ≤ 32) :
    numberOfBytes as = numberOfBytes bs ↔ as = bs := by
  refine ⟨fun heq => ?_, congrArg numberOfBytes⟩
  refine Bytes.eq_of_toNat_eq hlen ?_
  rw [← toNat_numberOfBytes (hlen ▸ h), ← toNat_numberOfBytes h, heq]

/-- **A shift by whole bytes drops them.** -/
theorem numberOfBytes_append_ushiftRight {as bs : Bytes} (h : as.length + bs.length ≤ 32) :
    numberOfBytes (as ++ bs) >>> (8 * bs.length) = numberOfBytes as := by
  refine BitVec.eq_of_toNat_eq ?_
  rw [BitVec.toNat_ushiftRight, Nat.shiftRight_eq_div_pow,
    toNat_numberOfBytes (by rwa [List.length_append]),
    toNat_numberOfBytes (Nat.le_trans (Nat.le_add_right _ _) h), Bytes.toNat_append, Nat.pow_mul,
    Nat.add_comm, Nat.add_mul_div_right _ _ (Nat.pow_pos (by decide)),
    Nat.div_eq_of_lt (Bytes.toNat_lt bs), Nat.zero_add]

/-- The word that holds a number spells it, reduced. -/
theorem numberOfBytes_ofNat (n : Nat) :
    numberOfBytes (Word.ofNat n).bytes = BitVec.ofNat 256 n := by
  refine BitVec.eq_of_toNat_eq ?_
  rw [toNat_numberOfBytes (Nat.le_of_eq (Word.ofNat n).length_bytes), BitVec.toNat_ofNat]
  exact Word.toUnsigned_ofNat n

/-! ## Words -/

/-- The number of a word is its unsigned reading. -/
theorem toNat_toUInt256 (w : Word) : w.toUInt256.toNat = w.toUnsigned :=
  Nat.mod_eq_of_lt w.toUnsigned_lt

/-- **A word is the word of its machine number.** -/
@[simp] theorem ofUInt256_toUInt256 (w : Word) : Word.ofUInt256 w.toUInt256 = w := by
  rw [Word.ofUInt256, toNat_toUInt256, Word.ofNat_toUnsigned]

end EthCall.Evm
