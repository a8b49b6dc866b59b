import EthCall.Proofs.Evm.Number
import EthCall.Proofs.Hex
import EthCall.Proofs.Word.Conversion
import Mathlib

/-!
# The views of a word

A word is compared byte by byte, cut down to a machine integer if its other
bytes are zero, computed with as a machine number, and written out with or
without the zeros in front of it. Each of these goes over the bytes in a way
of its own and none of them asks for the number. They are all told by it
(`Word.views_agree`).

Text goes the other way. Bytes that are fewer than those of a word get zeros
in front, which do not change what they spell, so a text is read as the word
of its number (`Word.parseHex_eq_ok_iff`), and leaving the zeros out of the
written form loses nothing.
-/

namespace EthCall.Word

variable {w : Word} {n : Nat} {s : String} {bs : Bytes}

/-! ## Order -/

/-- **Dictionary order is the order of the numbers.** -/
theorem precedes_iff (a b : Word) : precedes a b = true ↔ a.toUnsigned < b.toUnsigned := by
  have hlen : a.bytes.length = b.bytes.length := by rw [a.length_bytes, b.length_bytes]
  unfold precedes
  rw [decide_eq_true_iff]
  exact Bytes.lt_iff_toNat_lt hlen

/-! ## Machine integers -/

/-- The number of a word as the size of something in memory. -/
def toSize? (w : Word) : Option Nat :=
  w.toUInt64?.filter (· ≤ maxSize)

/-- **The words that are cut down** are those of numbers below `2 ^ 64`. -/
theorem toUInt64?_eq_some_iff_toUnsigned :
    w.toUInt64? = some n ↔ w.toUnsigned = n ∧ n < 2 ^ 64 := by
  have hmax : n ≤ maxSize ↔ n < 2 ^ 64 := Nat.lt_succ_iff.symm
  rw [toUInt64?_eq_some_iff, hmax, and_comm]
  refine and_congr_left fun hn => ⟨?_, ?_⟩
  · rintro rfl
    exact toUnsigned_ofNat_of_lt (hn.trans (by decide))
  · rintro rfl
    exact (ofNat_toUnsigned w).symm

/-- Sizes are the integers of the machine, so there is nothing to refuse. -/
theorem toSize?_eq (w : Word) : w.toSize? = w.toUInt64? := by
  unfold toSize?
  cases h : w.toUInt64? with
  | none => rfl
  | some n => exact if_pos (decide_eq_true (toUInt64?_eq_some_iff.mp h).1)

/-! ## Machine numbers -/

/-- The word of a machine number has its value. -/
theorem toUnsigned_ofUInt256 (x : UInt256) : (ofUInt256 x).toUnsigned = x.toNat :=
  toUnsigned_ofNat_of_lt x.isLt

/-- **A machine number is that of its word.** -/
@[simp] theorem toUInt256_ofUInt256 (x : UInt256) : (ofUInt256 x).toUInt256 = x := by
  refine BitVec.eq_of_toNat_eq ?_
  rw [Evm.toNat_toUInt256, toUnsigned_ofUInt256]

/-! ## Text -/

/-- Up to 32 bytes spell the number of a word. -/
theorem toNat_lt_powerOfTwo (h : bs.length ≤ 32) : Bytes.toNat bs < powerOfTwo 256 :=
  (Bytes.toNat_lt bs).trans_le (Nat.pow_le_pow_right (by decide) h)

/-- Text that is not hexadecimal has no word. -/
theorem parseHex_of_error {e : HexError} (h : Hex.parse s = .error e) :
    parseHex s = .error (.hex e) := by
  unfold parseHex
  rw [h]

/-- Text for up to 32 bytes has the word of their number. -/
theorem parseHex_of_le (h : Hex.parse s = .ok bs) (hlen : bs.length ≤ 32) :
    parseHex s = .ok (ofNat (Bytes.toNat bs)) := by
  unfold parseHex
  rw [h]
  exact if_pos hlen

/-- Text for more bytes has none. -/
theorem parseHex_of_lt (h : Hex.parse s = .ok bs) (hlen : 32 < bs.length) :
    parseHex s = .error (.tooLong bs.length) := by
  unfold parseHex
  rw [h]
  exact if_neg (Nat.not_le.mpr hlen)

/-- The three ways in which a text can be taken. -/
theorem parseHex_cases (s : String) : (∃ e, Hex.parse s = .error e ∧ parseHex s = .error (.hex e))
    ∨ ∃ bs, Hex.parse s = .ok bs ∧ ((bs.length ≤ 32 ∧ parseHex s = .ok (ofNat (Bytes.toNat bs)))
      ∨ (32 < bs.length ∧ parseHex s = .error (.tooLong bs.length))) := by
  cases h : Hex.parse s with
  | error e => exact .inl ⟨e, rfl, parseHex_of_error h⟩
  | ok bs =>
    rcases Nat.lt_or_ge 32 bs.length with hlen | hlen
    · exact .inr ⟨bs, rfl, .inr ⟨hlen, parseHex_of_lt h hlen⟩⟩
    · exact .inr ⟨bs, rfl, .inl ⟨hlen, parseHex_of_le h hlen⟩⟩

/-- **The word of a text** is the one of the number its bytes spell, of which
there are 32 at most. -/
theorem parseHex_eq_ok_iff : parseHex s = .ok w
    ↔ ∃ bs, Hex.parse s = .ok bs ∧ bs.length ≤ 32 ∧ w.toUnsigned = Bytes.toNat bs := by
  constructor
  · intro h
    rcases parseHex_cases s with ⟨e, -, he⟩ | ⟨bs, hbs, ⟨hlen, hw⟩ | ⟨-, he⟩⟩
    · rw [h] at he
      cases he
    · rw [h] at hw
      cases hw
      exact ⟨bs, hbs, hlen, toUnsigned_ofNat_of_lt (toNat_lt_powerOfTwo hlen)⟩
    · rw [h] at he
      cases he
  · rintro ⟨bs, hbs, hlen, hw⟩
    rw [parseHex_of_le hbs hlen, ← hw, ofNat_toUnsigned]

/-- **The texts that are too long** are those of more than 32 bytes. -/
theorem parseHex_eq_tooLong_iff : parseHex s = .error (.tooLong n)
    ↔ ∃ bs, Hex.parse s = .ok bs ∧ 32 < bs.length ∧ bs.length = n := by
  constructor
  · intro h
    rcases parseHex_cases s with ⟨e, -, he⟩ | ⟨bs, hbs, ⟨-, hw⟩ | ⟨hlen, he⟩⟩
    · rw [h] at he
      cases he
    · rw [h] at hw
      cases hw
    · rw [h] at he
      cases he
      exact ⟨bs, hbs, hlen, rfl⟩
  · rintro ⟨bs, hbs, hlen, rfl⟩
    exact parseHex_of_lt hbs hlen

/-- **What is written of a word is read as it again.** -/
@[simp] theorem parseHex_toHex (w : Word) : parseHex w.toHex = .ok w := by
  rw [parseHex_eq_ok_iff]
  exact ⟨w.bytes, Hex.parse_write w.bytes, w.length_bytes.le, rfl⟩

/-- **So is what is written for the eye**: the zeros that it lacks are put
back. -/
@[simp] theorem parseHex_toShortHex (w : Word) : parseHex w.toShortHex = .ok w := by
  have hvalue := Bytes.toNat_dropLeadingZeros w.bytes
  have hlen := Bytes.length_dropLeadingZeros_le w.bytes
  rw [w.length_bytes] at hlen
  rw [parseHex_eq_ok_iff]
  refine ⟨_, Hex.parse_writeShort w.bytes, ?_⟩
  split
  case isTrue hzero =>
    -- the zero byte that is left stands for the empty byte string
    rw [hzero] at hvalue
    exact ⟨by decide, hvalue.symm⟩
  case isFalse => exact ⟨hlen, hvalue.symm⟩

/-- **The word of a text, byte by byte.** The bytes go to the end of a
word of zeros. -/
def Trapping.parseHex (s : String) : Except Trap (Except WordError Word) :=
  match Hex.parse s with
  | .error e => return .error (.hex e)
  | .ok bs =>
    if 32 < bs.length then return .error (.tooLong bs.length)
    else do return .ok (← leftPadded bs 0x00)

/-- **The bytes always have room**, and the word is that of their number. -/
theorem Trapping.parseHex_eq (s : String) : Trapping.parseHex s = .ok (Word.parseHex s) := by
  unfold Trapping.parseHex Word.parseHex
  cases Hex.parse s with
  | error e => rfl
  | ok bs =>
    show (if 32 < bs.length then _ else _) = Except.ok (if bs.length ≤ 32 then _ else _)
    by_cases hlen : bs.length ≤ 32
    · rw [if_neg (Nat.not_lt.mpr hlen), if_pos hlen]
      exact Trap.bind_eq (leftPadded_zero hlen) rfl
    · rw [if_pos (Nat.lt_of_not_le hlen), if_neg hlen]
      rfl

/-! ## All views -/

/-- **All views of a word agree with its number.** For all words, machine
numbers and texts,

* one word precedes another in dictionary order exactly if its number is
  smaller;
* a word is cut down to a machine integer, or to a size, exactly if its
  number is below `2 ^ 64`, and to its number;
* words and machine numbers are made of one another without loss, and have
  the same value;
* both written forms of a word are read as the word again;
* a text has a word exactly if it is hexadecimal and has 32 bytes at most,
  and the word is that of the number they spell; with more of them the text
  is too long;
* putting the bytes in their place comes to the same, and there is always
  room for them. -/
theorem views_agree (a b w : Word) (x : UInt256) (n : Nat) (s : String) :
    (precedes a b = true ↔ a.toUnsigned < b.toUnsigned)
    ∧ (w.toUInt64? = some n ↔ w.toUnsigned = n ∧ n < 2 ^ 64)
    ∧ (w.toSize? = some n ↔ w.toUnsigned = n ∧ n < 2 ^ 64)
    ∧ (ofUInt256 w.toUInt256 = w ∧ w.toUInt256.toNat = w.toUnsigned)
    ∧ ((ofUInt256 x).toUInt256 = x ∧ (ofUInt256 x).toUnsigned = x.toNat)
    ∧ parseHex w.toHex = .ok w
    ∧ parseHex w.toShortHex = .ok w
    ∧ (parseHex s = .ok w
      ↔ ∃ bs, Hex.parse s = .ok bs ∧ bs.length ≤ 32 ∧ w.toUnsigned = Bytes.toNat bs)
    ∧ ((∃ y, parseHex s = .ok y) ↔ ∃ bs, Hex.parse s = .ok bs ∧ bs.length ≤ 32)
    ∧ (parseHex s = .error (.tooLong n)
      ↔ ∃ bs, Hex.parse s = .ok bs ∧ 32 < bs.length ∧ bs.length = n)
    ∧ Trapping.parseHex s = .ok (parseHex s) := by
  refine ⟨precedes_iff a b, toUInt64?_eq_some_iff_toUnsigned, ?_,
    ⟨Evm.ofUInt256_toUInt256 w, Evm.toNat_toUInt256 w⟩,
    ⟨toUInt256_ofUInt256 x, toUnsigned_ofUInt256 x⟩, parseHex_toHex w, parseHex_toShortHex w,
    parseHex_eq_ok_iff, ⟨?_, ?_⟩, parseHex_eq_tooLong_iff, Trapping.parseHex_eq s⟩
  · rw [toSize?_eq]
    exact toUInt64?_eq_some_iff_toUnsigned
  · rintro ⟨y, hy⟩
    obtain ⟨bs, hbs, hlen, -⟩ := parseHex_eq_ok_iff.mp hy
    exact ⟨bs, hbs, hlen⟩
  · rintro ⟨bs, hbs, hlen⟩
    exact ⟨_, parseHex_of_le hbs hlen⟩

end EthCall.Word
