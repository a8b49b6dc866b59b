import EthCall.Bytes
import Mathlib

/-!
# Byte strings as numbers

A byte string and the number it spells determine one another as soon as
the width is known: `Bytes.toNat_ofNat` and `Bytes.ofNat_toNat` are the
two directions. Both come from the reading of a concatenation
(`Bytes.toNat_append`): the first part is worth `256` to the number of
bytes behind it. Of two byte strings of one width the one that comes first
in dictionary order spells the smaller number (`Bytes.lt_iff_toNat_lt`).

The readings of texts are here as well: what is written as UTF-8 is read
back (`Bytes.toText?_ofText`).
-/

namespace EthCall

namespace Bytes

/-! ## Reading -/

@[simp] theorem toNat_nil : toNat [] = 0 := rfl

/-- One more byte at the end is one more digit of base `256`. -/
theorem toNat_concat (bs : Bytes) (b : UInt8) :
    toNat (bs ++ [b]) = toNat bs * 256 + b.toNat := by
  unfold toNat
  rw [List.foldl_append]
  rfl

/-- **The reading of a concatenation.** -/
theorem toNat_append (as bs : Bytes) :
    toNat (as ++ bs) = toNat as * 256 ^ bs.length + toNat bs := by
  induction bs using List.reverseRecOn with
  | nil => simp
  | append_singleton bs b ih =>
    rw [← List.append_assoc, toNat_concat, toNat_concat, ih, List.length_append,
      List.length_singleton, Nat.pow_succ, Nat.add_mul, Nat.mul_assoc, Nat.add_assoc]

/-- The first byte is the most significant one. -/
theorem toNat_cons (b : UInt8) (bs : Bytes) :
    toNat (b :: bs) = b.toNat * 256 ^ bs.length + toNat bs := by
  have h := toNat_append [b] bs
  rw [List.singleton_append] at h
  rw [h]
  show (0 * 256 + b.toNat) * _ + _ = _
  rw [Nat.zero_mul, Nat.zero_add]

/-- A number is below what its width can hold. -/
theorem toNat_lt (bs : Bytes) : toNat bs < 256 ^ bs.length := by
  induction bs using List.reverseRecOn with
  | nil => simp
  | append_singleton bs b ih =>
    have hb : b.toNat < 256 := b.toNat_lt
    rw [toNat_concat, List.length_append, List.length_singleton, Nat.pow_succ]
    omega

/-! ## Writing -/

/-- What is written stands in front of what was there. -/
theorem ofNatOnto_eq (width n : Nat) (acc : Bytes) :
    ofNatOnto width n acc = ofNat width n ++ acc := by
  induction width generalizing n acc with
  | zero => rfl
  | succ k ih =>
    show ofNatOnto k (n / 256) (UInt8.ofNat n :: acc)
      = ofNatOnto k (n / 256) [UInt8.ofNat n] ++ acc
    rw [ih, ih, List.append_assoc]
    rfl

@[simp] theorem ofNat_zero (n : Nat) : ofNat 0 n = [] := rfl

/-- The last byte written is the low one. -/
theorem ofNat_succ (width n : Nat) :
    ofNat (width + 1) n = ofNat width (n / 256) ++ [UInt8.ofNat n] :=
  ofNatOnto_eq width (n / 256) [UInt8.ofNat n]

/-- **Reading what was written**: the number, as far as it fits. -/
theorem toNat_ofNat (width n : Nat) : toNat (ofNat width n) = n % 256 ^ width := by
  induction width generalizing n with
  | zero => simp [Nat.mod_one]
  | succ k ih =>
    have hlow : (UInt8.ofNat n).toNat = n % 256 := by simp
    rw [ofNat_succ, toNat_concat, ih, hlow, Nat.pow_succ, Nat.mul_comm (256 ^ k) 256,
      Nat.mod_mul]
    omega

/-- Each byte written is a digit of the number to the base 256. -/
theorem getElem?_ofNat {width i : Nat} (n : Nat) (h : i < width) :
    (ofNat width n)[i]? = some (UInt8.ofNat (n / 256 ^ (width - 1 - i))) := by
  induction width generalizing n with
  | zero => exact absurd h (Nat.not_lt_zero i)
  | succ k ih =>
    rw [ofNat_succ]
    rcases Nat.lt_or_eq_of_le (Nat.le_of_lt_succ h) with hlt | rfl
    · have hexponent : k + 1 - 1 - i = k - 1 - i + 1 := by omega
      rw [List.getElem?_append_left (by rwa [length_ofNat]), ih _ hlt, Nat.div_div_eq_div_mul,
        hexponent, Nat.pow_succ']
    · have hexponent : i + 1 - 1 - i = 0 := by omega
      rw [List.getElem?_append_right (by rw [length_ofNat]), length_ofNat, Nat.sub_self,
        hexponent, Nat.pow_zero, Nat.div_one]
      rfl

/-- **Writing what was read**, in the width it had. -/
theorem ofNat_toNat (bs : Bytes) : ofNat bs.length (toNat bs) = bs := by
  induction bs using List.reverseRecOn with
  | nil => rfl
  | append_singleton bs b ih =>
    have hb : b.toNat < 256 := b.toNat_lt
    have hhigh : (toNat bs * 256 + b.toNat) / 256 = toNat bs := by omega
    have hlow : UInt8.ofNat (toNat bs * 256 + b.toNat) = b := by
      refine UInt8.toNat_inj.mp ?_
      rw [UInt8.toNat_ofNat']
      show (toNat bs * 256 + b.toNat) % 256 = b.toNat
      omega
    rw [List.length_append, List.length_singleton, toNat_concat, ofNat_succ, hhigh, hlow, ih]

/-- Byte strings of one width are equal when they spell one number. -/
theorem eq_of_toNat_eq {as bs : Bytes} (hlen : as.length = bs.length)
    (h : toNat as = toNat bs) : as = bs := by
  rw [← ofNat_toNat as, ← ofNat_toNat bs, hlen, h]

/-! ## Zero bytes -/

/-- Zero bytes are cut anywhere. -/
theorem zeros_add (m n : Nat) : zeros (m + n) = zeros m ++ zeros n :=
  List.replicate_append_replicate.symm

/-- Zero bytes spell zero. -/
@[simp] theorem toNat_zeros (n : Nat) : toNat (zeros n) = 0 := by
  induction n with
  | zero => rfl
  | succ k ih =>
    rw [zeros_add, toNat_append, ih, Nat.zero_mul, Nat.zero_add]
    rfl

/-- A byte string of zero bytes is told by its length. -/
theorem allZero_iff {bs : Bytes} : allZero bs = true ↔ bs = zeros bs.length := by
  unfold allZero zeros
  rw [List.all_eq_true, List.eq_replicate_iff]
  simp

@[simp] theorem allZero_zeros (n : Nat) : allZero (zeros n) = true := by
  rw [allZero_iff, length_zeros]

/-- Leading zeros do not count. -/
theorem toNat_dropLeadingZeros (bs : Bytes) : toNat (dropLeadingZeros bs) = toNat bs := by
  induction bs with
  | nil => rfl
  | cons b rest ih =>
    unfold dropLeadingZeros at ih ⊢
    by_cases hzero : b = 0
    · subst hzero
      rw [List.dropWhile_cons_of_pos rfl, ih, toNat_cons, UInt8.toNat_zero, Nat.zero_mul,
        Nat.zero_add]
    · rw [List.dropWhile_cons_of_neg (by simpa using hzero)]

/-- There are no more bytes without them. -/
theorem length_dropLeadingZeros_le (bs : Bytes) : (dropLeadingZeros bs).length ≤ bs.length :=
  (List.dropWhile_suffix (· == 0)).length_le

/-! ## Order -/

/-- **Byte strings of one width are ordered as their numbers.** The first
byte in which they differ decides, for the bytes behind it spell less than
one of it is worth. -/
theorem lt_iff_toNat_lt {as bs : Bytes} (hlen : as.length = bs.length) :
    as < bs ↔ toNat as < toNat bs := by
  induction as generalizing bs with
  | nil =>
    rw [List.length_nil] at hlen
    rw [List.eq_nil_of_length_eq_zero hlen.symm]
    exact iff_of_false (List.not_lt_nil []) (Nat.lt_irrefl _)
  | cons a as ih =>
    cases bs with
    | nil => cases hlen
    | cons b bs =>
      have hlen : as.length = bs.length := Nat.succ.inj hlen
      have has : toNat as < 256 ^ bs.length := hlen ▸ toNat_lt as
      have hbs := toNat_lt bs
      rw [List.cons_lt_cons_iff, ih hlen, toNat_cons, toNat_cons, hlen, UInt8.lt_iff_toNat_lt,
        ← UInt8.toNat_inj]
      rcases Nat.lt_trichotomy a.toNat b.toNat with hlt | heq | hgt
      · have hstep : (a.toNat + 1) * 256 ^ bs.length ≤ b.toNat * 256 ^ bs.length :=
          Nat.mul_le_mul_right _ hlt
        rw [Nat.succ_mul] at hstep
        exact iff_of_true (.inl hlt) (by omega)
      · rw [heq]
        simp
      · have hstep : (b.toNat + 1) * 256 ^ bs.length ≤ a.toNat * 256 ^ bs.length :=
          Nat.mul_le_mul_right _ hgt
        rw [Nat.succ_mul] at hstep
        exact iff_of_false (by omega) (by omega)

/-! ## Texts -/

/-- **A text is read back from its UTF-8 form.** -/
@[simp] theorem toText?_ofText (s : String) : toText? (ofText s) = some s := by
  have h : (ofText s).toByteArray = s.toByteArray := ByteArray.ext (by simp [ofText])
  unfold toText?
  rw [h]
  exact dif_pos s.isValidUTF8

/-- A text that was read is written as the bytes it was read from. -/
theorem ofText_of_toText? {bs : Bytes} {s : String} (h : toText? bs = some s) :
    ofText s = bs := by
  unfold toText? String.fromUTF8? at h
  split at h
  case isTrue =>
    obtain rfl := Option.some.inj h
    show bs.toByteArray.data.toList = bs
    simp
  case isFalse => cases h

end Bytes

end EthCall
