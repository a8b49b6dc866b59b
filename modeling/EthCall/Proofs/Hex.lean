import EthCall.Hex
import EthCall.Proofs.Bytes
import Mathlib

/-!
# Digits and the bytes they spell

Two digits are worth a byte, and the two digits of a byte are those it was
spelled with, except for their case: writing gives lower case. So a text is
read exactly if it is an even number of digits behind its marker, and the
bytes are told by the lower case of the text (`Hex.parse_eq_ok_iff`). Put the
other way round, a byte string has many texts, with its digits in either case
and with or without a marker, and all of them are read as it
(`Hex.parse_eq_ok_iff_spells`). What is written is read again
(`Hex.parse_write`), and what is written for the eye lacks the zero bytes in
front (`Hex.parse_writeShort`).

A text that is not read has a character that is no digit, or one digit too
many. The first is found wherever it stands (`Hex.parse_of_invalid`), before
anybody asks for the second.
-/

namespace EthCall.Hex

variable {c : Char} {cs front back : List Char} {acc bs : Bytes} {s : String}

/-! ## Digits -/

/-- The digits are those of the ASCII class. -/
theorem isDigit_eq (c : Char) : isDigit c = c.isHexDigit := by
  have hdecimal : c.isDigit = true ↔ '0' ≤ c ∧ c ≤ '9' := by
    simp [Char.isDigit, Char.le_def]
  have hdigit : c.isHexDigit = true
      ↔ ('0' ≤ c ∧ c ≤ '9') ∨ ('a' ≤ c ∧ c ≤ 'f') ∨ ('A' ≤ c ∧ c ≤ 'F') := by
    simp [Char.isHexDigit, hdecimal, Char.le_def, or_assoc]
  rw [Bool.eq_iff_iff, hdigit]
  unfold isDigit digitValue?
  split_ifs with hnine hlower hupper
  all_goals simp [*]

/-- Digits are ASCII. -/
theorem toNat_of_isHexDigit (h : c.isHexDigit = true) : c.toNat < 128 := by
  simp only [Char.isHexDigit, Char.isDigit, Bool.or_eq_true, Bool.and_eq_true, decide_eq_true_eq,
    ge_iff_le, UInt32.le_iff_toNat_le] at h
  change ((48 ≤ c.toNat ∧ c.toNat ≤ 57) ∨ (97 ≤ c.toNat ∧ c.toNat ≤ 102))
    ∨ (65 ≤ c.toNat ∧ c.toNat ≤ 70) at h
  omega

/-- **A digit has a value below sixteen**, and the digit of that value is the
digit in lower case. -/
theorem exists_digitValue (h : c.isHexDigit = true) :
    ∃ v < 16, digitValue? c = some v ∧ Nat.digitChar v = c.toLower := by
  have hall : ∀ n < 128, (Char.ofNat n).isHexDigit = true →
      ∃ v < 16, digitValue? (Char.ofNat n) = some v ∧ Nat.digitChar v = (Char.ofNat n).toLower := by
    decide +kernel
  have hc := hall c.toNat (toNat_of_isHexDigit h)
  rw [Char.ofNat_toNat] at hc
  exact hc h

/-- The digit of a value has the value. -/
theorem digitValue?_digitChar {v : Nat} (h : v < 16) : digitValue? (Nat.digitChar v) = some v := by
  revert v
  decide

/-- The digit of a value is a digit. -/
theorem isHexDigit_digitChar {v : Nat} (h : v < 16) : (Nat.digitChar v).isHexDigit = true := by
  rw [← isDigit_eq, isDigit, digitValue?_digitChar h]
  rfl

/-! ## Bytes -/

@[simp] theorem digits_append (as bs : Bytes) : digits (as ++ bs) = digits as ++ digits bs :=
  List.flatMap_append

/-- The digits of a byte are those that it is the value of. -/
theorem digits_singleton_ofNat {high low : Nat} (hhigh : high < 16) (hlow : low < 16) :
    digits [UInt8.ofNat (high * 16 + low)] = [Nat.digitChar high, Nat.digitChar low] := by
  have hvalue : (UInt8.ofNat (high * 16 + low)).toNat = high * 16 + low := by
    rw [UInt8.toNat_ofNat']
    exact Nat.mod_eq_of_lt (by omega)
  have hdiv : (high * 16 + low) / 16 = high := by omega
  have hmod : (high * 16 + low) % 16 = low := by omega
  show [Nat.digitChar (_ / 16), Nat.digitChar (_ % 16)] = _
  rw [hvalue, hdiv, hmod]

/-- Two digits are worth a byte. -/
theorem ofDigitsOnto_cons_cons {high low : Char} {h l : Nat} (hhigh : digitValue? high = some h)
    (hlow : digitValue? low = some l) :
    ofDigitsOnto acc (high :: low :: cs) = ofDigitsOnto (UInt8.ofNat (h * 16 + l) :: acc) cs := by
  rw [ofDigitsOnto]
  simp only [hhigh, hlow, Option.getD_some]

@[simp] theorem length_digits (bs : Bytes) : (digits bs).length = 2 * bs.length := by
  induction bs with
  | nil => rfl
  | cons b bs ih =>
    show (digits bs).length + 1 + 1 = 2 * (bs.length + 1)
    rw [ih, Nat.mul_succ]

/-- Writing gives digits. -/
theorem isHexDigit_of_mem_digits (h : c ∈ digits bs) : c.isHexDigit = true := by
  obtain ⟨b, -, hc⟩ := List.mem_flatMap.mp h
  have hb : b.toNat < 256 := b.toNat_lt
  simp only [List.mem_cons, List.not_mem_nil, or_false] at hc
  rcases hc with rfl | rfl
  · exact isHexDigit_digitChar (by omega)
  · exact isHexDigit_digitChar (by omega)

/-- **The digits of bytes spell the bytes.** -/
theorem ofDigitsOnto_digits (acc bs : Bytes) :
    ofDigitsOnto acc (digits bs) = acc.reverse ++ bs := by
  induction bs generalizing acc with
  | nil => exact (List.append_nil _).symm
  | cons b bs ih =>
    have hb : b.toNat < 256 := b.toNat_lt
    have hdivMod : b.toNat / 16 * 16 + b.toNat % 16 = b.toNat := Nat.div_add_mod' ..
    have hhigh := digitValue?_digitChar (v := b.toNat / 16) (by omega)
    have hlow := digitValue?_digitChar (v := b.toNat % 16) (by omega)
    show ofDigitsOnto acc
        (Nat.digitChar (b.toNat / 16) :: Nat.digitChar (b.toNat % 16) :: digits bs) = _
    rw [ofDigitsOnto_cons_cons hhigh hlow, hdivMod, UInt8.ofNat_toNat, ih]
    simp

/-- **The bytes that digits spell have those digits**, in lower case. -/
theorem digits_ofDigitsOnto (hcs : ∀ c ∈ cs, c.isHexDigit = true) (hlength : cs.length % 2 = 0) :
    digits (ofDigitsOnto acc cs) = digits acc.reverse ++ cs.map Char.toLower := by
  fun_induction ofDigitsOnto acc cs with
  | case1 acc high low rest value ih =>
    obtain ⟨hhigh, hlow, hrest⟩ : high.isHexDigit = true ∧ low.isHexDigit = true
        ∧ ∀ c ∈ rest, c.isHexDigit = true := by simpa using hcs
    obtain ⟨h, hh16, hh, hhchar⟩ := exists_digitValue hhigh
    obtain ⟨l, hl16, hl, hlchar⟩ := exists_digitValue hlow
    have hvalues : value high * 16 + value low = h * 16 + l := by simp [value, hh, hl]
    have hlength : (rest.length + 2) % 2 = 0 := hlength
    rw [ih hrest (by rwa [Nat.add_mod_right] at hlength), hvalues, List.reverse_cons,
      digits_append, digits_singleton_ofNat hh16 hl16, hhchar, hlchar]
    simp
  | case2 cs acc hshort =>
    -- an even number of characters that are not two at least is none at all
    have hnil : cs = [] := by
      cases cs with
      | nil => rfl
      | cons c cs =>
        cases cs with
        | nil => simp at hlength
        | cons d cs => exact absurd rfl (hshort c d cs)
    rw [hnil, List.map_nil, List.append_nil]

/-! ## The first character that is no digit -/

/-- Among digits there is none. -/
theorem firstInvalid?_of_forall (hcs : ∀ c ∈ cs, c.isHexDigit = true) (index : Nat) :
    firstInvalid? index cs = none := by
  induction cs generalizing index with
  | nil => rfl
  | cons c cs ih =>
    obtain ⟨hc, hcs⟩ := List.forall_mem_cons.mp hcs
    rw [firstInvalid?, isDigit_eq, if_pos hc, ih hcs]

/-- **The first one is found** behind any digits. -/
theorem firstInvalid?_append (hfront : ∀ c ∈ front, c.isHexDigit = true)
    (hc : c.isHexDigit = false) (index : Nat) :
    firstInvalid? index (front ++ c :: back) = some (c, index + front.length) := by
  induction front generalizing index with
  | nil =>
    rw [List.nil_append, firstInvalid?, isDigit_eq, if_neg (Bool.eq_false_iff.mp hc)]
    rfl
  | cons d front ih =>
    obtain ⟨hd, hfront⟩ := List.forall_mem_cons.mp hfront
    rw [List.cons_append, firstInvalid?, isDigit_eq, if_pos hd, ih hfront, List.length_cons,
      Nat.add_assoc, Nat.add_comm 1]

/-- Either all characters are digits, or there is a first that is none. -/
theorem forall_isHexDigit_or (cs : List Char) : (∀ c ∈ cs, c.isHexDigit = true)
    ∨ ∃ front c back, cs = front ++ c :: back ∧ (∀ d ∈ front, d.isHexDigit = true)
      ∧ c.isHexDigit = false := by
  induction cs with
  | nil => exact .inl fun c hc => absurd hc List.not_mem_nil
  | cons c cs ih =>
    cases hc : c.isHexDigit with
    | false => exact .inr ⟨[], c, cs, rfl, fun d hd => absurd hd List.not_mem_nil, hc⟩
    | true =>
      rcases ih with hcs | ⟨front, d, back, rfl, hfront, hd⟩
      · exact .inl (List.forall_mem_cons.mpr ⟨hc, hcs⟩)
      · exact .inr ⟨c :: front, d, back, rfl, List.forall_mem_cons.mpr ⟨hc, hfront⟩, hd⟩

/-! ## Texts -/

/-- The characters that are to be digits: those behind the marker. -/
def body (s : String) : List Char := dropMarker s.toList

/-- A marker that is written is dropped again. -/
@[simp] theorem body_write (bs : Bytes) : body (write bs) = digits bs := by
  simp [body, write, dropMarker]

/-- **An even number of digits is read.** -/
theorem parse_of_forall (hcs : ∀ c ∈ body s, c.isHexDigit = true)
    (hlength : (body s).length % 2 = 0) : parse s = .ok (ofDigitsOnto [] (body s)) := by
  unfold body at hcs hlength ⊢
  unfold parse
  simp only [firstInvalid?_of_forall hcs, if_pos hlength]

/-- **Of an odd number of digits** the number is reported. -/
theorem parse_of_odd (hcs : ∀ c ∈ body s, c.isHexDigit = true)
    (hlength : (body s).length % 2 = 1) : parse s = .error (.oddLength (body s).length) := by
  have hodd : ¬ (body s).length % 2 = 0 := by omega
  unfold body at hcs hodd ⊢
  unfold parse
  simp only [firstInvalid?_of_forall hcs, if_neg hodd]

/-- **The first character that is no digit** is reported, whatever the
number of them all. -/
theorem parse_of_invalid (hbody : body s = front ++ c :: back)
    (hfront : ∀ d ∈ front, d.isHexDigit = true) (hc : c.isHexDigit = false) :
    parse s = .error (.invalidCharacter
      (if utf8Length (body s) % 2 = 0 then leadingByte c else c) front.length) := by
  have hfirst : firstInvalid? 0 (body s) = some (c, front.length) := by
    rw [hbody, firstInvalid?_append hfront hc, Nat.zero_add]
  unfold body at hfirst ⊢
  unfold parse
  simp only [hfirst]

/-- What is written of bytes is in the text they were read from. -/
theorem write_eq_iff : write bs = "0x" ++ String.ofList cs ↔ digits bs = cs := by
  rw [← String.toList_inj]
  simp [write]

/-- **What is written is read again.** -/
@[simp] theorem parse_write (bs : Bytes) : parse (write bs) = .ok bs := by
  have hread := parse_of_forall (s := write bs)
    (by rw [body_write]; exact fun c hc => isHexDigit_of_mem_digits hc)
    (by rw [body_write, length_digits, Nat.mul_mod_right])
  rwa [body_write, ofDigitsOnto_digits] at hread

/-- **What is written for the eye** is read without the zero bytes in front
of it, of which one is left if there is nothing else. -/
theorem parse_writeShort (bs : Bytes) : parse (writeShort bs)
    = .ok (if Bytes.dropLeadingZeros bs = [] then [0] else Bytes.dropLeadingZeros bs) := by
  unfold writeShort
  cases Bytes.dropLeadingZeros bs with
  | nil => exact parse_write [0]
  | cons b rest => exact parse_write (b :: rest)

/-- **The texts that are read** are digits, and the bytes are those that are
written with the same digits in lower case. -/
theorem parse_eq_ok_iff : parse s = .ok bs
    ↔ (∀ c ∈ body s, c.isHexDigit = true) ∧ digits bs = (body s).map Char.toLower := by
  constructor
  · intro h
    rcases forall_isHexDigit_or (body s) with hcs | ⟨front, c, back, hbody, hfront, hc⟩
    · refine ⟨hcs, ?_⟩
      rcases Nat.mod_two_eq_zero_or_one (body s).length with heven | hodd
      · rw [parse_of_forall hcs heven] at h
        rw [← Except.ok.inj h, digits_ofDigitsOnto hcs heven]
        rfl
      · rw [parse_of_odd hcs hodd] at h
        cases h
    · rw [parse_of_invalid hbody hfront hc] at h
      cases h
  · rintro ⟨hcs, hdigits⟩
    have heven : (body s).length % 2 = 0 := by
      rw [← List.length_map Char.toLower, ← hdigits, length_digits, Nat.mul_mod_right]
    have hsame : digits (ofDigitsOnto [] (body s)) = digits bs := by
      rw [digits_ofDigitsOnto hcs heven, hdigits]
      rfl
    rw [parse_of_forall hcs heven, ← List.nil_append bs, ← List.reverse_nil,
      ← ofDigitsOnto_digits, ← hsame, ofDigitsOnto_digits]
    rfl

/-! ## Spellings -/

/-- **The texts that spell a byte string**: its digits in either case, with
or without a marker. -/
def Spells (s : String) (bs : Bytes) : Prop :=
  ∃ marker ∈ ["", "0x", "0X"], ∃ cs : List Char,
    s = marker ++ String.ofList cs ∧ cs.map Char.toLower = digits bs

/-- Only digits have a lower case that is a digit. -/
theorem isHexDigit_of_toLower (h : c.toLower.isHexDigit = true) : c.isHexDigit = true := by
  have hascii : ∀ n < 128, (Char.ofNat n).toLower.isHexDigit = true →
      (Char.ofNat n).isHexDigit = true := by
    decide +kernel
  by_cases hupper : c.val ≥ 'A'.val ∧ c.val ≤ 'Z'.val
  · have hle : c.toNat ≤ 90 := UInt32.le_iff_toNat_le.mp hupper.2
    have hc := hascii c.toNat (by omega)
    rw [Char.ofNat_toNat] at hc
    exact hc h
  · unfold Char.toLower at h
    rwa [dif_neg hupper] at h

/-- Digits do not begin with a marker. -/
theorem dropMarker_of_forall (hcs : ∀ c ∈ cs, c.isHexDigit = true) : dropMarker cs = cs := by
  fun_cases dropMarker cs with
  | case1 rest => exact absurd (hcs 'x' (by simp)) (by decide)
  | case2 rest => exact absurd (hcs 'X' (by simp)) (by decide)
  | case3 => rfl

/-- A text is its marker and what is behind it. -/
theorem exists_marker (cs : List Char) :
    ∃ marker ∈ ["", "0x", "0X"], String.ofList cs = marker ++ String.ofList (dropMarker cs) := by
  fun_cases dropMarker cs with
  | case1 rest => exact ⟨"0x", by simp, by simp [← String.toList_inj]⟩
  | case2 rest => exact ⟨"0X", by simp, by simp [← String.toList_inj]⟩
  | case3 => exact ⟨"", by simp, by simp⟩

/-- **A text is read as what it spells.** -/
theorem parse_eq_ok_iff_spells : parse s = .ok bs ↔ Spells s bs := by
  rw [parse_eq_ok_iff]
  constructor
  · rintro ⟨-, hdigits⟩
    obtain ⟨marker, hmarker, hs⟩ := exists_marker s.toList
    rw [String.ofList_toList] at hs
    exact ⟨marker, hmarker, body s, hs, hdigits.symm⟩
  · rintro ⟨marker, hmarker, cs, rfl, hdigits⟩
    have hcs : ∀ c ∈ cs, c.isHexDigit = true := fun c hc =>
      isHexDigit_of_toLower (isHexDigit_of_mem_digits (hdigits ▸ List.mem_map_of_mem hc))
    have hbody : body (marker ++ String.ofList cs) = cs := by
      unfold body
      rw [String.toList_append, String.toList_ofList]
      simp only [List.mem_cons, List.not_mem_nil, or_false] at hmarker
      rcases hmarker with rfl | rfl | rfl
      · exact dropMarker_of_forall hcs
      · rfl
      · rfl
    rw [hbody]
    exact ⟨hcs, hdigits.symm⟩

/-- The written form is a spelling. -/
theorem spells_write (bs : Bytes) : Spells (write bs) bs :=
  parse_eq_ok_iff_spells.mp (parse_write bs)

end EthCall.Hex
