import EthCall.Proofs.Hex
import Mathlib

/-!
# Two scans of one text

`Hex.parse` has one rule for the first character that is no digit. A program
may have two, for a text that takes an odd number of bytes cannot be cut into
pairs. Of such a text the characters are looked at, and the position of one is
where its bytes begin. Any other text is cut into pairs of bytes, and they are
looked at one by one while they are put together; a character outside ASCII is
nothing but its bytes there.

Both scans stop at the same place (`Hex.Scanning.parse_eq`). Up to there all
characters are digits, so that they have one byte each, and the byte at which
the second scan stops is the first of the character at which the other would:
the first byte of a character outside ASCII is no digit either.
-/

namespace EthCall.Hex

variable {c : Char} {cs front back : List Char} {b : UInt8} {bs : Bytes} {s : String}

/-! ## Characters and their bytes -/

/-- A text has the bytes of its characters. -/
theorem ofText_ofList (cs : List Char) :
    Bytes.ofText (String.ofList cs) = cs.flatMap String.utf8EncodeChar := by
  show (String.ofList cs).toUTF8.data.toList = _
  rw [String.toUTF8_eq_toByteArray, String.toByteArray_ofList]
  exact List.toList_data_toByteArray

/-- The bytes that characters take are those of their text. -/
theorem utf8Length_eq (cs : List Char) :
    utf8Length cs = (Bytes.ofText (String.ofList cs)).length := by
  have hfold : ∀ n, cs.foldl (fun n c => n + c.utf8Size) n
      = n + (cs.flatMap String.utf8EncodeChar).length := by
    induction cs with
    | nil => exact fun n => rfl
    | cons c cs ih =>
      intro n
      rw [List.foldl_cons, ih, List.flatMap_cons, List.length_append,
        String.length_utf8EncodeChar, Nat.add_assoc]
  rw [ofText_ofList, ← Nat.zero_add (List.length _), ← hfold]
  rfl

/-- A character in ASCII is one byte. -/
theorem utf8EncodeChar_of_lt (h : c.toNat < 128) :
    String.utf8EncodeChar c = [UInt8.ofNat c.toNat] :=
  if_pos (Nat.le_of_lt_succ h)

/-- **The first byte of any other character** is not in ASCII. -/
theorem exists_utf8EncodeChar_of_le (h : 128 ≤ c.toNat) :
    ∃ b rest, String.utf8EncodeChar c = b :: rest ∧ 128 ≤ b.toNat := by
  have hfirst {n m k : Nat} (hm : 0 < m) (hk : 128 ≤ k) (hsum : m + k ≤ 256) :
      128 ≤ (UInt8.ofNat (n % m + k)).toNat := by
    have hlt := Nat.mod_lt n hm
    rw [UInt8.toNat_ofNat', Nat.mod_eq_of_lt (by omega)]
    omega
  unfold String.utf8EncodeChar
  rw [if_neg (by show ¬ c.toNat ≤ 0x7f; omega)]
  split
  · exact ⟨_, _, rfl, hfirst (by decide) (by decide) (by decide)⟩
  · split
    · exact ⟨_, _, rfl, hfirst (by decide) (by decide) (by decide)⟩
    · exact ⟨_, _, rfl, hfirst (by decide) (by decide) (by decide)⟩

/-- Characters in ASCII have one byte each, -/
theorem ofText_of_ascii (hcs : ∀ c ∈ cs, c.toNat < 128) :
    Bytes.ofText (String.ofList cs) = cs.map fun c => UInt8.ofNat c.toNat := by
  rw [ofText_ofList, List.map_eq_flatMap]
  exact List.flatMap_congr fun c hc => utf8EncodeChar_of_lt (hcs c hc)

/-- and so have digits. -/
theorem ofText_of_forall (hcs : ∀ c ∈ cs, c.isHexDigit = true) :
    Bytes.ofText (String.ofList cs) = cs.map fun c => UInt8.ofNat c.toNat :=
  ofText_of_ascii fun c hc => toNat_of_isHexDigit (hcs c hc)

namespace Scanning

/-! ## The scans -/

/-- The first character that is no digit, with the place where its bytes
begin. -/
def firstInvalid? (place : Nat) : List Char → Option (Char × Nat)
  | [] => none
  | c :: rest => if c.isHexDigit then firstInvalid? (place + c.utf8Size) rest else some (c, place)

/-- The value of the digit that a byte is the code of. -/
def byteValue? (b : UInt8) : Option Nat :=
  if 0x41 ≤ b ∧ b ≤ 0x46 then some (b.toNat - 0x41 + 10)
  else if 0x61 ≤ b ∧ b ≤ 0x66 then some (b.toNat - 0x61 + 10)
  else if 0x30 ≤ b ∧ b ≤ 0x39 then some (b.toNat - 0x30)
  else none

/-- The value of a byte that has to be a digit. Any other is reported as the
character of which it is the code. -/
def digit (place : Nat) (b : UInt8) : Except HexError Nat :=
  match byteValue? b with
  | some v => .ok v
  | none => .error (.invalidCharacter (Char.ofNat b.toNat) place)

/-- The bytes that are spelled by two bytes each. -/
def decode (place : Nat) : Bytes → Except HexError Bytes
  | high :: low :: rest => do
    let h ← digit place high
    let l ← digit (place + 1) low
    let bs ← decode (place + 2) rest
    return UInt8.ofNat (h * 16 + l) :: bs
  | _ => .ok []

/-- **Read hexadecimal text** with the one scan or the other. -/
def parse (s : String) : Except HexError Bytes :=
  let bytes := Bytes.ofText (String.ofList (body s))
  if bytes.length % 2 ≠ 0 then
    match firstInvalid? 0 (body s) with
    | some (c, place) => .error (.invalidCharacter c place)
    | none => .error (.oddLength bytes.length)
  else decode 0 bytes

/-! ## Characters, one by one -/

theorem firstInvalid?_of_forall (hcs : ∀ c ∈ cs, c.isHexDigit = true) (place : Nat) :
    firstInvalid? place cs = none := by
  induction cs generalizing place with
  | nil => rfl
  | cons c cs ih =>
    obtain ⟨hc, hcs⟩ := List.forall_mem_cons.mp hcs
    rw [firstInvalid?, if_pos hc, ih hcs]

/-- **The place of a character** is behind the bytes of those in front. -/
theorem firstInvalid?_append (hfront : ∀ c ∈ front, c.isHexDigit = true)
    (hc : c.isHexDigit = false) (place : Nat) :
    firstInvalid? place (front ++ c :: back) = some (c, place + front.length) := by
  induction front generalizing place with
  | nil =>
    rw [List.nil_append, firstInvalid?, if_neg (Bool.eq_false_iff.mp hc)]
    rfl
  | cons d front ih =>
    obtain ⟨hd, hfront⟩ := List.forall_mem_cons.mp hfront
    have hsize : d.utf8Size = 1 := by
      rw [← String.length_utf8EncodeChar, utf8EncodeChar_of_lt (toNat_of_isHexDigit hd)]
      rfl
    rw [List.cons_append, firstInvalid?, if_pos hd, ih hfront, hsize, List.length_cons,
      Nat.add_assoc, Nat.add_comm 1]

/-! ## Bytes, one by one -/

/-- In ASCII a byte is worth what its character is. -/
theorem byteValue?_ofNat (h : c.toNat < 128) :
    byteValue? (UInt8.ofNat c.toNat) = digitValue? c := by
  have hall : ∀ n < 128, byteValue? (UInt8.ofNat n) = digitValue? (Char.ofNat n) := by
    decide +kernel
  have hc := hall c.toNat h
  rwa [Char.ofNat_toNat] at hc

/-- Outside ASCII a byte is worth nothing. -/
theorem byteValue?_of_le (h : 128 ≤ b.toNat) : byteValue? b = none := by
  simp only [byteValue?, UInt8.le_iff_toNat_le]
  split_ifs with hupper hlower hnine
  · exact absurd hupper.2 (by show ¬ b.toNat ≤ 0x46; omega)
  · exact absurd hlower.2 (by show ¬ b.toNat ≤ 0x66; omega)
  · exact absurd hnine.2 (by show ¬ b.toNat ≤ 0x39; omega)
  · rfl

/-- **A character that is no digit begins with a byte that is none.** -/
theorem exists_leadingByte (hc : c.isHexDigit = false) : ∃ b rest,
    String.utf8EncodeChar c = b :: rest ∧ byteValue? b = none
      ∧ Char.ofNat b.toNat = leadingByte c := by
  have hshown {b : UInt8} {rest : Bytes} (h : String.utf8EncodeChar c = b :: rest) :
      Char.ofNat b.toNat = leadingByte c := by
    unfold leadingByte
    rw [h]
    rfl
  rcases Nat.lt_or_ge c.toNat 128 with hlt | hge
  · have hencoded := utf8EncodeChar_of_lt hlt
    refine ⟨_, [], hencoded, ?_, hshown hencoded⟩
    rw [← isDigit_eq] at hc
    rw [byteValue?_ofNat hlt]
    exact Option.not_isSome_iff_eq_none.mp (Bool.eq_false_iff.mp hc)
  · obtain ⟨b, rest, hencoded, hb⟩ := exists_utf8EncodeChar_of_le hge
    exact ⟨b, rest, hencoded, byteValue?_of_le hb, hshown hencoded⟩

/-- A digit is read from its byte. -/
theorem exists_digit_eq (hc : c.isHexDigit = true) (place : Nat) : ∃ v < 16,
    digit place (UInt8.ofNat c.toNat) = .ok v ∧ Nat.digitChar v = c.toLower := by
  obtain ⟨v, hv, hvalue, hchar⟩ := exists_digitValue hc
  refine ⟨v, hv, ?_, hchar⟩
  unfold digit
  rw [byteValue?_ofNat (toNat_of_isHexDigit hc), hvalue]

/-- A pair of digits is put together, and the rest is read behind it. -/
theorem decode_cons_cons {place h l : Nat} {high low : UInt8} (hhigh : digit place high = .ok h)
    (hlow : digit (place + 1) low = .ok l) :
    decode place (high :: low :: bs)
      = (decode (place + 2) bs).map fun rest => UInt8.ofNat (h * 16 + l) :: rest := by
  rw [decode, hhigh, hlow]
  cases decode (place + 2) bs <;> rfl

/-- **Digits are read from their bytes.** -/
theorem exists_decode_eq_ok (hcs : ∀ c ∈ cs, c.isHexDigit = true) (hlength : cs.length % 2 = 0)
    (place : Nat) : ∃ bs, decode place (cs.map fun c => UInt8.ofNat c.toNat) = .ok bs
      ∧ digits bs = cs.map Char.toLower := by
  induction cs using List.twoStepInduction generalizing place with
  | nil => exact ⟨[], rfl, rfl⟩
  | singleton c => cases hlength
  | cons_cons high low cs ih _ =>
    obtain ⟨hhigh, hlow, hcs⟩ : high.isHexDigit = true ∧ low.isHexDigit = true
        ∧ ∀ c ∈ cs, c.isHexDigit = true := by simpa using hcs
    have hlength : (cs.length + 2) % 2 = 0 := hlength
    obtain ⟨h, hh16, hh, hhchar⟩ := exists_digit_eq hhigh place
    obtain ⟨l, hl16, hl, hlchar⟩ := exists_digit_eq hlow (place + 1)
    obtain ⟨bs, hbs, hdigits⟩ := ih hcs (by rwa [Nat.add_mod_right] at hlength) (place + 2)
    refine ⟨UInt8.ofNat (h * 16 + l) :: bs, ?_, ?_⟩
    · rw [List.map_cons, List.map_cons, decode_cons_cons hh hl, hbs]
      rfl
    · rw [← List.singleton_append, digits_append, digits_singleton_ofNat hh16 hl16, hdigits,
        hhchar, hlchar]
      rfl

/-- **The first byte that is no digit** ends the reading. It has a partner,
in front of it or behind. -/
theorem decode_append (hfront : ∀ c ∈ front, c.isHexDigit = true) (hb : byteValue? b = none)
    (hlength : (front.length + (b :: bs).length) % 2 = 0) (place : Nat) :
    decode place (front.map (fun c => UInt8.ofNat c.toNat) ++ b :: bs)
      = .error (.invalidCharacter (Char.ofNat b.toNat) (place + front.length)) := by
  have hdigit (place : Nat) :
      digit place b = .error (.invalidCharacter (Char.ofNat b.toNat) place) := by
    unfold digit
    rw [hb]
  induction front using List.twoStepInduction generalizing place with
  | nil =>
    cases bs with
    | nil => cases hlength
    | cons low bs =>
      show decode place (b :: low :: bs) = _
      rw [decode, hdigit]
      rfl
  | singleton high =>
    obtain ⟨h, -, hh, -⟩ := exists_digit_eq (hfront high (List.mem_singleton_self high)) place
    show decode place (UInt8.ofNat high.toNat :: b :: bs) = _
    rw [decode, hh, hdigit]
    rfl
  | cons_cons high low front ih _ =>
    obtain ⟨hhigh, hlow, hfront⟩ : high.isHexDigit = true ∧ low.isHexDigit = true
        ∧ ∀ c ∈ front, c.isHexDigit = true := by simpa using hfront
    obtain ⟨h, -, hh, -⟩ := exists_digit_eq hhigh place
    obtain ⟨l, -, hl, -⟩ := exists_digit_eq hlow (place + 1)
    have hrest := ih hfront (by simp only [List.length_cons] at hlength ⊢; omega) (place + 2)
    rw [List.map_cons, List.map_cons, List.cons_append, List.cons_append, decode_cons_cons hh hl,
      hrest]
    show Except.error _ = Except.error _
    rw [List.length_cons, List.length_cons, Nat.add_assoc, Nat.add_comm 2]

/-! ## One rule for both -/

/-- **Both scans find what is reported.** -/
theorem parse_eq (s : String) : parse s = Hex.parse s := by
  have hlength := utf8Length_eq (body s)
  unfold parse
  rcases forall_isHexDigit_or (body s) with hcs | ⟨front, c, back, hbody, hfront, hc⟩
  · have hbytes := ofText_of_forall hcs
    have hsize : (Bytes.ofText (String.ofList (body s))).length = (body s).length := by
      rw [hbytes, List.length_map]
    dsimp only
    rw [hsize]
    rcases Nat.mod_two_eq_zero_or_one (body s).length with heven | hodd
    · obtain ⟨bs, hbs, hdigits⟩ := exists_decode_eq_ok hcs heven 0
      rw [if_neg (not_not.mpr heven), hbytes, hbs, parse_eq_ok_iff.mpr ⟨hcs, hdigits⟩]
    · rw [if_pos (by omega), firstInvalid?_of_forall hcs, parse_of_odd hcs hodd]
  · obtain ⟨b, rest, hencoded, hb, hshown⟩ := exists_leadingByte hc
    have hbytes : Bytes.ofText (String.ofList (body s))
        = front.map (fun c => UInt8.ofNat c.toNat)
          ++ b :: (rest ++ back.flatMap String.utf8EncodeChar) := by
      rw [hbody, ← ofText_of_forall hfront, ofText_ofList, ofText_ofList, List.flatMap_append,
        List.flatMap_cons, hencoded]
      rfl
    rw [parse_of_invalid hbody hfront hc, hlength]
    dsimp only
    by_cases heven : (Bytes.ofText (String.ofList (body s))).length % 2 = 0
    · rw [if_neg (not_not.mpr heven), if_pos heven, ← hshown]
      rw [hbytes, List.length_append, List.length_map] at heven
      rw [hbytes, decode_append hfront hb heven, Nat.zero_add]
    · rw [if_pos heven, if_neg heven, hbody, firstInvalid?_append hfront hc]
      simp only [Nat.zero_add]

end Scanning

/-! ## The grammar -/

/-- One marker is dropped, and nothing else. -/
theorem toList_eq_body (s : String) :
    s.toList = '0' :: 'x' :: body s ∨ s.toList = '0' :: 'X' :: body s
      ∨ s.toList = body s ∧ ¬ ['0', 'x'] <+: s.toList ∧ ¬ ['0', 'X'] <+: s.toList := by
  unfold body dropMarker
  split
  case h_1 heq => exact .inl heq
  case h_2 heq => exact .inr (.inl heq)
  case h_3 hx hX =>
    refine .inr (.inr ⟨rfl, ?_, ?_⟩)
    · rintro ⟨rest, hrest⟩
      exact hx rest hrest.symm
    · rintro ⟨rest, hrest⟩
      exact hX rest hrest.symm

/-- **Hexadecimal texts are read exactly by their grammar.** Let the body of
a text be what is behind one marker, if it has one.

* The text is read if and only if its body is an even number of digits, and
  the bytes are then written with these digits in lower case;
* if there is a character that is no digit, the first one is reported at the
  place where its bytes begin, whatever number of bytes the body has – as
  itself, or by its first byte;
* if there are only digits, but an odd number of them, the number is reported;
* what is written is read again, and what is written for the eye is read
  without the zero bytes in front, of which one is left if there is nothing
  else;
* a scan over the characters for a body of an odd number of bytes, and one
  over pairs of bytes for any other, come to the same. -/
theorem reads_exactly_digits (s : String) (bs : Bytes) :
    (s.toList = '0' :: 'x' :: body s ∨ s.toList = '0' :: 'X' :: body s
      ∨ s.toList = body s ∧ ¬ ['0', 'x'] <+: s.toList ∧ ¬ ['0', 'X'] <+: s.toList)
    ∧ ((∃ bs, parse s = .ok bs)
      ↔ (∀ c ∈ body s, c.isHexDigit = true) ∧ (body s).length % 2 = 0)
    ∧ (∀ bs, parse s = .ok bs → write bs = "0x" ++ String.ofList ((body s).map Char.toLower))
    ∧ (∀ front c back, body s = front ++ c :: back → (∀ d ∈ front, d.isHexDigit = true) →
      c.isHexDigit = false →
      parse s = .error (.invalidCharacter
        (if (Bytes.ofText (String.ofList (body s))).length % 2 = 0 then leadingByte c else c)
        (Bytes.ofText (String.ofList front)).length))
    ∧ ((∀ c ∈ body s, c.isHexDigit = true) → (body s).length % 2 = 1 →
      parse s = .error (.oddLength (Bytes.ofText (String.ofList (body s))).length))
    ∧ parse (write bs) = .ok bs
    ∧ parse (writeShort bs)
      = .ok (if bs.dropWhile (· == 0) = [] then [0] else bs.dropWhile (· == 0))
    ∧ Scanning.parse s = parse s := by
  have hlength {cs : List Char} (hcs : ∀ c ∈ cs, c.isHexDigit = true) :
      (Bytes.ofText (String.ofList cs)).length = cs.length := by
    rw [ofText_of_forall hcs, List.length_map]
  refine ⟨toList_eq_body s, ⟨?_, ?_⟩, fun bs h => ?_, fun front c back hbody hfront hc => ?_,
    fun hcs hodd => ?_, parse_write bs, parse_writeShort bs, Scanning.parse_eq s⟩
  · rintro ⟨bs, h⟩
    obtain ⟨hcs, hdigits⟩ := parse_eq_ok_iff.mp h
    refine ⟨hcs, ?_⟩
    rw [← List.length_map Char.toLower, ← hdigits, length_digits, Nat.mul_mod_right]
  · rintro ⟨hcs, heven⟩
    exact ⟨_, parse_of_forall hcs heven⟩
  · exact write_eq_iff.mpr (parse_eq_ok_iff.mp h).2
  · rw [parse_of_invalid hbody hfront hc, utf8Length_eq, hlength hfront]
  · rw [parse_of_odd hcs hodd, hlength hcs]

/-- A character of two bytes is reported at its first byte, as itself or by
that byte; a second marker is none; and the case of the digits is lost. -/
theorem reads_exactly_digits_accented :
    parse "0x1é" = .error (.invalidCharacter 'é' 1)
      ∧ parse "0x12é" = .error (.invalidCharacter 'Ã' 2)
      ∧ parse "0x0x1" = .error (.invalidCharacter 'x' 1)
      ∧ parse "0Xabc" = .error (.oddLength 3)
      ∧ ∃ bs, parse "0XAb" = .ok bs ∧ write bs = "0xab" := by
  refine ⟨?_, ?_, ?_, ?_, ?_⟩
  · obtain ⟨-, -, -, hinvalid, -⟩ := reads_exactly_digits "0x1é" []
    exact hinvalid ['1'] 'é' [] rfl (List.all_eq_true.mp rfl) rfl
  · obtain ⟨-, -, -, hinvalid, -⟩ := reads_exactly_digits "0x12é" []
    exact hinvalid ['1', '2'] 'é' [] rfl (List.all_eq_true.mp rfl) rfl
  · obtain ⟨-, -, -, hinvalid, -⟩ := reads_exactly_digits "0x0x1" []
    exact hinvalid ['0'] 'x' ['1'] rfl (List.all_eq_true.mp rfl) rfl
  · exact (reads_exactly_digits "0Xabc" []).2.2.2.2.1 (List.all_eq_true.mp rfl) rfl
  · obtain ⟨-, hread, hwritten, -⟩ := reads_exactly_digits "0XAb" []
    obtain ⟨bs, hbs⟩ := hread.mpr ⟨List.all_eq_true.mp rfl, rfl⟩
    exact ⟨bs, hbs, hwritten bs hbs⟩

end EthCall.Hex
