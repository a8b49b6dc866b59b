import EthCall.Log
import EthCall.Proofs.Hex.Scanning
import EthCall.Proofs.Text
import EthCall.Proofs.Trap
import Mathlib

/-!
# What is shown of a payload

A payload comes to a log entry as bytes or as a text. Of bytes only those
that are shown are written as digits; a text is trimmed, and its digits are
counted and cut. The two come to the same (`LogEntry.abbreviateBytes_eq`):
digits that were written are not trimmed, there are two of them for each
byte, and the text is cut behind as many bytes as are shown.

A text need not be digits. It is cut behind so many of its bytes, which may
be inside of a character, and then there would be nothing to show. So
cutting is an operation that can trap (`Cutting.front`), and it is told
from the bytes whether it may be tried.

The field is told by its name in lower case. Letters outside ASCII may have
any lower case that no payload word is spelled with
(`LogEntry.InLowerCase`); it is enough to look at the ASCII ones.
-/

namespace EthCall.LogEntry

variable {cs ds word : List Char} {c d : Char}

/-! ## Names of fields -/

/-- The test finds a word wherever it stands. -/
theorem contains_iff : contains word cs = true ↔ word <:+: cs := by
  induction cs with
  | nil => rw [contains, List.isEmpty_iff, List.infix_nil]
  | cons c cs ih =>
    rw [contains, Bool.or_eq_true, List.isPrefixOf_iff_prefix, ih, List.infix_cons_iff]

/-- Whether payload words are spelled with a letter. -/
def IsPayloadLetter (d : Char) : Prop := ∃ word ∈ payloadWords, d ∈ word.toList

instance : DecidablePred IsPayloadLetter := fun d =>
  inferInstanceAs (Decidable (∃ word ∈ payloadWords, d ∈ word.toList))

/-- **A text and what it is in lower case.** What characters outside ASCII
become is left open, as long as it is something and no letter of a payload
word. -/
inductive InLowerCase : List Char → List Char → Prop where
  /-- Nothing. -/
  | nil : InLowerCase [] []
  /-- A character in ASCII. -/
  | ascii {c : Char} {cs ds : List Char} (hc : c.toNat < 128) (rest : InLowerCase cs ds) :
    InLowerCase (c :: cs) (c.toLower :: ds)
  /-- Any other character. -/
  | other {c : Char} {cs lower ds : List Char} (hc : 128 ≤ c.toNat) (hne : lower ≠ [])
    (hlower : ∀ d ∈ lower, ¬ IsPayloadLetter d) (rest : InLowerCase cs ds) :
    InLowerCase (c :: cs) (lower ++ ds)

/-- Payload words are spelled in ASCII. -/
theorem IsPayloadLetter.toNat_lt (h : IsPayloadLetter d) : d.toNat < 128 := by
  obtain ⟨word, hword, hd⟩ := h
  have hascii : ∀ word ∈ payloadWords, word.toList.all fun d => d.toNat < 128 := by decide
  exact of_decide_eq_true (List.all_eq_true.mp (hascii word hword) d hd)

/-- Outside ASCII nothing has another case. -/
theorem toLower_of_le (h : 128 ≤ c.toNat) : c.toLower = c := by
  have hnot : ¬ (c.val ≥ 'A'.val ∧ c.val ≤ 'Z'.val) := by
    rintro ⟨-, hle⟩
    have hle : c.toNat ≤ 90 := UInt32.le_iff_toNat_le.mp hle
    omega
  unfold Char.toLower
  rw [dif_neg hnot]

/-- No letter of a payload word has a capital outside ASCII. -/
theorem IsPayloadLetter.ne_toLower (hd : IsPayloadLetter d) (hc : 128 ≤ c.toNat) :
    d ≠ c.toLower := by
  rintro rfl
  have hlt := hd.toNat_lt
  rw [toLower_of_le hc] at hlt
  omega

/-- A word stands in front of both lower cases or of none. -/
theorem InLowerCase.isPrefix_iff (h : InLowerCase cs ds) (hword : ∀ d ∈ word, IsPayloadLetter d) :
    word <+: ds ↔ word <+: cs.map Char.toLower := by
  induction h generalizing word with
  | nil => rfl
  | @ascii c cs ds _ _ ih =>
    cases word with
    | nil => simp
    | cons d word =>
      obtain ⟨-, hword⟩ := List.forall_mem_cons.mp hword
      rw [List.map_cons, List.cons_prefix_cons, List.cons_prefix_cons, ih hword]
  | @other c cs lower ds hc hne hlower _ _ =>
    cases word with
    | nil => simp
    | cons d word =>
      obtain ⟨hd, -⟩ := List.forall_mem_cons.mp hword
      obtain ⟨e, lower, rfl⟩ := List.exists_cons_of_ne_nil hne
      -- a letter of the word is neither the character nor what becomes of it
      have hcase := hd.ne_toLower hc
      have hfirst : d ≠ e := by
        rintro rfl
        exact hlower d List.mem_cons_self hd
      rw [List.map_cons, List.cons_append, List.cons_prefix_cons, List.cons_prefix_cons]
      exact iff_of_false (fun h => hfirst h.1) (fun h => hcase h.1)

/-- A word does not begin among other letters. -/
theorem infix_append_iff {lower : List Char} (hlower : ∀ d ∈ lower, ¬ IsPayloadLetter d)
    (hd : IsPayloadLetter d) : d :: word <:+: lower ++ ds ↔ d :: word <:+: ds := by
  induction lower with
  | nil => rfl
  | cons e lower ih =>
    obtain ⟨he, hlower⟩ := List.forall_mem_cons.mp hlower
    have hfirst : d ≠ e := by
      rintro rfl
      exact he hd
    rw [List.cons_append, List.infix_cons_iff, List.cons_prefix_cons, ih hlower]
    exact or_iff_right fun h => hfirst h.1

/-- **A word is found in both lower cases or in none.** -/
theorem InLowerCase.isInfix_iff (h : InLowerCase cs ds) (hword : ∀ d ∈ word, IsPayloadLetter d) :
    word <:+: ds ↔ word <:+: cs.map Char.toLower := by
  cases word with
  | nil => simp
  | cons d word =>
    have hd := hword d List.mem_cons_self
    induction h with
    | nil => rfl
    | @ascii c cs ds hc h ih =>
      have hfront := (InLowerCase.ascii hc h).isPrefix_iff hword
      rw [List.map_cons] at hfront
      rw [List.map_cons, List.infix_cons_iff, List.infix_cons_iff, hfront]
      exact or_congr_right ih
    | @other c cs lower ds hc hne hlower h ih =>
      rw [infix_append_iff hlower hd, List.map_cons, List.infix_cons_iff, List.cons_prefix_cons,
        or_iff_right fun h => hd.ne_toLower hc h.1]
      exact ih

/-- **A field holds a payload if its name in lower case contains a payload
word.** -/
theorem isPayload_iff {key : String} (h : InLowerCase key.toList ds) :
    isPayload key = true ↔ ∃ word ∈ payloadWords, word.toList <:+: ds := by
  unfold isPayload
  rw [List.any_eq_true]
  refine exists_congr fun word => and_congr_right fun hword => ?_
  rw [contains_iff, h.isInfix_iff fun d hd => ⟨word, hword, hd⟩]

/-! ## Digits that were written -/

/-- What is behind the marker of a text. -/
def withoutMarker : List Char → List Char
  | '0' :: 'x' :: rest => rest
  | cs => cs

/-- What is shown of a text, by its characters. -/
theorem abbreviate_eq (value : String) :
    abbreviate value
      = if Text.trim value.toList = [] then "[EMPTY]"
        else if Hex.utf8Length (withoutMarker (Text.trim value.toList)) ≤ 16
            ∨ (withoutMarker (Text.trim value.toList)).any fun c => 0x7f < c.toNat then
          String.ofList (Text.trim value.toList)
        else
          "0x" ++ String.ofList ((withoutMarker (Text.trim value.toList)).take 16)
            ++ s!"...({(withoutMarker (Text.trim value.toList)).length / 2} bytes)" :=
  rfl

/-- Digits are not blank. -/
theorem isBlank_of_isHexDigit (h : c.isHexDigit = true) : Text.isBlank c = false := by
  have hascii : ∀ n < 128, (Char.ofNat n).isHexDigit = true →
      Text.isBlank (Char.ofNat n) = false := by
    decide +kernel
  have hc := hascii c.toNat (Hex.toNat_of_isHexDigit h)
  rw [Char.ofNat_toNat] at hc
  exact hc h

/-- **What was written is not trimmed.** -/
theorem trim_write (bs : Bytes) :
    Text.trim (Hex.write bs).toList = '0' :: 'x' :: Hex.digits bs := by
  unfold Hex.write
  rw [String.toList_ofList]
  refine Text.trim_of_forall fun c hc => ?_
  rcases List.mem_cons.mp hc with rfl | hc
  · rfl
  · rcases List.mem_cons.mp hc with rfl | hc
    · rfl
    · exact isBlank_of_isHexDigit (Hex.isHexDigit_of_mem_digits hc)

/-- Two digits are cut off for each byte. -/
theorem take_digits (n : Nat) (bs : Bytes) :
    (Hex.digits bs).take (2 * n) = Hex.digits (bs.take n) := by
  rcases Nat.le_total n bs.length with h | h
  · have hcut : Hex.digits bs = Hex.digits (bs.take n) ++ Hex.digits (bs.drop n) := by
      rw [← Hex.digits_append, List.take_append_drop]
    have hfront : (Hex.digits (bs.take n)).length = 2 * n := by
      rw [Hex.length_digits, List.length_take, Nat.min_eq_left h]
    rw [hcut, List.take_left' hfront]
  · rw [List.take_of_length_le h, List.take_of_length_le]
    rw [Hex.length_digits]
    omega

/-- **Bytes are shown as the text that is written of them.** -/
theorem abbreviateBytes_eq (bs : Bytes) : abbreviateBytes bs = abbreviate (Hex.write bs) := by
  have hdigits : ∀ c ∈ Hex.digits bs, c.isHexDigit = true := fun c hc =>
    Hex.isHexDigit_of_mem_digits hc
  have hlength : Hex.utf8Length (Hex.digits bs) = 2 * bs.length := by
    rw [Hex.utf8Length_eq, Hex.ofText_of_forall hdigits, List.length_map, Hex.length_digits]
  have hascii : ((Hex.digits bs).any fun c => 0x7f < c.toNat) = false := by
    rw [List.any_eq_false]
    intro c hc
    have hlt := Hex.toNat_of_isHexDigit (hdigits c hc)
    simp only [decide_eq_true_eq]
    omega
  have hbody : withoutMarker ('0' :: 'x' :: Hex.digits bs) = Hex.digits bs := rfl
  rw [abbreviate_eq, trim_write, if_neg (List.cons_ne_nil _ _), hbody, hlength, hascii]
  unfold abbreviateBytes shownBytes
  by_cases h : bs.length ≤ 8
  · rw [if_pos h, if_pos (.inl (by omega))]
    rfl
  · have hwritten : Hex.write (bs.take 8) = "0x" ++ String.ofList ((Hex.digits bs).take 16) :=
      Hex.write_eq_iff.mpr (take_digits 8 bs).symm
    rw [if_neg h, if_neg (by simp; omega), hwritten, Hex.length_digits,
      Nat.mul_div_cancel_left _ (by decide)]

/-! ## Cutting texts -/

namespace Cutting

/-- **The part of a text in front of a byte.** There is one only where a
character ends. -/
def front (s : String) (bytes : Nat) : Except Trap String :=
  if h : (⟨bytes⟩ : String.Pos.Raw).IsValid s then .ok (s.extract s.startPos (s.pos ⟨bytes⟩ h))
  else .error .outOfRange

/-- What is shown of a payload given as text. Its bytes are counted and
looked at, and it is cut behind a number of them. -/
def abbreviate (value : String) : Except Trap String :=
  let trimmed := Text.trim value.toList
  let digits := String.ofList (withoutMarker trimmed)
  let bytes := Bytes.ofText digits
  if trimmed = [] then .ok "[EMPTY]"
  else if bytes.length ≤ 16 ∨ ¬ bytes.all (· < 0x80) then .ok (String.ofList trimmed)
  else do
    let shown ← front digits 16
    return "0x" ++ shown ++ s!"...({bytes.length / 2} bytes)"

/-- What is shown of a payload given as bytes. -/
def abbreviateBytes (bs : Bytes) : Except Trap String :=
  if bs.length ≤ 8 then .ok (Hex.write bs)
  else do
    let shown ← Trap.slice bs 0 8
    return Hex.write shown ++ s!"...({bs.length} bytes)"

/-- Add a field that shows a text. -/
def field (e : LogEntry) (key value : String) : Except Trap LogEntry := do
  let shown ← if isPayload key then abbreviate value else .ok value
  return { e with fields := e.fields ++ [(key, shown)] }

/-- Add a field that shows bytes. -/
def bytesField (e : LogEntry) (key : String) (bs : Bytes) : Except Trap LogEntry := do
  let shown ← abbreviateBytes bs
  return { e with fields := e.fields ++ [(key, shown)] }

/-! ## Texts in ASCII -/

/-- **The bytes tell whether all characters are in ASCII.** -/
theorem all_ofText_iff : (Bytes.ofText (String.ofList cs)).all (· < 0x80) = true
    ↔ ∀ c ∈ cs, c.toNat < 128 := by
  rw [Hex.ofText_ofList, List.all_flatMap, List.all_eq_true]
  refine forall₂_congr fun c _ => ?_
  rcases Nat.lt_or_ge c.toNat 128 with hlt | hge
  · have hbyte : UInt8.ofNat c.toNat < 0x80 := by
      rw [UInt8.lt_iff_toNat_lt, UInt8.toNat_ofNat', Nat.mod_eq_of_lt (by omega)]
      exact hlt
    rw [Hex.utf8EncodeChar_of_lt hlt]
    exact iff_of_true (by simpa using hbyte) hlt
  · obtain ⟨b, rest, hencoded, hb⟩ := Hex.exists_utf8EncodeChar_of_le hge
    have hbyte : ¬ b < 0x80 := by
      rw [UInt8.lt_iff_toNat_lt]
      exact Nat.not_lt.mpr hb
    rw [hencoded, List.all_cons, decide_eq_false hbyte, Bool.false_and]
    exact iff_of_false Bool.false_ne_true (Nat.not_lt.mpr hge)

/-- **A text in ASCII is cut between two of its characters.** -/
theorem front_of_ascii (hcs : ∀ c ∈ cs, c.toNat < 128) {n : Nat} (h : n ≤ cs.length) :
    front (String.ofList cs) n = .ok (String.ofList (cs.take n)) := by
  have hbytes : (String.ofList (cs.take n)).toByteArray.size = n := by
    have hfront : ∀ c ∈ cs.take n, c.toNat < 128 := fun c hc => hcs c (List.mem_of_mem_take hc)
    show (Bytes.ofText (String.ofList (cs.take n))).length = n
    rw [Hex.ofText_of_ascii hfront, List.length_map, List.length_take, Nat.min_eq_left h]
  have hvalid : (⟨n⟩ : String.Pos.Raw).IsValid (String.ofList cs) :=
    String.Pos.Raw.isValid_ofList.mpr ⟨n, hbytes.symm⟩
  unfold front
  rw [dif_pos hvalid]
  refine congrArg Except.ok (String.toByteArray_inj.mp ?_)
  have hcut : (String.ofList cs).toByteArray
      = (String.ofList (cs.take n)).toByteArray ++ (String.ofList (cs.drop n)).toByteArray := by
    rw [← String.toByteArray_append, ← String.ofList_append, List.take_append_drop]
  rw [String.toByteArray_extract, String.offset_pos, hcut]
  exact ByteArray.extract_append_eq_left hbytes.symm

/-- The bytes tell what the characters would. -/
theorem not_all_iff : ¬ (Bytes.ofText (String.ofList cs)).all (· < 0x80) = true
    ↔ (cs.any fun c => 0x7f < c.toNat) = true := by
  rw [all_ofText_iff, List.any_eq_true, not_forall]
  refine exists_congr fun c => ?_
  rw [Classical.not_imp, decide_eq_true_iff]
  exact and_congr_right fun _ => Nat.not_lt

/-- **A text is never cut inside of a character.** -/
theorem abbreviate_eq (value : String) : abbreviate value = .ok (LogEntry.abbreviate value) := by
  rw [LogEntry.abbreviate_eq]
  unfold abbreviate
  simp only [← Hex.utf8Length_eq, not_all_iff]
  generalize Text.trim value.toList = trimmed
  generalize withoutMarker trimmed = cs
  by_cases hempty : trimmed = []
  · rw [if_pos hempty, if_pos hempty]
  · rw [if_neg hempty, if_neg hempty]
    by_cases hshown : Hex.utf8Length cs ≤ 16 ∨ (cs.any fun c => 0x7f < c.toNat) = true
    · rw [if_pos hshown, if_pos hshown]
    · obtain ⟨hlong, hnone⟩ := not_or.mp hshown
      have hcs : ∀ c ∈ cs, c.toNat < 128 := all_ofText_iff.mp (not_not.mp (mt not_all_iff.mp hnone))
      have hlength : Hex.utf8Length cs = cs.length := by
        rw [Hex.utf8Length_eq, Hex.ofText_of_ascii hcs, List.length_map]
      rw [hlength] at hlong
      rw [if_neg hshown, if_neg hshown, front_of_ascii hcs (by omega), hlength]
      rfl

theorem abbreviateBytes_eq (bs : Bytes) :
    abbreviateBytes bs = .ok (LogEntry.abbreviateBytes bs) := by
  unfold abbreviateBytes LogEntry.abbreviateBytes shownBytes
  by_cases h : bs.length ≤ 8
  · rw [if_pos h, if_pos h]
  · rw [if_neg h, if_neg h, Trap.slice_zero (Nat.le_of_not_le h)]
    rfl

end Cutting

/-! ## Fields -/

/-- **A payload is shown alike as bytes and as a text.** A field whose name
in lower case contains a payload word records of bytes what it records of
the text that is written of them, although only the bytes that are shown
are ever written. And it records something of any text, which is nowhere
cut inside of a character. -/
theorem records_bytes_as_text {key : String} {lowered : List Char}
    (hlowered : InLowerCase key.toList lowered)
    (hkey : ∃ word ∈ payloadWords, word.toList <:+: lowered) (e : LogEntry) :
    (∀ bs, e.bytesField key bs = e.field key (Hex.write bs))
    ∧ (∀ value, Cutting.field e key value = .ok (e.field key value))
    ∧ ∀ bs, Cutting.bytesField e key bs = .ok (e.bytesField key bs) := by
  have hpayload : isPayload key = true := (isPayload_iff hlowered).mpr hkey
  refine ⟨fun bs => ?_, fun value => ?_, fun bs => ?_⟩
  · unfold bytesField field
    rw [if_pos hpayload, abbreviateBytes_eq]
  · unfold Cutting.field field
    rw [if_pos hpayload, if_pos hpayload, Cutting.abbreviate_eq]
    rfl
  · unfold Cutting.bytesField bytesField
    rw [Cutting.abbreviateBytes_eq]
    rfl

/-- A capital outside ASCII, which becomes two characters. -/
theorem inLowerCase_dottedCapital :
    InLowerCase "İData".toList ['i', '\u0307', 'd', 'a', 't', 'a'] := by
  have hlower : ∀ d ∈ ['i', '\u0307'], ¬ IsPayloadLetter d :=
    List.forall_mem_cons.mpr ⟨by decide, List.forall_mem_singleton.mpr (by decide)⟩
  have hrest : InLowerCase ['D', 'a', 't', 'a'] ['d', 'a', 't', 'a'] :=
    .ascii (by decide) (.ascii (by decide) (.ascii (by decide) (.ascii (by decide) .nil)))
  exact @InLowerCase.other 'İ' _ ['i', '\u0307'] _ (by decide) (by decide) hlower hrest

/-- Nine bytes are one too many to be shown, and a text in which the place
to cut at is inside of a character is shown whole. -/
theorem records_bytes_as_text_dottedCapital :
    InLowerCase "İData".toList ['i', '\u0307', 'd', 'a', 't', 'a']
    ∧ (∃ word ∈ payloadWords, word.toList <:+: ['i', '\u0307', 'd', 'a', 't', 'a'])
    ∧ (new .info "query" "").field "İData" (Hex.write (List.replicate 9 0xab))
      = ⟨.info, "query", "", [("İData", "0xabababababababab...(9 bytes)")]⟩
    ∧ Cutting.field (new .info "query" "") "İData" "0123456789abcdeéé"
      = .ok ⟨.info, "query", "", [("İData", "0123456789abcdeéé")]⟩ := by
  have hkey : ∃ word ∈ payloadWords, word.toList <:+: ['i', '\u0307', 'd', 'a', 't', 'a'] :=
    ⟨"data", by decide, ['i', '\u0307'], [], rfl⟩
  obtain ⟨hbytes, htext, -⟩ :=
    records_bytes_as_text inLowerCase_dottedCapital hkey (new .info "query" "")
  refine ⟨inLowerCase_dottedCapital, hkey, ?_, ?_⟩
  · rw [← hbytes]
    cbv
  · rw [htext]
    rfl

end EthCall.LogEntry
