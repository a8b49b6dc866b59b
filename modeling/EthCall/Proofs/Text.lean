import EthCall.Text.Blank
import EthCall.Text.Decimal
import Mathlib

/-!
# Blanks and sizes in a text

Two facts about the texts in which names are written. Trimming takes away
blanks and nothing else (`Text.exists_trim`), so that what is left of a text
without any of its blanks (`Text.unblanked`) is the same before and after.
And a size has one spelling in plain decimal (`Text.size?_eq_some_iff`),
which is the one it is shown in.
-/

namespace EthCall.Text

variable {c d : Char} {cs ds front back : List Char}

/-! ## Blanks -/

/-- **The text without its blanks.** -/
def unblanked (cs : List Char) : List Char :=
  cs.filter fun c => !isBlank c

@[simp] theorem unblanked_append : unblanked (cs ++ ds) = unblanked cs ++ unblanked ds :=
  List.filter_append ..

/-- A character that is not blank stays. -/
theorem unblanked_cons (hc : isBlank c = false) : unblanked (c :: cs) = c :: unblanked cs :=
  List.filter_cons_of_pos (by rw [hc]; rfl)

/-- A text that has no blanks stays. -/
theorem unblanked_of_forall (h : ∀ c ∈ cs, isBlank c = false) : unblanked cs = cs :=
  List.filter_eq_self.mpr fun c hc => by rw [h c hc]; rfl

/-- Nothing is left of blanks. -/
theorem unblanked_of_isEmptyOrBlank (h : isEmptyOrBlank cs = true) : unblanked cs = [] := by
  refine List.filter_eq_nil_iff.mpr fun c hc => ?_
  rw [List.all_eq_true.mp h c hc]
  decide

/-- Blanks around a text do not count. -/
theorem unblanked_between (hfront : isEmptyOrBlank front = true)
    (hback : isEmptyOrBlank back = true) : unblanked (front ++ cs ++ back) = unblanked cs := by
  rw [unblanked_append, unblanked_append, unblanked_of_isEmptyOrBlank hfront,
    unblanked_of_isEmptyOrBlank hback, List.append_nil, List.nil_append]

theorem isEmptyOrBlank_append :
    isEmptyOrBlank (cs ++ ds) = (isEmptyOrBlank cs && isEmptyOrBlank ds) :=
  List.all_append

/-- Letters and digits are not blank. -/
theorem isBlank_of_isAlphanum (h : c.isAlphanum = true) : isBlank c = false := by
  simp only [Char.isAlphanum, Char.isAlpha, Char.isUpper, Char.isLower, Char.isDigit,
    Bool.or_eq_true, Bool.and_eq_true, decide_eq_true_eq, UInt32.le_iff_toNat_le, ge_iff_le] at h
  change (((65 ≤ c.toNat ∧ c.toNat ≤ 90) ∨ (97 ≤ c.toNat ∧ c.toNat ≤ 122))
    ∨ (48 ≤ c.toNat ∧ c.toNat ≤ 57)) at h
  simp only [isBlank, blankRanges, List.any_cons, List.any_nil, Bool.or_false, Bool.or_eq_false_iff,
    Bool.and_eq_false_iff, decide_eq_false_iff_not]
  omega

/-! ## Trimming -/

/-- Blanks in front go. -/
theorem trimStart_append (hfront : isEmptyOrBlank front = true) :
    trimStart (front ++ cs) = trimStart cs :=
  List.dropWhile_append_of_pos (List.all_eq_true.mp hfront)

/-- Nothing goes from behind a character that is not blank. -/
theorem trimStart_append_cons (hc : isBlank c = false) :
    trimStart (cs ++ c :: ds) = trimStart cs ++ c :: ds := by
  have hstop : (c :: ds).dropWhile isBlank = c :: ds :=
    List.dropWhile_cons_of_neg (by rw [hc]; decide)
  unfold trimStart
  rw [List.dropWhile_append, hstop]
  split
  case isTrue hempty => rw [List.isEmpty_iff.mp hempty, List.nil_append]
  case isFalse => rfl

/-- Blanks behind go. -/
theorem trimEnd_append (hback : isEmptyOrBlank back = true) :
    trimEnd (cs ++ back) = trimEnd cs := by
  unfold trimEnd
  rw [List.reverse_append, trimStart_append]
  unfold isEmptyOrBlank
  rwa [List.all_reverse]

/-- Nothing goes from in front of a character that is not blank. -/
theorem trimEnd_concat (hc : isBlank c = false) : trimEnd (cs ++ [c]) = cs ++ [c] := by
  have hstop : trimStart ([] ++ c :: cs.reverse) = c :: cs.reverse := trimStart_append_cons hc
  unfold trimEnd
  rw [List.reverse_append, List.reverse_singleton, List.singleton_append]
  exact (congrArg List.reverse hstop).trans (by simp)

/-- **What is trimmed away is blank.** -/
theorem exists_trim (cs : List Char) :
    ∃ front back, isEmptyOrBlank front = true ∧ isEmptyOrBlank back = true
      ∧ cs = front ++ trim cs ++ back := by
  refine ⟨cs.takeWhile isBlank, ((trimStart cs).reverse.takeWhile isBlank).reverse, ?_, ?_, ?_⟩
  · exact List.all_eq_true.mpr fun c hc => List.mem_takeWhile_imp hc
  · unfold isEmptyOrBlank
    rw [List.all_reverse]
    exact List.all_eq_true.mpr fun c hc => List.mem_takeWhile_imp hc
  · have hback : trim cs ++ ((trimStart cs).reverse.takeWhile isBlank).reverse = trimStart cs := by
      unfold trim trimEnd
      rw [← List.reverse_append]
      exact (congrArg List.reverse List.takeWhile_append_dropWhile).trans (List.reverse_reverse _)
    rw [List.append_assoc, hback]
    exact List.takeWhile_append_dropWhile.symm

/-- Blanks around a text go. -/
theorem trim_append (hfront : isEmptyOrBlank front = true) (hback : isEmptyOrBlank back = true) :
    trim (front ++ cs ++ back) = trim cs := by
  have hnone : trimStart back = [] := List.dropWhile_eq_nil_iff.mpr (List.all_eq_true.mp hback)
  unfold trim
  rw [List.append_assoc, trimStart_append hfront]
  unfold trimStart at hnone ⊢
  rw [List.dropWhile_append]
  split
  case isTrue hempty => rw [List.isEmpty_iff.mp hempty, hnone]
  case isFalse => exact trimEnd_append hback

/-- Of blanks nothing is left. -/
theorem trim_of_isEmptyOrBlank (h : isEmptyOrBlank cs = true) : trim cs = [] := by
  have htrim : trim (cs ++ [] ++ []) = trim [] := trim_append h rfl
  rwa [List.append_nil, List.append_nil] at htrim

/-- What stands between two characters that are not blank stays. -/
theorem trim_append_cons_concat (hc : isBlank c = false) (hd : isBlank d = false) :
    trim (cs ++ c :: ds ++ [d]) = trimStart cs ++ c :: ds ++ [d] := by
  unfold trim
  rw [List.append_assoc, List.cons_append, trimStart_append_cons hc, ← List.cons_append,
    ← List.append_assoc, trimEnd_concat hd]

/-- Between two such characters nothing is trimmed. -/
theorem trim_cons_concat (hc : isBlank c = false) (hd : isBlank d = false) :
    trim (c :: ds ++ [d]) = c :: ds ++ [d] := by
  have htrim : trim ([] ++ c :: ds ++ [d]) = trimStart [] ++ c :: ds ++ [d] :=
    trim_append_cons_concat hc hd
  exact htrim

/-- Blanks in front may go before. -/
theorem trim_trimStart (cs : List Char) : trim (trimStart cs) = trim cs := by
  have htwice : trimStart (trimStart cs) = trimStart cs := List.dropWhile_idempotent ..
  unfold trim
  rw [htwice]

/-- Trimming leaves every character that is not blank. -/
@[simp] theorem unblanked_trim (cs : List Char) : unblanked (trim cs) = unblanked cs := by
  obtain ⟨front, back, hfront, hback, heq⟩ := exists_trim cs
  conv_rhs => rw [heq, unblanked_between hfront hback]

/-- A text without blanks stays. -/
theorem trim_of_forall (h : ∀ c ∈ cs, isBlank c = false) : trim cs = cs := by
  obtain ⟨front, back, -, -, heq⟩ := exists_trim cs
  have hmem : ∀ c ∈ trim cs, c ∈ cs := fun c hc => by
    rw [heq]
    exact List.mem_append_left _ (List.mem_append_right _ hc)
  rw [← unblanked_of_forall fun c hc => h c (hmem c hc), unblanked_trim, unblanked_of_forall h]

/-! ## Sizes -/

/-- A digit is the digit of what it is worth. -/
theorem digitChar_toNat_sub (h : c.isDigit = true) : Nat.digitChar (c.toNat - '0'.toNat) = c := by
  simp only [Char.isDigit, Bool.and_eq_true, decide_eq_true_eq, UInt32.le_iff_toNat_le,
    ge_iff_le] at h
  change 48 ≤ c.toNat ∧ c.toNat ≤ 57 at h
  have hzero : '0'.toNat = 48 := rfl
  rw [← Char.toNat_inj, hzero, Nat.toNat_digitChar_of_lt_ten (by omega)]
  omega

/-- The digits of a number are among the letters and digits. -/
theorem isAlphanum_of_mem_toDigits {n : Nat} (hc : c ∈ Nat.toDigits 10 n) :
    c.isAlphanum = true := by
  rw [Char.isAlphanum, Nat.isDigit_of_mem_toDigits (by decide) (by decide) hc, Bool.or_true]

/-- **Digits that were read are written again**, if they do not start with
a zero. -/
theorem toDigits_ofDigitChars (hne : cs ≠ []) (hzero : cs.head? ≠ some '0')
    (hdigits : ∀ c ∈ cs, c.isDigit = true) : Nat.toDigits 10 (Nat.ofDigitChars 10 cs 0) = cs := by
  -- the last digit is the one that division by ten splits off
  induction cs using List.reverseRecOn with
  | nil => exact absurd rfl hne
  | append_singleton cs c ih =>
    obtain ⟨hdigits, hc⟩ := List.forall_mem_append.mp hdigits
    have hc := hc c (List.mem_singleton_self c)
    have hlt : c.toNat - '0'.toNat < 10 := by
      rw [← decide_eq_true_eq (p := _ < 10), ← Nat.isDigit_digitChar, digitChar_toNat_sub hc]
      exact hc
    rw [Nat.ofDigitChars_append, Nat.ofDigitChars_cons, Nat.ofDigitChars_nil]
    cases cs with
    | nil =>
      rw [Nat.ofDigitChars_nil, Nat.mul_zero, Nat.zero_add, Nat.toDigits_of_lt_base hlt,
        digitChar_toNat_sub hc]
      rfl
    | cons d ds =>
      have hfront := ih (List.cons_ne_nil d ds) hzero hdigits
      have hpos : 0 < Nat.ofDigitChars 10 (d :: ds) 0 := by
        refine Nat.pos_of_ne_zero fun hz => hzero ?_
        rw [hz, Nat.toDigits_zero] at hfront
        rw [← hfront]
        rfl
      rw [← Nat.toDigits_append_toDigits (by decide) hpos hlt, hfront, Nat.toDigits_of_lt_base hlt,
        digitChar_toNat_sub hc]

/-- The first digit of a number is a zero only if the number is zero. -/
theorem head?_toDigits {n : Nat} (hn : n ≠ 0) : (Nat.toDigits 10 n).head? ≠ some '0' := by
  induction n using Nat.strong_induction_on with
  | _ n ih =>
    rw [Nat.toDigits_eq_if (by decide)]
    split
    case isTrue => simpa using hn
    case isFalse hten =>
      have hrest := ih (n / 10) (by omega) (by omega)
      rwa [List.head?_append_of_ne_nil _ Nat.toDigits_ne_nil]

/-- What plain decimal is, for the text as a whole. -/
theorem isPlainDecimal_iff : isPlainDecimal cs = true
    ↔ cs = ['0'] ∨ cs ≠ [] ∧ cs.head? ≠ some '0' ∧ ∀ c ∈ cs, c.isDigit = true := by
  unfold isPlainDecimal
  split
  case h_1 => simp
  case h_2 => simp
  case h_3 c rest hother =>
    have hne : c :: rest ≠ ['0'] := fun h => hother (List.cons.inj h).1 (List.cons.inj h).2
    rw [Bool.and_eq_true, bne_iff_ne, List.all_eq_true, or_iff_right hne]
    simp

/-- Plain decimal is how numbers are written. -/
theorem isPlainDecimal_iff_exists : isPlainDecimal cs = true ↔ ∃ n, cs = Nat.toDigits 10 n := by
  rw [isPlainDecimal_iff]
  constructor
  · rintro (rfl | ⟨hne, hzero, hdigits⟩)
    · exact ⟨0, rfl⟩
    · exact ⟨_, (toDigits_ofDigitChars hne hzero hdigits).symm⟩
  · rintro ⟨n, rfl⟩
    by_cases hn : n = 0
    · rw [hn]
      exact .inl rfl
    · exact .inr ⟨Nat.toDigits_ne_nil, head?_toDigits hn,
        fun c hc => Nat.isDigit_of_mem_toDigits (by decide) (by decide) hc⟩

/-- **A size has one spelling**, the one it is shown in. -/
theorem size?_eq_some_iff {n : Nat} :
    size? cs = some n ↔ n ≤ maxSize ∧ cs = Nat.toDigits 10 n := by
  unfold size? decimalValue
  rw [Option.ite_none_right_eq_some, isPlainDecimal_iff_exists, Option.some.injEq]
  constructor
  · rintro ⟨⟨⟨m, rfl⟩, hmax⟩, rfl⟩
    rw [Nat.ofDigitChars_ten_toDigits] at hmax ⊢
    exact ⟨hmax, rfl⟩
  · rintro ⟨hmax, rfl⟩
    rw [Nat.ofDigitChars_ten_toDigits]
    exact ⟨⟨⟨n, rfl⟩, hmax⟩, rfl⟩

end EthCall.Text
