import EthCall.Json.Token
import EthCall.Proofs.Text

/-!
# Written words

What is written of a text or a number is one word, which is read as that
text or number again. A literal ends with its quote, whatever comes behind
it. A number has no such end: it ends where something comes that no number
goes on with (`Json.EndsNumber`).
-/

namespace EthCall.Json

variable {rest : List Char}

/-! ## Literals -/

/-- A character that begins no escape stands for itself. -/
theorem readUnit?_cons {c : Char} (hc : c ≠ '\\') (hprintable : ¬ c.toNat < 0x20) :
    readUnit? (c :: rest) = some (.char c, rest) := by
  unfold readUnit?
  split
  case h_4 heq =>
    obtain ⟨rfl, rfl⟩ := List.cons.inj heq
    exact if_neg hprintable
  case h_5 heq => cases heq
  all_goals
    rename_i heq
    exact absurd (List.cons.inj heq).1 hc

/-- The two digits that a control character is written in. -/
theorem hex4?_control {n : Nat} (hn : n < 0x20) :
    hex4? '0' '0' (Nat.digitChar (n / 16)) (Nat.digitChar (n % 16)) = some n := by
  revert n
  decide

/-- A control character is read from its digits. -/
theorem readUnit?_control {c : Char} (hc : c.toNat < 0x20) :
    readUnit? ('\\' :: 'u' :: '0' :: '0' :: Nat.digitChar (c.toNat / 16)
      :: Nat.digitChar (c.toNat % 16) :: rest) = some (.char c, rest) := by
  have hhigh : isHighSurrogate c.toNat = false := by
    simp only [isHighSurrogate, Bool.and_eq_false_iff, decide_eq_false_iff_not]
    omega
  have hlow : isLowSurrogate c.toNat = false := by
    simp only [isLowSurrogate, Bool.and_eq_false_iff, decide_eq_false_iff_not]
    omega
  simp [readUnit?, hex4?_control hc, hhigh, hlow, Char.ofNat_toNat]

/-- **A character that was written is read again.** -/
theorem readUnit?_escape (c : Char) : readUnit? (escape c ++ rest) = some (.char c, rest) := by
  unfold escape
  split_ifs with hquote hbackslash hbackspace hfeed hline hreturn htab hcontrol
  · rw [hquote]; rfl
  · rw [hbackslash]; rfl
  · rw [hbackspace]; rfl
  · rw [hfeed]; rfl
  · rw [hline]; rfl
  · rw [hreturn]; rfl
  · rw [htab]; rfl
  · exact readUnit?_control hcontrol
  · exact readUnit?_cons hbackslash hcontrol

/-- What is written of a character does not begin with a quote. -/
theorem head?_escape_ne (c : Char) : (escape c ++ rest).head? ≠ some '"' := by
  unfold escape
  split_ifs with hquote
  all_goals intro h
  case neg => exact hquote (Option.some.inj h)
  all_goals exact absurd (Option.some.inj h) (by decide)

/-- The units of a written text end with the quote behind it. -/
theorem readUnits_escape (acc : List LiteralUnit) (cs : List Char) :
    readUnits acc (cs.flatMap escape ++ '"' :: rest)
      = some (acc.reverse ++ cs.map .char, rest) := by
  induction cs generalizing acc with
  | nil => rw [readUnits]; simp
  | cons c cs ih =>
    rw [List.flatMap_cons, List.append_assoc, readUnits, if_neg (head?_escape_ne c)]
    split
    case h_1 hread =>
      rw [readUnit?_escape] at hread
      cases hread
      rw [ih]
      simp
    case h_2 hread =>
      rw [readUnit?_escape] at hread
      cases hread

/-- Where no half is among the units there is nothing to join. -/
theorem joinHalves_map_char (cs : List Char) : joinHalves (cs.map .char) = some cs := by
  induction cs with
  | nil => rfl
  | cons c cs ih => rw [List.map_cons, joinHalves, ih]; rfl

/-- **A text that was written is read again.** -/
theorem readToken?_writeText (s : String) :
    readToken? ((writeText s).toList ++ rest) = some (.string (some s), rest) := by
  have hwritten :
      (writeText s).toList ++ rest = '"' :: (s.toList.flatMap escape ++ '"' :: rest) := by
    simp [writeText, String.toList_append]
  rw [hwritten, readToken?, readUnits_escape, List.reverse_nil, List.nil_append, Option.map_some]
  dsimp only
  rw [joinHalves_map_char, Option.map_some, String.ofList_toList]

/-! ## Numbers -/

/-- **Whether a number ends in front of the characters.** -/
def EndsNumber (cs : List Char) : Prop :=
  ∀ c ∈ cs.head?, c.isDigit = false ∧ c ≠ '.' ∧ c ≠ 'e' ∧ c ≠ 'E'

/-- Digits are read up to the first character that is none. -/
theorem readDigits?_append {ds : List Char} (hne : ds ≠ []) (hds : ∀ c ∈ ds, c.isDigit = true)
    (hrest : ∀ c ∈ rest.head?, c.isDigit = false) :
    readDigits? (ds ++ rest) = some (ds, rest) := by
  have htake : rest.takeWhile Char.isDigit = [] := by
    cases rest with
    | nil => rfl
    | cons c rest => exact List.takeWhile_cons_of_neg (by rw [hrest c rfl]; decide)
  have hdrop : rest.dropWhile Char.isDigit = rest := by
    cases rest with
    | nil => rfl
    | cons c rest => exact List.dropWhile_cons_of_neg (by rw [hrest c rfl]; decide)
  unfold readDigits?
  rw [List.takeWhile_append_of_pos hds, List.dropWhile_append_of_pos hds, htake, hdrop,
    List.append_nil]
  obtain ⟨d, ds, rfl⟩ := List.exists_cons_of_ne_nil hne
  rfl

/-- So are the digits of a number. -/
theorem readDigits?_toDigits (n : Nat) (hrest : ∀ c ∈ rest.head?, c.isDigit = false) :
    readDigits? (Nat.toDigits 10 n ++ rest) = some (Nat.toDigits 10 n, rest) :=
  readDigits?_append Nat.toDigits_ne_nil
    (fun _ hc => Nat.isDigit_of_mem_toDigits (by decide) (by decide) hc) hrest

/-- They may stand in front of a point, with no zero before another
digit. -/
theorem readWhole?_toDigits (n : Nat) (hrest : ∀ c ∈ rest.head?, c.isDigit = false) :
    readWhole? (Nat.toDigits 10 n ++ rest) = some (Nat.toDigits 10 n, rest) := by
  unfold readWhole?
  rw [readDigits?_toDigits n hrest]
  split
  case h_1 heq =>
    have hdigits := (Prod.mk.inj (Option.some.inj heq)).1
    by_cases hn : n = 0
    · rw [hn] at hdigits
      cases hdigits
    · exact absurd (congrArg List.head? hdigits) (Text.head?_toDigits hn)
  case h_2 => rfl

/-- A number begins with a digit. -/
theorem exists_toDigits_eq_cons (n : Nat) :
    ∃ c cs, Nat.toDigits 10 n = c :: cs ∧ c.isDigit = true := by
  obtain ⟨c, cs, hcs⟩ := List.exists_cons_of_ne_nil (Nat.toDigits_ne_nil (b := 10) (n := n))
  refine ⟨c, cs, hcs, Nat.isDigit_of_mem_toDigits (b := 10) (n := n) (by decide) (by decide) ?_⟩
  rw [hcs]
  exact List.mem_cons_self

/-- There is a fraction only behind a point. -/
theorem readFraction?_of_ne {cs : List Char} (h : cs.head? ≠ some '.') :
    readFraction? cs = some ([], cs) := by
  unfold readFraction?
  split
  case h_1 => exact absurd rfl h
  case h_2 => rfl

/-- The digit of a digit. -/
theorem digitValue_digitChar (d : Fin 10) : digitValue (Nat.digitChar d.val) = d := by
  revert d
  decide

/-- A fraction is read digit by digit. -/
theorem readFraction?_digits {fraction : List (Fin 10)} (hne : fraction ≠ [])
    (hrest : ∀ c ∈ rest.head?, c.isDigit = false) :
    readFraction? ('.' :: fraction.map (fun d => Nat.digitChar d.val) ++ rest)
      = some (fraction.map fun d => Nat.digitChar d.val, rest) := by
  refine readDigits?_append (by simpa using hne) (fun c hc => ?_) hrest
  obtain ⟨d, -, rfl⟩ := List.mem_map.mp hc
  rw [Nat.isDigit_digitChar]
  exact decide_eq_true d.isLt

/-- There is an exponent only behind its letter. -/
theorem readExponent?_of_endsNumber (h : EndsNumber rest) :
    readExponent? rest = some (none, rest) := by
  unfold readExponent?
  cases rest with
  | nil => rfl
  | cons c rest =>
    obtain ⟨-, -, he, hE⟩ := h c rfl
    exact if_neg (not_or.mpr ⟨he, hE⟩)

/-- A digit is no sign. -/
theorem dropSign_of_isDigit {c : Char} (hc : c.isDigit = true) :
    dropSign (c :: rest) = c :: rest := by
  unfold dropSign
  split
  case h_1 heq => rw [(List.cons.inj heq).1] at hc; cases hc
  case h_2 heq => rw [(List.cons.inj heq).1] at hc; cases hc
  case h_3 => rfl

/-- An exponent is read with its sign. -/
theorem readExponent?_toString (exponent : Int) (hrest : ∀ c ∈ rest.head?, c.isDigit = false) :
    readExponent? ('e' :: (toString exponent).toList ++ rest) = some (some exponent, rest) := by
  cases exponent with
  | ofNat n =>
    have hwritten : (toString (Int.ofNat n)).toList = Nat.toDigits 10 n := Nat.toList_repr
    obtain ⟨c, cs, hcs, hc⟩ := exists_toDigits_eq_cons n
    have hsign : dropSign (Nat.toDigits 10 n ++ rest) = Nat.toDigits 10 n ++ rest := by
      rw [hcs]
      exact dropSign_of_isDigit hc
    have hpositive : ¬ (Nat.toDigits 10 n ++ rest).head? = some '-' := by
      rw [hcs]
      intro h
      rw [Option.some.inj h] at hc
      cases hc
    rw [hwritten, List.cons_append, readExponent?, if_pos (.inl rfl), hsign,
      readDigits?_toDigits n hrest, Option.map_some]
    dsimp only
    rw [if_neg hpositive, Nat.ofDigitChars_ten_toDigits]
    rfl
  | negSucc n =>
    have hwritten : (toString (Int.negSucc n)).toList = '-' :: Nat.toDigits 10 (n + 1) := by
      show ("-" ++ Nat.repr (n + 1)).toList = _
      rw [String.toList_append, Nat.toList_repr]
      rfl
    rw [hwritten, List.cons_append, List.cons_append, readExponent?, if_pos (.inl rfl), dropSign,
      readDigits?_toDigits (n + 1) hrest, Option.map_some]
    dsimp only
    rw [List.head?_cons, if_pos rfl, Nat.ofDigitChars_ten_toDigits]
    rfl

/-- The parts of a number are read one behind the other. -/
theorem readNumber?_of_parts {negative : Bool} {whole fraction : List Char}
    {cs behindWhole behindFraction : List Char} {exponent : Option Int}
    (hwhole : readWhole? cs = some (whole, behindWhole))
    (hfraction : readFraction? behindWhole = some (fraction, behindFraction))
    (hexponent : readExponent? behindFraction = some (exponent, rest)) :
    readNumber? negative cs
      = some (if !negative && fraction.isEmpty && exponent.isNone then
            .natural (Nat.ofDigitChars 10 whole 0)
          else .decimal negative (Nat.ofDigitChars 10 whole 0) (fraction.map digitValue)
            (exponent.getD 0), rest) := by
  simp only [readNumber?, hwhole, hfraction, hexponent, Option.bind_eq_bind, Option.bind_some]
  split <;> rfl

/-- A number in digits is read again, up to its end. -/
theorem readNumber?_natural (n : Nat) (hrest : EndsNumber rest) :
    readNumber? false (Nat.toDigits 10 n ++ rest) = some (.natural n, rest) := by
  have hpoint : rest.head? ≠ some '.' := fun h => (hrest _ h).2.1 rfl
  rw [readNumber?_of_parts (readWhole?_toDigits n fun c hc => (hrest c hc).1)
    (readFraction?_of_ne hpoint) (readExponent?_of_endsNumber hrest),
    Nat.ofDigitChars_ten_toDigits]
  rfl

/-- A decimal is written without its sign as its parts. -/
theorem toList_write_decimal (whole : Nat) (fraction : List (Fin 10)) (exponent : Int) :
    (Number.decimal false whole fraction exponent).write.toList
      = Nat.toDigits 10 whole
        ++ (if fraction.isEmpty then [] else '.' :: fraction.map fun d => Nat.digitChar d.val)
        ++ 'e' :: (toString exponent).toList := by
  cases fraction <;> simp [Number.write, String.toList_append]

/-- A decimal is read again, up to its end. -/
theorem readNumber?_decimal (negative : Bool) (whole : Nat) (fraction : List (Fin 10))
    (exponent : Int) (hrest : ∀ c ∈ rest.head?, c.isDigit = false) :
    readNumber? negative ((Number.decimal false whole fraction exponent).write.toList ++ rest)
      = some (.decimal negative whole fraction exponent, rest) := by
  have hexponent := readExponent?_toString exponent hrest
  have hfraction : (fraction.map fun d => Nat.digitChar d.val).map digitValue = fraction := by
    rw [List.map_map]
    exact List.map_id'' digitValue_digitChar fraction
  have hread : readFraction? ((if fraction.isEmpty then []
        else '.' :: fraction.map fun d => Nat.digitChar d.val)
        ++ ('e' :: (toString exponent).toList ++ rest))
      = some (fraction.map fun d => Nat.digitChar d.val,
          'e' :: (toString exponent).toList ++ rest) := by
    split
    case isTrue h =>
      rw [List.isEmpty_iff.mp h]
      exact readFraction?_of_ne (by simp)
    case isFalse h => exact readFraction?_digits (by simpa using h) (by simp)
  rw [toList_write_decimal, List.append_assoc, List.append_assoc,
    readNumber?_of_parts (readWhole?_toDigits whole ?_) hread hexponent, if_neg (by simp),
    Nat.ofDigitChars_ten_toDigits, hfraction]
  · rfl
  · intro c hc
    split at hc
    all_goals
      cases hc
      rfl

/-! ## Words -/

/-- What begins with a digit is a number. -/
theorem readToken?_of_isDigit {c : Char} (hc : c.isDigit = true) :
    readToken? (c :: rest)
      = (readNumber? false (c :: rest)).map fun (n, rest) => (.number n, rest) := by
  unfold readToken?
  split
  case h_12 => rfl
  all_goals
    rename_i heq
    rw [(List.cons.inj heq).1] at hc
    cases hc

/-- **A number that was written is read again**, up to its end. -/
theorem readToken?_write (n : Number) (hrest : EndsNumber rest) :
    readToken? (n.write.toList ++ rest) = some (.number n, rest) := by
  cases n with
  | natural n =>
    obtain ⟨c, cs, hcs, hc⟩ := exists_toDigits_eq_cons n
    have hwritten : (Number.natural n).write.toList = Nat.toDigits 10 n := Nat.toList_repr
    have hread := readNumber?_natural n hrest
    rw [hcs, List.cons_append] at hread
    rw [hwritten, hcs, List.cons_append, readToken?_of_isDigit hc, hread]
    rfl
  | decimal negative whole fraction exponent =>
    have hread := readNumber?_decimal negative whole fraction exponent fun c hc => (hrest c hc).1
    cases negative with
    | true =>
      have hwritten : (Number.decimal true whole fraction exponent).write.toList
          = '-' :: (Number.decimal false whole fraction exponent).write.toList := by
        simp [Number.write, String.toList_append]
      rw [hwritten, List.cons_append, readToken?, hread]
      rfl
    | false =>
      obtain ⟨c, cs, hcs, hc⟩ := exists_toDigits_eq_cons whole
      rw [toList_write_decimal, hcs, List.append_assoc, List.append_assoc, List.cons_append]
        at hread ⊢
      rw [readToken?_of_isDigit hc, hread]
      rfl

/-- No word begins with a blank. -/
theorem readToken?_of_isSpace {c : Char} (hc : isSpace c = true) :
    readToken? (c :: rest) = none := by
  simp only [isSpace, Bool.or_eq_true, beq_iff_eq] at hc
  rcases hc with ((rfl | rfl) | rfl) | rfl <;> rfl

/-- **A word is cut off** from what is behind it. -/
theorem tokens?_of_readToken? {acc : List Token} {cs : List Char} {t : Token}
    (h : readToken? cs = some (t, rest)) : tokens? acc cs = tokens? (t :: acc) rest := by
  cases cs with
  | nil => cases h
  | cons c cs =>
    have hspace : ¬ isSpace c = true := fun hc => by
      rw [readToken?_of_isSpace hc] at h
      cases h
    rw [tokens?, if_neg hspace]
    split
    case h_1 hread =>
      cases hread.symm.trans h
      rfl
    case h_2 hread => cases hread.symm.trans h

end EthCall.Json
