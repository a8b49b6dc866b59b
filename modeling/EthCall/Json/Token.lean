import EthCall.Hex
import EthCall.Json.Basic

/-!
# The words of a JSON text

A JSON text is first cut into its words – punctuation, string literals,
numbers and the three names – with the blanks between them dropped. What
is no word ends the reading.
-/

namespace EthCall.Json

/-- **A word of a JSON text.** -/
inductive Token where
  /-- An opening square bracket. -/
  | openArray
  /-- A closing square bracket. -/
  | closeArray
  /-- An opening brace. -/
  | openObject
  /-- A closing brace. -/
  | closeObject
  /-- A comma. -/
  | comma
  /-- A colon. -/
  | colon
  /-- The name of nothing. -/
  | null
  /-- The name of a truth value. -/
  | bool (b : Bool)
  /-- A number. -/
  | number (n : Number)
  /-- A string literal. -/
  | string (s : Text)
  deriving DecidableEq

/-- Whether a character is a blank between words. -/
def isSpace (c : Char) : Bool :=
  c == ' ' || c == '\t' || c == '\n' || c == '\r'

/-! ## String literals -/

/-- The number that four hexadecimal digits spell. -/
def hex4? (a b c d : Char) : Option Nat := do
  let a ← Hex.digitValue? a
  let b ← Hex.digitValue? b
  let c ← Hex.digitValue? c
  let d ← Hex.digitValue? d
  return ((a * 16 + b) * 16 + c) * 16 + d

/-- The character a one-letter escape stands for. -/
def escaped? (c : Char) : Option Char :=
  if c = '"' ∨ c = '\\' ∨ c = '/' then some c
  else if c = 'b' then some '\x08'
  else if c = 'f' then some '\x0c'
  else if c = 'n' then some '\n'
  else if c = 'r' then some '\r'
  else if c = 't' then some '\t'
  else none

/-- Whether a number is the first half of a surrogate pair. -/
def isHighSurrogate (n : Nat) : Bool := 0xd800 ≤ n && n ≤ 0xdbff

/-- Whether a number is the second half of a surrogate pair. -/
def isLowSurrogate (n : Nat) : Bool := 0xdc00 ≤ n && n ≤ 0xdfff

/-- One character of a literal, or half of one. -/
inductive LiteralUnit where
  /-- A character. -/
  | char (c : Char)
  /-- Half of a surrogate pair. -/
  | half (n : Nat)

/-- The unit that begins a literal's remaining characters, with the rest
behind it. -/
def readUnit? : List Char → Option (LiteralUnit × List Char)
  | '\\' :: 'u' :: a :: b :: c :: d :: rest => do
    let n ← hex4? a b c d
    return (if isHighSurrogate n || isLowSurrogate n then .half n else .char (Char.ofNat n), rest)
  | '\\' :: e :: rest => do
    let c ← escaped? e
    return (.char c, rest)
  | '\\' :: [] => none
  | c :: rest => if c.toNat < 0x20 then none else some (.char c, rest)
  | [] => none

theorem length_of_readUnit {cs rest : List Char} {u : LiteralUnit}
    (h : readUnit? cs = some (u, rest)) : rest.length < cs.length := by
  unfold readUnit? at h
  split at h
  · simp only [Option.bind_eq_bind, Option.bind_eq_some_iff, Option.pure_def, Option.some.injEq,
      Prod.mk.injEq] at h
    obtain ⟨_, _, _, rfl⟩ := h
    simp only [List.length_cons]
    omega
  · simp only [Option.bind_eq_bind, Option.bind_eq_some_iff, Option.pure_def, Option.some.injEq,
      Prod.mk.injEq] at h
    obtain ⟨_, _, _, rfl⟩ := h
    simp only [List.length_cons]
    omega
  · cases h
  · split at h
    · cases h
    · cases h
      exact Nat.lt_succ_self _
  · cases h

/-- Join halves that stand side by side into the characters they spell.
Nothing is spelled where a half stays alone. -/
def joinHalves : List LiteralUnit → Option (List Char)
  | [] => some []
  | .char c :: rest => (joinHalves rest).map (c :: ·)
  | .half high :: .half low :: rest =>
    if isHighSurrogate high && isLowSurrogate low then
      (joinHalves rest).map
        (Char.ofNat (0x10000 + (high - 0xd800) * 0x400 + (low - 0xdc00)) :: ·)
    else none
  | .half _ :: _ => none

/-- The units of a literal up to its closing quote, with the rest behind
it. `acc` holds the units passed, in reverse. -/
def readUnits (acc : List LiteralUnit) (cs : List Char) :
    Option (List LiteralUnit × List Char) :=
  if cs.head? = some '"' then some (acc.reverse, cs.tail)
  else
    match _h : readUnit? cs with
    | some (u, rest) => readUnits (u :: acc) rest
    | none => none
termination_by cs.length
decreasing_by exact length_of_readUnit _h

theorem length_of_readUnits {acc units : List LiteralUnit} {cs rest : List Char}
    (h : readUnits acc cs = some (units, rest)) : rest.length < cs.length := by
  fun_induction readUnits acc cs with
  | case1 acc cs hq =>
    cases h
    cases cs with
    | nil => simp at hq
    | cons c r => simp
  | case2 acc cs _ u r hu ih => exact Nat.lt_trans (ih h) (length_of_readUnit hu)
  | case3 => cases h

/-! ## Numbers -/

/-- The number digits spell, and the rest behind them. There has to be a
digit. -/
def readDigits? (cs : List Char) : Option (List Char × List Char) :=
  match cs.takeWhile Char.isDigit with
  | [] => none
  | digits => some (digits, cs.dropWhile Char.isDigit)

/-- The digits in front of a point: a zero stands alone. -/
def readWhole? (cs : List Char) : Option (List Char × List Char) :=
  match readDigits? cs with
  | some ('0' :: _ :: _, _) => none
  | other => other

/-- The digits behind a point, if there is one. -/
def readFraction? : List Char → Option (List Char × List Char)
  | '.' :: rest => readDigits? rest
  | cs => some ([], cs)

/-- What stands behind a sign, if there is one. -/
def dropSign : List Char → List Char
  | '-' :: rest => rest
  | '+' :: rest => rest
  | cs => cs

/-- What a digit stands for. -/
def digitValue (c : Char) : Fin 10 :=
  Fin.ofNat 10 (c.toNat - '0'.toNat)

/-- The exponent, if there is one. -/
def readExponent? (cs : List Char) : Option (Option Int × List Char) :=
  match cs with
  | e :: rest =>
    if e = 'e' ∨ e = 'E' then
      (readDigits? (dropSign rest)).map fun (ds, behind) =>
        let n : Int := Nat.ofDigitChars 10 ds 0
        (some (if rest.head? = some '-' then -n else n), behind)
    else some (none, cs)
  | [] => some (none, [])

/-- A number behind its sign. -/
def readNumber? (negative : Bool) (cs : List Char) : Option (Number × List Char) := do
  let (whole, cs) ← readWhole? cs
  let (fraction, cs) ← readFraction? cs
  let (exponent, cs) ← readExponent? cs
  -- A sign, a point or an exponent makes a decimal, whatever its value.
  if !negative && fraction.isEmpty && exponent.isNone then
    return (.natural (Nat.ofDigitChars 10 whole 0), cs)
  else
    return (.decimal negative (Nat.ofDigitChars 10 whole 0) (fraction.map digitValue)
      (exponent.getD 0), cs)

/-! ## Words -/

/-- **The word at the start of the characters**, with the rest behind
it. -/
def readToken? : List Char → Option (Token × List Char)
  | '[' :: rest => some (.openArray, rest)
  | ']' :: rest => some (.closeArray, rest)
  | '\x7b' :: rest => some (.openObject, rest)
  | '\x7d' :: rest => some (.closeObject, rest)
  | ',' :: rest => some (.comma, rest)
  | ':' :: rest => some (.colon, rest)
  | '"' :: rest =>
    (readUnits [] rest).map fun (units, rest) =>
      (.string ((joinHalves units).map String.ofList), rest)
  | 'n' :: 'u' :: 'l' :: 'l' :: rest => some (.null, rest)
  | 't' :: 'r' :: 'u' :: 'e' :: rest => some (.bool true, rest)
  | 'f' :: 'a' :: 'l' :: 's' :: 'e' :: rest => some (.bool false, rest)
  | '-' :: rest => (readNumber? true rest).map fun (n, rest) => (.number n, rest)
  | cs => (readNumber? false cs).map fun (n, rest) => (.number n, rest)

theorem length_of_readDigits {cs ds rest : List Char} (h : readDigits? cs = some (ds, rest)) :
    rest.length < cs.length := by
  unfold readDigits? at h
  split at h
  · cases h
  · rename_i hne
    cases h
    have := congrArg List.length (List.takeWhile_append_dropWhile (p := Char.isDigit) (l := cs))
    have hpos := List.length_pos_iff.mpr hne
    simp only [List.length_append] at this
    omega

theorem length_of_readWhole {cs ds rest : List Char} (h : readWhole? cs = some (ds, rest)) :
    rest.length < cs.length := by
  unfold readWhole? at h
  split at h
  · cases h
  · exact length_of_readDigits h

theorem length_of_readFraction {cs ds rest : List Char} (h : readFraction? cs = some (ds, rest)) :
    rest.length ≤ cs.length := by
  unfold readFraction? at h
  split at h
  · exact Nat.le_succ_of_le (Nat.le_of_lt (length_of_readDigits h))
  · cases h
    exact Nat.le_refl _

theorem length_dropSign_le (cs : List Char) : (dropSign cs).length ≤ cs.length := by
  unfold dropSign
  split <;> simp

theorem length_of_readExponent {cs rest : List Char} {n : Option Int}
    (h : readExponent? cs = some (n, rest)) : rest.length ≤ cs.length := by
  unfold readExponent? at h
  split at h
  · rename_i e r
    split at h
    · simp only [Option.map_eq_some_iff, Prod.mk.injEq, Prod.exists] at h
      obtain ⟨ds, behind, hd, _, rfl⟩ := h
      have hlt := Nat.lt_of_lt_of_le (length_of_readDigits hd) (length_dropSign_le r)
      exact Nat.le_succ_of_le (Nat.le_of_lt hlt)
    · cases h
      exact Nat.le_refl _
  · cases h
    exact Nat.le_refl _

theorem length_of_readNumber {negative : Bool} {cs rest : List Char} {n : Number}
    (h : readNumber? negative cs = some (n, rest)) : rest.length < cs.length := by
  simp only [readNumber?, Option.bind_eq_bind, Option.bind_eq_some_iff, Prod.exists] at h
  obtain ⟨whole, cs₁, h₁, fraction, cs₂, h₂, exponent, cs₃, h₃, h⟩ := h
  have l₁ := length_of_readWhole h₁
  have l₂ := length_of_readFraction h₂
  have l₃ := length_of_readExponent h₃
  split at h <;> cases h <;> omega

theorem length_of_readToken {cs rest : List Char} {t : Token}
    (h : readToken? cs = some (t, rest)) : rest.length < cs.length := by
  unfold readToken? at h
  split at h
  case h_7 r =>
    simp only [Option.map_eq_some_iff, Prod.mk.injEq, Prod.exists] at h
    obtain ⟨_, _, hu, _, rfl⟩ := h
    exact Nat.lt_succ_of_lt (length_of_readUnits hu)
  case h_11 r =>
    simp only [Option.map_eq_some_iff, Prod.mk.injEq, Prod.exists] at h
    obtain ⟨_, _, hn, _, rfl⟩ := h
    exact Nat.lt_succ_of_lt (length_of_readNumber hn)
  case h_12 =>
    simp only [Option.map_eq_some_iff, Prod.mk.injEq, Prod.exists] at h
    obtain ⟨_, _, hn, _, rfl⟩ := h
    exact length_of_readNumber hn
  all_goals
    cases h
    simp only [List.length_cons]
    omega

/-- **The words of a text**, behind the words `acc`, which are in
reverse. -/
def tokens? (acc : List Token) (cs : List Char) : Option (List Token) :=
  match cs with
  | [] => some acc.reverse
  | c :: rest =>
    if isSpace c then tokens? acc rest
    else
      match _h : readToken? (c :: rest) with
      | some (t, behind) => tokens? (t :: acc) behind
      | none => none
termination_by cs.length
decreasing_by
  · simp
  · exact length_of_readToken _h

end EthCall.Json
