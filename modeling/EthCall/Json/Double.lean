import EthCall.Json.Basic

/-!
# Numbers near a double

JSON writes a number with as many digits as it likes. A **double** has 53
bits, and every double is below `doubleBound`, so a number that is held as
a double is rounded, and a large one cannot be held at all. Which numbers
those are depends on how the rounding goes, for it goes in three steps.

* The digits at the front that fit a machine word become the significand,
  and the digits behind them only move the point: that is `Scaled`.
* The significand and the power of ten are each rounded to a double, by
  `nearestDouble`.
* So is their product, and the number is finite (`Number.isFinite`) when
  that last rounding has a double to go to.

A number that lies between the largest double and `doubleBound` may fall on
either side: `1.79769313486231585e308` is finite, and
`0.17976931348623158e309`, which is smaller, is not.
-/

namespace EthCall.Json

/-- The significands are below this: they fit 64 bits. -/
def significandBound : Nat := Nat.pow 2 64

/-- The numbers from here on are nearer to infinity than to any
double. -/
def doubleBound : Nat := Nat.pow 2 1024 - Nat.pow 2 970

/-- The largest power of ten that has a double. -/
def largestScale : Int := 308

/-! ## Scaled numbers -/

/-- **A scaled number**: `significand * 10 ^ exponent`. -/
structure Scaled where
  /-- The digits kept. -/
  significand : Nat
  /-- The power of ten they are multiplied by. -/
  exponent : Int
  /-- The digits kept fit a machine word. -/
  fits : significand < significandBound

/-- A whole number scaled. Its last digits go, one by one, until the rest
fit. -/
def Scaled.ofWhole (n : Nat) : Scaled :=
  if h : n < significandBound then ⟨n, 0, h⟩
  else
    let front := ofWhole (n / 10)
    { front with exponent := front.exponent + 1 }
termination_by n
decreasing_by
  have : 0 < significandBound := by decide
  omega

/-- A scaled number with the digits of a fraction behind it. From the first
digit that does not fit, they are dropped. -/
def Scaled.append (s : Scaled) : List (Fin 10) → Scaled
  | [] => s
  | d :: rest =>
    if h : s.significand * 10 + d < significandBound then
      append ⟨s.significand * 10 + d, s.exponent - 1, h⟩ rest
    else s

/-- A number scaled, without its sign. -/
def Number.scaled : Number → Scaled
  | natural n => .ofWhole n
  | decimal _ whole fraction exponent =>
    let s := (Scaled.ofWhole whole).append fraction
    { s with exponent := s.exponent + exponent }

/-! ## Rounding -/

/-- **The nearest number with 53 bits**, and of two that are as near the
one whose last bit is zero. Below `doubleBound` that is a double. -/
def nearestDouble (n : Nat) : Nat :=
  let unit := Nat.pow 2 (n.log2 - 52)
  let below := n / unit
  let excess := n % unit
  if 2 * excess < unit ∨ 2 * excess = unit ∧ below % 2 = 0 then below * unit
  else (below + 1) * unit

/-- **Whether a number is held as a double.** A zero is, whatever it is
multiplied by, and so is anything that a power of ten divides. -/
def Number.isFinite (n : Number) : Bool :=
  let s := n.scaled
  s.significand == 0 || s.exponent < 0
    || s.exponent ≤ largestScale
      && nearestDouble s.significand * nearestDouble (Nat.pow 10 s.exponent.toNat) < doubleBound

end EthCall.Json
