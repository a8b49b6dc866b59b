import EthCall.Word

/-!
# Operations that can trap

A program that runs on a machine does not have the numbers and lists of
mathematics. A sum has to fit in its type, a difference may not go below
zero, a divisor may not be zero, and an index or a slice has to be inside
what it is taken of. Where that fails, the program has no result at all:
it **traps** (`Trap`), which is not an error it could report.

Here are the operations that can, each in the monad `Except Trap`, and
when each of them cannot. A computation written with them does the same
as one written with the plain operations of numbers and lists, exactly if
it never traps.
-/

namespace EthCall

/-- **Why an operation has no result.** -/
inductive Trap where
  /-- A sum or a product exceeds the largest number of its type. -/
  | overflow
  /-- A difference is below zero. -/
  | underflow
  /-- A divisor is zero. -/
  | zeroDivisor
  /-- An index or a slice is not inside what it is taken of. -/
  | outOfRange
  /-- Something is copied into a place of another length. -/
  | lengthMismatch
  deriving DecidableEq

namespace Trap

variable {α β : Type}

/-- A sequence goes on with what its first part has come to. -/
theorem bind_eq {x : Except Trap α} {a : α} {k : α → Except Trap β} {result : Except Trap β}
    (h : x = .ok a) (hk : k a = result) : x >>= k = result := by
  subst h
  exact hk

/-! ## Numbers

`largest` is the largest number of the type that is computed in. -/

/-- A sum. -/
def add (largest m n : Nat) : Except Trap Nat :=
  if m + n ≤ largest then .ok (m + n) else .error .overflow

/-- A product. -/
def mul (largest m n : Nat) : Except Trap Nat :=
  if m * n ≤ largest then .ok (m * n) else .error .overflow

/-- A difference. -/
def sub (m n : Nat) : Except Trap Nat :=
  if n ≤ m then .ok (m - n) else .error .underflow

/-- A remainder. -/
def mod (m n : Nat) : Except Trap Nat :=
  if n = 0 then .error .zeroDivisor else .ok (m % n)

theorem add_of_le {largest m n : Nat} (h : m + n ≤ largest) : add largest m n = .ok (m + n) :=
  if_pos h

theorem mul_of_le {largest m n : Nat} (h : m * n ≤ largest) : mul largest m n = .ok (m * n) :=
  if_pos h

theorem sub_of_le {m n : Nat} (h : n ≤ m) : sub m n = .ok (m - n) :=
  if_pos h

theorem mod_of_ne_zero {m n : Nat} (h : n ≠ 0) : mod m n = .ok (m % n) :=
  if_neg h

/-! ## Lists -/

/-- The item at an index. -/
def index (xs : List α) (i : Nat) : Except Trap α :=
  match xs[i]? with
  | some x => .ok x
  | none => .error .outOfRange

/-- The items with another one at an index. -/
def set (xs : List α) (i : Nat) (x : α) : Except Trap (List α) :=
  if i < xs.length then .ok (xs.set i x) else .error .outOfRange

/-- The items from `first` on that are in front of `last`. -/
def slice (xs : List α) (first last : Nat) : Except Trap (List α) :=
  if first ≤ last ∧ last ≤ xs.length then .ok ((xs.drop first).take (last - first))
  else .error .outOfRange

/-- The items from `first` on that are in front of `last`, overwritten by as
many others. -/
def overwrite (xs : List α) (first last : Nat) (ys : List α) : Except Trap (List α) :=
  if first ≤ last ∧ last ≤ xs.length then
    if ys.length = last - first then .ok (xs.take first ++ ys ++ xs.drop last)
    else .error .lengthMismatch
  else .error .outOfRange

/-- The items with two of them exchanged. -/
def swap (xs : List α) (i j : Nat) : Except Trap (List α) :=
  match xs[i]?, xs[j]? with
  | some x, some y => .ok ((xs.set i y).set j x)
  | _, _ => .error .outOfRange

/-- Bytes, copied into a place for `n` of them. -/
def fixed (n : Nat) (bs : Bytes) : Except Trap (FixedBytes n) :=
  if h : bs.length = n then .ok ⟨bs, h⟩ else .error .lengthMismatch

theorem index_of_lt {xs : List α} {i : Nat} (h : i < xs.length) : index xs i = .ok xs[i] := by
  unfold index
  rw [List.getElem?_eq_getElem h]

theorem set_of_lt {xs : List α} {i : Nat} (h : i < xs.length) (x : α) :
    set xs i x = .ok (xs.set i x) :=
  if_pos h

theorem slice_of_le {xs : List α} {first last : Nat} (hfirst : first ≤ last)
    (hlast : last ≤ xs.length) : slice xs first last = .ok ((xs.drop first).take (last - first)) :=
  if_pos ⟨hfirst, hlast⟩

/-- The part in front of a place. -/
theorem slice_zero {xs : List α} {last : Nat} (h : last ≤ xs.length) :
    slice xs 0 last = .ok (xs.take last) :=
  slice_of_le (Nat.zero_le last) h

/-- The part from a place on. -/
theorem slice_to_end {xs : List α} {first last : Nat} (hlast : xs.length = last)
    (hfirst : first ≤ last) : slice xs first last = .ok (xs.drop first) := by
  rw [slice_of_le hfirst (Nat.le_of_eq hlast.symm), ← hlast, ← List.length_drop, List.take_length]

theorem overwrite_of_le {xs ys : List α} {first last : Nat} (hfirst : first ≤ last)
    (hlast : last ≤ xs.length) (hlength : ys.length = last - first) :
    overwrite xs first last ys = .ok (xs.take first ++ ys ++ xs.drop last) := by
  unfold overwrite
  rw [if_pos ⟨hfirst, hlast⟩, if_pos hlength]

theorem swap_of_lt {xs : List α} {i j : Nat} (hi : i < xs.length) (hj : j < xs.length) :
    swap xs i j = .ok ((xs.set i xs[j]).set j xs[i]) := by
  unfold swap
  rw [List.getElem?_eq_getElem hi, List.getElem?_eq_getElem hj]

theorem fixed_of_length {n : Nat} {bs : Bytes} (h : bs.length = n) : fixed n bs = .ok ⟨bs, h⟩ :=
  dif_pos h

/-! ## Operations that are checked

These say in their result that there is none. -/

/-- A sum, if it fits. -/
def checkedAdd? (largest m n : Nat) : Option Nat :=
  if m + n ≤ largest then some (m + n) else none

/-- A product, if it fits. -/
def checkedMul? (largest m n : Nat) : Option Nat :=
  if m * n ≤ largest then some (m * n) else none

/-- A difference, if it is one. -/
def checkedSub? (m n : Nat) : Option Nat :=
  if n ≤ m then some (m - n) else none

end Trap

end EthCall
