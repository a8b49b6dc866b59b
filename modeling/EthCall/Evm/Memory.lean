import EthCall.Bytes
import Std.Data.TreeMap.Basic

/-!
# Memory and storage

The memory of an execution is an endless row of bytes, all of them zero at
the start. How far it has been used is kept beside it, because a contract
can ask and because it is bounded. The bytes that are zero are not stored:
`Memory.byte` is the row, and writing is explained by what it does to the
row.

The storage of a contract maps numbers to numbers, and every number to
zero at the start.
-/

namespace EthCall.Evm

/-- **The memory of an execution.** -/
structure Memory where
  /-- The number of bytes in use, a multiple of 32. -/
  size : Nat
  /-- The bytes that are not zero, by position. -/
  cells : Std.TreeMap Nat UInt8

namespace Memory

/-- Memory that was never used. -/
def empty : Memory := ⟨0, ∅⟩

/-- **The byte at a position.** -/
def byte (m : Memory) (i : Nat) : UInt8 :=
  m.cells.getD i 0

/-- Write one byte. -/
def setByte (m : Memory) (i : Nat) (b : UInt8) : Memory :=
  { m with cells := if b = 0 then m.cells.erase i else m.cells.insert i b }

/-- **Write bytes from a position on.** -/
def write (m : Memory) (offset : Nat) : Bytes → Memory
  | [] => m
  | b :: rest => write (m.setByte offset b) (offset + 1) rest

/-- **The `len` bytes from a position on.** -/
def read (m : Memory) (offset len : Nat) : Bytes :=
  (List.range len).map fun i => m.byte (offset + i)

/-- Memory used up to at least `size`. -/
def grow (m : Memory) (size : Nat) : Memory :=
  { m with size := max m.size size }

end Memory

/-- The `len` bytes from an offset on of a byte string that goes on with
zeros for ever. -/
def zeroExtended (source : Array UInt8) (offset len : Nat) : Bytes :=
  (List.range len).map fun i => source.getD (offset + i) 0

end EthCall.Evm
