import EthCall.Word

/-!
# Keccak-256

Selectors and event topics are cut from a 256-bit digest of a signature,
and contracts can digest their memory. The digest is Keccak-256 with the
padding that predates the standard: the sponge absorbs blocks of 136
bytes, the last one completed by a one bit, zeros and a one bit, and the
first 32 bytes of the final state are the digest.

The state is a grid of 5 × 5 lanes of 64 bits. It is kept as five
*planes*, a plane being the five lanes of one row, because the steps of
the permutation are operations on whole planes – the one that moves lanes
about (`State.rotateAndMove`) excepted.
-/

namespace EthCall.Keccak

/-- Five lanes in a row. -/
structure Plane where
  /-- The lane of column 0. -/
  x0 : UInt64
  /-- The lane of column 1. -/
  x1 : UInt64
  /-- The lane of column 2. -/
  x2 : UInt64
  /-- The lane of column 3. -/
  x3 : UInt64
  /-- The lane of column 4. -/
  x4 : UInt64

/-- **The state of the sponge**, row by row. -/
structure State where
  /-- Row 0. -/
  y0 : Plane
  /-- Row 1. -/
  y1 : Plane
  /-- Row 2. -/
  y2 : Plane
  /-- Row 3. -/
  y3 : Plane
  /-- Row 4. -/
  y4 : Plane

/-- Rotate a lane towards its high bits. -/
def rotate (lane : UInt64) (bits : UInt64) : UInt64 :=
  lane <<< bits ||| lane >>> (64 - bits)

namespace Plane

/-- The empty plane. -/
def zero : Plane := ⟨0, 0, 0, 0, 0⟩

/-- Lane by lane exclusive or. -/
def xor (a b : Plane) : Plane :=
  ⟨a.x0 ^^^ b.x0, a.x1 ^^^ b.x1, a.x2 ^^^ b.x2, a.x3 ^^^ b.x3, a.x4 ^^^ b.x4⟩

/-- What a column parity adds to every lane of a column: the parity of the
column to its left and the rotated parity of the one to its right. -/
def spread (c : Plane) : Plane :=
  ⟨c.x4 ^^^ rotate c.x1 1, c.x0 ^^^ rotate c.x2 1, c.x1 ^^^ rotate c.x3 1,
   c.x2 ^^^ rotate c.x4 1, c.x3 ^^^ rotate c.x0 1⟩

/-- The non-linear step: each lane is flipped where its right neighbour is
clear and the next one set. -/
def bend (b : Plane) : Plane :=
  ⟨b.x0 ^^^ (~~~b.x1 &&& b.x2), b.x1 ^^^ (~~~b.x2 &&& b.x3), b.x2 ^^^ (~~~b.x3 &&& b.x4),
   b.x3 ^^^ (~~~b.x4 &&& b.x0), b.x4 ^^^ (~~~b.x0 &&& b.x1)⟩

end Plane

namespace State

/-- The state before anything is absorbed. -/
def zero : State := ⟨.zero, .zero, .zero, .zero, .zero⟩

/-- Row by row exclusive or. -/
def xor (a b : State) : State :=
  ⟨a.y0.xor b.y0, a.y1.xor b.y1, a.y2.xor b.y2, a.y3.xor b.y3, a.y4.xor b.y4⟩

/-- Add the column parities to every row. -/
def diffuse (a : State) : State :=
  let d := (a.y0.xor (a.y1.xor (a.y2.xor (a.y3.xor a.y4)))).spread
  a.xor ⟨d, d, d, d, d⟩

/-- Rotate every lane by its own amount and move it to its new place. -/
def rotateAndMove (a : State) : State where
  y0 := ⟨a.y0.x0, rotate a.y1.x1 44, rotate a.y2.x2 43, rotate a.y3.x3 21, rotate a.y4.x4 14⟩
  y1 := ⟨rotate a.y0.x3 28, rotate a.y1.x4 20, rotate a.y2.x0 3, rotate a.y3.x1 45,
    rotate a.y4.x2 61⟩
  y2 := ⟨rotate a.y0.x1 1, rotate a.y1.x2 6, rotate a.y2.x3 25, rotate a.y3.x4 8,
    rotate a.y4.x0 18⟩
  y3 := ⟨rotate a.y0.x4 27, rotate a.y1.x0 36, rotate a.y2.x1 10, rotate a.y3.x2 15,
    rotate a.y4.x3 56⟩
  y4 := ⟨rotate a.y0.x2 62, rotate a.y1.x3 55, rotate a.y2.x4 39, rotate a.y3.x0 41,
    rotate a.y4.x1 2⟩

/-- The non-linear step on every row. -/
def bend (a : State) : State :=
  ⟨a.y0.bend, a.y1.bend, a.y2.bend, a.y3.bend, a.y4.bend⟩

/-- One round, told apart from the others by its constant. -/
def round (a : State) (constant : UInt64) : State :=
  let b := a.diffuse.rotateAndMove.bend
  { b with y0 := { b.y0 with x0 := b.y0.x0 ^^^ constant } }

end State

/-- The constants of the 24 rounds. -/
def roundConstants : List UInt64 :=
  [0x0000000000000001, 0x0000000000008082, 0x800000000000808a, 0x8000000080008000,
   0x000000000000808b, 0x0000000080000001, 0x8000000080008081, 0x8000000000008009,
   0x000000000000008a, 0x0000000000000088, 0x0000000080008009, 0x000000008000000a,
   0x000000008000808b, 0x800000000000008b, 0x8000000000008089, 0x8000000000008003,
   0x8000000000008002, 0x8000000000000080, 0x000000000000800a, 0x800000008000000a,
   0x8000000080008081, 0x8000000000008080, 0x0000000080000001, 0x8000000080008008]

/-- **The permutation**: all rounds in order. -/
def State.permute (a : State) : State :=
  roundConstants.foldl State.round a

/-! ## The sponge -/

/-- Bytes absorbed at a time. -/
def rate : Nat := 136

/-- What completes a message of the given length to whole blocks. -/
def padding (length : Nat) : Bytes :=
  match rate - length % rate with
  | 1 => [0x81]
  | missing => 0x01 :: (Bytes.zeros (missing - 2) ++ [0x80])

/-- A lane from its bytes, least significant first. -/
def laneOfBytes (bs : Bytes) : UInt64 :=
  bs.foldr (fun b lane => lane <<< 8 ||| b.toUInt64) 0

/-- The bytes of a lane, least significant first. -/
def bytesOfLane (lane : UInt64) : Bytes :=
  (List.range 8).map fun i => (lane >>> (8 * UInt64.ofNat i)).toUInt8

/-- A block as a state: 17 lanes fill the grid from row 0 on, and the rest
of it is zero. -/
def stateOfBlock (block : Bytes) : State :=
  let lane := fun i => laneOfBytes ((block.drop (8 * i)).take 8)
  { y0 := ⟨lane 0, lane 1, lane 2, lane 3, lane 4⟩
    y1 := ⟨lane 5, lane 6, lane 7, lane 8, lane 9⟩
    y2 := ⟨lane 10, lane 11, lane 12, lane 13, lane 14⟩
    y3 := ⟨lane 15, lane 16, 0, 0, 0⟩
    y4 := .zero }

/-- Absorb a number of blocks. -/
def absorb : (blocks : Nat) → Bytes → State → State
  | 0, _, state => state
  | blocks + 1, bs, state =>
    absorb blocks (bs.drop rate) (state.xor (stateOfBlock (bs.take rate))).permute

/-- The first 32 bytes of a state. -/
def State.digest (a : State) : Bytes :=
  bytesOfLane a.y0.x0 ++ (bytesOfLane a.y0.x1 ++ (bytesOfLane a.y0.x2 ++ bytesOfLane a.y0.x3))

theorem State.length_digest (a : State) : a.digest.length = 32 := by
  simp [State.digest, bytesOfLane]

end EthCall.Keccak

namespace EthCall

/-- **The Keccak-256 digest of a byte string.** -/
def keccak256 (message : Bytes) : Word :=
  let final := Keccak.absorb (message.length / Keccak.rate + 1)
    (message ++ Keccak.padding message.length) .zero
  ⟨final.digest, final.length_digest⟩

end EthCall
