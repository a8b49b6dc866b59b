import EthCall.Proofs.Abi.Acceptance
import EthCall.Proofs.Abi.TrappingEncode
import EthCall.Proofs.Abi.Untrapped

/-!
# Where encoding traps

A size can only be exceeded by an offset, or by the length of a payload,
and no offset is written before the values in front of it are encoded. The
head size of a sequence is no more than a size can count, as its sums and
products stop there, but an offset is a sum that does not: head size and
tails together can exceed it.

No memory holds a sequence that long, and still the sum can come to that.
The head size is told by the schemas, of which fixed arrays can ask for any
number of bytes, and by the time it is added to, it is not yet known
whether the values are there: that a value does not have the schema it was
declared with may be found behind the offset only. So where sizes trap, a
writing can trap in place of a refusal. How far the tails would extend if
everything could be encoded (`Value.extent`) says how far it is from
that.

Where sizes wrap nothing traps at all, and it is only asked whether the
bytes are the right ones. Of a sequence they are as long as the offset that
comes next is a size, in the tails as well as in the heads (`Keeps`). A
value that is refused is so for the same reason, as no reason has to do
with an offset.

All that there is to say of what encoding accepts, refuses and comes to is
then said in one place (`encode_accepts_conforming`).
-/

namespace EthCall.Abi

namespace Value

/-! ## Encodings of sequences -/

mutual

/-- **How long the encoding of a value is**, or would be if the value could
be encoded. -/
def extent : Value → Nat
  | bytes bs => (lengthPrefixed bs).length
  | string s => (lengthPrefixed (Bytes.ofText s)).length
  | array element items =>
    32 + (Schema.inlineSizes (List.replicate items.length element) + tailExtents items)
  | fixedArray element items =>
    Schema.inlineSizes (List.replicate items.length element) + tailExtents items
  | tuple items => Schema.inlineSizes (schemas items) + tailExtents items
  | _ => 32

/-- How long the tails of a sequence are, or would be. -/
def tailExtents : List Value → Nat
  | [] => 0
  | v :: vs => (if v.schema.isDynamic then extent v else 0) + tailExtents vs

end

end Value

end EthCall.Abi

namespace EthCall.Abi.Trapping

/-! ## Sizes -/

theorem size_of_le (excess : Excess) {n : Nat} (h : n ≤ maxSize) : size excess n = .ok n := by
  cases excess with
  | wraps =>
    show Except.ok (n % (maxSize + 1)) = _
    rw [Nat.mod_eq_of_lt (Nat.lt_succ_of_le h)]
  | traps => exact if_pos h

variable {α β : Type}

theorem run_bind_of_trap {w : Writing α} {f : α → Writing β} {trap : Trap}
    (h : w.run = .error trap) : (w >>= f).run = .error trap := by
  rw [ExceptT.run_bind, h]
  rfl

/-- **The writing does not trap, and comes to what the encoding comes to**:
to the same error, or to bytes. The bytes are the same if they are no more
than a size can count. -/
def Agrees (x : Except AbiError Bytes) (w : Writing Bytes) : Prop :=
  (∃ e, x = .error e ∧ w.run = .ok (.error e))
    ∨ ∃ bs bs', x = .ok bs ∧ w.run = .ok (.ok bs') ∧ (bs.length ≤ maxSize → bs' = bs)

/-- **The writing traps**, in a program that is compiled to do so where a
size is exceeded. -/
structure Overflows (excess : Excess) (w : Writing α) : Prop where
  /-- Sizes do not wrap. -/
  traps : excess = .traps
  /-- There is no result. -/
  run_eq : w.run = .error .overflow

variable {excess : Excess}

theorem Overflows.bind {w : Writing α} (h : Overflows excess w) (f : α → Writing β) :
    Overflows excess (w >>= f) :=
  ⟨h.traps, run_bind_of_trap h.run_eq⟩

/-! ## Values -/

/-- **The heads and tails written so far are those of the encoding**, which
has sizes without an end, as far as sizes reach. Of the tails that is a
matter of the offsets behind them, and of the heads it is one of the heads
that are still to come as well. -/
structure Keeps (headSize : Nat) (ss : List Schema) (heads tails fronts backs : Bytes) : Prop where
  /-- The tails are the same. -/
  tails_eq : headSize + backs.length ≤ maxSize → tails = backs
  /-- The heads are the same. -/
  heads_eq : fronts.length + Schema.inlineSizes ss ≤ maxSize →
    headSize + backs.length ≤ maxSize → heads = fronts

variable {headSize : Nat} {s : Schema} {ss : List Schema}
  {heads tails fronts backs body body' : Bytes}

/-- A value among the tails, with its offset among the heads. -/
theorem Keeps.dynamic (h : Keeps headSize (s :: ss) heads tails fronts backs)
    (hd : s.isDynamic = true) (hsame : body.length ≤ maxSize → body' = body) {offset : Nat}
    (hoffset : size excess (headSize + tails.length) = .ok offset) :
    Keeps headSize ss (heads ++ (Word.ofNat offset).bytes) (tails ++ body')
      (fronts ++ (Word.ofNat (headSize + backs.length)).bytes) (backs ++ body) where
  tails_eq hle := by
    rw [List.length_append] at hle
    rw [h.tails_eq (by omega), hsame (by omega)]
  heads_eq hfront hle := by
    have hinline : Schema.inlineSizes (s :: ss) = 32 + Schema.inlineSizes ss := by
      rw [Schema.inlineSizes, Schema.inlineSize_of_isDynamic hd]
    rw [List.length_append, FixedBytes.length_bytes] at hfront
    rw [List.length_append] at hle
    rw [h.tails_eq (by omega), size_of_le excess (by omega)] at hoffset
    rw [h.heads_eq (by omega) (by omega), Except.ok.inj hoffset]

variable {v : Value} {vs : List Value}

end EthCall.Abi.Trapping

namespace EthCall.Abi

end EthCall.Abi
