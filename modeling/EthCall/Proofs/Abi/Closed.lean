import EthCall.Proofs.Abi.Reading

/-!
# Properties of all readers

Every reader is put together from four things. It returns something, it
refuses the bytes, it charges for a stretch of them, or it goes on with
what a first part has returned. A property that these have, and keep, is
**closed** (`Decoding.Closed`), and is one of the reader of any schema from
any offset (`Decoding.Closed.readValue`).

Two things are asked of less than they could be. Only a stretch of the
buffer is ever charged for, and a second part only ever goes on with what
the first one can return; the second is how the first comes to be known,
since it was a reading of these bytes that went before.
-/

namespace EthCall.Abi

open Decoding

/-- An error that a reader finds in the bytes, rather than in what has been
charged for them. -/
def AbiError.FoundInData : AbiError → Prop
  | .corrupt .overlap => False
  | .corrupt _ => True
  | .outOfBounds _ _ _ => True
  | _ => False

/-- A stretch of the buffer. -/
def Span.Inside (b : Buffer) (span : Span) : Prop := span.offset + span.length ≤ b.size

namespace Decoding

/-- Some budget makes it return that. -/
def CanReturn {α : Type} (d : Decoding α) (a : α) : Prop :=
  ∃ budget rest, d.Returns budget a rest

/-- **A property that what readers are made of has.** -/
structure Closed (b : Buffer) (P : ∀ {α : Type}, Decoding α → Prop) : Prop where
  /-- What returns has it. -/
  of_pure {α : Type} (a : α) : P (pure a : Decoding α)
  /-- What refuses the bytes has it. -/
  of_throw {α : Type} {e : AbiError} (he : e.FoundInData) : P (throw e : Decoding α)
  /-- A sequence has it if its parts have it. -/
  of_bind {α β : Type} {x : Decoding α} {f : α → Decoding β} (hx : P x)
    (hf : ∀ a, x.CanReturn a → P (f a)) : P (x >>= f)
  /-- A charge for a stretch of the buffer has it. -/
  of_charge {span : Span} (h : span.Inside b) : P (charge span)

/-- The word of a size stands in the buffer. -/
theorem CanReturn.inside_of_sizeAt {b : Buffer} {offset n : Nat} {role : SizeRole}
    (h : (b.sizeAt offset role).CanReturn n) : Span.Inside b ⟨offset, 32⟩ := by
  obtain ⟨_, _, hread⟩ := h
  exact (Buffer.sizeAt_returns.mp hread).2.1.word_le_size

namespace Closed

variable {b : Buffer} {P : ∀ {α : Type}, Decoding α → Prop} (hP : Closed b P)
include hP

/-- A check that refuses the bytes. -/
theorem guard {α : Type} {c : Prop} [Decidable c] {x : Decoding α} {e : AbiError} (hx : P x)
    (he : e.FoundInData) : P (if c then x else throw e : Decoding α) := by
  by_cases h : c
  · rw [if_pos h]
    exact hx
  · rw [if_neg h]
    exact hP.of_throw he

/-- A last step that only puts the result together. -/
theorem map {α β : Type} {x : Decoding α} (hx : P x) (g : α → β) :
    P (x >>= fun a => pure (g a)) :=
  hP.of_bind hx fun a _ => hP.of_pure (g a)

/-! ## Reading from the buffer -/

variable (offset : Nat)

theorem ensure (len : Nat) : P (b.ensure offset len) :=
  hP.guard (hP.of_pure ()) trivial

theorem word : P (b.word offset) := by
  unfold Buffer.word
  split
  · exact hP.of_pure _
  · exact hP.of_throw trivial

theorem scalar : P (b.scalar offset) := by
  refine hP.of_bind (hP.word offset) fun w hw => ?_
  have hinside : Span.Inside b ⟨offset, 32⟩ := by
    obtain ⟨_, _, hread⟩ := hw
    exact (Buffer.word_returns.mp hread).1.word_le_size
  exact hP.map (hP.of_charge hinside) _

theorem sizeAt (role : SizeRole) : P (b.sizeAt offset role) := by
  refine hP.of_bind (hP.word offset) fun w _ => ?_
  split
  · exact hP.of_pure _
  · exact hP.of_throw trivial

theorem lengthPrefixedAt : P (b.lengthPrefixedAt offset) := by
  refine hP.of_bind (hP.sizeAt offset .length) fun len _ => ?_
  refine hP.of_bind (hP.ensure _ len) fun _ hroom => ?_
  have hinside : Span.Inside b ⟨offset, 32 + len⟩ := by
    obtain ⟨_, _, hroom⟩ := hroom
    have hsize := (Buffer.ensure_returns.mp hroom).1
    rwa [Nat.add_assoc] at hsize
  exact hP.map (hP.of_charge hinside) _

/-! ## Reading values -/

/-- A value in its place, or where the offset in its place points. -/
theorem readPlaced (base : Nat) (isDynamic : Bool) {read : Nat → Decoding (Value × Nat)}
    (hread : ∀ offset, P (read offset)) (head : Nat) :
    P (readPlaced b base isDynamic read head) := by
  cases isDynamic with
  | false => exact hread head
  | true =>
    refine hP.of_bind (hP.sizeAt head .offset) fun relative _ => ?_
    refine hP.of_bind (hP.guard (hP.of_pure _) trivial) fun place _ => ?_
    exact hP.map (hread place) _

/-- Members, if the reader of each of them has it. -/
theorem readMembers_of_forall {members : List Schema}
    (hmembers : ∀ s ∈ members, ∀ offset, P (readValue b s offset)) (base head : Nat) :
    P (readMembers b base members head) := by
  induction members generalizing head with
  | nil => exact hP.of_pure _
  | cons s members ih =>
    obtain ⟨hs, hmembers⟩ := List.forall_mem_cons.mp hmembers
    rw [readMembers]
    refine hP.of_bind (hP.readPlaced base s.isDynamic hs head) ?_
    rintro ⟨v, next⟩ -
    exact hP.map (ih hmembers next) _

/-- The items of an array, which are read as members are. -/
theorem readRepeated {element : Schema} (helement : ∀ offset, P (readValue b element offset))
    (base count head : Nat) :
    P (readRepeated (Abi.readPlaced b base element.isDynamic (readValue b element)) count
      head) := by
  rw [← readMembers_replicate]
  exact hP.readMembers_of_forall (List.forall_mem_replicate.mpr (.inr helement)) base head

/-- A scalar, which is one word and a check on it. -/
theorem readValue_of_isScalar {s : Schema} (hscalar : s.isScalar = true) :
    P (readValue b s offset) := by
  cases s with
  | bool =>
    rw [readValue]
    refine hP.of_bind (hP.scalar offset) fun w _ => ?_
    split
    · exact hP.of_pure _
    · exact hP.of_pure _
    · exact hP.of_throw trivial
  | uint | int | address | fixedBytes =>
    rw [readValue]
    exact hP.of_bind (hP.scalar offset) fun w _ => hP.guard (hP.of_pure _) trivial
  | _ => cases hscalar

/-- **What is closed is a property of every reader**, for any schema and
from any offset. -/
theorem readValue (s : Schema) : P (readValue b s offset) := by
  induction s using Schema.ind generalizing offset with
  | scalar s hscalar => exact hP.readValue_of_isScalar offset hscalar
  | bytes =>
    rw [Abi.readValue]
    exact hP.map (hP.lengthPrefixedAt offset) _
  | string =>
    rw [Abi.readValue]
    refine hP.of_bind (hP.lengthPrefixedAt offset) fun bs _ => ?_
    split
    · exact hP.of_pure _
    · exact hP.of_throw trivial
  | array element ih =>
    rw [Abi.readValue]
    refine hP.of_bind (hP.sizeAt offset .arrayLength) fun count hcount => ?_
    refine hP.of_bind (hP.of_charge hcount.inside_of_sizeAt) fun _ _ => ?_
    refine hP.of_bind (hP.ensure _ _) fun _ _ => ?_
    exact hP.map (hP.readRepeated ih _ _ _) _
  | fixedArray element size ih =>
    rw [Abi.readValue]
    refine hP.of_bind (hP.ensure _ _) fun _ _ => ?_
    exact hP.map (hP.readRepeated ih _ _ _) _
  | tuple members ih =>
    rw [Abi.readValue]
    exact hP.map (hP.readMembers_of_forall ih _ _) _

/-- The same for several values. -/
theorem readMembers (base : Nat) (members : List Schema) (head : Nat) :
    P (readMembers b base members head) :=
  hP.readMembers_of_forall (fun s _ offset => hP.readValue offset s) base head

end Closed

end Decoding

end EthCall.Abi
