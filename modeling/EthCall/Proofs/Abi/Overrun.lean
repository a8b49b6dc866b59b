import EthCall.Proofs.Abi.Reading

/-!
# Readings that reach beyond the end

A buffer may end before what is to be read from it does. Every reader then
fails for this reason, and for no other: whether a stretch is inside the
buffer is looked at before anything else about it is. One lemma for each
reader says which stretch it may be that is missing, and what has to be
there for the reader to come to it.
-/

namespace EthCall.Abi

open Decoding

/-! ## Runs -/

namespace Decoding

variable {α β : Type}

/-- **The run fails because it reaches beyond the end of a buffer.** -/
def Overruns (d : Decoding α) (b : Buffer) (budget : Budget) : Prop :=
  ∃ offset len rest, d.Fails budget (.outOfBounds offset len b.size) rest

variable {b : Buffer} {x : Decoding α} {f : α → Decoding β} {budget mid : Budget} {a : α}

/-- A sequence fails where its first part does. -/
theorem Overruns.bind (h : x.Overruns b budget) : (x >>= f).Overruns b budget := by
  obtain ⟨offset, len, rest, h⟩ := h
  exact ⟨offset, len, rest, fails_bind.mpr (.inl h)⟩

/-- It fails where its second part does, after the first. -/
theorem overruns_bind_of_returns (hx : x.Returns budget a mid) (h : (f a).Overruns b mid) :
    (x >>= f).Overruns b budget := by
  obtain ⟨offset, len, rest, h⟩ := h
  exact ⟨offset, len, rest, fails_bind.mpr (.inr ⟨a, mid, hx, h⟩)⟩

end Decoding

variable {b : Buffer} {budget : Budget} {offset : Nat}

/-! ## Words, sizes, byte strings -/

namespace Buffer

/-- A stretch that is not inside the buffer. -/
theorem ensure_overruns {len : Nat} (h : b.size < offset + len) :
    (b.ensure offset len).Overruns b budget := by
  unfold ensure
  rw [if_neg (Nat.not_le.mpr h)]
  exact ⟨offset, len, budget, fails_throw.mpr ⟨rfl, rfl⟩⟩

/-- A word that is not. -/
theorem word_overruns (h : b.size < offset + 32) : (b.word offset).Overruns b budget := by
  unfold word
  rw [dif_neg (Nat.not_le.mpr h)]
  exact ⟨offset, 32, budget, fails_throw.mpr ⟨rfl, rfl⟩⟩

/-- Nor then can it be read as a scalar, -/
theorem scalar_overruns (h : b.size < offset + 32) : (b.scalar offset).Overruns b budget :=
  (word_overruns h).bind

/-- or as a size. -/
theorem sizeAt_overruns {role : SizeRole} (h : b.size < offset + 32) :
    (b.sizeAt offset role).Overruns b budget :=
  (word_overruns h).bind

/-- A byte string that the buffer ends in, or whose length it ends in. -/
theorem lengthPrefixedAt_overruns {bs : Bytes} (hmax : bs.length ≤ maxSize)
    (hlen : offset + 32 ≤ b.size → b.Holds offset (Word.ofNat bs.length).bytes)
    (h : b.size < offset + 32 + bs.length) : (b.lengthPrefixedAt offset).Overruns b budget := by
  rcases Nat.lt_or_ge b.size (offset + 32) with hword | hword
  · exact (sizeAt_overruns hword).bind
  · exact overruns_bind_of_returns (sizeAt_returns.mpr ⟨hmax, hlen hword, rfl⟩)
      (ensure_overruns h).bind

/-- What follows the room for some items is read, or there is no room. -/
theorem overruns_behind_ensureItems {α : Type} {base count : Nat} {element : Schema}
    {f : Unit → Decoding α}
    (h : base + min (count * element.headSize) maxSize ≤ b.size → (f ()).Overruns b budget) :
    (b.ensureItems base count element >>= f).Overruns b budget := by
  rcases Nat.lt_or_ge b.size (base + min (count * element.headSize) maxSize) with hroom | hroom
  · exact (ensure_overruns hroom).bind
  · exact overruns_bind_of_returns (ensureItems_returns.mpr ⟨hroom, rfl⟩) (h hroom)

end Buffer

/-! ## Values -/

/-- Computes the equations of the reader, which the proofs below rewrite
with. -/
example : readValue b .bytes offset = (do
    let bs ← b.lengthPrefixedAt offset
    return (.bytes bs, offset + 32)) := by
  rw [readValue]

/-- A scalar whose word is not inside the buffer. -/
theorem readValue_scalar_overruns {s : Schema} (hscalar : s.isScalar = true)
    (h : b.size < offset + 32) : (readValue b s offset).Overruns b budget := by
  cases s with
  | uint | int | address | bool | fixedBytes =>
    rw [readValue]
    exact (Buffer.scalar_overruns h).bind
  | _ => cases hscalar

/-- A byte string or a text, -/
theorem readValue_bytes_overruns (h : (b.lengthPrefixedAt offset).Overruns b budget) :
    (readValue b .bytes offset).Overruns b budget := by
  rw [readValue]
  exact h.bind

/-- whether it is UTF-8 or not. -/
theorem readValue_string_overruns (h : (b.lengthPrefixedAt offset).Overruns b budget) :
    (readValue b .string offset).Overruns b budget := by
  rw [readValue]
  exact h.bind

/-- An array whose count is not inside the buffer. -/
theorem readValue_array_overruns_of_lt {element : Schema} (h : b.size < offset + 32) :
    (readValue b (.array element) offset).Overruns b budget := by
  rw [readValue]
  exact (Buffer.sizeAt_overruns h).bind

/-- An array whose count stands in the buffer, and whose items reach beyond
it. -/
theorem readValue_array_overruns {element : Schema} {count : Nat} (hmax : count ≤ maxSize)
    (hcount : b.Holds offset (Word.ofNat count).bytes) (hcharge : 32 ≤ budget.remaining)
    (h : (readMembers b (offset + 32) (List.replicate count element) (offset + 32)).Overruns b
      (budget.spend ⟨offset, 32⟩)) :
    (readValue b (.array element) offset).Overruns b budget := by
  rw [readMembers_replicate] at h
  rw [readValue]
  refine overruns_bind_of_returns (Buffer.sizeAt_returns.mpr ⟨hmax, hcount, rfl⟩) ?_
  refine overruns_bind_of_returns (charge_returns (u := ()).mpr ⟨hcharge, rfl⟩) ?_
  exact Buffer.overruns_behind_ensureItems fun _ => h.bind

/-- A fixed array whose items reach beyond the buffer. -/
theorem readValue_fixedArray_overruns {element : Schema} {count : Nat}
    (h : (readMembers b offset (List.replicate count element) offset).Overruns b budget) :
    (readValue b (.fixedArray element count) offset).Overruns b budget := by
  rw [readMembers_replicate] at h
  rw [readValue]
  exact Buffer.overruns_behind_ensureItems fun _ => h.bind

/-- A tuple whose members do. -/
theorem readValue_tuple_overruns {members : List Schema}
    (h : (readMembers b offset members offset).Overruns b budget) :
    (readValue b (.tuple members) offset).Overruns b budget := by
  rw [readValue]
  exact h.bind

/-- A value that is read where its place points. -/
theorem readPlaced_dynamic_overruns {base head relative : Nat}
    {read : Nat → Decoding (Value × Nat)} (hmax : base + relative ≤ maxSize)
    (hword : b.Holds head (Word.ofNat relative).bytes)
    (h : (read (base + relative)).Overruns b budget) :
    (readPlaced b base true read head).Overruns b budget := by
  unfold readPlaced
  rw [if_pos rfl]
  refine overruns_bind_of_returns (Buffer.sizeAt_returns.mpr ⟨by omega, hword, rfl⟩) ?_
  refine overruns_bind_of_returns (target_returns.mpr ⟨rfl, hmax, rfl⟩) ?_
  exact h.bind

/-- A value whose place is not inside the buffer. -/
theorem readPlaced_dynamic_overruns_of_lt {base head : Nat}
    {read : Nat → Decoding (Value × Nat)} (h : b.size < head + 32) :
    (readPlaced b base true read head).Overruns b budget := by
  unfold readPlaced
  rw [if_pos rfl]
  exact (Buffer.sizeAt_overruns h).bind

/-- Members of which the first one reaches beyond the buffer, -/
theorem readMembers_overruns_of_first {base head : Nat} {s : Schema} {ss : List Schema}
    (h : (readPlaced b base s.isDynamic (readValue b s) head).Overruns b budget) :
    (readMembers b base (s :: ss) head).Overruns b budget := by
  rw [readMembers]
  exact h.bind

/-- or one of the others. -/
theorem readMembers_overruns_of_rest {base head next : Nat} {s : Schema} {ss : List Schema}
    {v : Value} {mid : Budget}
    (hv : (readPlaced b base s.isDynamic (readValue b s) head).Returns budget (v, next) mid)
    (h : (readMembers b base ss next).Overruns b mid) :
    (readMembers b base (s :: ss) head).Overruns b budget := by
  rw [readMembers]
  exact overruns_bind_of_returns hv h.bind

end EthCall.Abi
