import EthCall.Proofs.Abi.Context
import EthCall.Proofs.Abi.Static
import Mathlib

/-!
# Where the next head is

Whoever reads a value returns the place behind its head, and the next
member of a sequence is read from there. Head sizes do not come into it.
The encoder, on the other hand, computes its offsets from head sizes, and
so does the check that an array has room for its items. Both have to speak
of the same places.

They do. A head that was read takes the bytes that its schema says
(`readPlaced_advances`), whatever stands there and however the value is
nested, and in a buffer those bytes are never so many that the head size
would have been held down. A sequence might therefore forget the places it
is told and compute them beforehand (`readAtHeads`): it would read the same
values, fail at the same place and charge for the same bytes.
-/

namespace EthCall.Abi

open Decoding

/-- **What follows depends on what can be returned**, and on nothing
else. -/
theorem Decoding.bind_congr_of_canReturn {α β : Type} {x : Decoding α} {f g : α → Decoding β}
    (h : ∀ a, x.CanReturn a → f a = g a) : x >>= f = x >>= g := by
  funext budget
  show (x >>= f).runFrom budget = (x >>= g).runFrom budget
  rw [runFrom_bind, runFrom_bind]
  rcases hx : x.runFrom budget with ⟨_ | a, rest⟩
  · rfl
  · exact congrArg (fun d => d.runFrom rest) (h a ⟨budget, rest, hx⟩)

/-! ## Heads -/

namespace Schema

/-- One offset is the head of what is dynamic. -/
theorem headSize_of_isDynamic {s : Schema} (h : s.isDynamic = true) : s.headSize = 32 := by
  rw [headSize_eq, inlineSize_of_isDynamic h]
  decide

/-- **The bytes of the heads that a value starts with.** They are all of a
static value. A dynamic one starts with the count of its bytes or items, or
with the heads of its members. -/
def frontSize (s : Schema) : Nat :=
  if s.isDynamic then
    match s with
    | fixedArray element size => size * element.headSize
    | tuple members => (members.map headSize).sum
    | _ => 32
  else s.headSize

theorem frontSize_of_static {s : Schema} (h : s.isDynamic = false) :
    s.frontSize = s.headSize := by
  unfold frontSize
  rw [h]
  rfl

end Schema

variable {b : Buffer} {base head offset next : Nat} {budget rest : Budget} {v : Value} {s : Schema}

/-- **A static value ends where its head does.** -/
theorem readValue_advances_of_static (hb : b.size ≤ maxSize) (hs : s.IsValid)
    (hd : s.isDynamic = false) (h : (readValue b s offset).Returns budget (v, next) rest) :
    next = offset + s.headSize ∧ next ≤ b.size := by
  obtain ⟨body, hbody, hheld, rfl⟩ := readsInPlace b s hs hd h
  obtain rfl : v.schema = s := (readsConforming b s hs h).encodes.1
  have hsize := hheld.le_size
  rw [Value.hasInlineSize v body hs hbody hd] at hsize ⊢
  -- what is in the buffer is too short to be held down
  rw [Schema.headSize_eq, Nat.min_eq_left (by omega)]
  exact ⟨rfl, hsize⟩

/-- **A head that was read takes its head size.** -/
theorem readPlaced_advances (hb : b.size ≤ maxSize) (hs : s.IsValid)
    (h : (readPlaced b base s.isDynamic (readValue b s) head).Returns budget (v, next) rest) :
    next = head + s.headSize ∧ next ≤ b.size := by
  cases hd : s.isDynamic with
  | false =>
    rw [hd, readPlaced_static] at h
    exact readValue_advances_of_static hb hs hd h
  | true =>
    rw [hd] at h
    obtain ⟨rfl, relative, -, hword, -⟩ := readPlaced_dynamic_returns.mp h
    rw [Schema.headSize_of_isDynamic hd]
    exact ⟨rfl, hword.word_le_size⟩

/-- Heads that were read one after the other take their head sizes. -/
theorem readMembers_advances (hb : b.size ≤ maxSize) {members : List Schema}
    (hvalid : ∀ s ∈ members, s.IsValid) {last : Nat} {vs : List Value} (hhead : head ≤ b.size)
    (h : (readMembers b base members head).Returns budget (vs, last) rest) :
    last = head + (members.map Schema.headSize).sum ∧ last ≤ b.size := by
  induction members generalizing head budget vs with
  | nil =>
    obtain ⟨-, rfl, -⟩ := readMembers_nil_returns.mp h
    exact ⟨rfl, hhead⟩
  | cons s members ih =>
    obtain ⟨hs, hvalid⟩ := List.forall_mem_cons.mp hvalid
    obtain ⟨v, ws, next, mid, -, hv, hws⟩ := readMembers_cons_returns.mp h
    obtain ⟨rfl, hnext⟩ := readPlaced_advances hb hs hv
    obtain ⟨rfl, hlast⟩ := ih hvalid hnext hws
    rw [List.map_cons, List.sum_cons, ← Nat.add_assoc]
    exact ⟨rfl, hlast⟩

/-- **A value that was read starts with heads of the sizes its schema
says**, and the cursor is left behind them. -/
theorem readValue_advances (hb : b.size ≤ maxSize) (hs : s.IsValid)
    (h : (readValue b s offset).Returns budget (v, next) rest) :
    next = offset + s.frontSize ∧ next ≤ b.size := by
  cases hd : s.isDynamic with
  | false =>
    rw [Schema.frontSize_of_static hd]
    exact readValue_advances_of_static hb hs hd h
  | true =>
    have hplace := offset_le_size hs h
    unfold Schema.frontSize
    rw [if_pos hd]
    cases s with
    | bytes =>
      obtain ⟨bs, hbs, -, rfl⟩ := readValue_bytes_returns.mp h
      exact ⟨rfl, (Buffer.lengthPrefixedAt_returns.mp hbs).2.1.word_le_size⟩
    | string =>
      obtain ⟨bs, -, hbs, -, -, rfl⟩ := readValue_string_returns.mp h
      exact ⟨rfl, (Buffer.lengthPrefixedAt_returns.mp hbs).2.1.word_le_size⟩
    | array element =>
      obtain ⟨items, last, -, rfl, -, hcount, -⟩ := readValue_array_returns.mp h
      exact ⟨rfl, hcount.word_le_size⟩
    | fixedArray element size =>
      obtain ⟨-, -, helement⟩ := Schema.isValid_fixedArray_iff.mp hs
      obtain ⟨items, -, -, hitems⟩ := readValue_fixedArray_returns.mp h
      have hadvances := readMembers_advances hb (List.forall_mem_replicate.mpr (.inr helement))
        hplace hitems
      rwa [List.map_replicate, List.sum_replicate, smul_eq_mul] at hadvances
    | tuple members =>
      obtain ⟨-, hmembers⟩ := Schema.isValid_tuple_iff.mp hs
      obtain ⟨items, -, hitems⟩ := readValue_tuple_returns.mp h
      exact readMembers_advances hb hmembers hplace hitems
    | _ => cases hd

/-! ## Places computed beforehand -/

/-- Read the member at a position of a sequence. Its head is as many bytes
from the base as the heads of the members in front of it take. The place
that reading it returns is dropped. -/
def readAtHead (b : Buffer) (base : Nat) (members : List Schema) (member : Schema × Nat) :
    Decoding Value := do
  let (v, _) ← readPlaced b base member.1.isDynamic (readValue b member.1)
    (base + ((members.take member.2).map Schema.headSize).sum)
  return v

/-- **Read a sequence from the places that head sizes give.** -/
def readAtHeads (b : Buffer) (base : Nat) (members : List Schema) : Decoding (List Value) :=
  members.zipIdx.mapM (readAtHead b base members)

/-- What is left of a sequence is read from behind the heads in front of
it. -/
theorem readMembers_eq_mapM (hb : b.size ≤ maxSize) {members front back : List Schema}
    (hmembers : members = front ++ back) (hvalid : ∀ s ∈ back, s.IsValid) :
    readMembers b base back (base + (front.map Schema.headSize).sum)
      = do
        let vs ← (back.zipIdx front.length).mapM (readAtHead b base members)
        return (vs, base + (members.map Schema.headSize).sum) := by
  induction back generalizing front with
  | nil =>
    rw [hmembers, List.append_nil]
    rfl
  | cons s back ih =>
    obtain ⟨hs, hvalid⟩ := List.forall_mem_cons.mp hvalid
    have hsplit : members = front ++ [s] ++ back := by
      rw [hmembers, List.append_assoc, List.singleton_append]
    have hfront : members.take front.length = front := by
      rw [hmembers, List.take_left]
    rw [readMembers, List.zipIdx_cons, List.mapM_cons, readAtHead, hfront]
    simp only [bind_assoc, pure_bind]
    refine bind_congr_of_canReturn ?_
    rintro ⟨v, next⟩ ⟨_, _, hread⟩
    -- the place that is returned is the one computed for what is left
    obtain ⟨rfl, -⟩ := readPlaced_advances hb hs hread
    have hrest := ih hsplit hvalid
    rw [List.map_append, List.sum_append, List.map_singleton, List.sum_singleton,
      ← Nat.add_assoc, List.length_append, List.length_singleton] at hrest
    show readMembers b base back _ >>= _ = _
    rw [hrest]
    simp only [bind_assoc, pure_bind]

/-- **The cursor counts heads.** Whoever reads a value at an offset is told
the place behind its front: behind the head size of a static value, behind
a word of one that starts with a count, behind the head sizes of the
members or items of any other; and that place is in the buffer. So the head
of every member of a sequence is read at the base and as many bytes on as
the head sizes of the members in front of it add up to. -/
theorem cursor_counts_heads {data : Bytes} (hdata : data.length < 2 ^ 64) :
    (∀ (s : Schema) (offset next : Nat) (v : Value) (budget rest : Budget), s.IsValid →
      (readValue (Buffer.ofBytes data) s offset).Returns budget (v, next) rest →
      next = offset + s.frontSize ∧ next ≤ data.length)
    ∧ (∀ (s : Schema) (offset next : Nat) (v : Value),
      decodeValueAt data s offset = .ok (v, next) →
      next = offset + s.frontSize ∧ next ≤ data.length)
    ∧ ∀ (members : List Schema) (base : Nat), (∀ s ∈ members, s.IsValid) →
      readMembers (Buffer.ofBytes data) base members base
        = do
          let vs ← readAtHeads (Buffer.ofBytes data) base members
          return (vs, base + (members.map Schema.headSize).sum) := by
  have hb : (Buffer.ofBytes data).size ≤ maxSize := by
    rw [Buffer.size_ofBytes, maxSize_eq]
    omega
  have hread : ∀ (s : Schema) (offset next : Nat) (v : Value) (budget rest : Budget), s.IsValid →
      (readValue (Buffer.ofBytes data) s offset).Returns budget (v, next) rest →
      next = offset + s.frontSize ∧ next ≤ data.length := by
    intro s offset next v budget rest hs h
    have hadvances := readValue_advances hb hs h
    rwa [Buffer.size_ofBytes] at hadvances
  refine ⟨hread, fun s offset next v h => ?_, fun members base hvalid => ?_⟩
  · obtain ⟨hs, rest, hreturns⟩ := decodeValueAt_eq_ok_iff.mp h
    exact hread s offset next v _ rest hs hreturns
  · exact readMembers_eq_mapM hb (List.nil_append members).symm hvalid

/-- A pair that stands in place, in front of a byte string that does
not. -/
def pairThenBytes : List Schema := [.tuple [.uint 8, .bool], .bytes]

/-- Two words, an offset, and what it points at. -/
def pairThenBytesData : Bytes :=
  (Word.ofNat 7).bytes ++ (Word.ofNat 1).bytes ++ (Word.ofNat 96).bytes
    ++ (Word.ofNat 1).bytes ++ [0x61]

/-- The offset is read behind both words of the pair. -/
theorem cursor_counts_heads_behind_pair :
    pairThenBytesData.length < 2 ^ 64
    ∧ (∀ s ∈ pairThenBytes, s.IsValid)
    ∧ decodeValueAt pairThenBytesData (.tuple pairThenBytes) 0
      = .ok (.tuple [.tuple [.uint 8 7, .bool true], .bytes [0x61]], 96)
    ∧ 96 = 0 + (Schema.tuple pairThenBytes).frontSize
    ∧ readMembers (Buffer.ofBytes pairThenBytesData) 0 pairThenBytes 0
      = do
        let vs ← readAtHeads (Buffer.ofBytes pairThenBytesData) 0 pairThenBytes
        return (vs, 96) := by
  have hlength : pairThenBytesData.length < 2 ^ 64 := by decide +kernel
  have hvalid : ∀ s ∈ pairThenBytes, s.IsValid := by decide +kernel
  have hdecode : decodeValueAt pairThenBytesData (.tuple pairThenBytes) 0
      = .ok (.tuple [.tuple [.uint 8 7, .bool true], .bytes [0x61]], 96) := by decide +kernel
  obtain ⟨-, hcursor, hplaces⟩ := cursor_counts_heads hlength
  exact ⟨hlength, hvalid, hdecode, (hcursor _ _ _ _ hdecode).1, hplaces _ 0 hvalid⟩

end EthCall.Abi
