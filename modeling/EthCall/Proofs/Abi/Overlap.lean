import EthCall.Proofs.Abi.Budget
import EthCall.Proofs.Abi.Soundness

/-!
# What the budget is for

The budget bounds what is decoded, and it does not get in the way. What is
returned costs no more than there are bytes, however the offsets share
them. And where decoding gives up because the bytes are used up, some byte
was in fact charged for twice (`decode_within_budget`).

The second half counts. As long as every charge goes through, what remains
and what was charged for add up to the size of the buffer
(`Budget.Balanced`). The charge that is refused is booked as well, and
with it more was charged for than there are bytes (`Budget.Overdrawn`).
All these stretches lie in the buffer, where stretches of that length
cannot all lie apart (`Span.exists_overlap`).
-/

namespace EthCall.Abi

open Decoding

/-! ## Stretches that lie apart -/

namespace Span

/-- A place is in a stretch. -/
def Covers (span : Span) (place : Nat) : Prop :=
  span.offset ≤ place ∧ place < span.offset + span.length

/-- Two stretches have a place in common. -/
def Overlaps (s t : Span) : Prop := ∃ place, s.Covers place ∧ t.Covers place

/-- The places in a stretch. -/
def places (span : Span) : Finset Nat := Finset.Ico span.offset (span.offset + span.length)

theorem mem_places {span : Span} {place : Nat} : place ∈ span.places ↔ span.Covers place :=
  Finset.mem_Ico

theorem card_places (span : Span) : span.places.card = span.length := by
  rw [places, Nat.card_Ico, Nat.add_sub_cancel_left]

/-- The places in some of the stretches. -/
def allPlaces : List Span → Finset Nat
  | [] => ∅
  | span :: spans => span.places ∪ allPlaces spans

/-- A place among those of all stretches is in one of them. -/
theorem mem_allPlaces {spans : List Span} {place : Nat} :
    place ∈ allPlaces spans ↔ ∃ span ∈ spans, span.Covers place := by
  induction spans with
  | nil => simp [allPlaces]
  | cons span spans ih =>
    rw [allPlaces, Finset.mem_union, mem_places, ih, List.exists_mem_cons_iff]

/-- How long stretches are, taken together. -/
def total (spans : List Span) : Nat := (spans.map Span.length).sum

/-- **Stretches that lie apart have as many places as they are long.** -/
theorem card_allPlaces {spans : List Span} (h : spans.Pairwise fun s t => ¬ s.Overlaps t) :
    (allPlaces spans).card = total spans := by
  induction h with
  | nil => rfl
  | @cons span spans hspan _ ih =>
    have hdisjoint : Disjoint span.places (allPlaces spans) := by
      refine Finset.disjoint_left.mpr fun place hplace hall => ?_
      obtain ⟨other, hother, hcovers⟩ := mem_allPlaces.mp hall
      exact hspan other hother ⟨place, mem_places.mp hplace, hcovers⟩
    rw [allPlaces, Finset.card_union_of_disjoint hdisjoint, card_places, ih]
    rfl

/-- **Where more is charged for than there is, some of it is charged for
twice.** -/
theorem exists_overlap {b : Buffer} {spans : List Span} (hinside : ∀ s ∈ spans, s.Inside b)
    (htotal : b.size < total spans) : ∃ s t, [s, t].Sublist spans ∧ s.Overlaps t := by
  by_contra hnone
  have hapart : spans.Pairwise fun s t => ¬ s.Overlaps t :=
    List.pairwise_iff_forall_sublist.mpr fun {s t} hst hoverlaps =>
      hnone ⟨s, t, hst, hoverlaps⟩
  have hsubset : allPlaces spans ⊆ Finset.range b.size := by
    intro place hplace
    obtain ⟨span, hspan, hcovers⟩ := mem_allPlaces.mp hplace
    exact Finset.mem_range.mpr (Nat.lt_of_lt_of_le hcovers.2 (hinside span hspan))
  have hcard := Finset.card_le_card hsubset
  rw [card_allPlaces hapart, Finset.card_range] at hcard
  omega

end Span

/-! ## The books -/

namespace Budget

/-- **What remains and what was charged for add up**, and nothing was
charged for but bytes of the buffer. -/
structure Balanced (b : Buffer) (budget : Budget) : Prop where
  /-- The stretches are stretches of the buffer. -/
  inside : ∀ span ∈ budget.charged, span.Inside b
  /-- No byte went uncounted. -/
  remaining_add_total : budget.remaining + Span.total budget.charged = b.size

/-- **More was charged for than there is.** -/
structure Overdrawn (b : Buffer) (budget : Budget) : Prop where
  /-- The stretches are stretches of the buffer. -/
  inside : ∀ span ∈ budget.charged, span.Inside b
  /-- They are too long to lie apart. -/
  size_lt_total : b.size < Span.total budget.charged

theorem balanced_ofBuffer (b : Buffer) : (ofBuffer b).Balanced b where
  inside _ h := absurd h List.not_mem_nil
  remaining_add_total := rfl

variable {b : Buffer} {budget : Budget} {span : Span}

theorem total_spend : Span.total (budget.spend span).charged
    = span.length + Span.total budget.charged := rfl

theorem Balanced.inside_spend (h : budget.Balanced b) (hspan : span.Inside b) :
    ∀ s ∈ (budget.spend span).charged, s.Inside b :=
  List.forall_mem_cons.mpr ⟨hspan, h.inside⟩

/-- A charge that goes through. -/
theorem Balanced.spend (h : budget.Balanced b) (hspan : span.Inside b)
    (hle : span.length ≤ budget.remaining) : (budget.spend span).Balanced b where
  inside := h.inside_spend hspan
  remaining_add_total := by
    have hsum := h.remaining_add_total
    show budget.remaining - span.length + _ = _
    rw [total_spend]
    omega

/-- A charge that is refused. -/
theorem Balanced.overdraw (h : budget.Balanced b) (hspan : span.Inside b)
    (hlt : budget.remaining < span.length) : (budget.spend span).Overdrawn b where
  inside := h.inside_spend hspan
  size_lt_total := by
    have hsum := h.remaining_add_total
    rw [total_spend]
    omega

end Budget

namespace Decoding

/-- **A computation that keeps the books**: they balance when it returns,
and when it finds the bytes used up, they are. -/
structure KeepsBooks {α : Type} (b : Buffer) (d : Decoding α) : Prop where
  /-- Whatever it returns, the books balance. -/
  balanced ⦃budget rest : Budget⦄ ⦃a : α⦄ (h : budget.Balanced b)
    (hreturns : d.Returns budget a rest) : rest.Balanced b
  /-- When it says that too much was charged for, so it was. -/
  overdrawn ⦃budget rest : Budget⦄ (h : budget.Balanced b)
    (hfails : d.Fails budget (.corrupt .overlap) rest) : rest.Overdrawn b

/-- The books are kept charge by charge. -/
theorem closed_keepsBooks (b : Buffer) : Closed b fun d => KeepsBooks b d where
  of_pure a := {
    balanced := fun budget rest _ h hreturns => by
      obtain ⟨-, rfl⟩ := returns_pure.mp hreturns
      exact h
    overdrawn := fun _ _ _ hfails => absurd hfails not_fails_pure }
  of_throw he := {
    balanced := fun _ _ _ _ hreturns => absurd hreturns not_returns_throw
    overdrawn := fun _ _ _ hfails => by
      -- the only refusal that is not found in the data is that of a charge
      obtain ⟨rfl, -⟩ := fails_throw.mp hfails
      exact he.elim }
  of_bind hx hf := {
    balanced := fun budget rest _ h hreturns => by
      obtain ⟨a, mid, hfirst, hsecond⟩ := returns_bind.mp hreturns
      exact (hf a ⟨_, _, hfirst⟩).balanced (hx.balanced h hfirst) hsecond
    overdrawn := fun budget rest h hfails => by
      rcases fails_bind.mp hfails with hfirst | ⟨a, mid, hfirst, hsecond⟩
      · exact hx.overdrawn h hfirst
      · exact (hf a ⟨_, _, hfirst⟩).overdrawn (hx.balanced h hfirst) hsecond }
  of_charge hspan := {
    balanced := fun budget rest _ h hreturns => by
      obtain ⟨hle, rfl⟩ := charge_returns.mp hreturns
      exact h.spend hspan hle
    overdrawn := fun budget rest h hfails => by
      obtain ⟨hlt, -, rfl⟩ := charge_fails.mp hfails
      exact h.overdraw hspan hlt }

end Decoding

/-! ## Decoding byte strings -/

/-- **The stretches that decoding charges for**, the latest first: a word
for each scalar and each count, and each payload with the word of its
length. A charge that is refused is one of them. -/
def charges (data : Bytes) (schemas : List Schema) : List Span :=
  let b := Buffer.ofBytes data
  ((readMembers b 0 schemas 0).runFrom (Budget.ofBuffer b)).2.charged

/-- **The budget bounds what is decoded, and punishes only overlaps.** The
values returned cost no more than there are bytes; and where decoding says
that more was decoded than there are bytes, two of its charges are for the
same byte. -/
theorem decode_within_budget (data : Bytes) (schemas : List Schema) :
    (∀ values, decode data schemas = .ok values → Value.costs values ≤ data.length)
    ∧ (decode data schemas = .error (.corrupt .overlap) →
      ∃ s t, [s, t].Sublist (charges data schemas)
        ∧ ∃ place < data.length, s.Covers place ∧ t.Covers place) := by
  refine ⟨fun values h => ?_, fun h => ?_⟩
  · obtain ⟨hvalid, -, last, rest, hread⟩ := decode_eq_ok_iff.mp h
    have hcosts : rest.remaining + Value.costs values = (Buffer.ofBytes data).size :=
      remaining_add_costs hvalid hread
    rw [Buffer.size_ofBytes] at hcosts
    omega
  · rcases invalidType_or_fails_of_decode h with ⟨cause, he⟩ | ⟨rest, hfails⟩
    · cases he
    have hcharges : charges data schemas = rest.charged :=
      congrArg (fun run => run.2.charged) hfails
    have hbooks := (closed_keepsBooks (Buffer.ofBytes data)).readMembers 0 schemas 0
    have hover := hbooks.overdrawn (Budget.balanced_ofBuffer _) hfails
    obtain ⟨s, t, hst, place, hs, ht⟩ := Span.exists_overlap hover.inside hover.size_lt_total
    have hinside : s.offset + s.length ≤ (Buffer.ofBytes data).size :=
      hover.inside s (hst.subset List.mem_cons_self)
    rw [Buffer.size_ofBytes] at hinside
    rw [hcharges]
    exact ⟨s, t, hst, place, Nat.lt_of_lt_of_le hs.2 hinside, hs, ht⟩

/-- Two byte strings that stand at the same place, and have so many zero
bytes. -/
def sharedTail (len : Nat) : Bytes :=
  (Word.ofNat 64).bytes ++ (Word.ofNat 64).bytes ++ (Word.ofNat len).bytes ++ Bytes.zeros len

/-- With 32 bytes the offsets leave just enough to charge for the tail
twice. With one byte more there is too little, and the tail is what was
charged for twice. -/
theorem decode_within_budget_sharedTail :
    (∃ values, decode (sharedTail 32) [.bytes, .bytes] = .ok values
      ∧ Value.costs values ≤ (sharedTail 32).length)
    ∧ decode (sharedTail 33) [.bytes, .bytes] = .error (.corrupt .overlap)
    ∧ ∃ s t, [s, t].Sublist (charges (sharedTail 33) [.bytes, .bytes])
      ∧ ∃ place < (sharedTail 33).length, s.Covers place ∧ t.Covers place :=
  have hok : decode (sharedTail 32) [.bytes, .bytes]
      = .ok [.bytes (Bytes.zeros 32), .bytes (Bytes.zeros 32)] := by decide +kernel
  have hover : decode (sharedTail 33) [.bytes, .bytes] = .error (.corrupt .overlap) := by
    decide +kernel
  ⟨⟨_, hok, (decode_within_budget _ _).1 _ hok⟩, hover, (decode_within_budget _ _).2 hover⟩

end EthCall.Abi
