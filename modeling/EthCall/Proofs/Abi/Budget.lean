import EthCall.Proofs.Abi.Reading

/-!
# What decoding charges

Every value has a **cost** (`Value.cost`): a word for each scalar and each
length, and the payload of each byte string and text. A reading that
returns a value has charged for its cost, neither more nor less
(`remaining_add_cost`), and no encoding is shorter than the cost of what
it encodes (`Value.cost_le_length`).
-/

namespace EthCall.Abi

open Decoding

namespace Value

mutual

/-- **The bytes a value is charged for.** -/
def cost : Value → Nat
  | bytes bs => 32 + bs.length
  | string s => 32 + (Bytes.ofText s).length
  | array _ items => 32 + costs items
  | fixedArray _ items => costs items
  | tuple items => costs items
  | _ => 32

/-- The bytes several values are charged for. -/
def costs : List Value → Nat
  | [] => 0
  | item :: rest => cost item + costs rest

end

/-- A scalar costs its word. -/
theorem cost_of_isScalar {v : Value} (h : v.schema.isScalar = true) : v.cost = 32 := by
  cases v <;> first | rfl | cases h

end Value

/-! ## Charges of a reading -/

variable {b : Buffer}

/-- **A reader charges the cost of what it returns.** -/
def ChargesCost (b : Buffer) (s : Schema) : Prop :=
  ∀ ⦃offset next : Nat⦄ ⦃budget rest : Budget⦄ ⦃v : Value⦄, s.IsValid →
    (readValue b s offset).Returns budget (v, next) rest →
    rest.remaining + v.cost = budget.remaining

/-- Members are charged one after the other. -/
theorem remaining_add_costs_of_chargesCost {members : List Schema}
    (hmembers : ∀ s ∈ members, ChargesCost b s) (hvalid : ∀ s ∈ members, s.IsValid)
    {base head last : Nat} {budget rest : Budget} {vs : List Value}
    (h : (readMembers b base members head).Returns budget (vs, last) rest) :
    rest.remaining + Value.costs vs = budget.remaining := by
  induction members generalizing head budget vs with
  | nil =>
    obtain ⟨rfl, -, rfl⟩ := readMembers_nil_returns.mp h
    rfl
  | cons s members ih =>
    obtain ⟨v, ws, next, mid, rfl, hv, hws⟩ := readMembers_cons_returns.mp h
    obtain ⟨hs, hmembers⟩ := List.forall_mem_cons.mp hmembers
    obtain ⟨hsvalid, hvalid⟩ := List.forall_mem_cons.mp hvalid
    obtain ⟨place, behind, hread⟩ := exists_read_of_readPlaced hv
    have hfirst := hs hsvalid hread
    have hrest := ih hmembers hvalid hws
    rw [Value.costs]
    omega

/-- **What a reading leaves of the budget.** -/
theorem chargesCost (b : Buffer) (s : Schema) : ChargesCost b s := by
  induction s using Schema.ind with
  | scalar s hscalar =>
    intro offset next budget rest v hs h
    obtain ⟨w, rfl, -, -, hremaining, rfl, -⟩ := (readValue_scalar_returns hscalar hs).mp h
    rw [Value.cost_of_isScalar hscalar]
    show budget.remaining - 32 + 32 = _
    omega
  | bytes =>
    intro offset next budget rest v _ h
    obtain ⟨bs, hbs, rfl, -⟩ := readValue_bytes_returns.mp h
    obtain ⟨-, -, -, hremaining, rfl⟩ := Buffer.lengthPrefixedAt_returns.mp hbs
    rw [Value.cost]
    show budget.remaining - (32 + bs.length) + _ = _
    omega
  | string =>
    intro offset next budget rest v _ h
    obtain ⟨bs, s, hbs, hs, rfl, -⟩ := readValue_string_returns.mp h
    obtain ⟨-, -, -, hremaining, rfl⟩ := Buffer.lengthPrefixedAt_returns.mp hbs
    rw [Value.cost, Bytes.ofText_of_toText? hs]
    show budget.remaining - (32 + bs.length) + _ = _
    omega
  | array element ih =>
    intro offset next budget rest v hs h
    obtain ⟨items, last, rfl, -, -, -, hremaining, -, hitems⟩ := readValue_array_returns.mp h
    have helement := Schema.isValid_array_iff.mp hs
    have hcosts := remaining_add_costs_of_chargesCost
      (List.forall_mem_replicate.mpr (.inr ih))
      (List.forall_mem_replicate.mpr (.inr helement)) hitems
    have hspend : (budget.spend ⟨offset, 32⟩).remaining = budget.remaining - 32 := rfl
    rw [Value.cost]
    omega
  | fixedArray element size ih =>
    intro offset next budget rest v hs h
    obtain ⟨items, rfl, -, hitems⟩ := readValue_fixedArray_returns.mp h
    obtain ⟨-, -, helement⟩ := Schema.isValid_fixedArray_iff.mp hs
    rw [Value.cost]
    exact remaining_add_costs_of_chargesCost
      (List.forall_mem_replicate.mpr (.inr ih))
      (List.forall_mem_replicate.mpr (.inr helement)) hitems
  | tuple members ih =>
    intro offset next budget rest v hs h
    obtain ⟨items, rfl, hitems⟩ := readValue_tuple_returns.mp h
    rw [Value.cost]
    exact remaining_add_costs_of_chargesCost ih (Schema.isValid_tuple_iff.mp hs).2 hitems

/-- Reading a value charges its cost. -/
theorem remaining_add_cost {s : Schema} (hs : s.IsValid) {offset next : Nat}
    {budget rest : Budget} {v : Value}
    (h : (readValue b s offset).Returns budget (v, next) rest) :
    rest.remaining + v.cost = budget.remaining :=
  chargesCost b s hs h

/-- Reading values charges their costs. -/
theorem remaining_add_costs {members : List Schema} (hvalid : ∀ s ∈ members, s.IsValid)
    {base head last : Nat} {budget rest : Budget} {vs : List Value}
    (h : (readMembers b base members head).Returns budget (vs, last) rest) :
    rest.remaining + Value.costs vs = budget.remaining :=
  remaining_add_costs_of_chargesCost (fun s _ => chargesCost b s) hvalid h

/-! ## Costs and encodings -/

namespace Value

/-- A sequence is at least as long as the values encoded in it are costly,
if that holds of each of them. -/
theorem EncodesTo.costs_le_length_of_forall {vs : List Value} {ss : List Schema}
    {parts : List Part} (h : EncodesTo vs ss parts)
    (hvs : ∀ v ∈ vs, ∀ body, v.schema.IsValid → v.encode = .ok body → v.cost ≤ body.length)
    (hss : ∀ s ∈ ss, s.IsValid) (offset : Nat) :
    costs vs ≤ (Part.heads offset parts).length + (Part.tails parts).length := by
  induction h generalizing offset with
  | nil => exact Nat.zero_le _
  | @cons v vs ss body parts hbody _ ih =>
    obtain ⟨hv, hvs⟩ := List.forall_mem_cons.mp hvs
    obtain ⟨hs, hss⟩ := List.forall_mem_cons.mp hss
    have hfirst := hv body hs hbody
    have htail := ih hvs hss
    rw [costs]
    cases v.schema.isDynamic with
    | true =>
      have hle := htail (offset + body.length)
      rw [Part.heads_cons_dynamic, Part.tails_cons_dynamic, List.length_append,
        List.length_append, FixedBytes.length_bytes]
      omega
    | false =>
      have hle := htail offset
      rw [Part.heads_cons_static, Part.tails_cons_static, List.length_append]
      omega

/-- **No encoding is shorter than its value is costly.** -/
theorem cost_le_length {v : Value} {body : Bytes} (hv : v.schema.IsValid)
    (h : v.encode = .ok body) : v.cost ≤ body.length := by
  induction v using ind generalizing body with
  | scalar v hs =>
    exact Nat.le_of_eq (by rw [cost_of_isScalar hs, length_encode_of_isScalar hs hv h])
  | bytes bs =>
    cases h
    rw [cost, lengthPrefixed, List.length_append, List.length_append, FixedBytes.length_bytes]
    omega
  | string s =>
    cases h
    rw [cost, lengthPrefixed, List.length_append, List.length_append, FixedBytes.length_bytes]
    omega
  | array element items ih =>
    have helement := Schema.isValid_array_iff.mp hv
    obtain ⟨parts, hparts, rfl⟩ := encode_array_eq_ok_iff.mp h
    have hcosts := hparts.costs_le_length_of_forall (fun v hv _ => ih v hv)
      (List.forall_mem_replicate.mpr (.inr helement))
    rw [cost, Part.layout, List.length_append, List.length_append, FixedBytes.length_bytes]
    exact Nat.add_le_add_left (hcosts _) 32
  | fixedArray element items ih =>
    obtain ⟨-, -, helement⟩ := Schema.isValid_fixedArray_iff.mp hv
    obtain ⟨parts, hparts, rfl⟩ := encode_fixedArray_eq_ok_iff.mp h
    rw [cost, Part.layout, List.length_append]
    exact hparts.costs_le_length_of_forall (fun v hv _ => ih v hv)
      (List.forall_mem_replicate.mpr (.inr helement)) _
  | tuple items ih =>
    obtain ⟨-, hmembers⟩ := Schema.isValid_tuple_iff.mp hv
    obtain ⟨parts, hparts, rfl⟩ := encode_tuple_eq_ok_iff.mp h
    rw [cost, Part.layout, List.length_append]
    exact hparts.costs_le_length_of_forall (fun v hv _ => ih v hv) hmembers _

/-- The same for a sequence. -/
theorem EncodesTo.costs_le_length {vs : List Value} {ss : List Schema} {parts : List Part}
    (h : EncodesTo vs ss parts) (hss : ∀ s ∈ ss, s.IsValid) (headSize : Nat) :
    costs vs ≤ (Part.layout headSize parts).length := by
  rw [Part.layout, List.length_append]
  exact h.costs_le_length_of_forall (fun _ _ _ => cost_le_length) hss headSize

end Value

end EthCall.Abi
