import EthCall.Proofs.Abi.Overrun
import EthCall.Proofs.Abi.Padding
import EthCall.Proofs.Abi.RoundTrip

/-!
# Encodings that are cut off

Of an encoding that is cut off, nothing is made but an error. Decoding
reads all that is there of it just as it would read the whole, and fails at
the first stretch that reaches beyond the cut
(`Value.readsUnlessCut`). It does not fail for anything else on the way:
what is in front of the cut is what was encoded, and the budget, smaller
now by what is missing, is not used up by it, because the values of an
encoding are charged for stretches that do not overlap
(`Buffer.present`).

The one exception is padding. It is not read, and where an encoding ends
with it, an encoding without it decodes as before. Where the line runs
between the one and the other is told to the byte.
-/

namespace EthCall.Abi

open Decoding

/-! ## Buffers that are cut off -/

namespace Buffer

/-- **The front of a buffer**: what the buffer holds is held as far as it is
there. -/
def FrontOf (cut b : Buffer) : Prop :=
  ∀ ⦃offset : Nat⦄ ⦃bs : Bytes⦄, b.Holds offset bs → offset + bs.length ≤ cut.size →
    cut.Holds offset bs

/-- The first bytes of a byte string. -/
theorem frontOf_take (data : Bytes) (n : Nat) :
    (ofBytes (data.take n)).FrontOf (ofBytes data) := by
  intro offset bs h hle
  refine ⟨hle, ?_⟩
  obtain ⟨-, hslice⟩ := h
  rw [size_ofBytes, List.length_take] at hle
  rw [slice_eq] at hslice ⊢
  show ((data.take n).drop offset).take bs.length = bs
  rw [List.drop_take, List.take_take, Nat.min_eq_left (by omega)]
  exact hslice

/-- **How many bytes of a stretch are in the buffer.** -/
def present (b : Buffer) (offset len : Nat) : Nat :=
  min (offset + len) b.size - min offset b.size

/-- Two stretches one behind the other. -/
theorem present_add (b : Buffer) (offset m n : Nat) :
    b.present offset (m + n) = b.present offset m + b.present (offset + m) n := by
  unfold present
  omega

@[simp] theorem present_zero (b : Buffer) (offset : Nat) : b.present offset 0 = 0 := by
  unfold present
  omega

/-- As many bytes of a stretch are present as its front has that is. -/
theorem le_present {b : Buffer} {offset m n : Nat} (h : offset + m ≤ b.size) (hle : m ≤ n) :
    m ≤ b.present offset n := by
  unfold present
  omega

/-- No more bytes are present than there are. -/
theorem present_le_size (b : Buffer) (n : Nat) : b.present 0 n ≤ b.size := by
  unfold present
  omega

/-! ## What has to be there of a sequence -/

/-- **There is enough of a sequence to read it**: all its heads, and its
tails up to the padding that they end with. -/
structure Suffices (cut : Buffer) (vs : List Value) (parts : List Part) (base head tail : Nat) :
    Prop where
  /-- The heads end before the buffer does. -/
  heads_le : head + (Part.heads tail parts).length ≤ cut.size
  /-- The tails, if there are any, have their padding at most behind it. -/
  tails_le : Schema.anyDynamic (Value.schemas vs) = true →
    base + tail + (Part.tails parts).length ≤ cut.size + Value.trailings vs

variable {cut : Buffer} {v : Value} {vs : List Value} {ss : List Schema} {body : Bytes}
  {parts : List Part} {base head tail : Nat}

/-- A first value that is static has its head to be there. -/
theorem suffices_cons_static_iff (hd : v.schema.isDynamic = false) :
    cut.Suffices (v :: vs) (⟨false, body⟩ :: parts) base head tail
      ↔ head + body.length ≤ cut.size
        ∧ cut.Suffices vs parts base (head + body.length) tail := by
  have hany : Schema.anyDynamic (Value.schemas (v :: vs))
      = Schema.anyDynamic (Value.schemas vs) := by
    rw [Value.schemas, Schema.anyDynamic, hd, Bool.false_or]
  constructor
  · rintro ⟨hheads, htails⟩
    rw [Part.heads_cons_static, List.length_append] at hheads
    rw [Part.tails_cons_static, hany, Value.trailings_cons_static hd] at htails
    exact ⟨by omega, by omega, htails⟩
  · rintro ⟨-, hheads, htails⟩
    refine ⟨?_, ?_⟩
    · rw [Part.heads_cons_static, List.length_append]
      omega
    · rw [Part.tails_cons_static, hany, Value.trailings_cons_static hd]
      exact htails

/-- One that is dynamic has its place, and its tail up to its padding. If
there is another tail behind, then the padding is there as well. -/
theorem suffices_cons_dynamic_iff (hd : v.schema.isDynamic = true)
    (h : Value.EncodesTo vs ss parts) :
    cut.Suffices (v :: vs) (⟨true, body⟩ :: parts) base head tail
      ↔ head + 32 ≤ cut.size ∧ base + tail + body.length ≤ cut.size + v.trailing
        ∧ cut.Suffices vs parts base (head + 32) (tail + body.length) := by
  have hfirst : Schema.anyDynamic (Value.schemas (v :: vs)) = true := by
    rw [Value.schemas, Schema.anyDynamic, hd, Bool.true_or]
  have hpadding := h.trailings_le_length
  cases hany : Schema.anyDynamic (Value.schemas vs) with
  | true =>
    have htrailings := Value.trailings_cons_of_anyDynamic v hany
    constructor
    · rintro ⟨hheads, htails⟩
      have htails := htails hfirst
      rw [Part.heads_cons_dynamic, List.length_append, FixedBytes.length_bytes] at hheads
      rw [Part.tails_cons_dynamic, List.length_append, htrailings] at htails
      exact ⟨by omega, by omega, by omega, fun _ => by omega⟩
    · rintro ⟨-, -, hheads, htails⟩
      have htails := htails hany
      refine ⟨?_, fun _ => ?_⟩
      · rw [Part.heads_cons_dynamic, List.length_append, FixedBytes.length_bytes]
        omega
      · rw [Part.tails_cons_dynamic, List.length_append, htrailings]
        omega
  | false =>
    have htrailings := Value.trailings_cons_of_last hd hany
    have hnil : Part.tails parts = [] := by
      rw [h.schemas_eq] at hany
      exact h.tails_of_static (Schema.anyDynamic_eq_false_iff.mp hany)
    constructor
    · rintro ⟨hheads, htails⟩
      have htails := htails hfirst
      rw [Part.heads_cons_dynamic, List.length_append, FixedBytes.length_bytes] at hheads
      rw [Part.tails_cons_dynamic, hnil, List.append_nil, htrailings] at htails
      exact ⟨by omega, htails, by omega, fun hd => by rw [hany] at hd; cases hd⟩
    · rintro ⟨-, htail, hheads, -⟩
      refine ⟨?_, fun _ => ?_⟩
      · rw [Part.heads_cons_dynamic, List.length_append, FixedBytes.length_bytes]
        omega
      · rw [Part.tails_cons_dynamic, hnil, List.append_nil, htrailings]
        exact htail

/-- **Of a sequence as it is laid out nothing but padding may be
missing.** -/
theorem suffices_layout_iff (h : Value.EncodesTo vs ss parts)
    (hheads : Schema.anyDynamic ss = true →
      Schema.headSizes ss = (Part.heads (Schema.headSizes ss) parts).length) :
    cut.Suffices vs parts base base (Schema.headSizes ss)
      ↔ base + (Part.layout (Schema.headSizes ss) parts).length
        ≤ cut.size + Value.trailings vs := by
  have hpadding := h.trailings_le_length
  rw [Part.layout, List.length_append]
  cases hany : Schema.anyDynamic ss with
  | true =>
    have heq := hheads hany
    rw [← h.schemas_eq] at hany
    constructor
    · rintro ⟨-, htails⟩
      have htails := htails hany
      omega
    · intro hle
      exact ⟨by omega, fun _ => by omega⟩
  | false =>
    have hnil := h.tails_of_static (Schema.anyDynamic_eq_false_iff.mp hany)
    rw [← h.schemas_eq] at hany
    rw [hnil, Value.trailings_of_static hany]
    constructor
    · rintro ⟨hle, -⟩
      exact hle
    · intro hle
      exact ⟨hle, fun hd => by rw [hany] at hd; cases hd⟩

/-- What is present of a sequence is present of its heads or its tails. -/
theorem present_layout (h : Value.EncodesTo vs ss parts)
    (hheads : Schema.anyDynamic ss = true →
      Schema.headSizes ss = (Part.heads (Schema.headSizes ss) parts).length) :
    cut.present base (Part.layout (Schema.headSizes ss) parts).length
      = cut.present base (Part.heads (Schema.headSizes ss) parts).length
        + cut.present (base + Schema.headSizes ss) (Part.tails parts).length := by
  rw [Part.layout, List.length_append, present_add]
  cases hany : Schema.anyDynamic ss with
  | true => rw [← hheads hany]
  | false =>
    rw [h.tails_of_static (Schema.anyDynamic_eq_false_iff.mp hany), List.length_nil,
      present_zero, present_zero]

end Buffer

variable {b cut : Buffer}

/-! ## Values -/

/-- **A value is read back, or the end is in the way.** In the front of a
buffer that holds its encoding, a value is read back if nothing of the
encoding but its padding is missing, and otherwise the reading reaches
beyond the end. -/
def Value.ReadsUnlessCut (cut b : Buffer) (v : Value) : Prop :=
  ∀ ⦃offset : Nat⦄ ⦃budget : Budget⦄ ⦃body : Bytes⦄,
    v.schema.IsValid → v.encode = .ok body → b.Holds offset body →
    (v.schema.isDynamic = true → b.size ≤ maxSize) →
    cut.present offset body.length ≤ budget.remaining →
    (offset + body.length ≤ cut.size + v.trailing
        ∧ ∃ next rest, (readValue cut v.schema offset).Returns budget (v, next) rest
          ∧ (v.schema.isDynamic = false → next = offset + body.length))
      ∨ (¬ offset + body.length ≤ cut.size + v.trailing
        ∧ (readValue cut v.schema offset).Overruns cut budget)

/-- What a value that is read back costs is charged for bytes that are
there. -/
theorem Value.cost_le_present {v : Value} {body : Bytes} (hv : v.schema.IsValid)
    (h : v.encode = .ok body) {offset : Nat}
    (hle : offset + body.length ≤ cut.size + v.trailing) :
    v.cost ≤ cut.present offset body.length := by
  have hcost := Value.cost_add_trailing_le_length hv h
  exact Buffer.le_present (by omega) (by omega)

/-- What is left of a budget that covered what is present still covers what
is present behind the value that was read. -/
theorem Value.remaining_le_add_present {v : Value} {body : Bytes} (hv : v.schema.IsValid)
    (h : v.encode = .ok body) {offset place next : Nat} {budget rest : Budget}
    (hle : offset + body.length ≤ cut.size + v.trailing)
    (hread : (readValue cut v.schema place).Returns budget (v, next) rest) :
    budget.remaining ≤ rest.remaining + cut.present offset body.length := by
  have hspent := remaining_add_cost hv hread
  have hcost := Value.cost_le_present hv h hle
  omega

/-- A dynamic member needs its place, and its tail up to the padding. -/
theorem readPlaced_dynamic_unlessCut (hcut : cut.FrontOf b) {v : Value}
    (hv : v.ReadsUnlessCut cut b) (hvalid : v.schema.IsValid) {body : Bytes}
    (hbody : v.encode = .ok body) (hmax : b.size ≤ maxSize) {base head tail : Nat}
    {budget : Budget} (hword : b.Holds head (Word.ofNat tail).bytes)
    (hheld : b.Holds (base + tail) body)
    (hbudget : cut.present (base + tail) body.length ≤ budget.remaining) :
    ((head + 32 ≤ cut.size ∧ base + tail + body.length ≤ cut.size + v.trailing)
        ∧ ∃ mid, (readPlaced cut base true (readValue cut v.schema) head).Returns budget
            (v, head + 32) mid
          ∧ budget.remaining ≤ mid.remaining + cut.present (base + tail) body.length)
      ∨ (¬ (head + 32 ≤ cut.size ∧ base + tail + body.length ≤ cut.size + v.trailing)
        ∧ (readPlaced cut base true (readValue cut v.schema) head).Overruns cut budget) := by
  have hplace := hheld.le_size
  by_cases hroom : head + 32 ≤ cut.size
  case neg =>
    exact .inr ⟨fun hall => hroom hall.1,
      readPlaced_dynamic_overruns_of_lt (Nat.not_le.mp hroom)⟩
  have hword := hcut hword (by rwa [FixedBytes.length_bytes])
  rcases hv hvalid hbody hheld (fun _ => hmax) hbudget
    with ⟨hkept, behind, mid, hread, -⟩ | ⟨hlost, hover⟩
  · refine .inl ⟨⟨hroom, hkept⟩, mid, ?_,
      Value.remaining_le_add_present hvalid hbody hkept hread⟩
    exact readPlaced_dynamic_returns.mpr
      ⟨rfl, tail, by omega, hword, by omega, behind, hread⟩
  · exact .inr ⟨fun hall => hlost hall.2, readPlaced_dynamic_overruns (by omega) hword hover⟩

/-- A static member needs its head. -/
theorem readPlaced_static_unlessCut {v : Value} (hv : v.ReadsUnlessCut cut b)
    (hvalid : v.schema.IsValid) {body : Bytes} (hbody : v.encode = .ok body)
    (hd : v.schema.isDynamic = false) (base : Nat) {head : Nat} {budget : Budget}
    (hheld : b.Holds head body) (hbudget : cut.present head body.length ≤ budget.remaining) :
    (head + body.length ≤ cut.size
        ∧ ∃ mid, (readPlaced cut base false (readValue cut v.schema) head).Returns budget
            (v, head + body.length) mid
          ∧ budget.remaining ≤ mid.remaining + cut.present head body.length)
      ∨ (¬ head + body.length ≤ cut.size
        ∧ (readPlaced cut base false (readValue cut v.schema) head).Overruns cut budget) := by
  have hread := hv hvalid hbody hheld (fun h => by rw [hd] at h; cases h) hbudget
  rw [Value.trailing_of_static hbody hd, Nat.add_zero] at hread
  rcases hread with ⟨hkept, next, mid, hread, hnext⟩ | hlost
  · obtain rfl := hnext hd
    exact .inl ⟨hkept, mid, hread, Value.remaining_le_add_present hvalid hbody
      (Nat.le_add_right_of_le hkept) hread⟩
  · exact .inr hlost

/-- A first member and the others: all are read back if it is and they are,
and otherwise the first that is not comes to the end. -/
theorem readMembers_cons_unlessCut {s : Schema} {ss : List Schema} {v : Value} {vs : List Value}
    {base head next last spent : Nat} {budget : Budget} {first others : Prop}
    (hfirst : (first ∧ ∃ mid,
          (readPlaced cut base s.isDynamic (readValue cut s) head).Returns budget (v, next) mid
          ∧ budget.remaining ≤ mid.remaining + spent)
      ∨ (¬ first
        ∧ (readPlaced cut base s.isDynamic (readValue cut s) head).Overruns cut budget))
    (hothers : ∀ mid : Budget, first → budget.remaining ≤ mid.remaining + spent →
      (others ∧ ∃ rest, (readMembers cut base ss next).Returns mid (vs, last) rest)
      ∨ (¬ others ∧ (readMembers cut base ss next).Overruns cut mid)) :
    ((first ∧ others)
        ∧ ∃ rest, (readMembers cut base (s :: ss) head).Returns budget (v :: vs, last) rest)
      ∨ (¬ (first ∧ others) ∧ (readMembers cut base (s :: ss) head).Overruns cut budget) := by
  rcases hfirst with ⟨hkept, mid, hread, hspent⟩ | ⟨hlost, hover⟩
  · rcases hothers mid hkept hspent with ⟨hall, rest, hrest⟩ | ⟨hlost, hover⟩
    · exact .inl ⟨⟨hkept, hall⟩, rest,
        readMembers_cons_returns.mpr ⟨v, vs, next, mid, rfl, hread, hrest⟩⟩
    · exact .inr ⟨fun hall => hlost hall.2, readMembers_overruns_of_rest hread hover⟩
  · exact .inr ⟨fun hall => hlost hall.1, readMembers_overruns_of_first hover⟩

/-- **Members are read back, or the end is in the way.** -/
theorem readMembers_unlessCut (hcut : cut.FrontOf b) {vs : List Value} {ss : List Schema}
    {parts : List Part} (h : Value.EncodesTo vs ss parts)
    (hvs : ∀ v ∈ vs, v.ReadsUnlessCut cut b) (hss : ∀ s ∈ ss, s.IsValid)
    (hsize : Schema.anyDynamic ss = true → b.size ≤ maxSize) {base head tail : Nat}
    {budget : Budget} (hheads : b.Holds head (Part.heads tail parts))
    (htails : b.Holds (base + tail) (Part.tails parts)) (hhead : vs = [] → head ≤ cut.size)
    (hbudget : cut.present head (Part.heads tail parts).length
      + cut.present (base + tail) (Part.tails parts).length ≤ budget.remaining) :
    (cut.Suffices vs parts base head tail
        ∧ ∃ rest, (readMembers cut base ss head).Returns budget
          (vs, head + (Part.heads tail parts).length) rest)
      ∨ (¬ cut.Suffices vs parts base head tail
        ∧ (readMembers cut base ss head).Overruns cut budget) := by
  -- the budget covers what is present behind both cursors
  induction h generalizing head tail budget with
  | nil =>
    have hsuffices : cut.Suffices [] [] base head tail := ⟨hhead rfl, fun hd => by cases hd⟩
    exact .inl ⟨hsuffices, budget, readMembers_nil_returns.mpr ⟨rfl, rfl, rfl⟩⟩
  | @cons v vs ss body parts hbody hrest ih =>
    obtain ⟨hv, hvs⟩ := List.forall_mem_cons.mp hvs
    obtain ⟨hs, hss⟩ := List.forall_mem_cons.mp hss
    have hsizeTail : Schema.anyDynamic ss = true → b.size ≤ maxSize := fun hd =>
      hsize (by rw [Schema.anyDynamic, hd, Bool.or_true])
    cases hd : v.schema.isDynamic with
    | true =>
      have hmax : b.size ≤ maxSize := hsize (by rw [Schema.anyDynamic, hd, Bool.true_or])
      rw [hd, Part.heads_cons_dynamic] at hheads
      rw [hd, Part.tails_cons_dynamic] at htails
      rw [hd, Part.heads_cons_dynamic, Part.tails_cons_dynamic, List.length_append,
        List.length_append, FixedBytes.length_bytes, Buffer.present_add,
        Buffer.present_add] at hbudget
      obtain ⟨hword, hheads⟩ := Buffer.holds_append.mp hheads
      obtain ⟨hfirst, htails⟩ := Buffer.holds_append.mp htails
      rw [FixedBytes.length_bytes] at hheads
      rw [Nat.add_assoc] at htails
      have hplaced := readPlaced_dynamic_unlessCut hcut hv hs hbody hmax hword hfirst
        (show _ ≤ budget.remaining by omega)
      rw [← hd] at hplaced
      rw [Buffer.suffices_cons_dynamic_iff hd hrest, ← and_assoc, Part.heads_cons_dynamic,
        List.length_append, FixedBytes.length_bytes, ← Nat.add_assoc]
      refine readMembers_cons_unlessCut hplaced fun mid hkept hspent => ?_
      refine ih hvs hss hsizeTail hheads htails (fun _ => hkept.1) ?_
      rw [← Nat.add_assoc base]
      omega
    | false =>
      rw [hd, Part.heads_cons_static] at hheads
      rw [hd, Part.heads_cons_static, Part.tails_cons_static, List.length_append,
        Buffer.present_add] at hbudget
      rw [hd, Part.tails_cons_static] at htails
      obtain ⟨hfirst, hheads⟩ := Buffer.holds_append.mp hheads
      have hplaced := readPlaced_static_unlessCut hv hs hbody hd base hfirst
        (show _ ≤ budget.remaining by omega)
      rw [← hd] at hplaced
      rw [Buffer.suffices_cons_static_iff hd, Part.heads_cons_static, List.length_append,
        ← Nat.add_assoc]
      refine readMembers_cons_unlessCut hplaced fun mid hkept hspent => ?_
      exact ih hvs hss hsizeTail hheads htails (fun _ => hkept) (by omega)

/-- **A sequence is read back** where nothing but padding of its layout is
missing, or the end is in the way. -/
theorem readSequence_unlessCut (hcut : cut.FrontOf b) {vs : List Value} {ss : List Schema}
    {parts : List Part} (h : Value.EncodesTo vs ss parts)
    (hvs : ∀ v ∈ vs, v.ReadsUnlessCut cut b) (hss : ∀ s ∈ ss, s.IsValid)
    (hsize : Schema.anyDynamic ss = true → b.size ≤ maxSize) {base : Nat} {budget : Budget}
    (hheld : b.Holds base (Part.layout (Schema.headSizes ss) parts))
    (hbase : vs = [] → base ≤ cut.size)
    (hbudget : cut.present base (Part.layout (Schema.headSizes ss) parts).length
      ≤ budget.remaining) :
    (base + (Part.layout (Schema.headSizes ss) parts).length ≤ cut.size + Value.trailings vs
        ∧ base + (Part.heads (Schema.headSizes ss) parts).length ≤ cut.size
        ∧ ∃ rest, (readMembers cut base ss base).Returns budget
          (vs, base + (Part.heads (Schema.headSizes ss) parts).length) rest)
      ∨ (¬ base + (Part.layout (Schema.headSizes ss) parts).length
          ≤ cut.size + Value.trailings vs
        ∧ (readMembers cut base ss base).Overruns cut budget) := by
  obtain ⟨hheads, htails⟩ := holds_layout h hss hsize hheld
  have hle := hheads.le_size
  have hheadSizes : Schema.anyDynamic ss = true →
      Schema.headSizes ss = (Part.heads (Schema.headSizes ss) parts).length := by
    intro hd
    have hmax := hsize hd
    exact h.headSizes_eq_length_heads hss _ (by omega)
  rw [Buffer.present_layout h hheadSizes] at hbudget
  rw [← Buffer.suffices_layout_iff h hheadSizes]
  rcases readMembers_unlessCut hcut h hvs hss hsize hheads htails hbase hbudget
    with ⟨hsuffices, hread⟩ | hlost
  · exact .inl ⟨hsuffices, hsuffices.heads_le, hread⟩
  · exact .inr hlost

/-- Where all heads are in the buffer, there is room for the items. -/
theorem min_mul_headSize_le {items : List Value} {element : Schema} {parts : List Part}
    (h : Value.EncodesTo items (List.replicate items.length element) parts)
    (helement : element.IsValid) (offset : Nat) :
    min (items.length * element.headSize) maxSize ≤ (Part.heads offset parts).length := by
  rw [h.length_heads (List.forall_mem_replicate.mpr (.inr helement)), Schema.min_mul_headSize]
  exact Schema.headSizes_le _

/-- A byte string needs its length and all its bytes, and no padding. -/
theorem lengthPrefixedAt_unlessCut (hcut : cut.FrontOf b) {offset : Nat} {budget : Budget}
    {bs : Bytes} (hheld : b.Holds offset (lengthPrefixed bs)) (hmax : b.size ≤ maxSize)
    (hbudget : cut.present offset (lengthPrefixed bs).length ≤ budget.remaining) :
    (offset + (lengthPrefixed bs).length ≤ cut.size + paddingLength bs.length
        ∧ ∃ rest, (cut.lengthPrefixedAt offset).Returns budget bs rest)
      ∨ (¬ offset + (lengthPrefixed bs).length ≤ cut.size + paddingLength bs.length
        ∧ (cut.lengthPrefixedAt offset).Overruns cut budget) := by
  have hle := hheld.le_size
  obtain ⟨hheld, -⟩ := Buffer.holds_append.mp hheld
  obtain ⟨hword, hbs⟩ := Buffer.holds_append.mp hheld
  rw [FixedBytes.length_bytes] at hbs
  have hlen : (lengthPrefixed bs).length = 32 + bs.length + paddingLength bs.length := by
    rw [lengthPrefixed, List.length_append, List.length_append, FixedBytes.length_bytes,
      Bytes.length_zeros]
  rw [hlen] at hle hbudget ⊢
  have hword : offset + 32 ≤ cut.size → cut.Holds offset (Word.ofNat bs.length).bytes :=
    fun hroom => hcut hword (by rwa [FixedBytes.length_bytes])
  by_cases hroom : offset + 32 + bs.length ≤ cut.size
  · have hcharge : 32 + bs.length ≤ budget.remaining :=
      Nat.le_trans (Buffer.le_present (by omega) (by omega)) hbudget
    refine .inl ⟨by omega, budget.spend ⟨offset, 32 + bs.length⟩, ?_⟩
    exact Buffer.lengthPrefixedAt_returns.mpr
      ⟨by omega, hword (by omega), hcut hbs hroom, hcharge, rfl⟩
  · exact .inr ⟨by omega,
      Buffer.lengthPrefixedAt_overruns (by omega) hword (Nat.not_le.mp hroom)⟩

/-- An array is read back if its items are: where its length is there, the
items have a layout behind it. -/
theorem Value.readsUnlessCut_array (hcut : cut.FrontOf b) {element : Schema} {items : List Value}
    (hitemsRead : ∀ v ∈ items, v.ReadsUnlessCut cut b) :
    (Value.array element items).ReadsUnlessCut cut b := by
  intro offset budget body hv h hheld hsize hbudget
  have helement := Schema.isValid_array_iff.mp hv
  have hitems : ∀ s ∈ List.replicate items.length element, s.IsValid :=
    List.forall_mem_replicate.mpr (.inr helement)
  have hmax := hsize rfl
  obtain ⟨parts, hparts, rfl⟩ := Value.encode_array_eq_ok_iff.mp h
  obtain ⟨hword, hheld⟩ := Buffer.holds_append.mp hheld
  rw [FixedBytes.length_bytes] at hheld
  rw [List.length_append, FixedBytes.length_bytes, Buffer.present_add] at hbudget
  rw [List.length_append, FixedBytes.length_bytes, ← Nat.add_assoc]
  by_cases hroom : offset + 32 ≤ cut.size
  case neg =>
    have hpadding := hparts.trailings_le_length_layout
      (Schema.headSizes (List.replicate items.length element))
    refine .inr ⟨fun hle => hroom ?_, readValue_array_overruns_of_lt (Nat.not_le.mp hroom)⟩
    rw [Value.trailing] at hle
    omega
  have hcount := hword.le_size
  have hcountMax := count_le_maxSize_of_room helement hmax (by omega)
    (room_of_holds_layout hparts helement hheld)
  have hword := hcut hword (by rwa [FixedBytes.length_bytes])
  have hpresent := Buffer.le_present hroom (Nat.le_refl 32)
  have hspend : (budget.spend ⟨offset, 32⟩).remaining = budget.remaining - 32 := rfl
  rcases readSequence_unlessCut hcut hparts hitemsRead hitems (fun _ => hmax) hheld (fun _ => hroom)
      (show _ ≤ (budget.spend ⟨offset, 32⟩).remaining by omega)
    with ⟨hkept, hheads, rest, hrest⟩ | ⟨hlost, hover⟩
  · have hroom := min_mul_headSize_le hparts helement
      (Schema.headSizes (List.replicate items.length element))
    refine .inl ⟨hkept, offset + 32, rest, ?_, fun hd => by cases hd⟩
    exact readValue_array_returns.mpr ⟨items, _, rfl, rfl, hcountMax, hword, by omega,
      by omega, hrest⟩
  · exact .inr ⟨hlost, readValue_array_overruns hcountMax hword (by omega) hover⟩

/-- **Every value is read back unless it is cut off.** -/
theorem Value.readsUnlessCut (hcut : cut.FrontOf b) (v : Value) : v.ReadsUnlessCut cut b := by
  induction v using Value.ind with
  | scalar v hscalar =>
    intro offset budget body hv h hheld _ hbudget
    have hlen := Value.length_encode_of_isScalar hscalar hv h
    rw [Value.trailing_of_isScalar hscalar, hlen]
    by_cases hroom : offset + 32 ≤ cut.size
    · rw [hlen] at hbudget
      have hcharge := Nat.le_trans (Buffer.le_present hroom (Nat.le_refl 32)) hbudget
      refine .inl ⟨hroom, offset + 32, budget.spend ⟨offset, 32⟩, ?_, fun _ => rfl⟩
      exact (readValue_scalar_returns hscalar hv).mpr
        ⟨⟨body, hlen⟩, rfl, h, hcut hheld (by rwa [hlen]), hcharge, rfl, rfl⟩
    · exact .inr ⟨hroom, readValue_scalar_overruns hscalar (Nat.not_le.mp hroom)⟩
  | bytes bs =>
    intro offset budget body _ h hheld hsize hbudget
    cases h
    rcases lengthPrefixedAt_unlessCut hcut hheld (hsize rfl) hbudget
      with ⟨hkept, rest, hread⟩ | ⟨hlost, hover⟩
    · exact .inl ⟨hkept, offset + 32, rest,
        readValue_bytes_returns.mpr ⟨bs, hread, rfl, rfl⟩, fun hd => by cases hd⟩
    · exact .inr ⟨hlost, readValue_bytes_overruns hover⟩
  | string s =>
    intro offset budget body _ h hheld hsize hbudget
    cases h
    rcases lengthPrefixedAt_unlessCut hcut hheld (hsize rfl) hbudget
      with ⟨hkept, rest, hread⟩ | ⟨hlost, hover⟩
    · exact .inl ⟨hkept, offset + 32, rest, readValue_string_returns.mpr
        ⟨Bytes.ofText s, s, hread, Bytes.toText?_ofText s, rfl, rfl⟩, fun hd => by cases hd⟩
    · exact .inr ⟨hlost, readValue_string_overruns hover⟩
  | array element items ih => exact Value.readsUnlessCut_array hcut ih
  | fixedArray element items ih =>
    intro offset budget body hv h hheld hsize hbudget
    obtain ⟨hcount, -, helement⟩ := Schema.isValid_fixedArray_iff.mp hv
    have hitems : ∀ s ∈ List.replicate items.length element, s.IsValid :=
      List.forall_mem_replicate.mpr (.inr helement)
    have hsizeItems : element.isDynamic = true → b.size ≤ maxSize := hsize
    obtain ⟨parts, hparts, rfl⟩ := Value.encode_fixedArray_eq_ok_iff.mp h
    rcases readSequence_unlessCut hcut hparts ih hitems
        (fun hd => hsizeItems (Schema.isDynamic_of_anyDynamic_replicate hd)) hheld
        (fun hnil => absurd (congrArg List.length hnil) hcount) hbudget
      with ⟨hkept, hheads, rest, hrest⟩ | ⟨hlost, hover⟩
    · have hroom := min_mul_headSize_le hparts helement
        (Schema.headSizes (List.replicate items.length element))
      refine .inl ⟨hkept, _, rest, readValue_fixedArray_returns.mpr
        ⟨items, rfl, by omega, hrest⟩, fun hd => ?_⟩
      have hd : element.isDynamic = false := hd
      have hnil := hparts.tails_of_static (List.forall_mem_replicate.mpr (.inr hd))
      rw [Part.layout, hnil, List.append_nil]
    · exact .inr ⟨hlost, readValue_fixedArray_overruns hover⟩
  | tuple items ih =>
    intro offset budget body hv h hheld hsize hbudget
    obtain ⟨hne, hmembers⟩ := Schema.isValid_tuple_iff.mp hv
    obtain ⟨parts, hparts, rfl⟩ := Value.encode_tuple_eq_ok_iff.mp h
    rcases readSequence_unlessCut hcut hparts ih hmembers hsize hheld
        (fun hnil => absurd (congrArg Value.schemas hnil) hne) hbudget
      with ⟨hkept, hheads, rest, hrest⟩ | ⟨hlost, hover⟩
    · refine .inl ⟨hkept, _, rest, readValue_tuple_returns.mpr ⟨items, rfl, hrest⟩, fun hd => ?_⟩
      have hnil := hparts.tails_of_static (Schema.anyDynamic_eq_false_iff.mp hd)
      rw [Part.layout, hnil, List.append_nil]
    · exact .inr ⟨hlost, readValue_tuple_overruns hover⟩

/-! ## Sequences -/

/-- What a decoding that failed went through. -/
theorem decode_eq_error_of_overruns {data : Bytes} {schemas : List Schema}
    (hvalid : ∀ s ∈ schemas, s.IsValid)
    (h : (readMembers (Buffer.ofBytes data) 0 schemas 0).Overruns (Buffer.ofBytes data)
      (Budget.ofBuffer (Buffer.ofBytes data))) :
    ∃ offset len, decode data schemas = .error (.outOfBounds offset len data.length) := by
  obtain ⟨offset, len, rest, hfails⟩ := h
  have hresult := result_eq_error_iff.mpr ⟨rest, hfails⟩
  refine ⟨offset, len, ?_⟩
  unfold decode
  rw [Schema.defectIn?_eq_none_iff.mpr hvalid]
  dsimp only
  rw [hresult, Buffer.size_ofBytes]

/-- **An encoding that is cut off is decoded to what was encoded, or is
found to be too short**, the former if nothing but padding is missing. -/
theorem decode_take_of_encode {values : List Value} {schemas : List Schema} {bs : Bytes}
    (h : encode values schemas = .ok bs) (hsize : bs.length ≤ maxSize) {n : Nat}
    (hn : n < bs.length) :
    (bs.length ≤ n + Value.trailings values ∧ decode (bs.take n) schemas = .ok values)
      ∨ (¬ bs.length ≤ n + Value.trailings values
        ∧ ∃ offset len, decode (bs.take n) schemas = .error (.outOfBounds offset len n)) := by
  obtain ⟨hschemas, parts, hparts, heq⟩ := encode_eq_ok_iff.mp h
  have hcut := Buffer.frontOf_take bs n
  have hlen := List.length_take_of_le (Nat.le_of_lt hn)
  have hheld : (Buffer.ofBytes bs).Holds 0 (Part.layout (Schema.headSizes schemas) parts) :=
    Buffer.holds_ofBytes_iff.mpr (heq ▸ List.prefix_refl _)
  have hbudget : (Buffer.ofBytes (bs.take n)).present 0
        (Part.layout (Schema.headSizes schemas) parts).length
      ≤ (Budget.ofBuffer (Buffer.ofBytes (bs.take n))).remaining :=
    Buffer.present_le_size _ _
  rcases readSequence_unlessCut hcut hparts (fun v _ => Value.readsUnlessCut hcut v) hschemas
      (fun _ => by rwa [Buffer.size_ofBytes]) hheld (fun _ => Nat.zero_le _) hbudget
    with ⟨hkept, -, rest, hread⟩ | ⟨hlost, hover⟩
  · rw [Buffer.size_ofBytes, hlen, Nat.zero_add, ← heq] at hkept
    refine .inl ⟨hkept, decode_eq_ok_iff.mpr ⟨hschemas, ?_, _, rest, hread⟩⟩
    rw [← hparts.schemas_eq, checkSchemas_schemas]
  · rw [Buffer.size_ofBytes, hlen, Nat.zero_add, ← heq] at hlost
    obtain ⟨offset, len, herror⟩ := decode_eq_error_of_overruns hschemas hover
    rw [hlen] at herror
    exact .inr ⟨hlost, offset, len, herror⟩

/-- The bytes that may be missing are zero. -/
theorem drop_eq_zeros_of_encode {values : List Value} {schemas : List Schema} {bs : Bytes}
    (h : encode values schemas = .ok bs) {n : Nat} (hn : n ≤ bs.length)
    (hle : bs.length ≤ n + Value.trailings values) :
    bs.drop n = Bytes.zeros (bs.length - n) := by
  obtain ⟨-, parts, hparts, rfl⟩ := encode_eq_ok_iff.mp h
  obtain ⟨front, hfront⟩ := hparts.exists_layout_eq (Schema.headSizes schemas)
  rw [hfront] at hn hle ⊢
  rw [List.length_append, Bytes.length_zeros] at hn hle ⊢
  obtain ⟨k, rfl⟩ : ∃ k, n = front.length + k := ⟨n - front.length, by omega⟩
  rw [← List.drop_drop, List.drop_left, Nat.add_sub_add_left]
  exact List.drop_replicate

/-- **Every cut through an encoding is noticed, unless only padding is
lost.** Of an encoding a part in front is decoded

* to an error, if a word or more is missing, and the error is that the
  part is too short;
* to the same error or to the values that were encoded, if less than a word
  is missing. The latter happens exactly if what is missing is zero bytes
  of the padding that the encoding ends with.

So it is never decoded to other values, and never found to be wrong in
another way. -/
theorem decode_take (values : List Value) (schemas : List Schema) (bs : Bytes)
    (h : encode values schemas = .ok bs) (hsize : bs.length < 2 ^ 64) (n : Nat)
    (hn : n < bs.length) :
    (n + 32 ≤ bs.length →
      ∃ offset len, decode (bs.take n) schemas = .error (.outOfBounds offset len n))
    ∧ (bs.length < n + 32 →
      (∃ offset len, decode (bs.take n) schemas = .error (.outOfBounds offset len n))
      ∨ decode (bs.take n) schemas = .ok values
        ∧ bs.drop n = Bytes.zeros (bs.length - n))
    ∧ (decode (bs.take n) schemas = .ok values ↔ bs.length ≤ n + Value.trailings values) := by
  have hpadding : Value.trailings values ≤ 31 := Value.trailings_le fun v _ => v.trailing_le
  rcases decode_take_of_encode h (Nat.le_pred_of_lt hsize) hn
    with ⟨hkept, hdecode⟩ | ⟨hlost, herror⟩
  · have hzeros := drop_eq_zeros_of_encode h (Nat.le_of_lt hn) hkept
    exact ⟨fun hle => by omega, fun _ => .inr ⟨hdecode, hzeros⟩, iff_of_true hdecode hkept⟩
  · refine ⟨fun _ => herror, fun _ => .inl herror, iff_of_false (fun hdecode => ?_) hlost⟩
    obtain ⟨offset, len, herror⟩ := herror
    rw [herror] at hdecode
    cases hdecode

/-- A text of three bytes behind a number. Its padding can be cut off, and
its last byte cannot. -/
theorem decode_take_text :
    ∃ bs, encode [.uint 8 7, .string "abc"] [.uint 8, .string] = .ok bs
      ∧ bs.length < 2 ^ 64 ∧ 99 < bs.length
      ∧ decode (bs.take 99) [.uint 8, .string] = .ok [.uint 8 7, .string "abc"]
      ∧ ∃ offset len,
        decode (bs.take 98) [.uint 8, .string] = .error (.outOfBounds offset len 98) := by
  obtain ⟨bs, hbs⟩ : ∃ bs, encode [.uint 8 7, .string "abc"] [.uint 8, .string] = .ok bs :=
    ⟨_, rfl⟩
  have hlen : bs.length = 128 := by
    cases hbs
    decide +kernel
  have hpadding : Value.trailings [.uint 8 7, .string "abc"] = 29 := by decide +kernel
  have htake := decode_take [.uint 8 7, .string "abc"] [.uint 8, .string] bs hbs (by omega)
  obtain ⟨-, -, hkept⟩ := htake 99 (by omega)
  obtain ⟨-, hlost, hkept'⟩ := htake 98 (by omega)
  refine ⟨bs, hbs, by omega, by omega, hkept.mpr (by omega), ?_⟩
  rcases hlost (by omega) with herror | ⟨hdecode, -⟩
  · exact herror
  · have hle := hkept'.mp hdecode
    omega

end EthCall.Abi
