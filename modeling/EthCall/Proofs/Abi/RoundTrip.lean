import EthCall.Abi.Payload
import EthCall.Proofs.Abi.Budget

/-!
# What was encoded is decoded

A value is read back from wherever its encoding stands in a buffer,
whatever stands around it (`Value.ReadsBack`). That is the form in which
the statement goes through an induction: the tails of a sequence stand
behind bytes that belong to other members, and a sequence within a
sequence counts its offsets from its own first head.

Two things could still go wrong, and each has its condition. An offset or
a length could be too large to be read, which the size of the buffer
excludes, and only dynamic schemas have any; and the budget could run out,
which it does not while it covers the cost of the value.
-/

namespace EthCall.Abi

open Decoding

variable {b : Buffer}

/-! ## Values -/

/-- **A value is read back from wherever its encoding stands**, if the
budget covers its cost. A static value leaves the cursor just behind its
encoding. -/
def Value.ReadsBack (b : Buffer) (v : Value) : Prop :=
  ∀ ⦃offset : Nat⦄ ⦃budget : Budget⦄ ⦃body : Bytes⦄,
    v.schema.IsValid → v.encode = .ok body → b.Holds offset body →
    (v.schema.isDynamic = true → b.size ≤ maxSize) → v.cost ≤ budget.remaining →
    ∃ next rest, (readValue b v.schema offset).Returns budget (v, next) rest
      ∧ (v.schema.isDynamic = false → next = offset + body.length)

/-- A byte string is read back from behind its length. -/
theorem lengthPrefixedAt_of_holds {offset : Nat} {budget : Budget} {bs : Bytes}
    (hheld : b.Holds offset (lengthPrefixed bs)) (hmax : b.size ≤ maxSize)
    (hcost : 32 + bs.length ≤ budget.remaining) :
    (b.lengthPrefixedAt offset).Returns budget bs
      (budget.spend ⟨offset, 32 + bs.length⟩) := by
  obtain ⟨hheld, -⟩ := Buffer.holds_append.mp hheld
  obtain ⟨hword, hbs⟩ := Buffer.holds_append.mp hheld
  rw [FixedBytes.length_bytes] at hbs
  have hle := hbs.le_size
  exact Buffer.lengthPrefixedAt_returns.mpr ⟨by omega, hword, hbs, hcost, rfl⟩

/-- The heads and the tails of a sequence stand where the codec looks for
them. Where nothing is dynamic there are no tails, and where something is
the buffer is small enough for the head size to be exact. -/
theorem holds_layout {vs : List Value} {ss : List Schema} {parts : List Part}
    (h : Value.EncodesTo vs ss parts) (hss : ∀ s ∈ ss, s.IsValid)
    (hsize : Schema.anyDynamic ss = true → b.size ≤ maxSize) {base : Nat}
    (hheld : b.Holds base (Part.layout (Schema.headSizes ss) parts)) :
    b.Holds base (Part.heads (Schema.headSizes ss) parts)
      ∧ b.Holds (base + Schema.headSizes ss) (Part.tails parts) := by
  obtain ⟨hheads, htails⟩ := Buffer.holds_append.mp hheld
  refine ⟨hheads, ?_⟩
  have hle := hheads.le_size
  cases hd : Schema.anyDynamic ss with
  | true =>
    have hmax := hsize hd
    have heq := h.headSizes_eq_length_heads hss (Schema.headSizes ss) (by omega)
    rwa [← heq] at htails
  | false =>
    rw [h.tails_of_static (Schema.anyDynamic_eq_false_iff.mp hd), Buffer.holds_nil]
    rw [h.length_heads hss] at hle
    have hheadSizes := Schema.headSizes_le ss
    omega

/-- **Members are read back** from where their heads and their tails
stand. -/
theorem readMembers_of_readsBack {vs : List Value} {ss : List Schema} {parts : List Part}
    (h : Value.EncodesTo vs ss parts) (hvs : ∀ v ∈ vs, v.ReadsBack b)
    (hss : ∀ s ∈ ss, s.IsValid) (hsize : Schema.anyDynamic ss = true → b.size ≤ maxSize)
    {base head tail : Nat} {budget : Budget}
    (hheads : b.Holds head (Part.heads tail parts))
    (htails : b.Holds (base + tail) (Part.tails parts))
    (hcost : Value.costs vs ≤ budget.remaining) :
    ∃ rest, (readMembers b base ss head).Returns budget
      (vs, head + (Part.heads tail parts).length) rest := by
  -- both cursors are general: the head moves past every value, the tail
  -- past the dynamic ones, while the base stays
  induction h generalizing head tail budget with
  | nil => exact ⟨budget, readMembers_nil_returns.mpr ⟨rfl, rfl, rfl⟩⟩
  | @cons v vs ss body parts hbody _ ih =>
    obtain ⟨hv, hvs⟩ := List.forall_mem_cons.mp hvs
    obtain ⟨hs, hss⟩ := List.forall_mem_cons.mp hss
    have hsizeHead : v.schema.isDynamic = true → b.size ≤ maxSize := fun hd =>
      hsize (by rw [Schema.anyDynamic, hd, Bool.true_or])
    have hsizeTail : Schema.anyDynamic ss = true → b.size ≤ maxSize := fun hd =>
      hsize (by rw [Schema.anyDynamic, hd, Bool.or_true])
    rw [Value.costs] at hcost
    have hcostHead : v.cost ≤ budget.remaining := by omega
    cases hd : v.schema.isDynamic with
    | true =>
      rw [hd] at hheads htails
      obtain ⟨hword, hheads⟩ := Buffer.holds_append.mp hheads
      obtain ⟨hfirst, htails⟩ := Buffer.holds_append.mp htails
      rw [FixedBytes.length_bytes] at hheads
      rw [Nat.add_assoc] at htails
      obtain ⟨behind, mid, hread, -⟩ := hv hs hbody hfirst hsizeHead hcostHead
      have hspent := remaining_add_cost hs hread
      have hcostTail : Value.costs vs ≤ mid.remaining := by omega
      obtain ⟨rest, hrest⟩ := ih hvs hss hsizeTail hheads htails hcostTail
      have hmax := hsizeHead hd
      have hplace := hfirst.le_size
      refine ⟨rest, readMembers_cons_returns.mpr ⟨v, vs, head + 32, mid, rfl, ?_, ?_⟩⟩
      · rw [hd]
        exact readPlaced_dynamic_returns.mpr
          ⟨rfl, tail, by omega, hword, by omega, behind, hread⟩
      · rw [Part.heads_cons_dynamic, List.length_append, FixedBytes.length_bytes,
          ← Nat.add_assoc]
        exact hrest
    | false =>
      rw [hd] at hheads htails
      obtain ⟨hfirst, hheads⟩ := Buffer.holds_append.mp hheads
      obtain ⟨next, mid, hread, hnext⟩ := hv hs hbody hfirst hsizeHead hcostHead
      obtain rfl := hnext hd
      have hspent := remaining_add_cost hs hread
      have hcostTail : Value.costs vs ≤ mid.remaining := by omega
      obtain ⟨rest, hrest⟩ := ih hvs hss hsizeTail hheads htails hcostTail
      refine ⟨rest, readMembers_cons_returns.mpr ⟨v, vs, head + body.length, mid, rfl, ?_, ?_⟩⟩
      · rw [hd]
        exact hread
      · rw [Part.heads_cons_static, List.length_append, ← Nat.add_assoc]
        exact hrest

/-- A sequence is read back from where its layout stands. -/
theorem readSequence_of_readsBack {vs : List Value} {ss : List Schema} {parts : List Part}
    (h : Value.EncodesTo vs ss parts) (hvs : ∀ v ∈ vs, v.ReadsBack b)
    (hss : ∀ s ∈ ss, s.IsValid) (hsize : Schema.anyDynamic ss = true → b.size ≤ maxSize)
    {base : Nat} {budget : Budget}
    (hheld : b.Holds base (Part.layout (Schema.headSizes ss) parts))
    (hcost : Value.costs vs ≤ budget.remaining) :
    ∃ rest, (readMembers b base ss base).Returns budget
      (vs, base + (Part.heads (Schema.headSizes ss) parts).length) rest := by
  obtain ⟨hheads, htails⟩ := holds_layout h hss hsize hheld
  exact readMembers_of_readsBack h hvs hss hsize hheads htails hcost

/-- Where items stand there is room for them. -/
theorem room_of_holds_layout {items : List Value} {element : Schema} {parts : List Part}
    (h : Value.EncodesTo items (List.replicate items.length element) parts)
    (helement : element.IsValid) {base : Nat}
    (hheld : b.Holds base
      (Part.layout (Schema.headSizes (List.replicate items.length element)) parts)) :
    base + min (items.length * element.headSize) maxSize ≤ b.size := by
  have hle := (Buffer.holds_append.mp hheld).1.le_size
  rw [h.length_heads (List.forall_mem_replicate.mpr (.inr helement))] at hle
  have hheadSizes := Schema.headSizes_le (List.replicate items.length element)
  rw [Schema.min_mul_headSize]
  omega

/-- Items that have room in a buffer are not too many to be counted. -/
theorem count_le_maxSize_of_room {element : Schema} (helement : element.IsValid)
    {base count : Nat} (hmax : b.size ≤ maxSize) (hbase : 0 < base)
    (hroom : base + min (count * element.headSize) maxSize ≤ b.size) : count ≤ maxSize := by
  have hpos : 0 < element.headSize :=
    Nat.lt_of_lt_of_le (by decide) (Schema.le_headSize_of_isValid helement)
  have hle := Nat.le_mul_of_pos_right count hpos
  omega

/-- **Every value is read back.** -/
theorem Value.readsBack (b : Buffer) (v : Value) : v.ReadsBack b := by
  induction v using Value.ind with
  | scalar v hscalar =>
    intro offset budget body hv h hheld _ hcost
    have hlen := Value.length_encode_of_isScalar hscalar hv h
    rw [Value.cost_of_isScalar hscalar] at hcost
    refine ⟨offset + 32, budget.spend ⟨offset, 32⟩, ?_, fun _ => by rw [hlen]⟩
    exact (readValue_scalar_returns hscalar hv).mpr
      ⟨⟨body, hlen⟩, rfl, h, hheld, hcost, rfl, rfl⟩
  | bytes bs =>
    intro offset budget body _ h hheld hsize hcost
    cases h
    refine ⟨offset + 32, budget.spend ⟨offset, 32 + bs.length⟩, ?_, fun hd => by cases hd⟩
    exact readValue_bytes_returns.mpr
      ⟨bs, lengthPrefixedAt_of_holds hheld (hsize rfl) hcost, rfl, rfl⟩
  | string s =>
    intro offset budget body _ h hheld hsize hcost
    cases h
    refine ⟨offset + 32, budget.spend ⟨offset, 32 + (Bytes.ofText s).length⟩, ?_,
      fun hd => by cases hd⟩
    exact readValue_string_returns.mpr ⟨Bytes.ofText s, s,
      lengthPrefixedAt_of_holds hheld (hsize rfl) hcost, Bytes.toText?_ofText s, rfl, rfl⟩
  | array element items ih =>
    intro offset budget body hv h hheld hsize hcost
    have helement := Schema.isValid_array_iff.mp hv
    have hmax := hsize rfl
    obtain ⟨parts, hparts, rfl⟩ := Value.encode_array_eq_ok_iff.mp h
    obtain ⟨hword, hheld⟩ := Buffer.holds_append.mp hheld
    rw [FixedBytes.length_bytes] at hheld
    have hcount := hword.le_size
    rw [Value.cost] at hcost
    have hspend : (budget.spend ⟨offset, 32⟩).remaining = budget.remaining - 32 := rfl
    obtain ⟨rest, hrest⟩ := readSequence_of_readsBack hparts ih
      (List.forall_mem_replicate.mpr (.inr helement)) (fun _ => hmax) hheld
      (show Value.costs items ≤ (budget.spend ⟨offset, 32⟩).remaining by omega)
    refine ⟨offset + 32, rest, ?_, fun hd => by cases hd⟩
    -- an item takes a word at least, so the buffer bounds their number
    have hroom := room_of_holds_layout hparts helement hheld
    exact readValue_array_returns.mpr ⟨items, _, rfl, rfl,
      count_le_maxSize_of_room helement hmax (by omega) hroom, hword, by omega, hroom, hrest⟩
  | fixedArray element items ih =>
    intro offset budget body hv h hheld hsize hcost
    obtain ⟨-, -, helement⟩ := Schema.isValid_fixedArray_iff.mp hv
    have hsizeItems : element.isDynamic = true → b.size ≤ maxSize := hsize
    obtain ⟨parts, hparts, rfl⟩ := Value.encode_fixedArray_eq_ok_iff.mp h
    obtain ⟨rest, hrest⟩ := readSequence_of_readsBack hparts ih
      (List.forall_mem_replicate.mpr (.inr helement))
      (fun hd => hsizeItems (Schema.isDynamic_of_anyDynamic_replicate hd)) hheld hcost
    refine ⟨_, rest, readValue_fixedArray_returns.mpr
      ⟨items, rfl, room_of_holds_layout hparts helement hheld, hrest⟩, fun hd => ?_⟩
    have hd : element.isDynamic = false := hd
    have hnil := hparts.tails_of_static (List.forall_mem_replicate.mpr (.inr hd))
    rw [Part.layout, hnil, List.append_nil]
  | tuple items ih =>
    intro offset budget body hv h hheld hsize hcost
    obtain ⟨-, hmembers⟩ := Schema.isValid_tuple_iff.mp hv
    obtain ⟨parts, hparts, rfl⟩ := Value.encode_tuple_eq_ok_iff.mp h
    obtain ⟨rest, hrest⟩ := readSequence_of_readsBack hparts ih hmembers hsize hheld hcost
    refine ⟨_, rest, readValue_tuple_returns.mpr ⟨items, rfl, hrest⟩, fun hd => ?_⟩
    have hnil := hparts.tails_of_static (Schema.anyDynamic_eq_false_iff.mp hd)
    rw [Part.layout, hnil, List.append_nil]

/-! ## Sequences -/

/-- **A buffer that starts with an encoding decodes to what was
encoded.** -/
theorem decode_of_encode {values : List Value} {schemas : List Schema} {bs data : Bytes}
    (h : encode values schemas = .ok bs) (hfront : bs <+: data)
    (hsize : Schema.anyDynamic schemas = true → data.length ≤ maxSize) :
    decode data schemas = .ok values := by
  obtain ⟨hschemas, parts, hparts, rfl⟩ := encode_eq_ok_iff.mp h
  have hcost : Value.costs values ≤ (Budget.ofBuffer (Buffer.ofBytes data)).remaining := by
    show _ ≤ (Buffer.ofBytes data).size
    rw [Buffer.size_ofBytes]
    exact Nat.le_trans (hparts.costs_le_length hschemas _) hfront.length_le
  obtain ⟨rest, hrest⟩ := readSequence_of_readsBack hparts (fun v _ => Value.readsBack _ v)
    hschemas (fun hd => by rw [Buffer.size_ofBytes]; exact hsize hd)
    (Buffer.holds_ofBytes_iff.mpr hfront) hcost
  refine decode_eq_ok_iff.mpr ⟨hschemas, ?_, _, rest, hrest⟩
  rw [← hparts.schemas_eq, checkSchemas_schemas]

/-- The same behind a selector. -/
theorem decodeBehind_of_encodeBehind {selector : Selector} {values : List Value}
    {schemas : List Schema} {payload suffix : Bytes}
    (h : encodeBehind selector values schemas = .ok payload)
    (hsize : payload.length + suffix.length ≤ maxSize) :
    decodeBehind selector (payload ++ suffix) schemas = .ok values := by
  unfold encodeBehind at h
  cases hbs : encode values schemas with
  | error e =>
    rw [hbs] at h
    cases h
  | ok bs =>
    rw [hbs] at h
    obtain rfl : selector.bytes ++ bs = payload := Except.ok.inj h
    rw [List.length_append, selector.length_bytes] at hsize
    have hlen : ¬ (selector.bytes ++ (bs ++ suffix)).length < 4 := by
      rw [List.length_append, selector.length_bytes]
      omega
    unfold decodeBehind
    rw [List.append_assoc, if_neg hlen, List.take_left' selector.length_bytes, if_pos rfl,
      List.drop_left' selector.length_bytes]
    refine decode_of_encode hbs (List.prefix_append bs suffix) fun _ => ?_
    rw [List.length_append]
    omega

/-- **Whatever was encoded is decoded**, with any bytes behind it, by
itself and behind the selector of a function or an error. In particular no
offset or length of an encoding is refused, and the budget does not run
out. -/
theorem decode_encode_append :
    (∀ (schemas : List Schema) (values : List Value) (bs suffix : Bytes),
      encode values schemas = .ok bs → bs.length + suffix.length < 2 ^ 64 →
      decode (bs ++ suffix) schemas = .ok values)
    ∧ (∀ (f : Function) (arguments : List Value) (calldata suffix : Bytes),
      f.encodeCall arguments = .ok calldata → calldata.length + suffix.length < 2 ^ 64 →
      f.decodeCall (calldata ++ suffix) = .ok arguments)
    ∧ ∀ (e : CustomError) (arguments : List Value) (payload suffix : Bytes),
      e.encodeRevert arguments = .ok payload → payload.length + suffix.length < 2 ^ 64 →
      e.decodeRevert (payload ++ suffix) = .ok arguments := by
  refine ⟨fun schemas values bs suffix h hsize => ?_, fun f arguments calldata suffix h hsize => ?_,
    fun e arguments payload suffix h hsize => ?_⟩
  · refine decode_of_encode h (List.prefix_append bs suffix) fun _ => ?_
    rw [List.length_append]
    exact Nat.le_pred_of_lt hsize
  · exact decodeBehind_of_encodeBehind h (Nat.le_pred_of_lt hsize)
  · exact decodeBehind_of_encodeBehind h (Nat.le_pred_of_lt hsize)

/-- A list of texts behind a number, the call that transfers seven units,
and a revert for a reason, each with bytes behind it. -/
theorem decode_encode_append_texts :
    (∃ bs, encode [.uint 8 7, .array .string [.string "ab", .string ""]]
          [.uint 8, .array .string] = .ok bs
      ∧ bs.length + [(0xff : UInt8), 0xff].length < 2 ^ 64
      ∧ decode (bs ++ [0xff, 0xff]) [.uint 8, .array .string]
        = .ok [.uint 8 7, .array .string [.string "ab", .string ""]])
    ∧ (∃ (f : Function) (calldata : Bytes), f.name = "transfer"
      ∧ f.encodeCall [.address ⟨Bytes.zeros 20, rfl⟩, .uint 256 7] = .ok calldata
      ∧ calldata.length + [(0xff : UInt8)].length < 2 ^ 64
      ∧ f.decodeCall (calldata ++ [0xff]) = .ok [.address ⟨Bytes.zeros 20, rfl⟩, .uint 256 7])
    ∧ ∃ (e : CustomError) (payload : Bytes), e.name = "Error"
      ∧ e.encodeRevert [.string "paused"] = .ok payload
      ∧ payload.length + [(0xff : UInt8)].length < 2 ^ 64
      ∧ e.decodeRevert (payload ++ [0xff]) = .ok [.string "paused"] :=
  ⟨⟨_, rfl, by decide +kernel, decode_encode_append.1 _ _ _ _ rfl (by decide +kernel)⟩,
    ⟨⟨"transfer", [.unnamed .address, .unnamed (.uint 256)], [], ⟨[0xa9, 0x05, 0x9c, 0xbb], rfl⟩⟩,
      _, rfl, rfl, by decide +kernel,
      decode_encode_append.2.1 _ _ _ _ rfl (by decide +kernel)⟩,
    ⟨⟨"Error", [.unnamed .string], ⟨[0x08, 0xc3, 0x79, 0xa0], rfl⟩⟩,
      _, rfl, rfl, by decide +kernel,
      decode_encode_append.2.2 _ _ _ _ rfl (by decide +kernel)⟩⟩

end EthCall.Abi
