import EthCall.Proofs.Abi.Budget

/-!
# The padding an encoding ends with

A payload is padded to whole words. Where an encoding ends with a payload,
it so ends with padding (`Value.trailing`), and that is the only stretch of
an encoding that decoding neither looks at nor charges for
(`Value.cost_add_trailing_le_length`). The zero bytes that complete a
scalar are something else. They are checked when the scalar is read.

What a sequence ends with is its last tail, whatever stands behind the
value of that tail among the heads.
-/

namespace EthCall.Abi

/-- Less than a word completes a number of bytes to whole words. -/
theorem paddingLength_lt (length : Nat) : paddingLength length < 32 := by
  unfold paddingLength
  omega

namespace Value

mutual

/-- **How many bytes of padding the encoding of a value ends with.** -/
def trailing : Value → Nat
  | bytes bs => paddingLength bs.length
  | string s => paddingLength (Bytes.ofText s).length
  | array _ items => trailings items
  | fixedArray _ items => trailings items
  | tuple items => trailings items
  | _ => 0

/-- How many bytes of padding a sequence ends with, which is what its last
tail ends with. -/
def trailings : List Value → Nat
  | [] => 0
  | v :: vs =>
    if Schema.anyDynamic (schemas vs) then trailings vs
    else if v.schema.isDynamic then trailing v
    else 0

end

/-- The padding of one text behind another counts, and that of the first
does not. -/
example : trailings [.string "ab", .string "abc", .bool true] = 29 := by decide +kernel

/-- A scalar ends with no padding. -/
theorem trailing_of_isScalar {v : Value} (h : v.schema.isScalar = true) : v.trailing = 0 := by
  cases v <;> first | rfl | cases h

/-! ## Which tail is the last -/

/-- Where nothing is dynamic there are no tails. -/
theorem trailings_of_static {vs : List Value} (h : Schema.anyDynamic (schemas vs) = false) :
    trailings vs = 0 := by
  cases vs with
  | nil => rfl
  | cons v vs =>
    obtain ⟨hv, hvs⟩ := Bool.or_eq_false_iff.mp h
    rw [trailings, hvs, if_neg Bool.false_ne_true, hv, if_neg Bool.false_ne_true]

/-- The last tail stands behind the first one, if there is another. -/
theorem trailings_cons_of_anyDynamic (v : Value) {vs : List Value}
    (h : Schema.anyDynamic (schemas vs) = true) : trailings (v :: vs) = trailings vs := by
  rw [trailings, if_pos h]

/-- Otherwise it is the first. -/
theorem trailings_cons_of_last {v : Value} {vs : List Value} (hv : v.schema.isDynamic = true)
    (h : Schema.anyDynamic (schemas vs) = false) : trailings (v :: vs) = trailing v := by
  rw [trailings, h, if_neg Bool.false_ne_true, if_pos hv]

/-- A static value has no tail. -/
theorem trailings_cons_static {v : Value} {vs : List Value} (hv : v.schema.isDynamic = false) :
    trailings (v :: vs) = trailings vs := by
  cases h : Schema.anyDynamic (schemas vs) with
  | true => exact trailings_cons_of_anyDynamic v h
  | false => rw [trailings, h, hv, trailings_of_static h, if_neg Bool.false_ne_true,
      if_neg Bool.false_ne_true]

/-- The encoding of a static value has no padding at its end. -/
theorem trailing_of_static {v : Value} {body : Bytes} (h : v.encode = .ok body)
    (hd : v.schema.isDynamic = false) : v.trailing = 0 := by
  cases v with
  | fixedArray element items =>
    have helement : element.isDynamic = false := hd
    obtain ⟨parts, hparts, -⟩ := encode_fixedArray_eq_ok_iff.mp h
    refine trailings_of_static ?_
    rw [hparts.schemas_eq]
    exact Schema.anyDynamic_eq_false_iff.mpr (List.forall_mem_replicate.mpr (.inr helement))
  | tuple items => exact trailings_of_static hd
  | bytes bs => cases hd
  | string s => cases hd
  | array element items => cases hd
  | _ => rfl

/-! ## How much padding there is -/

/-- The padding of a sequence is that of one of its values. -/
theorem trailings_le {n : Nat} {vs : List Value} (h : ∀ v ∈ vs, v.trailing ≤ n) :
    trailings vs ≤ n := by
  induction vs with
  | nil => exact Nat.zero_le n
  | cons v vs ih =>
    obtain ⟨hv, hvs⟩ := List.forall_mem_cons.mp h
    rw [trailings]
    split
    · exact ih hvs
    · split
      · exact hv
      · exact Nat.zero_le n

/-- The padding at the end is less than a word. -/
theorem trailing_le (v : Value) : v.trailing ≤ 31 := by
  induction v using ind with
  | scalar v hs =>
    rw [trailing_of_isScalar hs]
    exact Nat.zero_le 31
  | bytes bs => exact Nat.le_of_lt_succ (paddingLength_lt _)
  | string s => exact Nat.le_of_lt_succ (paddingLength_lt _)
  | array element items ih => exact trailings_le ih
  | fixedArray element items ih => exact trailings_le ih
  | tuple items ih => exact trailings_le ih

/-! ## Where it stands -/

/-- The tails end with padding, if each value does. -/
theorem EncodesTo.exists_tails_eq_of_forall {vs : List Value} {ss : List Schema}
    {parts : List Part} (h : EncodesTo vs ss parts)
    (hvs : ∀ v ∈ vs, ∀ body, v.encode = .ok body →
      ∃ front, body = front ++ Bytes.zeros v.trailing) :
    ∃ front, Part.tails parts = front ++ Bytes.zeros (trailings vs) := by
  induction h with
  | nil => exact ⟨[], rfl⟩
  | @cons v vs ss body parts hbody hrest ih =>
    obtain ⟨hv, hvs⟩ := List.forall_mem_cons.mp hvs
    obtain ⟨front, hfront⟩ := ih hvs
    cases hd : v.schema.isDynamic with
    | true =>
      rw [Part.tails_cons_dynamic]
      cases hany : Schema.anyDynamic (schemas vs) with
      | true =>
        refine ⟨body ++ front, ?_⟩
        rw [trailings_cons_of_anyDynamic v hany, hfront, List.append_assoc]
      | false =>
        have hstatic := hany
        rw [hrest.schemas_eq] at hstatic
        rw [trailings_cons_of_last hd hany,
          hrest.tails_of_static (Schema.anyDynamic_eq_false_iff.mp hstatic), List.append_nil]
        exact hv body hbody
    | false =>
      rw [Part.tails_cons_static, trailings_cons_static hd]
      exact ⟨front, hfront⟩

/-- So does the sequence, the tails being what it ends with. -/
theorem EncodesTo.exists_layout_eq_of_forall {vs : List Value} {ss : List Schema}
    {parts : List Part} (h : EncodesTo vs ss parts)
    (hvs : ∀ v ∈ vs, ∀ body, v.encode = .ok body →
      ∃ front, body = front ++ Bytes.zeros v.trailing) (headSize : Nat) :
    ∃ front, Part.layout headSize parts = front ++ Bytes.zeros (trailings vs) := by
  obtain ⟨front, hfront⟩ := h.exists_tails_eq_of_forall hvs
  refine ⟨Part.heads headSize parts ++ front, ?_⟩
  rw [Part.layout, hfront, List.append_assoc]

/-- **An encoding ends with its padding.** -/
theorem exists_encode_eq {v : Value} {body : Bytes} (h : v.encode = .ok body) :
    ∃ front, body = front ++ Bytes.zeros v.trailing := by
  induction v using ind generalizing body with
  | scalar v hs =>
    rw [trailing_of_isScalar hs]
    exact ⟨body, (List.append_nil body).symm⟩
  | bytes bs =>
    cases h
    exact ⟨_, rfl⟩
  | string s =>
    cases h
    exact ⟨_, rfl⟩
  | array element items ih =>
    obtain ⟨parts, hparts, rfl⟩ := encode_array_eq_ok_iff.mp h
    obtain ⟨front, hfront⟩ := hparts.exists_layout_eq_of_forall (fun v hv _ => ih v hv)
      (Schema.headSizes (List.replicate items.length element))
    refine ⟨(Word.ofNat items.length).bytes ++ front, ?_⟩
    rw [hfront, trailing, List.append_assoc]
  | fixedArray element items ih =>
    obtain ⟨parts, hparts, rfl⟩ := encode_fixedArray_eq_ok_iff.mp h
    exact hparts.exists_layout_eq_of_forall (fun v hv _ => ih v hv) _
  | tuple items ih =>
    obtain ⟨parts, hparts, rfl⟩ := encode_tuple_eq_ok_iff.mp h
    exact hparts.exists_layout_eq_of_forall (fun v hv _ => ih v hv) _

/-- A sequence ends with its padding. -/
theorem EncodesTo.exists_layout_eq {vs : List Value} {ss : List Schema} {parts : List Part}
    (h : EncodesTo vs ss parts) (headSize : Nat) :
    ∃ front, Part.layout headSize parts = front ++ Bytes.zeros (trailings vs) :=
  h.exists_layout_eq_of_forall (fun _ _ _ => exists_encode_eq) headSize

/-- There is no more padding than there are tails. -/
theorem EncodesTo.trailings_le_length {vs : List Value} {ss : List Schema} {parts : List Part}
    (h : EncodesTo vs ss parts) : trailings vs ≤ (Part.tails parts).length := by
  obtain ⟨front, hfront⟩ := h.exists_tails_eq_of_forall fun _ _ _ => exists_encode_eq
  rw [hfront, List.length_append, Bytes.length_zeros]
  exact Nat.le_add_left _ _

/-- Nor more than there is of the sequence. -/
theorem EncodesTo.trailings_le_length_layout {vs : List Value} {ss : List Schema}
    {parts : List Part} (h : EncodesTo vs ss parts) (headSize : Nat) :
    trailings vs ≤ (Part.layout headSize parts).length := by
  rw [Part.layout, List.length_append]
  exact Nat.le_trans h.trailings_le_length (Nat.le_add_left _ _)

/-! ## Padding costs nothing -/

/-- The padding of a sequence is that of its first value, or of the
others. -/
theorem trailings_cons_le (v : Value) (vs : List Value) :
    trailings (v :: vs) ≤ trailing v + trailings vs := by
  rw [trailings]
  split
  · exact Nat.le_add_left _ _
  · split
    · exact Nat.le_add_right _ _
    · exact Nat.zero_le _

/-- What a sequence costs, and the padding it ends with, are parts of its
length, if that holds of each value. -/
theorem EncodesTo.costs_add_trailings_le_of_forall {vs : List Value} {ss : List Schema}
    {parts : List Part} (h : EncodesTo vs ss parts)
    (hvs : ∀ v ∈ vs, ∀ body, v.schema.IsValid → v.encode = .ok body →
      v.cost + v.trailing ≤ body.length)
    (hss : ∀ s ∈ ss, s.IsValid) (offset : Nat) :
    costs vs + trailings vs ≤ (Part.heads offset parts).length + (Part.tails parts).length := by
  induction h generalizing offset with
  | nil => exact Nat.zero_le _
  | @cons v vs ss body parts hbody _ ih =>
    obtain ⟨hv, hvs⟩ := List.forall_mem_cons.mp hvs
    obtain ⟨hs, hss⟩ := List.forall_mem_cons.mp hss
    have hfirst := hv body hs hbody
    have hrest := ih hvs hss
    have hcons := trailings_cons_le v vs
    rw [costs]
    cases v.schema.isDynamic with
    | true =>
      have hle := hrest (offset + body.length)
      rw [Part.heads_cons_dynamic, Part.tails_cons_dynamic, List.length_append,
        List.length_append, FixedBytes.length_bytes]
      omega
    | false =>
      have hle := hrest offset
      rw [Part.heads_cons_static, Part.tails_cons_static, List.length_append]
      omega

/-- **What is charged for a value is less than its encoding by the padding
at least.** -/
theorem cost_add_trailing_le_length {v : Value} {body : Bytes} (hv : v.schema.IsValid)
    (h : v.encode = .ok body) : v.cost + v.trailing ≤ body.length := by
  induction v using ind generalizing body with
  | scalar v hs =>
    rw [cost_of_isScalar hs, trailing_of_isScalar hs, length_encode_of_isScalar hs hv h]
  | bytes bs =>
    cases h
    rw [cost, trailing, lengthPrefixed, List.length_append, List.length_append,
      FixedBytes.length_bytes, Bytes.length_zeros]
  | string s =>
    cases h
    rw [cost, trailing, lengthPrefixed, List.length_append, List.length_append,
      FixedBytes.length_bytes, Bytes.length_zeros]
  | array element items ih =>
    have helement := Schema.isValid_array_iff.mp hv
    obtain ⟨parts, hparts, rfl⟩ := encode_array_eq_ok_iff.mp h
    have hle := hparts.costs_add_trailings_le_of_forall (fun v hv _ => ih v hv)
      (List.forall_mem_replicate.mpr (.inr helement))
      (Schema.headSizes (List.replicate items.length element))
    rw [cost, trailing, Part.layout, List.length_append, List.length_append,
      FixedBytes.length_bytes]
    omega
  | fixedArray element items ih =>
    obtain ⟨-, -, helement⟩ := Schema.isValid_fixedArray_iff.mp hv
    obtain ⟨parts, hparts, rfl⟩ := encode_fixedArray_eq_ok_iff.mp h
    rw [cost, trailing, Part.layout, List.length_append]
    exact hparts.costs_add_trailings_le_of_forall (fun v hv _ => ih v hv)
      (List.forall_mem_replicate.mpr (.inr helement)) _
  | tuple items ih =>
    obtain ⟨-, hmembers⟩ := Schema.isValid_tuple_iff.mp hv
    obtain ⟨parts, hparts, rfl⟩ := encode_tuple_eq_ok_iff.mp h
    rw [cost, trailing, Part.layout, List.length_append]
    exact hparts.costs_add_trailings_le_of_forall (fun v hv _ => ih v hv) hmembers _

end Value

end EthCall.Abi
