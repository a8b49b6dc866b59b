import EthCall.Abi.Encode
import EthCall.Proofs.Abi.Schema

/-!
# Encodings and their sizes

What a successful encoding went through, one equivalence for each kind of
value, and what it measures: the heads of a sequence take exactly the
bytes its schemas take in place (`Value.EncodesTo.length_heads`), and the
encoding of a value of a static schema is nothing but its head
(`Value.hasInlineSize`).

The sizes are the unbounded ones. That the codec itself computes with
bounded ones makes no difference for encodings that fit in a buffer
(`Value.EncodesTo.headSizes_eq_length_heads`).
-/

namespace EthCall.Abi

/-! ## Heads and tails -/

namespace Part

variable (offset : Nat) (body : Bytes) (rest : List Part)

@[simp] theorem heads_cons_dynamic :
    heads offset (⟨true, body⟩ :: rest)
      = (Word.ofNat offset).bytes ++ heads (offset + body.length) rest := rfl

@[simp] theorem heads_cons_static :
    heads offset (⟨false, body⟩ :: rest) = body ++ heads offset rest := rfl

@[simp] theorem tails_cons_dynamic : tails (⟨true, body⟩ :: rest) = body ++ tails rest := rfl

@[simp] theorem tails_cons_static : tails (⟨false, body⟩ :: rest) = tails rest := rfl

/-- No value is longer than the sequence it is part of. -/
theorem length_body_le_layout {x : Part} {xs : List Part} (h : x ∈ xs) (start : Nat) :
    x.body.length ≤ (layout start xs).length := by
  unfold layout
  rw [List.length_append]
  -- where the tails start is general, as it moves past each of them
  induction xs generalizing start with
  | nil => cases h
  | cons y xs ih =>
    obtain ⟨isDynamic, body⟩ := y
    cases isDynamic with
    | true =>
      rw [heads_cons_dynamic, tails_cons_dynamic, List.length_append,
        List.length_append]
      rcases List.mem_cons.mp h with rfl | hx
      · show body.length ≤ _
        omega
      · have hle := ih hx (start + body.length)
        omega
    | false =>
      rw [heads_cons_static, tails_cons_static, List.length_append]
      rcases List.mem_cons.mp h with rfl | hx
      · show body.length ≤ _
        omega
      · have hle := ih hx start
        omega

end Part

namespace Value

/-! ## Shapes -/

/-- **Induction over the shape of a value.** -/
@[elab_as_elim]
theorem ind {motive : Value → Prop} (scalar : ∀ v, v.schema.isScalar = true → motive v)
    (bytes : ∀ bs, motive (bytes bs)) (string : ∀ s, motive (string s))
    (array : ∀ element items, (∀ v ∈ items, motive v) → motive (array element items))
    (fixedArray : ∀ element items, (∀ v ∈ items, motive v) → motive (fixedArray element items))
    (tuple : ∀ items, (∀ v ∈ items, motive v) → motive (tuple items)) (v : Value) :
    motive v :=
  Value.rec (motive_1 := motive) (motive_2 := fun items => ∀ v ∈ items, motive v)
    (fun _ _ => scalar _ rfl) (fun _ _ => scalar _ rfl) (fun _ => scalar _ rfl)
    (fun _ => scalar _ rfl) (fun _ => scalar _ rfl) bytes string array fixedArray tuple
    (fun _ h => nomatch h)
    (fun _ _ hitem hrest => List.forall_mem_cons.mpr ⟨hitem, hrest⟩) v

@[simp] theorem length_schemas (vs : List Value) : (schemas vs).length = vs.length := by
  induction vs with
  | nil => rfl
  | cons v vs ih => rw [schemas, List.length_cons, ih, List.length_cons]

/-! ## Successful encodings -/

/-- **What the encoding of a sequence goes through**: one value after the
other, each against the schema it has. -/
inductive EncodesTo : List Value → List Schema → List Part → Prop
  | nil : EncodesTo [] [] []
  | cons {v : Value} {vs : List Value} {ss : List Schema} {body : Bytes} {parts : List Part}
    (hbody : v.encode = .ok body) (hrest : EncodesTo vs ss parts) :
    EncodesTo (v :: vs) (v.schema :: ss) (⟨v.schema.isDynamic, body⟩ :: parts)

/-- There are as many schemas as values. -/
theorem EncodesTo.length_eq {vs : List Value} {ss : List Schema} {parts : List Part}
    (h : EncodesTo vs ss parts) : vs.length = ss.length := by
  induction h with
  | nil => rfl
  | cons _ _ ih => rw [List.length_cons, List.length_cons, ih]

/-- The schemas are those of the values. -/
theorem EncodesTo.schemas_eq {vs : List Value} {ss : List Schema} {parts : List Part}
    (h : EncodesTo vs ss parts) : schemas vs = ss := by
  induction h with
  | nil => rfl
  | cons _ _ ih => rw [schemas, ih]

/-- The encoder succeeds on what was gone through. -/
theorem EncodesTo.encodeParts_eq {vs : List Value} {ss : List Schema} {parts : List Part}
    (h : EncodesTo vs ss parts) : encodeParts vs ss = .ok parts := by
  induction h with
  | nil => rfl
  | cons hbody _ ih => rw [encodeParts, if_pos rfl, hbody, ih]

/-- It succeeds on nothing else. -/
theorem encodesTo_of_encodeParts {vs : List Value} {ss : List Schema} {parts : List Part}
    (hlen : vs.length = ss.length) (h : encodeParts vs ss = .ok parts) :
    EncodesTo vs ss parts := by
  induction vs generalizing ss parts with
  | nil =>
    obtain rfl : ss = [] := List.length_eq_zero_iff.mp hlen.symm
    cases h
    exact .nil
  | cons v vs ih =>
    cases ss with
    | nil => cases hlen
    | cons s ss =>
      rw [encodeParts] at h
      by_cases hs : v.schema = s
      · rw [if_pos hs] at h
        subst hs
        cases hbody : v.encode with
        | error e => simp [hbody] at h
        | ok body =>
          cases hrest : encodeParts vs ss with
          | error e => simp [hbody, hrest] at h
          | ok rest =>
            obtain rfl : ⟨v.schema.isDynamic, body⟩ :: rest = parts := by
              simpa [hbody, hrest] using h
            exact .cons hbody (ih (Nat.succ.inj hlen) hrest)
      · rw [if_neg hs] at h
        cases h

/-- **The encoder succeeds by going through a sequence.** -/
theorem encodesTo_iff {vs : List Value} {ss : List Schema} {parts : List Part} :
    EncodesTo vs ss parts ↔ vs.length = ss.length ∧ encodeParts vs ss = .ok parts :=
  ⟨fun h => ⟨h.length_eq, h.encodeParts_eq⟩, fun h => encodesTo_of_encodeParts h.1 h.2⟩

/-- An array is its count and the sequence of its items. -/
theorem encode_array_eq_ok_iff {element : Schema} {items : List Value} {body : Bytes} :
    (array element items).encode = .ok body
      ↔ ∃ parts, EncodesTo items (List.replicate items.length element) parts
        ∧ body = (Word.ofNat items.length).bytes ++
          Part.layout (Schema.headSizes (List.replicate items.length element)) parts := by
  simp only [encodesTo_iff, List.length_replicate, true_and]
  rw [encode]
  cases encodeParts items (List.replicate items.length element) <;> simp [eq_comm]

/-- A fixed array is the sequence of its items, its count being part of the
schema. -/
theorem encode_fixedArray_eq_ok_iff {element : Schema} {items : List Value} {body : Bytes} :
    (fixedArray element items).encode = .ok body
      ↔ ∃ parts, EncodesTo items (List.replicate items.length element) parts
        ∧ body = Part.layout (Schema.headSizes (List.replicate items.length element)) parts := by
  simp only [encodesTo_iff, List.length_replicate, true_and]
  rw [encode]
  cases encodeParts items (List.replicate items.length element) <;> simp [eq_comm]

/-- A tuple is the sequence of its items. -/
theorem encode_tuple_eq_ok_iff {items : List Value} {body : Bytes} :
    (tuple items).encode = .ok body
      ↔ ∃ parts, EncodesTo items (schemas items) parts
        ∧ body = Part.layout (Schema.headSizes (schemas items)) parts := by
  simp only [encodesTo_iff, length_schemas, true_and]
  rw [encode]
  cases encodeParts items (schemas items) <;> simp [eq_comm]

/-! ## Sizes -/

/-- A scalar is encoded as one word. -/
theorem length_encode_of_isScalar {v : Value} {body : Bytes} (hs : v.schema.isScalar = true)
    (hv : v.schema.IsValid) (h : v.encode = .ok body) : body.length = 32 := by
  cases v with
  | uint bits n =>
    rw [encode] at h
    split at h
    · cases h
      exact FixedBytes.length_bytes _
    · cases h
  | int bits z =>
    rw [encode] at h
    split at h
    · cases h
      exact FixedBytes.length_bytes _
    · cases h
  | address a =>
    cases h
    rw [List.length_append, Bytes.length_zeros, a.length_bytes]
  | bool b =>
    cases h
    exact FixedBytes.length_bytes _
  | fixedBytes bs =>
    obtain ⟨-, hle⟩ := Schema.isValid_fixedBytes_iff.mp hv
    cases h
    rw [List.length_append, Bytes.length_zeros]
    omega
  | _ => cases hs

/-- **What the encoding of a value measures**, if its schema is static. -/
def HasInlineSize (v : Value) : Prop :=
  ∀ body, v.schema.IsValid → v.encode = .ok body → v.schema.isDynamic = false →
    body.length = v.schema.inlineSize

/-- The heads of a sequence take what its schemas take in place, if each
static value does. -/
theorem EncodesTo.length_heads_of_hasInlineSize {vs : List Value} {ss : List Schema}
    {parts : List Part} (h : EncodesTo vs ss parts) (hvs : ∀ v ∈ vs, v.HasInlineSize)
    (hss : ∀ s ∈ ss, s.IsValid) (offset : Nat) :
    (Part.heads offset parts).length = Schema.inlineSizes ss := by
  induction h generalizing offset with
  | nil => rfl
  | @cons v vs ss body parts hbody _ ih =>
    obtain ⟨hv, hvs⟩ := List.forall_mem_cons.mp hvs
    obtain ⟨hs, hss⟩ := List.forall_mem_cons.mp hss
    rw [Schema.inlineSizes]
    cases hd : v.schema.isDynamic with
    | true =>
      rw [Part.heads_cons_dynamic, List.length_append, FixedBytes.length_bytes, ih hvs hss,
        Schema.inlineSize_of_isDynamic hd]
    | false =>
      rw [Part.heads_cons_static, List.length_append, ih hvs hss, hv body hs hbody hd]

/-- A sequence of static schemas has no tails. -/
theorem EncodesTo.tails_of_static {vs : List Value} {ss : List Schema} {parts : List Part}
    (h : EncodesTo vs ss parts) (hss : ∀ s ∈ ss, s.isDynamic = false) :
    Part.tails parts = [] := by
  induction h with
  | nil => rfl
  | cons _ _ ih =>
    obtain ⟨hs, hss⟩ := List.forall_mem_cons.mp hss
    rw [hs, Part.tails_cons_static]
    exact ih hss

/-- **A static value takes its size in place.** -/
theorem hasInlineSize (v : Value) : v.HasInlineSize := by
  induction v using ind with
  | scalar v hs =>
    intro body hv h _
    rw [length_encode_of_isScalar hs hv h, Schema.inlineSize_of_isScalar hs]
  | bytes bs =>
    intro _ _ _ hd
    cases hd
  | string s =>
    intro _ _ _ hd
    cases hd
  | array element items ih =>
    intro _ _ _ hd
    cases hd
  | fixedArray element items ih =>
    intro body hv h hd
    have hd : element.isDynamic = false := hd
    obtain ⟨-, -, helement⟩ := Schema.isValid_fixedArray_iff.mp hv
    obtain ⟨parts, hparts, rfl⟩ := encode_fixedArray_eq_ok_iff.mp h
    have hheads := hparts.length_heads_of_hasInlineSize ih
      (List.forall_mem_replicate.mpr (.inr helement))
    -- nothing stands behind the heads
    have htails := hparts.tails_of_static (List.forall_mem_replicate.mpr (.inr hd))
    rw [Part.layout, htails, List.append_nil, hheads, Schema.inlineSizes_replicate]
    show _ = Schema.inlineSize (.fixedArray element items.length)
    rw [Schema.inlineSize, hd, if_neg Bool.false_ne_true]
  | tuple items ih =>
    intro body hv h hd
    have hd : Schema.anyDynamic (schemas items) = false := hd
    obtain ⟨-, hmembers⟩ := Schema.isValid_tuple_iff.mp hv
    obtain ⟨parts, hparts, rfl⟩ := encode_tuple_eq_ok_iff.mp h
    have hheads := hparts.length_heads_of_hasInlineSize ih hmembers
    have htails := hparts.tails_of_static (Schema.anyDynamic_eq_false_iff.mp hd)
    rw [Part.layout, htails, List.append_nil, hheads]
    show _ = Schema.inlineSize (.tuple (schemas items))
    rw [Schema.inlineSize, hd, if_neg Bool.false_ne_true]

/-- **The heads of a sequence take what its schemas take in place.** -/
theorem EncodesTo.length_heads {vs : List Value} {ss : List Schema} {parts : List Part}
    (h : EncodesTo vs ss parts) (hss : ∀ s ∈ ss, s.IsValid) (offset : Nat) :
    (Part.heads offset parts).length = Schema.inlineSizes ss :=
  h.length_heads_of_hasInlineSize (fun v _ => hasInlineSize v) hss offset

/-- While the heads fit in a buffer, the head size the codec computes with
is the number of bytes they take. -/
theorem EncodesTo.headSizes_eq_length_heads {vs : List Value} {ss : List Schema}
    {parts : List Part} (h : EncodesTo vs ss parts) (hss : ∀ s ∈ ss, s.IsValid) (offset : Nat)
    (hle : (Part.heads offset parts).length ≤ maxSize) :
    Schema.headSizes ss = (Part.heads offset parts).length := by
  rw [h.length_heads hss] at hle ⊢
  rw [Schema.headSizes_eq, Nat.min_eq_left hle]

end Value

/-! ## Encoding sequences -/

/-- **What a successful encoding of a sequence went through.** -/
theorem encode_eq_ok_iff {values : List Value} {schemas : List Schema} {bs : Bytes} :
    encode values schemas = .ok bs
      ↔ (∀ s ∈ schemas, s.IsValid) ∧ ∃ parts, Value.EncodesTo values schemas parts
          ∧ bs = Part.layout (Schema.headSizes schemas) parts := by
  unfold encode
  simp only [Value.encodesTo_iff]
  rw [← Schema.defectIn?_eq_none_iff]
  cases Schema.defectIn? schemas with
  | some e => simp
  | none =>
    by_cases hlen : values.length = schemas.length
    · rw [if_pos hlen]
      cases Value.encodeParts values schemas <;> simp [hlen, eq_comm]
    · rw [if_neg hlen]
      simp [hlen]

end EthCall.Abi
