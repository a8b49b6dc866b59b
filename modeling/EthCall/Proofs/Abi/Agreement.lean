import EthCall.Proofs.Abi.Format

/-!
# Encoding follows the format

The format measures what the heads of a sequence occupy. The encoder does
not: it adds up the sizes that the schemas predict, holds the sum at the
largest size, and counts the offsets from there. The two agree on every
value whose encoding fits in a buffer (`Format.agrees`), because the
prediction comes true at every level and the bound is then never reached.
-/

namespace EthCall.Abi

namespace Format

/-! ## Sequences -/

/-- **The encoding of a value is the one the format defines**, as long as
a buffer can hold it. -/
def Agrees (v : Value) : Prop :=
  ∀ ⦃body : Bytes⦄, v.schema.IsValid → v.encode = .ok body → body.length ≤ maxSize → body = enc v

/-- Values that are encoded as the format defines give its parts. -/
theorem parts_of_agrees {vs : List Value} {ss : List Schema} {xs : List Part}
    (h : Value.EncodesTo vs ss xs) (hvs : ∀ v ∈ vs, Agrees v) (hss : ∀ s ∈ ss, s.IsValid)
    (hmax : ∀ x ∈ xs, x.body.length ≤ maxSize) : xs = parts vs := by
  induction h with
  | nil => rfl
  | @cons v vs ss body xs hbody _ ih =>
    obtain ⟨hv, hvs⟩ := List.forall_mem_cons.mp hvs
    obtain ⟨hs, hss⟩ := List.forall_mem_cons.mp hss
    obtain ⟨hfirst, hrest⟩ := List.forall_mem_cons.mp hmax
    rw [parts, Schema.decide_dynamic, ← hv hs hbody hfirst, ← ih hvs hss hrest]

/-- **The predicted head size is what the heads occupy**, so that a
sequence of such values is encoded as the format defines. -/
theorem layout_eq_sequence_of_agrees {vs : List Value} {ss : List Schema} {xs : List Part}
    (h : Value.EncodesTo vs ss xs) (hvs : ∀ v ∈ vs, Agrees v) (hss : ∀ s ∈ ss, s.IsValid)
    (hmax : (Part.layout (Schema.headSizes ss) xs).length ≤ maxSize) :
    Part.layout (Schema.headSizes ss) xs = sequence (parts vs) := by
  have hparts : xs = parts vs := parts_of_agrees h hvs hss fun x hx =>
    Nat.le_trans (Part.length_body_le_layout hx _) hmax
  -- the bound on the whole keeps the sum of the head sizes below its own
  have hheads : (Part.heads (Schema.headSizes ss) xs).length ≤ maxSize := by
    rw [Part.layout, List.length_append] at hmax
    omega
  have hsize : Schema.headSizes ss = headsLength xs := by
    rw [headsLength_eq (Schema.headSizes ss)]
    exact h.headSizes_eq_length_heads hss _ hheads
  rw [sequence_eq_layout, ← hparts, ← hsize]

/-- Two ways to count the bytes missing to whole words. -/
theorem paddingLength_eq (length : Nat) : paddingLength length = (32 - length % 32) % 32 := by
  unfold paddingLength
  omega

/-- A byte string behind its length, in the terms of the format. -/
theorem lengthPrefixed_eq (bs : Bytes) :
    lengthPrefixed bs = Bytes.ofNat 32 bs.length ++ padded bs := by
  rw [lengthPrefixed, padded, paddingLength_eq, List.append_assoc]
  rfl

/-- A scalar is encoded as one word of the format. -/
theorem agrees_of_isScalar {v : Value} (hs : v.schema.isScalar = true) : Agrees v := by
  intro body hv h _
  cases v with
  | uint bits n =>
    rw [Value.encode] at h
    split at h
    · exact (Except.ok.inj h).symm
    · cases h
  | int bits z =>
    rw [Value.encode] at h
    split at h
    · exact (Except.ok.inj h).symm
    · cases h
  | address a => exact (Except.ok.inj h).symm
  | bool flag =>
    rw [← Except.ok.inj h]
    cases flag <;> rfl
  | fixedBytes bs =>
    obtain ⟨hne, hle⟩ := Schema.isValid_fixedBytes_iff.mp hv
    have hpadding : 32 - bs.length = (32 - bs.length % 32) % 32 := by omega
    rw [← Except.ok.inj h, enc, padded, hpadding]
  | _ => cases hs

/-- **The encoder follows the format**, for every value of a valid
schema. -/
theorem agrees (v : Value) : Agrees v := by
  induction v using Value.ind with
  | scalar v hs => exact agrees_of_isScalar hs
  | bytes bs =>
    intro body _ h _
    rw [← Except.ok.inj h, lengthPrefixed_eq, enc]
  | string s =>
    intro body _ h _
    rw [← Except.ok.inj h, lengthPrefixed_eq, enc]
  | array element items ih =>
    intro body hv h hmax
    have helement := Schema.isValid_array_iff.mp hv
    obtain ⟨xs, hxs, rfl⟩ := Value.encode_array_eq_ok_iff.mp h
    rw [List.length_append] at hmax
    rw [layout_eq_sequence_of_agrees hxs ih (List.forall_mem_replicate.mpr (.inr helement))
      (by omega), enc]
    rfl
  | fixedArray element items ih =>
    intro body hv h hmax
    obtain ⟨-, -, helement⟩ := Schema.isValid_fixedArray_iff.mp hv
    obtain ⟨xs, hxs, rfl⟩ := Value.encode_fixedArray_eq_ok_iff.mp h
    rw [layout_eq_sequence_of_agrees hxs ih (List.forall_mem_replicate.mpr (.inr helement)) hmax,
      enc]
  | tuple items ih =>
    intro body hv h hmax
    obtain ⟨-, hmembers⟩ := Schema.isValid_tuple_iff.mp hv
    obtain ⟨xs, hxs, rfl⟩ := Value.encode_tuple_eq_ok_iff.mp h
    rw [layout_eq_sequence_of_agrees hxs ih hmembers hmax, enc]

end Format

/-! ## Values within values -/

/-- **The values at every depth** of a list: its members, and the items of
what is within it. -/
inductive Value.Within (values : List Value) : Value → Prop
  | member {v : Value} (hv : v ∈ values) : Within values v
  | item {v w : Value} {items : List Value} (hw : Within values w)
    (hitems : w.items? = some items) (hv : v ∈ items) : Within values v

namespace Value

/-- A value that was encoded, and not to more bytes than a buffer can
hold. -/
def Encoded (v : Value) : Prop :=
  v.schema.IsValid ∧ ∃ body, v.encode = .ok body ∧ body.length ≤ maxSize

/-- The values of a sequence that was encoded were encoded. -/
theorem EncodesTo.encoded {vs : List Value} {ss : List Schema} {xs : List Part}
    (h : EncodesTo vs ss xs) (hss : ∀ s ∈ ss, s.IsValid)
    (hmax : ∀ x ∈ xs, x.body.length ≤ maxSize) : ∀ v ∈ vs, v.Encoded := by
  induction h with
  | nil => exact fun _ hv => nomatch hv
  | cons hbody _ ih =>
    obtain ⟨hs, hss⟩ := List.forall_mem_cons.mp hss
    obtain ⟨hfirst, hrest⟩ := List.forall_mem_cons.mp hmax
    exact List.forall_mem_cons.mpr ⟨⟨hs, _, hbody, hfirst⟩, ih hss hrest⟩

/-- The items of a value that was encoded were encoded. -/
theorem Encoded.items {w : Value} (h : w.Encoded) {items : List Value}
    (hitems : w.items? = some items) : ∀ v ∈ items, v.Encoded := by
  obtain ⟨hw, body, hbody, hmax⟩ := h
  cases w with
  | array element items =>
    cases hitems
    obtain ⟨xs, hxs, rfl⟩ := encode_array_eq_ok_iff.mp hbody
    have helement := Schema.isValid_array_iff.mp hw
    rw [List.length_append] at hmax
    have hlayout := Nat.le_trans (Nat.le_add_left _ _) hmax
    exact hxs.encoded (List.forall_mem_replicate.mpr (.inr helement))
      (fun _ hx => Nat.le_trans (Part.length_body_le_layout hx _) hlayout)
  | fixedArray element items =>
    cases hitems
    obtain ⟨xs, hxs, rfl⟩ := encode_fixedArray_eq_ok_iff.mp hbody
    obtain ⟨-, -, helement⟩ := Schema.isValid_fixedArray_iff.mp hw
    exact hxs.encoded (List.forall_mem_replicate.mpr (.inr helement))
      (fun _ hx => Nat.le_trans (Part.length_body_le_layout hx _) hmax)
  | tuple items =>
    cases hitems
    obtain ⟨xs, hxs, rfl⟩ := encode_tuple_eq_ok_iff.mp hbody
    exact hxs.encoded (Schema.isValid_tuple_iff.mp hw).2
      (fun _ hx => Nat.le_trans (Part.length_body_le_layout hx _) hmax)
  | _ => cases hitems

/-- What is within values that were encoded was encoded. -/
theorem Within.encoded {values : List Value} (hvalues : ∀ v ∈ values, v.Encoded) {v : Value}
    (h : Within values v) : v.Encoded := by
  induction h with
  | member hv => exact hvalues _ hv
  | item _ hitems hv ih => exact ih.items hitems _ hv

/-- **A static value occupies its head size** in the format. -/
theorem Encoded.length_enc {v : Value} (h : v.Encoded) (hstatic : ¬ v.schema.Dynamic) :
    (Format.enc v).length = v.schema.headSize := by
  obtain ⟨hv, body, hbody, hmax⟩ := h
  rw [← Schema.isDynamic_eq_true_iff, Bool.not_eq_true] at hstatic
  have hsize := hasInlineSize v body hv hbody hstatic
  rw [← Format.agrees v hv hbody hmax, Schema.headSize_eq, ← hsize, Nat.min_eq_left hmax]

end Value

/-- **The encoder follows the format.** What it accepts it encodes as the
sequence that the format defines, as long as a buffer can hold that. The
offsets in it are what all heads and the earlier tails actually occupy, at
every level; the whole is made of whole words; and a static value at any
depth takes exactly the head size of its schema. -/
theorem encode_eq_sequence {values : List Value} {schemas : List Schema} {bs : Bytes}
    (h : encode values schemas = .ok bs) (hsize : bs.length < 2 ^ 64) :
    bs = Format.sequence (Format.parts values)
      ∧ (∀ xs i, Format.distance xs i
          = ((Format.heads xs).flatten ++ (xs.take i).flatMap Format.tail).length)
      ∧ 32 ∣ bs.length
      ∧ ∀ v, Value.Within values v → ¬ v.schema.Dynamic →
        (Format.enc v).length = v.schema.headSize := by
  have hmax : bs.length ≤ maxSize := Nat.le_pred_of_lt hsize
  obtain ⟨hschemas, xs, hxs, rfl⟩ := encode_eq_ok_iff.mp h
  have hsequence := Format.layout_eq_sequence_of_agrees hxs (fun v _ => Format.agrees v)
    hschemas hmax
  have hvalues := hxs.encoded hschemas fun x hx =>
    Nat.le_trans (Part.length_body_le_layout hx _) hmax
  refine ⟨hsequence, Format.distance_eq, ?_, fun v hv hstatic => ?_⟩
  · rw [hsequence]
    exact Format.dvd_length_sequence_parts fun v _ => Format.dvd_length_enc v
  · exact (hv.encoded hvalues).length_enc hstatic

/-- A list of texts behind a pair of small numbers, which takes two
words. -/
theorem encode_eq_sequence_texts :
    ∃ bs, encode [.tuple [.uint 8 7, .int 8 (-1)], .array .string [.string "ab", .string ""]]
          [.tuple [.uint 8, .int 8], .array .string] = .ok bs
      ∧ bs.length < 2 ^ 64
      ∧ bs = Format.sequence (Format.parts
          [.tuple [.uint 8 7, .int 8 (-1)], .array .string [.string "ab", .string ""]])
      ∧ (Format.enc (.tuple [.uint 8 7, .int 8 (-1)])).length = 64 :=
  have h : encode [.tuple [.uint 8 7, .int 8 (-1)], .array .string [.string "ab", .string ""]]
      [.tuple [.uint 8, .int 8], .array .string] = .ok _ := rfl
  have hsize := by decide +kernel
  ⟨_, h, hsize, (encode_eq_sequence h hsize).1,
    (encode_eq_sequence h hsize).2.2.2 _ (.member List.mem_cons_self) (by decide)⟩

end EthCall.Abi
