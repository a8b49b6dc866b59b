import EthCall.Proofs.Abi.Closed
import EthCall.Proofs.Abi.Conformance
import EthCall.Proofs.Abi.RoundTrip

/-!
# Soundness of decoding

Nothing is known of the bytes that are decoded. Offsets may point
backwards, into the heads or into one another, and there is no layout to
reason with. What is left is the shape of the readers: whatever
`readValue` returns, it has put together for the schema it was given
(`readsConforming`), and whatever it fails with, it blames on the data
(`Decoding.closed_blamesOnlyData`).

The last step of `decode` compares the schemas of the values with those
demanded. It looks at the outermost level only, and it is therefore not
what makes the values right. By then they are, all the way down, and the
comparison always succeeds.
-/

namespace EthCall.Abi

open Decoding

variable {b : Buffer}

/-! ## What is returned -/

/-- **Whatever is read for a schema conforms to it.** -/
def ReadsConforming (b : Buffer) (s : Schema) : Prop :=
  ∀ ⦃offset next : Nat⦄ ⦃budget rest : Budget⦄ ⦃v : Value⦄, s.IsValid →
    (readValue b s offset).Returns budget (v, next) rest → v.Conforms s

/-- Members conform one by one. -/
theorem forall₂_conforms_of_readsConforming {members : List Schema}
    (hmembers : ∀ s ∈ members, ReadsConforming b s) (hvalid : ∀ s ∈ members, s.IsValid)
    {base head last : Nat} {budget rest : Budget} {vs : List Value}
    (h : (readMembers b base members head).Returns budget (vs, last) rest) :
    List.Forall₂ Value.Conforms vs members := by
  induction members generalizing head budget vs with
  | nil =>
    obtain ⟨rfl, -, -⟩ := readMembers_nil_returns.mp h
    exact .nil
  | cons s members ih =>
    obtain ⟨v, ws, next, mid, rfl, hv, hws⟩ := readMembers_cons_returns.mp h
    obtain ⟨hs, hmembers⟩ := List.forall_mem_cons.mp hmembers
    obtain ⟨hsvalid, hvalid⟩ := List.forall_mem_cons.mp hvalid
    obtain ⟨place, behind, hread⟩ := exists_read_of_readPlaced hv
    exact .cons (hs hsvalid hread) (ih hmembers hvalid hws)

/-- The items of an array all conform to its element schema, and there are
as many as were asked for. -/
theorem items_conform_of_readsConforming {element : Schema} (helement : ReadsConforming b element)
    (hvalid : element.IsValid) {count base head last : Nat} {budget rest : Budget}
    {items : List Value}
    (h : (readMembers b base (List.replicate count element) head).Returns budget
      (items, last) rest) :
    items.length = count ∧ ∀ v ∈ items, v.Conforms element := by
  obtain rfl : items.length = count := by
    rw [length_of_readMembers h, List.length_replicate]
  refine ⟨rfl, Value.forall₂_conforms_replicate_iff.mp ?_⟩
  exact forall₂_conforms_of_readsConforming
    (List.forall_mem_replicate.mpr (.inr helement))
    (List.forall_mem_replicate.mpr (.inr hvalid)) h

/-- **Reading is sound**, from any offset and budget. -/
theorem readsConforming (b : Buffer) (s : Schema) : ReadsConforming b s := by
  induction s using Schema.ind with
  | scalar s hscalar =>
    intro offset next budget rest v hs h
    obtain ⟨w, rfl, hencode, -⟩ := (readValue_scalar_returns hscalar hs).mp h
    exact Value.conforms_of_isScalar hscalar hencode
  | bytes =>
    intro offset next budget rest v _ h
    obtain ⟨bs, -, rfl, -⟩ := readValue_bytes_returns.mp h
    exact .bytes bs
  | string =>
    intro offset next budget rest v _ h
    obtain ⟨-, s, -, -, rfl, -⟩ := readValue_string_returns.mp h
    exact .string s
  | array element ih =>
    intro offset next budget rest v hs h
    obtain ⟨items, last, rfl, -, -, -, -, -, hitems⟩ := readValue_array_returns.mp h
    have helement := Schema.isValid_array_iff.mp hs
    exact .array (items_conform_of_readsConforming ih helement hitems).2
  | fixedArray element size ih =>
    intro offset next budget rest v hs h
    obtain ⟨items, rfl, -, hitems⟩ := readValue_fixedArray_returns.mp h
    obtain ⟨-, -, helement⟩ := Schema.isValid_fixedArray_iff.mp hs
    obtain ⟨hsize, hall⟩ := items_conform_of_readsConforming ih helement hitems
    exact .fixedArray hsize hall
  | tuple members ih =>
    intro offset next budget rest v hs h
    obtain ⟨items, rfl, hitems⟩ := readValue_tuple_returns.mp h
    exact .tuple (forall₂_conforms_of_readsConforming ih (Schema.isValid_tuple_iff.mp hs).2
      hitems)

/-- The values read for several schemas conform to them. -/
theorem forall₂_conforms_of_readMembers {members : List Schema}
    (hvalid : ∀ s ∈ members, s.IsValid) {base head last : Nat} {budget rest : Budget}
    {vs : List Value}
    (h : (readMembers b base members head).Returns budget (vs, last) rest) :
    List.Forall₂ Value.Conforms vs members :=
  forall₂_conforms_of_readsConforming (fun s _ => readsConforming b s) hvalid h

/-! ## What is refused

A refusal names something in the data: a word out of its range, bytes that
are not there, more bytes used than there are. -/

/-- An error for which the data is to blame. -/
def AbiError.BlamesData : AbiError → Prop
  | .corrupt _ => True
  | .outOfBounds _ _ _ => True
  | _ => False

/-- What a reader finds in the data, the data is to blame for. -/
theorem AbiError.FoundInData.blamesData {e : AbiError} (h : e.FoundInData) : e.BlamesData := by
  cases e with
  | corrupt | outOfBounds => trivial
  | _ => exact h.elim

namespace Decoding

/-- **Whatever fails blames the data.** -/
def BlamesOnlyData {α : Type} (d : Decoding α) : Prop :=
  ∀ ⦃budget : Budget⦄ ⦃e : AbiError⦄ ⦃rest : Budget⦄, d.Fails budget e rest → e.BlamesData

/-- It is enough to look at the parts. -/
theorem closed_blamesOnlyData (b : Buffer) : Closed b fun d => BlamesOnlyData d where
  of_pure _ _ _ _ h := absurd h not_fails_pure
  of_throw he _ _ _ h := by
    obtain ⟨rfl, -⟩ := fails_throw.mp h
    exact he.blamesData
  of_bind hx hf _ _ _ h := by
    rcases fails_bind.mp h with h | ⟨a, mid, hreturns, h⟩
    · exact hx h
    · exact hf a ⟨_, _, hreturns⟩ h
  of_charge _ _ _ _ h := by
    obtain ⟨-, rfl, -⟩ := charge_fails.mp h
    trivial

end Decoding

/-! ## Decoding byte strings -/

/-- Values that conform pass the last comparison. -/
theorem checkSchemas_of_conforms {values : List Value} {schemas : List Schema}
    (h : List.Forall₂ Value.Conforms values schemas) : checkSchemas values schemas = .ok () := by
  induction h with
  | nil => rfl
  | cons hv _ ih =>
    rw [checkSchemas, if_pos hv.encodes.1]
    exact ih

/-- **What a failed decoding went through**: no further than to an invalid
schema, or to the reader that failed. -/
theorem invalidType_or_fails_of_decode {data : Bytes} {schemas : List Schema} {e : AbiError}
    (h : decode data schemas = .error e) :
    (∃ cause, e = .invalidType cause)
      ∨ ∃ rest, (readMembers (Buffer.ofBytes data) 0 schemas 0).Fails
        (Budget.ofBuffer (Buffer.ofBytes data)) e rest := by
  unfold decode at h
  split at h
  case h_1 cause _ => exact .inl ⟨cause, (Except.error.inj h).symm⟩
  case h_2 hdefect =>
    have hvalid := Schema.defectIn?_eq_none_iff.mp hdefect
    cases hresult : (readMembers (Buffer.ofBytes data) 0 schemas 0).result
        (Buffer.ofBytes data) with
    | error e' =>
      simp only [hresult] at h
      obtain rfl := Except.error.inj h
      exact .inr (result_eq_error_iff.mp hresult)
    | ok read =>
      -- the comparison of schemas cannot fail any more
      obtain ⟨vs, last⟩ := read
      obtain ⟨rest, hreturns⟩ := result_eq_ok_iff.mp hresult
      have hcheck := checkSchemas_of_conforms (forall₂_conforms_of_readMembers hvalid hreturns)
      simp only [hresult, hcheck] at h
      cases h

/-- **What decoding fails with**: an invalid schema, or a fault of the
data. -/
theorem invalidType_or_blamesData_of_decode {data : Bytes} {schemas : List Schema}
    {e : AbiError} (h : decode data schemas = .error e) :
    (∃ cause, e = .invalidType cause) ∨ e.BlamesData := by
  refine (invalidType_or_fails_of_decode h).imp_right fun ⟨rest, hfails⟩ => ?_
  exact (closed_blamesOnlyData _).readMembers 0 schemas 0 hfails

/-- Decoded values conform to the schemas. -/
theorem conforms_of_decode {data : Bytes} {schemas : List Schema} {values : List Value}
    (h : decode data schemas = .ok values) :
    (∀ s ∈ schemas, s.IsValid) ∧ List.Forall₂ Value.Conforms values schemas := by
  obtain ⟨hvalid, -, last, rest, hread⟩ := decode_eq_ok_iff.mp h
  exact ⟨hvalid, forall₂_conforms_of_readMembers hvalid hread⟩

/-- **Whatever is decoded is right.** The values conform to the schemas at
every depth, one for each; they can be encoded, and that encoding is
decoded to them again. The values are never found to have the wrong
schemas. -/
theorem decode_sound (data : Bytes) (schemas : List Schema) :
    (∀ values, decode data schemas = .ok values →
      List.Forall₂ Value.Conforms values schemas
      ∧ ∃ bs, encode values schemas = .ok bs
        ∧ (bs.length < 2 ^ 64 → decode bs schemas = .ok values))
    ∧ ∀ expected got, decode data schemas ≠ .error (.typeMismatch expected got) := by
  refine ⟨fun values h => ?_, fun expected got h => ?_⟩
  · obtain ⟨hvalid, hconforms⟩ := conforms_of_decode h
    obtain ⟨bs, hbs⟩ := exists_encode_of_conforms hvalid hconforms
    refine ⟨hconforms, bs, hbs, fun hsize => ?_⟩
    exact decode_of_encode hbs (List.prefix_refl bs) fun _ => Nat.le_pred_of_lt hsize
  · rcases invalidType_or_blamesData_of_decode h with ⟨cause, he⟩ | he
    · cases he
    · exact he

/-- A text that stands behind bytes no encoding would leave there, and
without the padding it would have. -/
theorem decode_sound_gap :
    ∃ data, decode data [.string] = .ok [.string "ab"]
      ∧ List.Forall₂ Value.Conforms [.string "ab"] [.string]
      ∧ ∃ bs, encode [.string "ab"] [.string] = .ok bs
        ∧ (bs.length < 2 ^ 64 → decode bs [.string] = .ok [.string "ab"]) :=
  have h : decode ((Word.ofNat 64).bytes ++ List.replicate 32 0xff ++ (Word.ofNat 2).bytes
      ++ [0x61, 0x62]) [.string] = .ok [.string "ab"] := by decide +kernel
  ⟨_, h, (decode_sound _ _).1 _ h⟩

end EthCall.Abi
