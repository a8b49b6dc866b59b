import EthCall.Proofs.Abi.Soundness

/-!
# Static schemas have one encoding

Where nothing is dynamic there are no offsets, and a value is read from
one stretch of bytes, which it leaves just behind. That stretch is its
encoding (`readsInPlace`). The checks a reading makes on the words of
scalars are therefore as strict as they can be: the decoder accepts the
bytes the encoder writes, with anything behind them, and no others. For
numbers of a word these are the words that hold them (`encode_words`).
-/

namespace EthCall.Abi

open Decoding

/-- A static value in front is laid out in front. -/
@[simp] theorem Part.layout_cons_static (headSize : Nat) (body : Bytes) (rest : List Part) :
    layout headSize (⟨false, body⟩ :: rest) = body ++ layout headSize rest := by
  unfold layout
  rw [heads_cons_static, tails_cons_static, List.append_assoc]

variable {b : Buffer}

/-- **What is read in place is an encoding**, and the next place is just
behind it. -/
def ReadsInPlace (b : Buffer) (s : Schema) : Prop :=
  ∀ ⦃offset next : Nat⦄ ⦃budget rest : Budget⦄ ⦃v : Value⦄, s.IsValid → s.isDynamic = false →
    (readValue b s offset).Returns budget (v, next) rest →
    ∃ body, v.encode = .ok body ∧ b.Holds offset body ∧ next = offset + body.length

/-- Static members stand one behind the other. The head size does not
enter into it, as there is no offset to compute from it. -/
theorem exists_encodesTo_of_readsInPlace {members : List Schema}
    (hmembers : ∀ s ∈ members, ReadsInPlace b s) (hvalid : ∀ s ∈ members, s.IsValid)
    (hstatic : ∀ s ∈ members, s.isDynamic = false)
    {base head last : Nat} {budget rest : Budget} {vs : List Value}
    (hhead : members = [] → head ≤ b.size)
    (h : (readMembers b base members head).Returns budget (vs, last) rest) :
    ∃ parts, Value.EncodesTo vs members parts
      ∧ ∀ headSize, b.Holds head (Part.layout headSize parts)
        ∧ last = head + (Part.layout headSize parts).length := by
  induction members generalizing head budget vs with
  | nil =>
    obtain ⟨rfl, rfl, -⟩ := readMembers_nil_returns.mp h
    exact ⟨[], .nil, fun _ => ⟨Buffer.holds_nil.mpr (hhead rfl), rfl⟩⟩
  | cons s members ih =>
    obtain ⟨v, ws, next, mid, rfl, hv, hws⟩ := readMembers_cons_returns.mp h
    obtain ⟨hs, hmembers⟩ := List.forall_mem_cons.mp hmembers
    obtain ⟨hsvalid, hvalid⟩ := List.forall_mem_cons.mp hvalid
    obtain ⟨hsstatic, hstatic⟩ := List.forall_mem_cons.mp hstatic
    rw [hsstatic, readPlaced_static] at hv
    obtain ⟨body, hbody, hheld, rfl⟩ := hs hsvalid hsstatic hv
    -- the next member is read from where this one ends
    obtain ⟨parts, hparts, hlayout⟩ := ih hmembers hvalid hstatic (fun _ => hheld.le_size) hws
    obtain rfl : v.schema = s := (readsConforming b s hsvalid hv).encodes.1
    refine ⟨_, .cons hbody hparts, ?_⟩
    intro headSize
    obtain ⟨hrest, hlast⟩ := hlayout headSize
    rw [hsstatic, Part.layout_cons_static, List.length_append, ← Nat.add_assoc]
    exact ⟨Buffer.holds_append.mpr ⟨hheld, hrest⟩, hlast⟩

/-- **A static value is read from its encoding.** -/
theorem readsInPlace (b : Buffer) (s : Schema) : ReadsInPlace b s := by
  induction s using Schema.ind with
  | scalar s hscalar =>
    intro offset next budget rest v hs _ h
    obtain ⟨w, -, hencode, hheld, -, -, rfl⟩ := (readValue_scalar_returns hscalar hs).mp h
    exact ⟨w.bytes, hencode, hheld, by rw [w.length_bytes]⟩
  | bytes =>
    intro _ _ _ _ _ _ hd
    cases hd
  | string =>
    intro _ _ _ _ _ _ hd
    cases hd
  | array element ih =>
    intro _ _ _ _ _ _ hd
    cases hd
  | fixedArray element size ih =>
    intro offset next budget rest v hs hd h
    have hd : element.isDynamic = false := hd
    obtain ⟨-, -, helement⟩ := Schema.isValid_fixedArray_iff.mp hs
    obtain ⟨items, rfl, hroom, hitems⟩ := readValue_fixedArray_returns.mp h
    obtain rfl : items.length = size := by
      rw [length_of_readMembers hitems, List.length_replicate]
    obtain ⟨parts, hparts, hlayout⟩ := exists_encodesTo_of_readsInPlace
      (List.forall_mem_replicate.mpr (.inr ih))
      (List.forall_mem_replicate.mpr (.inr helement))
      (List.forall_mem_replicate.mpr (.inr hd)) (fun _ => by omega) hitems
    exact ⟨_, Value.encode_fixedArray_eq_ok_iff.mpr ⟨parts, hparts, rfl⟩, hlayout _⟩
  | tuple members ih =>
    intro offset next budget rest v hs hd h
    have hstatic := Schema.anyDynamic_eq_false_iff.mp hd
    obtain ⟨hne, hvalid⟩ := Schema.isValid_tuple_iff.mp hs
    obtain ⟨items, rfl, hitems⟩ := readValue_tuple_returns.mp h
    obtain ⟨parts, hparts, hlayout⟩ := exists_encodesTo_of_readsInPlace ih hvalid hstatic
      (fun hnil => absurd hnil hne) hitems
    obtain rfl := hparts.schemas_eq
    exact ⟨_, Value.encode_tuple_eq_ok_iff.mpr ⟨parts, hparts, rfl⟩, hlayout _⟩

/-- **For static schemas, decoding undoes encoding and nothing else.** The
values are decoded from exactly the byte strings that start with their
encoding. -/
theorem decode_eq_ok_iff_isPrefix {schemas : List Schema}
    (hstatic : ∀ s ∈ schemas, s.isDynamic = false) (data : Bytes) (values : List Value) :
    decode data schemas = .ok values ↔ ∃ bs, encode values schemas = .ok bs ∧ bs <+: data := by
  constructor
  · intro h
    obtain ⟨hvalid, -, last, rest, hread⟩ := decode_eq_ok_iff.mp h
    obtain ⟨parts, hparts, hlayout⟩ := exists_encodesTo_of_readsInPlace
      (fun s _ => readsInPlace (Buffer.ofBytes data) s) hvalid hstatic
      (fun _ => Nat.zero_le _) hread
    exact ⟨Part.layout (Schema.headSizes schemas) parts,
      encode_eq_ok_iff.mpr ⟨hvalid, parts, hparts, rfl⟩,
      Buffer.holds_ofBytes_iff.mp (hlayout _).1⟩
  · rintro ⟨bs, hbs, hfront⟩
    refine decode_of_encode hbs hfront fun hd => ?_
    rw [Schema.anyDynamic_eq_false_iff.mpr hstatic] at hd
    cases hd

/-- A byte with its sign extended, a pair of flags and three bytes, in
front of one byte more. -/
theorem decode_eq_ok_iff_isPrefix_nested :
    ∃ data, decode data [.int 8, .tuple [.fixedArray .bool 2, .fixedBytes 3]]
        = .ok [.int 8 (-1),
          .tuple [.fixedArray .bool [.bool true, .bool false], .fixedBytes [1, 2, 3]]]
      ∧ ∃ bs, encode [.int 8 (-1),
            .tuple [.fixedArray .bool [.bool true, .bool false], .fixedBytes [1, 2, 3]]]
          [.int 8, .tuple [.fixedArray .bool 2, .fixedBytes 3]] = .ok bs
        ∧ bs <+: data :=
  have h : decode (List.replicate 32 0xff ++ (Word.ofNat 1).bytes ++ (Word.ofNat 0).bytes
      ++ [1, 2, 3] ++ Bytes.zeros 29 ++ [0xff])
      [.int 8, .tuple [.fixedArray .bool 2, .fixedBytes 3]]
      = .ok [.int 8 (-1),
        .tuple [.fixedArray .bool [.bool true, .bool false], .fixedBytes [1, 2, 3]]] := by
    decide +kernel
  ⟨_, h, (decode_eq_ok_iff_isPrefix (by decide +kernel) _ _).mp h⟩

/-! ## Numbers as arguments -/

/-- Words that hold numbers, one behind the other. -/
def words (ns : List Nat) : Bytes := ns.flatMap fun n => (Word.ofNat n).bytes

@[simp] theorem words_singleton (n : Nat) : words [n] = (Word.ofNat n).bytes :=
  List.append_nil _

/-- Numbers of a word are laid out one behind the other. -/
theorem encodesTo_words {ns : List Nat} (h : ∀ n ∈ ns, n < 2 ^ 256) :
    ∃ parts, Value.EncodesTo (ns.map (.uint 256)) (ns.map fun _ => .uint 256) parts
      ∧ ∀ headSize, Part.layout headSize parts = words ns := by
  induction ns with
  | nil => exact ⟨[], .nil, fun _ => rfl⟩
  | cons n ns ih =>
    obtain ⟨hn, hns⟩ := List.forall_mem_cons.mp h
    obtain ⟨parts, hparts, hlayout⟩ := ih hns
    have hbody : (Value.uint 256 n).encode = .ok (Word.ofNat n).bytes :=
      if_pos (fitsUnsigned_iff.mpr hn)
    refine ⟨_, .cons hbody hparts, fun headSize => ?_⟩
    exact (Part.layout_cons_static _ _ _).trans (congrArg _ (hlayout headSize))

/-- **Numbers of a word are encoded as words.** -/
theorem encode_words {ns : List Nat} (h : ∀ n ∈ ns, n < 2 ^ 256) :
    encode (ns.map (.uint 256)) (ns.map fun _ => .uint 256) = .ok (words ns) := by
  obtain ⟨parts, hparts, hlayout⟩ := encodesTo_words h
  refine encode_eq_ok_iff.mpr ⟨?_, parts, hparts, (hlayout _).symm⟩
  refine List.forall_mem_map.mpr fun _ _ => ?_
  rfl

end EthCall.Abi
