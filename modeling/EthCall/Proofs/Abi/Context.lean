import EthCall.Proofs.Abi.Budget

/-!
# Decoding and what stands around

A reading looks at some bytes of the buffer and at nothing else, so that
what it returns does not depend on the bytes around them. Put more bytes in
front of the buffer and behind it, and every successful reading succeeds
again, as many bytes further on (`readsAlike`). Nothing is supposed of the
bytes that are read. They may be no encoding at all, with offsets that
point back or into one another.

Three things do change with the surroundings, and each only in favour of
the reading. There is more room behind every offset, and more budget to
start from; and a place that an offset points at moves up, but not beyond
the largest size, as a place where something was read lies in the buffer
(`offset_le_size`).
-/

namespace EthCall.Abi

open Decoding

variable {b b' : Buffer} {shift : Nat}

/-! ## One buffer within another -/

/-- **A buffer that stands within another**, so many bytes behind its
start. -/
structure Buffer.StandsIn (b b' : Buffer) (shift : Nat) : Prop where
  /-- It ends before the other does. -/
  size_le : shift + b.size ≤ b'.size
  /-- What it holds is held by the other. -/
  holds {offset : Nat} {bs : Bytes} : b.Holds offset bs → b'.Holds (shift + offset) bs
  /-- An offset can point at its places there as well. -/
  place_le {place : Nat} : place ≤ b.size → place ≤ maxSize → shift + place ≤ maxSize

/-- A byte string stands among the bytes that are put around it. -/
theorem Buffer.standsIn_append (front : Bytes) {data : Bytes} (back : Bytes)
    (hplaces : front = [] ∨ front.length + data.length ≤ maxSize) :
    (ofBytes data).StandsIn (ofBytes (front ++ data ++ back)) front.length where
  size_le := by
    rw [size_ofBytes, size_ofBytes, List.length_append, List.length_append]
    omega
  holds {offset bs} h := by
    obtain ⟨hsize, hslice⟩ := h
    rw [size_ofBytes] at hsize
    rw [slice_eq] at hslice
    have hroom : bs.length ≤ (data.drop offset).length := by
      rw [List.length_drop]
      omega
    refine ⟨?_, ?_⟩
    · rw [size_ofBytes, List.length_append, List.length_append]
      omega
    · rw [slice_eq]
      show ((front ++ data ++ back).drop (front.length + offset)).take bs.length = bs
      rw [List.append_assoc, ← List.drop_drop, List.drop_left,
        List.drop_append_of_le_length (by omega), List.take_append_of_le_length hroom]
      exact hslice
  place_le {place} hplace hmax := by
    rw [size_ofBytes] at hplace
    rcases hplaces with rfl | hplaces
    · rwa [List.length_nil, Nat.zero_add]
    · omega

/-! ## Where values are read -/

/-- A place that something is read from lies in the buffer. -/
theorem head_le_size_of_readPlaced {base head next : Nat} {budget rest : Budget} {v : Value}
    {s : Schema} (hs : ∀ ⦃offset next : Nat⦄ ⦃budget rest : Budget⦄ ⦃v : Value⦄,
      (readValue b s offset).Returns budget (v, next) rest → offset ≤ b.size)
    (h : (readPlaced b base s.isDynamic (readValue b s) head).Returns budget (v, next) rest) :
    head ≤ b.size := by
  cases hd : s.isDynamic with
  | false =>
    rw [hd] at h
    exact hs h
  | true =>
    rw [hd] at h
    obtain ⟨-, relative, -, hword, -⟩ := readPlaced_dynamic_returns.mp h
    have hle := hword.le_size
    omega

/-- **A value is read from a place in the buffer.** Only what takes no
bytes could be read from behind its end, and nothing valid is like that. -/
theorem offset_le_size {s : Schema} (hs : s.IsValid) {offset next : Nat} {budget rest : Budget}
    {v : Value} (h : (readValue b s offset).Returns budget (v, next) rest) : offset ≤ b.size := by
  induction s using Schema.ind generalizing offset next budget rest v with
  | scalar s hscalar =>
    obtain ⟨w, -, -, hheld, -⟩ := (readValue_scalar_returns hscalar hs).mp h
    have hle := hheld.le_size
    omega
  | bytes =>
    obtain ⟨bs, hbs, -⟩ := readValue_bytes_returns.mp h
    have hle := (Buffer.lengthPrefixedAt_returns.mp hbs).2.1.le_size
    omega
  | string =>
    obtain ⟨bs, -, hbs, -⟩ := readValue_string_returns.mp h
    have hle := (Buffer.lengthPrefixedAt_returns.mp hbs).2.1.le_size
    omega
  | array element _ =>
    obtain ⟨items, last, -, -, -, hcount, -⟩ := readValue_array_returns.mp h
    have hle := hcount.le_size
    omega
  | fixedArray element size _ =>
    obtain ⟨items, -, hroom, -⟩ := readValue_fixedArray_returns.mp h
    omega
  | tuple members ih =>
    obtain ⟨hne, hvalid⟩ := Schema.isValid_tuple_iff.mp hs
    obtain ⟨items, -, hitems⟩ := readValue_tuple_returns.mp h
    cases members with
    | nil => exact absurd rfl hne
    | cons s members =>
      -- the first member has its place where the tuple has
      obtain ⟨v, ws, next, mid, -, hv, -⟩ := readMembers_cons_returns.mp hitems
      have hsvalid := hvalid s List.mem_cons_self
      exact head_le_size_of_readPlaced (fun _ _ _ _ _ => ih s List.mem_cons_self hsvalid) hv

/-! ## The same reading elsewhere -/

/-- **What is read for a schema in one buffer is read in the other**, as
many bytes further on, from any budget that is no smaller. -/
def ReadsAlike (b b' : Buffer) (shift : Nat) (s : Schema) : Prop :=
  ∀ ⦃offset next : Nat⦄ ⦃budget budget' rest : Budget⦄ ⦃v : Value⦄, s.IsValid →
    budget.remaining ≤ budget'.remaining →
    (readValue b s offset).Returns budget (v, next) rest →
    ∃ rest', (readValue b' s (shift + offset)).Returns budget' (v, shift + next) rest'

/-- A byte string behind its length. -/
theorem lengthPrefixedAt_of_standsIn (h : b.StandsIn b' shift) {offset : Nat}
    {budget budget' rest : Budget} {bs : Bytes} (hbudget : budget.remaining ≤ budget'.remaining)
    (hbs : (b.lengthPrefixedAt offset).Returns budget bs rest) :
    ∃ rest', (b'.lengthPrefixedAt (shift + offset)).Returns budget' bs rest' := by
  obtain ⟨hmax, hlen, hheld, hcharge, -⟩ := Buffer.lengthPrefixedAt_returns.mp hbs
  have hheld := h.holds hheld
  rw [← Nat.add_assoc] at hheld
  exact ⟨_, Buffer.lengthPrefixedAt_returns.mpr
    ⟨hmax, h.holds hlen, hheld, Nat.le_trans hcharge hbudget, rfl⟩⟩

/-- A value in its place, or where the offset in its place points. -/
theorem readPlaced_of_readsAlike (h : b.StandsIn b' shift) {s : Schema} (hs : s.IsValid)
    (halike : ReadsAlike b b' shift s) {base head next : Nat} {budget budget' rest : Budget}
    {v : Value} (hbudget : budget.remaining ≤ budget'.remaining)
    (hv : (readPlaced b base s.isDynamic (readValue b s) head).Returns budget (v, next) rest) :
    ∃ rest', (readPlaced b' (shift + base) s.isDynamic (readValue b' s) (shift + head)).Returns
      budget' (v, shift + next) rest' := by
  cases hd : s.isDynamic with
  | false =>
    rw [hd, readPlaced_static] at hv
    exact halike hs hbudget hv
  | true =>
    rw [hd] at hv
    obtain ⟨rfl, relative, hmax, hword, hplace, behind, hread⟩ := readPlaced_dynamic_returns.mp hv
    obtain ⟨rest', hread'⟩ := halike hs hbudget hread
    have hplace' := h.place_le (offset_le_size hs hread) hplace
    rw [← Nat.add_assoc] at hread' hplace'
    exact ⟨rest', readPlaced_dynamic_returns.mpr
      ⟨(Nat.add_assoc ..).symm, relative, hmax, h.holds hword, hplace', _, hread'⟩⟩

/-- Members, one after the other. -/
theorem readMembers_of_readsAlike (h : b.StandsIn b' shift) {members : List Schema}
    (hmembers : ∀ s ∈ members, ReadsAlike b b' shift s) (hvalid : ∀ s ∈ members, s.IsValid)
    {base head last : Nat} {budget budget' rest : Budget} {vs : List Value}
    (hbudget : budget.remaining ≤ budget'.remaining)
    (hvs : (readMembers b base members head).Returns budget (vs, last) rest) :
    ∃ rest', (readMembers b' (shift + base) members (shift + head)).Returns budget'
      (vs, shift + last) rest' := by
  induction members generalizing head budget budget' vs with
  | nil =>
    obtain ⟨rfl, rfl, rfl⟩ := readMembers_nil_returns.mp hvs
    exact ⟨budget', readMembers_nil_returns.mpr ⟨rfl, rfl, rfl⟩⟩
  | cons s members ih =>
    obtain ⟨v, ws, next, mid, rfl, hv, hws⟩ := readMembers_cons_returns.mp hvs
    obtain ⟨hs, hmembers⟩ := List.forall_mem_cons.mp hmembers
    obtain ⟨hsvalid, hvalid⟩ := List.forall_mem_cons.mp hvalid
    obtain ⟨mid', hv'⟩ := readPlaced_of_readsAlike h hsvalid hs hbudget hv
    -- both readings have charged for the same value
    obtain ⟨_, _, hread⟩ := exists_read_of_readPlaced hv
    obtain ⟨_, _, hread'⟩ := exists_read_of_readPlaced hv'
    have hspent := remaining_add_cost hsvalid hread
    have hspent' := remaining_add_cost hsvalid hread'
    have hmid : mid.remaining ≤ mid'.remaining := by omega
    obtain ⟨rest', hws'⟩ := ih hmembers hvalid hmid hws
    exact ⟨rest', readMembers_cons_returns.mpr ⟨v, ws, _, mid', rfl, hv', hws'⟩⟩

/-- **Every reading is the same elsewhere.** -/
theorem readsAlike (h : b.StandsIn b' shift) (s : Schema) : ReadsAlike b b' shift s := by
  induction s using Schema.ind with
  | scalar s hscalar =>
    intro offset next budget budget' rest v hs hbudget hread
    obtain ⟨w, hschema, hencode, hheld, hcharge, -, rfl⟩ :=
      (readValue_scalar_returns hscalar hs).mp hread
    exact ⟨_, (readValue_scalar_returns hscalar hs).mpr ⟨w, hschema, hencode, h.holds hheld,
      Nat.le_trans hcharge hbudget, rfl, (Nat.add_assoc ..).symm⟩⟩
  | bytes =>
    intro offset next budget budget' rest v _ hbudget hread
    obtain ⟨bs, hbs, rfl, rfl⟩ := readValue_bytes_returns.mp hread
    obtain ⟨rest', hbs'⟩ := lengthPrefixedAt_of_standsIn h hbudget hbs
    exact ⟨rest', readValue_bytes_returns.mpr ⟨bs, hbs', rfl, (Nat.add_assoc ..).symm⟩⟩
  | string =>
    intro offset next budget budget' rest v _ hbudget hread
    obtain ⟨bs, s, hbs, hs, rfl, rfl⟩ := readValue_string_returns.mp hread
    obtain ⟨rest', hbs'⟩ := lengthPrefixedAt_of_standsIn h hbudget hbs
    exact ⟨rest', readValue_string_returns.mpr ⟨bs, s, hbs', hs, rfl, (Nat.add_assoc ..).symm⟩⟩
  | array element ih =>
    intro offset next budget budget' rest v hs hbudget hread
    have helement := Schema.isValid_array_iff.mp hs
    obtain ⟨items, last, rfl, rfl, hmax, hcount, hcharge, hroom, hitems⟩ :=
      readValue_array_returns.mp hread
    have hspend : (budget.spend ⟨offset, 32⟩).remaining
        ≤ (budget'.spend ⟨shift + offset, 32⟩).remaining := Nat.sub_le_sub_right hbudget 32
    obtain ⟨rest', hitems'⟩ := readMembers_of_readsAlike h
      (List.forall_mem_replicate.mpr (.inr ih))
      (List.forall_mem_replicate.mpr (.inr helement)) hspend hitems
    have hsize := h.size_le
    rw [← Nat.add_assoc] at hitems'
    exact ⟨rest', readValue_array_returns.mpr ⟨items, _, rfl, (Nat.add_assoc ..).symm, hmax,
      h.holds hcount, Nat.le_trans hcharge hbudget, by omega, hitems'⟩⟩
  | fixedArray element size ih =>
    intro offset next budget budget' rest v hs hbudget hread
    obtain ⟨-, -, helement⟩ := Schema.isValid_fixedArray_iff.mp hs
    obtain ⟨items, rfl, hroom, hitems⟩ := readValue_fixedArray_returns.mp hread
    obtain ⟨rest', hitems'⟩ := readMembers_of_readsAlike h
      (List.forall_mem_replicate.mpr (.inr ih))
      (List.forall_mem_replicate.mpr (.inr helement)) hbudget hitems
    have hsize := h.size_le
    exact ⟨rest', readValue_fixedArray_returns.mpr ⟨items, rfl, by omega, hitems'⟩⟩
  | tuple members ih =>
    intro offset next budget budget' rest v hs hbudget hread
    obtain ⟨-, hvalid⟩ := Schema.isValid_tuple_iff.mp hs
    obtain ⟨items, rfl, hitems⟩ := readValue_tuple_returns.mp hread
    obtain ⟨rest', hitems'⟩ := readMembers_of_readsAlike h ih hvalid hbudget hitems
    exact ⟨rest', readValue_tuple_returns.mpr ⟨items, rfl, hitems'⟩⟩

/-! ## Decoding byte strings -/

/-- What a successful decoding of one value went through. -/
theorem decodeValueAt_eq_ok_iff {data : Bytes} {s : Schema} {offset next : Nat} {v : Value} :
    decodeValueAt data s offset = .ok (v, next)
      ↔ s.IsValid ∧ ∃ rest, (readValue (Buffer.ofBytes data) s offset).Returns
        (Budget.ofBuffer (Buffer.ofBytes data)) (v, next) rest := by
  unfold decodeValueAt Schema.IsValid
  cases s.defect? with
  | some e => simp
  | none => simp [result_eq_ok_iff]

/-- **A successful decoding does not depend on what stands around.** A
value that is decoded at an offset is decoded again when bytes are put in
front of the buffer and behind it, at the place that it has now; and a
sequence is decoded again with bytes behind it. -/
theorem decode_in_context :
    (∀ (front data back : Bytes) (s : Schema) (offset next : Nat) (v : Value),
      front.length + data.length + back.length < 2 ^ 64 →
      decodeValueAt data s offset = .ok (v, next) →
      decodeValueAt (front ++ data ++ back) s (front.length + offset)
        = .ok (v, front.length + next))
    ∧ ∀ (data back : Bytes) (schemas : List Schema) (values : List Value),
      decode data schemas = .ok values → decode (data ++ back) schemas = .ok values := by
  refine ⟨fun front data back s offset next v hsize h => ?_,
    fun data back schemas values h => ?_⟩
  · obtain ⟨hs, rest, hread⟩ := decodeValueAt_eq_ok_iff.mp h
    have hplaces : front.length + data.length ≤ maxSize := by
      rw [maxSize_eq]
      omega
    have hstands := Buffer.standsIn_append front back (.inr hplaces)
    have hbudget := Nat.le_trans (Nat.le_add_left _ _) hstands.size_le
    exact decodeValueAt_eq_ok_iff.mpr ⟨hs, readsAlike hstands s hs hbudget hread⟩
  · obtain ⟨hvalid, hcheck, last, rest, hread⟩ := decode_eq_ok_iff.mp h
    have hstands : (Buffer.ofBytes data).StandsIn (Buffer.ofBytes (data ++ back)) 0 :=
      Buffer.standsIn_append [] back (.inl rfl)
    have hbudget : (Budget.ofBuffer (Buffer.ofBytes data)).remaining
        ≤ (Budget.ofBuffer (Buffer.ofBytes (data ++ back))).remaining :=
      Nat.le_trans (Nat.le_add_left _ _) hstands.size_le
    obtain ⟨rest', hread'⟩ := readMembers_of_readsAlike hstands
      (fun s _ => readsAlike hstands s) hvalid hbudget hread
    exact decode_eq_ok_iff.mpr ⟨hvalid, hcheck, _, rest', hread'⟩

/-- Two texts whose offsets cross: the first text stands behind the
second, and without the padding that an encoding would have. -/
def crossedTexts : Bytes :=
  (Word.ofNat 97).bytes ++ (Word.ofNat 64).bytes ++ (Word.ofNat 1).bytes ++ [0x62]
    ++ (Word.ofNat 2).bytes ++ [0x61, 0x61]

/-- Between other bytes the two texts are what they are without them. -/
theorem decode_in_context_crossed :
    ([1, 2, 3] : Bytes).length + crossedTexts.length + ([4] : Bytes).length < 2 ^ 64
    ∧ decodeValueAt crossedTexts (.tuple [.string, .string]) 0
      = .ok (.tuple [.string "aa", .string "b"], 64)
    ∧ decodeValueAt ([1, 2, 3] ++ crossedTexts ++ [4]) (.tuple [.string, .string]) 3
      = .ok (.tuple [.string "aa", .string "b"], 67)
    ∧ decode crossedTexts [.string, .string] = .ok [.string "aa", .string "b"]
    ∧ decode (crossedTexts ++ [4]) [.string, .string] = .ok [.string "aa", .string "b"] := by
  have hlength : ([1, 2, 3] : Bytes).length + crossedTexts.length + ([4] : Bytes).length
      < 2 ^ 64 := by decide +kernel
  have hvalue : decodeValueAt crossedTexts (.tuple [.string, .string]) 0
      = .ok (.tuple [.string "aa", .string "b"], 64) := by decide +kernel
  have hsequence : decode crossedTexts [.string, .string]
      = .ok [.string "aa", .string "b"] := by decide +kernel
  exact ⟨hlength, hvalue,
    decode_in_context.1 [1, 2, 3] crossedTexts [4] _ 0 64 _ hlength hvalue, hsequence,
    decode_in_context.2 crossedTexts [4] _ _ hsequence⟩

end EthCall.Abi
