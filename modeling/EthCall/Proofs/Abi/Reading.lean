import EthCall.Proofs.Abi.Buffer
import EthCall.Proofs.Abi.Encoding

/-!
# Successful readings

What a reading that returned has read, one equivalence for each kind of
schema. For a scalar it says all there is to say: the word that stands
there is the encoding of the value returned (`readValue_scalar_returns`),
so that reading and writing a word are one relation.

The items of an array are read as the members of a tuple would be that has
the schema of the elements so many times (`readMembers_replicate`), and
what is proved of the members of a tuple thus holds for arrays.
-/

namespace EthCall.Abi

open Decoding

variable {b : Buffer} {budget rest : Budget} {offset next : Nat} {v : Value}

/-! ## Words of scalars

Each check that decoding makes on a word accepts the words that encoding
produces, and no others. -/

/-- An unsigned number is accepted when no bit above its width is set. -/
theorem word_uint_iff {bits : Nat} (hbits : bits ≤ 256) {w : Word} :
    fitsUnsigned w.toUnsigned bits = true ∧ v = .uint bits w.toUnsigned
      ↔ v.schema = .uint bits ∧ v.encode = .ok w.bytes := by
  constructor
  · rintro ⟨hfits, rfl⟩
    rw [Value.encode, if_pos hfits, Word.ofNat_toUnsigned]
    exact ⟨rfl, rfl⟩
  · rintro ⟨hschema, hencode⟩
    cases v with
    | uint _ n =>
      cases hschema
      rw [Value.encode] at hencode
      split at hencode
      case isFalse => cases hencode
      case isTrue hfits =>
        obtain rfl : Word.ofNat n = w := FixedBytes.ext (Except.ok.inj hencode)
        rw [Word.toUnsigned_ofNat_of_lt (fitsUnsigned_iff.mp (fitsUnsigned_256 hbits hfits))]
        exact ⟨hfits, rfl⟩
    | _ => cases hschema

/-- A signed number is accepted when all bits above its width are its
sign. -/
theorem word_int_iff {bits : Nat} (hbits : bits ≤ 256) {w : Word} :
    fitsSigned w.toSigned bits = true ∧ v = .int bits w.toSigned
      ↔ v.schema = .int bits ∧ v.encode = .ok w.bytes := by
  constructor
  · rintro ⟨hfits, rfl⟩
    rw [Value.encode, if_pos hfits, Word.ofInt_toSigned]
    exact ⟨rfl, rfl⟩
  · rintro ⟨hschema, hencode⟩
    cases v with
    | int _ z =>
      cases hschema
      rw [Value.encode] at hencode
      split at hencode
      case isFalse => cases hencode
      case isTrue hfits =>
        obtain rfl : Word.ofInt z = w := FixedBytes.ext (Except.ok.inj hencode)
        rw [Word.toSigned_ofInt (fitsSigned_256 hbits hfits)]
        exact ⟨hfits, rfl⟩
    | _ => cases hschema

theorem length_addressBytes (w : Word) : (w.bytes.drop 12).length = 20 := by
  simp [w.length_bytes]

/-- The address in the last 20 bytes of a word. -/
def addressOfWord (w : Word) : Address :=
  ⟨w.bytes.drop 12, length_addressBytes w⟩

/-- An address is accepted behind twelve zero bytes. -/
theorem word_address_iff {w : Word} :
    Bytes.allZero (w.bytes.take 12) = true ∧ v = .address (addressOfWord w)
      ↔ v.schema = .address ∧ v.encode = .ok w.bytes := by
  constructor
  · rintro ⟨hzero, rfl⟩
    have hlen : (w.bytes.take 12).length = 12 := by
      rw [List.length_take, w.length_bytes]
      rfl
    have htop := Bytes.allZero_iff.mp hzero
    rw [hlen] at htop
    refine ⟨rfl, ?_⟩
    show Except.ok (Bytes.zeros 12 ++ w.bytes.drop 12) = _
    rw [← htop, List.take_append_drop]
  · rintro ⟨hschema, hencode⟩
    cases v with
    | address a =>
      have hbytes : w.bytes = Bytes.zeros 12 ++ a.bytes := (Except.ok.inj hencode).symm
      refine ⟨?_, congrArg Value.address (FixedBytes.ext ?_)⟩
      · rw [hbytes, List.take_left' (Bytes.length_zeros 12), Bytes.allZero_zeros]
      · show a.bytes = w.bytes.drop 12
        rw [hbytes, List.drop_left' (Bytes.length_zeros 12)]
    | _ => cases hschema

/-- A truth value is accepted as zero or one. -/
theorem word_bool_iff {w : Word} :
    (∃ flag : Bool, w.toUInt64? = some flag.toNat ∧ v = .bool flag)
      ↔ v.schema = .bool ∧ v.encode = .ok w.bytes := by
  have hmax : ∀ flag : Bool, flag.toNat ≤ maxSize := by decide
  constructor
  · rintro ⟨flag, hw, rfl⟩
    obtain ⟨-, rfl⟩ := Word.toUInt64?_eq_some_iff.mp hw
    exact ⟨rfl, rfl⟩
  · rintro ⟨hschema, hencode⟩
    cases v with
    | bool flag =>
      obtain rfl : Word.ofNat flag.toNat = w := FixedBytes.ext (Except.ok.inj hencode)
      exact ⟨flag, Word.toUInt64?_ofNat (hmax flag), rfl⟩
    | _ => cases hschema

/-- A byte string of fixed size is accepted in front of zero bytes. -/
theorem word_fixedBytes_iff {size : Nat} {w : Word} :
    (size ≤ 32 ∧ Bytes.allZero (w.bytes.drop size) = true)
        ∧ v = .fixedBytes (w.bytes.take size)
      ↔ v.schema = .fixedBytes size ∧ v.encode = .ok w.bytes := by
  constructor
  · rintro ⟨⟨hsize, hzero⟩, rfl⟩
    have hlen : (w.bytes.take size).length = size := by
      rw [List.length_take, w.length_bytes]
      omega
    have hpad := Bytes.allZero_iff.mp hzero
    rw [List.length_drop, w.length_bytes] at hpad
    refine ⟨congrArg Schema.fixedBytes hlen, ?_⟩
    show Except.ok (w.bytes.take size ++ Bytes.zeros (32 - (w.bytes.take size).length)) = _
    rw [hlen, ← hpad, List.take_append_drop]
  · rintro ⟨hschema, hencode⟩
    cases v with
    | fixedBytes bs =>
      obtain rfl : bs.length = size := Schema.fixedBytes.inj hschema
      have hbytes : w.bytes = bs ++ Bytes.zeros (32 - bs.length) :=
        (Except.ok.inj hencode).symm
      have hsize : bs.length ≤ 32 := by
        have hlen := congrArg List.length hbytes
        rw [w.length_bytes, List.length_append, Bytes.length_zeros] at hlen
        omega
      rw [hbytes, List.drop_left, List.take_left]
      exact ⟨⟨hsize, Bytes.allZero_zeros _⟩, rfl⟩
    | _ => cases hschema

/-! ## Reading scalars -/

/-- A check on the word of a scalar. -/
theorem guardedScalar_returns {check : Word → Prop} [DecidablePred check]
    {value : Word → Value} {refusal : Word → AbiError} :
    (b.scalar offset >>= fun w =>
        if check w then pure (value w, offset + 32) else throw (refusal w)).Returns
        budget (v, next) rest
      ↔ ∃ w, (b.scalar offset).Returns budget w rest ∧ (check w ∧ v = value w)
        ∧ next = offset + 32 := by
  simp only [returns_bind, returns_guard, returns_pure, Prod.mk.injEq]
  constructor
  · rintro ⟨w, _, hw, hcheck, ⟨rfl, rfl⟩, rfl⟩
    exact ⟨w, hw, ⟨hcheck, rfl⟩, rfl⟩
  · rintro ⟨w, hw, ⟨hcheck, rfl⟩, rfl⟩
    exact ⟨w, rest, hw, hcheck, ⟨rfl, rfl⟩, rfl⟩

/-- The check of a truth value is a match on the word. -/
theorem readValue_bool_returns :
    (readValue b .bool offset).Returns budget (v, next) rest
      ↔ ∃ w, (b.scalar offset).Returns budget w rest
        ∧ (∃ flag : Bool, w.toUInt64? = some flag.toNat ∧ v = .bool flag)
        ∧ next = offset + 32 := by
  rw [readValue]
  simp only [returns_bind]
  constructor
  · rintro ⟨w, mid, hw, h⟩
    split at h
    case h_1 h0 =>
      obtain ⟨heq, rfl⟩ := returns_pure.mp h
      cases heq
      exact ⟨w, hw, ⟨false, h0, rfl⟩, rfl⟩
    case h_2 h1 =>
      obtain ⟨heq, rfl⟩ := returns_pure.mp h
      cases heq
      exact ⟨w, hw, ⟨true, h1, rfl⟩, rfl⟩
    case h_3 => exact absurd h not_returns_throw
  · rintro ⟨w, hw, ⟨flag, hflag, rfl⟩, rfl⟩
    refine ⟨w, rest, hw, ?_⟩
    rw [hflag]
    cases flag <;> exact returns_pure.mpr ⟨rfl, rfl⟩

/-- **Reading a scalar**: the word that stands there is the encoding of
the value, and it is charged. -/
theorem readValue_scalar_returns {s : Schema} (hscalar : s.isScalar = true) (hs : s.IsValid) :
    (readValue b s offset).Returns budget (v, next) rest
      ↔ ∃ w : Word, v.schema = s ∧ v.encode = .ok w.bytes ∧ b.Holds offset w.bytes
        ∧ 32 ≤ budget.remaining ∧ rest = budget.spend ⟨offset, 32⟩ ∧ next = offset + 32 := by
  have key : (readValue b s offset).Returns budget (v, next) rest
      ↔ ∃ w : Word, (b.scalar offset).Returns budget w rest
        ∧ (v.schema = s ∧ v.encode = .ok w.bytes) ∧ next = offset + 32 := by
    cases s with
    | uint bits =>
      have hbits := (Schema.isValid_uint_iff.mp hs).2.1
      simp only [← word_uint_iff hbits]
      rw [readValue]
      exact guardedScalar_returns
    | int bits =>
      have hbits := (Schema.isValid_int_iff.mp hs).2.1
      simp only [← word_int_iff hbits]
      rw [readValue]
      exact guardedScalar_returns
    | address =>
      simp only [← word_address_iff]
      rw [readValue]
      exact guardedScalar_returns
    | bool =>
      simp only [← word_bool_iff]
      exact readValue_bool_returns
    | fixedBytes size =>
      simp only [← word_fixedBytes_iff]
      rw [readValue]
      exact guardedScalar_returns
    | _ => cases hscalar
  rw [key]
  simp only [Buffer.scalar_returns]
  constructor
  · rintro ⟨w, ⟨hw, hremaining, rfl⟩, ⟨hschema, hencode⟩, rfl⟩
    exact ⟨w, hschema, hencode, hw, hremaining, rfl, rfl⟩
  · rintro ⟨w, hschema, hencode, hw, hremaining, rfl, rfl⟩
    exact ⟨w, ⟨hw, hremaining, rfl⟩, ⟨hschema, hencode⟩, rfl⟩

/-- The word that is the number one is the encoding of a truth value. -/
example : (readValue (Buffer.ofBytes (Word.ofNat 1).bytes) .bool 0).result
    (Buffer.ofBytes (Word.ofNat 1).bytes) = .ok (.bool true, 32) := by cbv

/-! ## Byte strings and texts -/

/-- **Reading a byte string.** -/
theorem readValue_bytes_returns :
    (readValue b .bytes offset).Returns budget (v, next) rest
      ↔ ∃ bs, (b.lengthPrefixedAt offset).Returns budget bs rest ∧ v = .bytes bs
        ∧ next = offset + 32 := by
  rw [readValue]
  simp only [returns_bind, returns_pure, Prod.mk.injEq]
  constructor
  · rintro ⟨bs, _, hbs, ⟨rfl, rfl⟩, rfl⟩
    exact ⟨bs, hbs, rfl, rfl⟩
  · rintro ⟨bs, hbs, rfl, rfl⟩
    exact ⟨bs, rest, hbs, ⟨rfl, rfl⟩, rfl⟩

/-- **Reading a text**, which has to be UTF-8. -/
theorem readValue_string_returns :
    (readValue b .string offset).Returns budget (v, next) rest
      ↔ ∃ bs s, (b.lengthPrefixedAt offset).Returns budget bs rest
        ∧ Bytes.toText? bs = some s ∧ v = .string s ∧ next = offset + 32 := by
  rw [readValue]
  simp only [returns_bind]
  constructor
  · rintro ⟨bs, mid, hbs, h⟩
    split at h
    case h_1 s hs =>
      obtain ⟨heq, rfl⟩ := returns_pure.mp h
      cases heq
      exact ⟨bs, s, hbs, hs, rfl, rfl⟩
    case h_2 => exact absurd h not_returns_throw
  · rintro ⟨bs, s, hbs, hs, rfl, rfl⟩
    refine ⟨bs, rest, hbs, ?_⟩
    rw [hs]
    exact returns_pure.mpr ⟨rfl, rfl⟩

/-! ## Members of a sequence -/

/-- **The value of a dynamic schema is read where its place points.** -/
theorem readPlaced_dynamic_returns {base head : Nat} {read : Nat → Decoding (Value × Nat)} :
    (readPlaced b base true read head).Returns budget (v, next) rest
      ↔ next = head + 32 ∧ ∃ relative, relative ≤ maxSize
        ∧ b.Holds head (Word.ofNat relative).bytes ∧ base + relative ≤ maxSize
        ∧ ∃ behind, (read (base + relative)).Returns budget (v, behind) rest := by
  unfold readPlaced
  rw [if_pos rfl]
  simp only [returns_bind, Buffer.sizeAt_returns, target_returns, returns_pure, Prod.mk.injEq]
  constructor
  · rintro ⟨relative, _, ⟨hmax, hword, rfl⟩, _, _, ⟨rfl, hplace, rfl⟩, ⟨_, behind⟩, _, hread,
      ⟨rfl, rfl⟩, rfl⟩
    exact ⟨rfl, relative, hmax, hword, hplace, behind, hread⟩
  · rintro ⟨rfl, relative, hmax, hword, hplace, behind, hread⟩
    exact ⟨relative, budget, ⟨hmax, hword, rfl⟩, base + relative, budget, ⟨rfl, hplace, rfl⟩,
      (v, behind), rest, hread, ⟨rfl, rfl⟩, rfl⟩

/-- The value of a static schema is read in its place. -/
@[simp] theorem readPlaced_static (base head : Nat) (read : Nat → Decoding (Value × Nat)) :
    readPlaced b base false read head = read head := rfl

/-- Wherever it was read, a value was read by the reader of its schema. -/
theorem exists_read_of_readPlaced {base head : Nat} {isDynamic : Bool}
    {read : Nat → Decoding (Value × Nat)}
    (h : (readPlaced b base isDynamic read head).Returns budget (v, next) rest) :
    ∃ place behind, (read place).Returns budget (v, behind) rest := by
  cases isDynamic with
  | false => exact ⟨head, next, h⟩
  | true =>
    obtain ⟨-, relative, -, -, -, behind, hread⟩ := readPlaced_dynamic_returns.mp h
    exact ⟨base + relative, behind, hread⟩

variable {base head last : Nat} {vs : List Value}

@[simp] theorem readMembers_nil_returns :
    (readMembers b base [] head).Returns budget (vs, last) rest
      ↔ vs = [] ∧ last = head ∧ rest = budget := by
  rw [readMembers, returns_pure, Prod.mk.injEq, and_assoc]

/-- **Members are read one after the other.** -/
theorem readMembers_cons_returns {member : Schema} {members : List Schema} :
    (readMembers b base (member :: members) head).Returns budget (vs, last) rest
      ↔ ∃ v ws next mid, vs = v :: ws
        ∧ (readPlaced b base member.isDynamic (readValue b member) head).Returns
          budget (v, next) mid
        ∧ (readMembers b base members next).Returns mid (ws, last) rest := by
  rw [readMembers]
  simp only [returns_bind, returns_pure, Prod.mk.injEq]
  constructor
  · rintro ⟨⟨v, next⟩, mid, hv, ⟨ws, last'⟩, _, hws, ⟨rfl, rfl⟩, rfl⟩
    exact ⟨v, ws, next, mid, rfl, hv, hws⟩
  · rintro ⟨v, ws, next, mid, rfl, hv, hws⟩
    exact ⟨(v, next), mid, hv, (ws, last), rest, hws, ⟨rfl, rfl⟩, rfl⟩

/-- There is a value for each schema. -/
theorem length_of_readMembers {members : List Schema}
    (h : (readMembers b base members head).Returns budget (vs, last) rest) :
    vs.length = members.length := by
  induction members generalizing vs head budget with
  | nil =>
    obtain ⟨rfl, -, -⟩ := readMembers_nil_returns.mp h
    rfl
  | cons member members ih =>
    obtain ⟨v, ws, next, mid, rfl, -, hws⟩ := readMembers_cons_returns.mp h
    rw [List.length_cons, List.length_cons, ih hws]

/-- **The items of an array are read as the members of a tuple.** -/
theorem readMembers_replicate (element : Schema) (count head : Nat) :
    readMembers b base (List.replicate count element) head
      = readRepeated (readPlaced b base element.isDynamic (readValue b element)) count head := by
  induction count generalizing head with
  | zero => rfl
  | succ n ih =>
    rw [List.replicate_succ, readMembers, readRepeated]
    refine congrArg (_ >>= ·) (funext fun ⟨v, next⟩ => ?_)
    show readMembers b base (List.replicate n element) next >>= _ = _
    rw [ih]

/-! ## Composites -/

/-- There is room for the heads of so many items. -/
theorem ensureItems_returns {count : Nat} {element : Schema} {u : Unit} :
    (b.ensureItems base count element).Returns budget u rest
      ↔ base + min (count * element.headSize) maxSize ≤ b.size ∧ rest = budget :=
  Buffer.ensure_returns

/-- **Reading an array.** Its offsets count from behind the word of its
count, and that word is charged. -/
theorem readValue_array_returns {element : Schema} :
    (readValue b (.array element) offset).Returns budget (v, next) rest
      ↔ ∃ items last, v = .array element items ∧ next = offset + 32
        ∧ items.length ≤ maxSize ∧ b.Holds offset (Word.ofNat items.length).bytes
        ∧ 32 ≤ budget.remaining
        ∧ offset + 32 + min (items.length * element.headSize) maxSize ≤ b.size
        ∧ (readMembers b (offset + 32) (List.replicate items.length element)
            (offset + 32)).Returns (budget.spend ⟨offset, 32⟩) (items, last) rest := by
  rw [readValue]
  simp only [returns_bind, Buffer.sizeAt_returns, charge_returns, ensureItems_returns,
    ← readMembers_replicate, returns_pure, Prod.mk.injEq]
  constructor
  · rintro ⟨count, _, ⟨hmax, hcount, rfl⟩, _, _, ⟨hcharge, rfl⟩, _, _, ⟨hroom, rfl⟩,
      ⟨items, last⟩, _, hitems, ⟨rfl, rfl⟩, rfl⟩
    obtain rfl : items.length = count := by
      rw [length_of_readMembers hitems, List.length_replicate]
    exact ⟨items, last, rfl, rfl, hmax, hcount, hcharge, hroom, hitems⟩
  · rintro ⟨items, last, rfl, rfl, hmax, hcount, hcharge, hroom, hitems⟩
    exact ⟨items.length, _, ⟨hmax, hcount, rfl⟩, (), _, ⟨hcharge, rfl⟩, (), _, ⟨hroom, rfl⟩,
      (items, last), rest, hitems, ⟨rfl, rfl⟩, rfl⟩

/-- **Reading a fixed array**, which stands where its first item has its
place. -/
theorem readValue_fixedArray_returns {element : Schema} {size : Nat} :
    (readValue b (.fixedArray element size) offset).Returns budget (v, next) rest
      ↔ ∃ items, v = .fixedArray element items
        ∧ offset + min (size * element.headSize) maxSize ≤ b.size
        ∧ (readMembers b offset (List.replicate size element) offset).Returns budget
          (items, next) rest := by
  rw [readValue]
  simp only [returns_bind, ensureItems_returns, ← readMembers_replicate, returns_pure,
    Prod.mk.injEq]
  constructor
  · rintro ⟨_, _, ⟨hroom, rfl⟩, ⟨items, _⟩, _, hitems, ⟨rfl, rfl⟩, rfl⟩
    exact ⟨items, rfl, hroom, hitems⟩
  · rintro ⟨items, rfl, hroom, hitems⟩
    exact ⟨(), budget, ⟨hroom, rfl⟩, (items, next), rest, hitems, ⟨rfl, rfl⟩, rfl⟩

/-- **Reading a tuple**, which stands where its first member has its
place. -/
theorem readValue_tuple_returns {members : List Schema} :
    (readValue b (.tuple members) offset).Returns budget (v, next) rest
      ↔ ∃ items, v = .tuple items
        ∧ (readMembers b offset members offset).Returns budget (items, next) rest := by
  rw [readValue]
  simp only [returns_bind, returns_pure, Prod.mk.injEq]
  constructor
  · rintro ⟨⟨items, _⟩, _, hitems, ⟨rfl, rfl⟩, rfl⟩
    exact ⟨items, rfl, hitems⟩
  · rintro ⟨items, rfl, hitems⟩
    exact ⟨(items, next), rest, hitems, ⟨rfl, rfl⟩, rfl⟩

/-! ## Decoding byte strings -/

/-- Values have the schemas they have. -/
@[simp] theorem checkSchemas_schemas (vs : List Value) :
    checkSchemas vs (Value.schemas vs) = .ok () := by
  induction vs with
  | nil => rfl
  | cons v vs ih =>
    rw [Value.schemas, checkSchemas, if_pos rfl]
    exact ih

/-- **What a successful decoding went through.** -/
theorem decode_eq_ok_iff {data : Bytes} {schemas : List Schema} {values : List Value} :
    decode data schemas = .ok values
      ↔ (∀ s ∈ schemas, s.IsValid) ∧ checkSchemas values schemas = .ok ()
        ∧ ∃ last rest, (readMembers (Buffer.ofBytes data) 0 schemas 0).Returns
          (Budget.ofBuffer (Buffer.ofBytes data)) (values, last) rest := by
  unfold decode
  rw [← Schema.defectIn?_eq_none_iff]
  cases Schema.defectIn? schemas with
  | some e => simp
  | none =>
    simp only [← result_eq_ok_iff, true_and]
    cases hresult : (readMembers (Buffer.ofBytes data) 0 schemas 0).result
        (Buffer.ofBytes data) with
    | error e => simp
    | ok read =>
      obtain ⟨vs, last⟩ := read
      by_cases hvs : vs = values
      · subst hvs
        cases hcheck : checkSchemas vs schemas <;> simp [hcheck]
      · cases hcheck : checkSchemas vs schemas <;> simp [hcheck, hvs]

end EthCall.Abi
