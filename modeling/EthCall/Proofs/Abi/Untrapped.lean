import Mathlib.Control.Monad.Basic
import EthCall.Proofs.Abi.Closed
import EthCall.Proofs.Abi.Trapping

/-!
# Decoding never traps

Offsets, lengths and counts come from the bytes that are decoded, and may
be anything that 64 bits can hold. The readers add to them, multiply them
and slice with them all the same, and most of these operations are not
checked where they stand: what makes them safe is a check that went before,
on another number and often in another reader.

A reading that is written with operations that can trap **follows** a
decoding (`Follows`) if it comes to the same result from every budget, and
so without a trap. A sequence follows a sequence (`Follows.bind`), where the
second part has only to be looked at for what the first can return. It is
this that carries the earlier check to the later operation. An operation
that has a result is simply gone (`Follows.operation`), and a sum that is
checked in vain as well (`Follows.silent`).

The lists set up for the items of an array are a matter of the schema. That
there is room for the heads of the items bounds their number only because
nothing valid has a head shorter than a word (`count_le_of_ensureItems`).
-/

namespace EthCall.Abi.Trapping

open Decoding

/-! ## Readings and the decodings they follow -/

/-- **What was used of a buffer lies inside of it**, and no list was set up
for more items than it has words. -/
structure Usage.Within (usage : Usage) (b : Buffer) : Prop where
  /-- Only bytes that are there were looked at. -/
  read_inside : ∀ span ∈ usage.read, span.Inside b
  /-- Every item has a word of its own. -/
  allocated_le : ∀ count ∈ usage.allocated, count ≤ b.size / 32

variable {α β : Type} {b : Buffer}

/-- **A reading that does what a decoding does**, and does not trap. From
the same remaining budget it comes to the same result, within the buffer,
and if that is a value it leaves the same budget. -/
def Follows (b : Buffer) (r : Reading α) (d : Decoding α) : Prop :=
  ∀ usage budget, usage.Within b → usage.remaining = budget.remaining →
    ∃ usage', usage'.Within b ∧ r.run.run usage = .ok ((d.runFrom budget).1, usage')
      ∧ ∀ a rest, d.Returns budget a rest → usage'.remaining = rest.remaining

/-- A sequence runs its first part and then, if that returned, the
second. -/
theorem run_bind (x : Reading α) (f : α → Reading β) (usage : Usage) :
    (x >>= f).run.run usage
      = match x.run.run usage with
        | .ok (.ok a, rest) => (f a).run.run rest
        | .ok (.error e, rest) => .ok (.error e, rest)
        | .error trap => .error trap := by
  rw [ExceptT.run_bind, StateT.run_bind]
  show (match x.run.run usage with | _ => _) = _
  rcases x.run.run usage with _ | ⟨_ | _, _⟩ <;> rfl

theorem follows_pure (a : α) : Follows b (pure a) (pure a) := by
  intro usage budget husage hremaining
  refine ⟨usage, husage, rfl, fun a' rest h => ?_⟩
  obtain ⟨-, rfl⟩ := returns_pure.mp h
  exact hremaining

theorem follows_throw (e : AbiError) : Follows b (throw e : Reading α) (throw e) := by
  intro usage budget husage hremaining
  exact ⟨usage, husage, rfl, fun a' rest h => absurd h not_returns_throw⟩

theorem Follows.bind {r : Reading α} {d : Decoding α} {f : α → Reading β} {g : α → Decoding β}
    (h : Follows b r d) (hf : ∀ a, d.CanReturn a → Follows b (f a) (g a)) :
    Follows b (r >>= f) (d >>= g) := by
  intro usage budget husage hremaining
  obtain ⟨mid, hmid, hrun, hrest⟩ := h usage budget husage hremaining
  rw [run_bind, hrun]
  rcases hd : d.runFrom budget with ⟨_ | a, rest⟩
  · refine ⟨mid, hmid, ?_, fun a rest' hret => ?_⟩
    · rw [runFrom_bind, hd]
    · obtain ⟨a, rest'', ha, -⟩ := returns_bind.mp hret
      cases hd.symm.trans ha
  · obtain ⟨usage', husage', hrun', hrest'⟩ :=
      hf a ⟨budget, rest, hd⟩ mid rest hmid (hrest a rest hd)
    refine ⟨usage', husage', ?_, fun a' rest' hret => ?_⟩
    · rw [runFrom_bind, hd]
      exact hrun'
    · obtain ⟨a'', rest'', ha, hret⟩ := returns_bind.mp hret
      cases hd.symm.trans ha
      exact hrest' a' rest' hret

/-- A part of the reading for which the decoding has nothing to do. -/
theorem Follows.silent {r : Reading α} {a : α} {f : α → Reading β} {d : Decoding β}
    (h : Follows b r (pure a)) (hf : Follows b (f a) d) : Follows b (r >>= f) d := by
  refine h.bind (g := fun _ => d) fun a' ha' => ?_
  obtain ⟨_, _, hret⟩ := ha'
  obtain ⟨rfl, -⟩ := returns_pure.mp hret
  exact hf

/-- What refuses the bytes is the last that a sequence does. -/
theorem Follows.refused {r : Reading α} {e : AbiError} {f : α → Reading β}
    (h : Follows b r (throw e)) : Follows b (r >>= f) (throw e) := by
  refine h.bind (g := fun _ => throw e) fun a ha => ?_
  obtain ⟨_, _, hret⟩ := ha
  exact absurd hret not_returns_throw

/-- An operation that has a result. -/
theorem Follows.operation {x : Except Trap α} {a : α} {f : α → Reading β} {d : Decoding β}
    (h : x = .ok a) (hf : Follows b (f a) d) : Follows b (liftM x >>= f) d := by
  subst h
  exact hf

/-- A check that refuses the bytes. -/
theorem Follows.guard {c : Prop} [Decidable c] {r : Reading α} {d : Decoding α} {e : AbiError}
    (h : Follows b r d) :
    Follows b (if c then r else throw e) (if c then d else throw e) := by
  by_cases hc : c
  · rw [if_pos hc, if_pos hc]
    exact h
  · rw [if_neg hc, if_neg hc]
    exact follows_throw e

/-! ## The bytes of a word -/

theorem toSize?_eq (w : Word) : toSize? w = .ok w.toUInt64? := by
  have hlow : (w.bytes.drop 24).length = 8 := by
    rw [List.length_drop, w.length_bytes]
  unfold toSize? Word.toUInt64?
  rw [Trap.slice_zero (by rw [w.length_bytes]; decide)]
  show (if _ then _ else _) = _
  split
  · rw [Trap.slice_to_end w.length_bytes (by decide)]
    show Trap.fixed 8 _ >>= _ = _
    rw [Trap.fixed_of_length hlow]
    rfl
  · rfl

theorem toSigned_eq (w : Word) : toSigned w = .ok w.toSigned := by
  have hfirst : 0 < w.bytes.length := by
    rw [w.length_bytes]
    decide
  have hhead : w.bytes.headD 0 = w.bytes[0] := by
    rw [List.headD_eq_head?_getD, List.head?_eq_getElem?, List.getElem?_eq_getElem hfirst]
    rfl
  unfold toSigned Word.toSigned Word.isNegative
  rw [Trap.index_of_lt hfirst, hhead]
  show (if _ then _ else _) = _
  split <;> rfl

theorem fitsSigned_eq (z : Int) (bits : Nat) :
    fitsSigned z bits = .ok (EthCall.fitsSigned z bits) := by
  unfold fitsSigned EthCall.fitsSigned
  by_cases h : bits = 0
  · rw [if_pos h]
    simp [h]
    rfl
  · rw [if_neg h, Trap.sub_of_le (Nat.pos_of_ne_zero h)]
    simp [h]

/-! ## Reading from the buffer -/

theorem follows_slice {first last : Nat} (hfirst : first ≤ last) (hlast : last ≤ b.size) :
    Follows b (slice b first last) (pure (b.slice first (last - first))) := by
  intro usage budget husage hremaining
  have hslice : Trap.slice b.bytes.toList first last = .ok (b.slice first (last - first)) := by
    rw [Buffer.slice_eq]
    exact Trap.slice_of_le hfirst hlast
  refine ⟨{ usage with read := ⟨first, last - first⟩ :: usage.read }, ⟨?_, ?_⟩, ?_, ?_⟩
  · refine List.forall_mem_cons.mpr ⟨?_, husage.read_inside⟩
    show first + (last - first) ≤ b.size
    omega
  · exact husage.allocated_le
  · unfold slice
    rw [run_bind, hslice]
    rfl
  · intro a rest h
    obtain ⟨-, rfl⟩ := returns_pure.mp h
    exact hremaining

theorem follows_allocate {count : Nat} (h : count ≤ b.size / 32) :
    Follows b (allocate count) (pure ()) := by
  intro usage budget husage hremaining
  refine ⟨{ usage with allocated := count :: usage.allocated }, ⟨husage.read_inside, ?_⟩, rfl, ?_⟩
  · exact List.forall_mem_cons.mpr ⟨h, husage.allocated_le⟩
  · intro a rest hret
    obtain ⟨-, rfl⟩ := returns_pure.mp hret
    exact hremaining

/-- A charge that is refused leaves what was used as it is. -/
theorem run_charge (len : Nat) (usage : Usage) :
    (charge len).run.run usage
      = if len ≤ usage.remaining then
          .ok (.ok (), { usage with remaining := usage.remaining - len })
        else .ok (.error (.corrupt .overlap), usage) := by
  have hget (f : Usage → Reading Unit) : (get >>= f).run.run usage = (f usage).run.run usage := rfl
  unfold charge Trap.checkedSub?
  rw [hget]
  by_cases h : len ≤ usage.remaining
  · rw [if_pos h, if_pos h]
    rfl
  · rw [if_neg h, if_neg h]
    rfl

theorem follows_charge (offset len : Nat) :
    Follows b (charge len) (Abi.charge ⟨offset, len⟩) := by
  intro usage budget husage hremaining
  rw [run_charge, runFrom_charge, hremaining]
  by_cases h : len ≤ budget.remaining
  · rw [if_pos h, if_neg (Nat.not_lt.mpr h)]
    refine ⟨{ usage with remaining := budget.remaining - len },
      ⟨husage.read_inside, husage.allocated_le⟩, rfl, fun a rest hret => ?_⟩
    obtain ⟨-, rfl⟩ := charge_returns.mp hret
    rfl
  · rw [if_neg h, if_pos (show budget.remaining < len from Nat.not_le.mp h)]
    exact ⟨usage, husage, rfl, fun a rest hret => absurd (charge_returns.mp hret).1 h⟩

/-- Room that was asked for is there. -/
theorem inside_of_ensure {offset len : Nat} {u : Unit} (h : (b.ensure offset len).CanReturn u) :
    offset + len ≤ b.size := by
  obtain ⟨_, _, hret⟩ := h
  exact (Buffer.ensure_returns.mp hret).1

/-- The word of a scalar stands in the buffer. -/
theorem inside_of_scalar {offset : Nat} {w : Word} (h : (b.scalar offset).CanReturn w) :
    offset + 32 ≤ b.size := by
  obtain ⟨_, _, hret⟩ := h
  exact (Buffer.scalar_returns.mp hret).1.word_le_size

/-- The length of a byte string stands in the buffer. -/
theorem inside_of_lengthPrefixedAt {offset : Nat} {bs : Bytes}
    (h : (b.lengthPrefixedAt offset).CanReturn bs) : offset + 32 ≤ b.size := by
  obtain ⟨_, _, hret⟩ := h
  exact (Buffer.lengthPrefixedAt_returns.mp hret).2.1.word_le_size

section

variable (hb : b.size < maxSize)
include hb

theorem follows_ensure (offset len : Nat) :
    Follows b (ensure b offset len) (b.ensure offset len) := by
  unfold ensure Buffer.ensure Trap.checkedAdd?
  by_cases h : offset + len ≤ maxSize
  · rw [if_pos h]
    exact (follows_pure ()).guard
  · rw [if_neg h, if_neg (by omega)]
    exact follows_throw _

/-- A product that is no size exceeds every buffer, wherever it is to
start. -/
theorem follows_ensureItems (base count : Nat) (element : Schema) :
    Follows b (ensureItems b base count element) (b.ensureItems base count element) := by
  unfold ensureItems Buffer.ensureItems Trap.checkedMul?
  by_cases h : count * element.headSize ≤ maxSize
  · rw [if_pos h, Nat.min_eq_left h]
    exact follows_ensure hb base _
  · rw [if_neg h, Nat.min_eq_right (Nat.le_of_not_le h)]
    unfold Buffer.ensure
    rw [if_neg (by omega)]
    exact follows_throw _

theorem follows_word (offset : Nat) : Follows b (word b offset) (b.word offset) := by
  have hensure := follows_ensure hb offset 32
  unfold word Buffer.word
  unfold Buffer.ensure at hensure
  by_cases h : offset + 32 ≤ b.size
  · rw [if_pos h] at hensure
    rw [dif_pos h]
    have hslice := follows_slice (Nat.le_add_right offset 32) h
    rw [Nat.add_sub_cancel_left] at hslice
    refine hensure.silent (.operation (Trap.add_of_le (by omega)) (hslice.silent ?_))
    rw [Trap.fixed_of_length (Buffer.length_slice h)]
    exact follows_pure _
  · rw [if_neg h] at hensure
    rw [dif_neg h]
    exact hensure.refused

theorem follows_scalar (offset : Nat) : Follows b (scalar b offset) (b.scalar offset) :=
  (follows_word hb offset).bind fun w _ =>
    (follows_charge offset 32).bind fun _ _ => follows_pure w

theorem follows_sizeAt (offset : Nat) (role : SizeRole) :
    Follows b (sizeAt b offset role) (b.sizeAt offset role) := by
  refine (follows_word hb offset).bind fun w _ => .operation (toSize?_eq w) ?_
  cases w.toUInt64? with
  | some n => exact follows_pure n
  | none => exact follows_throw _

omit hb in
theorem follows_target (base relative : Nat) :
    Follows b (target b base relative) (Abi.target b base relative) := by
  unfold target Abi.target Trap.checkedAdd?
  by_cases h : base + relative ≤ maxSize
  · rw [if_pos h, if_pos h]
    exact follows_pure _
  · rw [if_neg h, if_neg h]
    exact follows_throw _

omit hb in
/-- A place that is a size. -/
theorem follows_target_of_le {base relative : Nat} (h : base + relative ≤ maxSize) :
    Follows b (target b base relative) (pure (base + relative)) := by
  have hfollows := follows_target (b := b) base relative
  unfold Abi.target at hfollows
  rwa [if_pos h] at hfollows

/-- **Room for the heads of so many items is a word for each of them**,
since the head of nothing valid is shorter. -/
theorem count_le_of_ensureItems {element : Schema} (hs : element.IsValid) {base count : Nat}
    {u : Unit} (h : (b.ensureItems base count element).CanReturn u) : count ≤ b.size / 32 := by
  have hroom : base + min (count * element.headSize) maxSize ≤ b.size := inside_of_ensure h
  have hhead : count * 32 ≤ count * element.headSize :=
    Nat.mul_le_mul_left count (Schema.le_headSize_of_isValid hs)
  omega

theorem follows_lengthPrefixedAt (offset : Nat) :
    Follows b (lengthPrefixedAt b offset) (b.lengthPrefixedAt offset) := by
  refine (follows_sizeAt hb offset .length).bind fun len hlen => ?_
  have hinside : offset + 32 ≤ b.size := hlen.inside_of_sizeAt
  refine (follows_target_of_le (by omega)).silent ?_
  refine (follows_ensure hb (offset + 32) len).bind fun _ hroom => ?_
  have hroom : offset + 32 + len ≤ b.size := inside_of_ensure hroom
  rw [Nat.min_eq_left (by omega)]
  refine (follows_charge offset (32 + len)).bind fun _ _ => ?_
  refine .operation (Trap.add_of_le (by omega)) ?_
  have hslice := follows_slice (Nat.le_add_right (offset + 32) len) hroom
  rwa [Nat.add_sub_cancel_left] at hslice

/-! ## Reading values -/

theorem follows_readPlaced (base : Nat) (isDynamic : Bool) {read : Nat → Reading (Value × Nat)}
    {read' : Nat → Decoding (Value × Nat)}
    (hread : ∀ offset, Follows b (read offset) (read' offset)) (head : Nat) :
    Follows b (readPlaced b base isDynamic read head)
      (Abi.readPlaced b base isDynamic read' head) := by
  cases isDynamic with
  | false => exact hread head
  | true =>
    refine (follows_sizeAt hb head .offset).bind fun relative hrelative => ?_
    have hinside : head + 32 ≤ b.size := hrelative.inside_of_sizeAt
    refine (follows_target base relative).bind fun place _ => ?_
    refine (hread place).bind fun v _ => ?_
    exact .operation (Trap.add_of_le (by omega)) (follows_pure _)

omit hb in
theorem follows_readRepeated {read : Nat → Reading (Value × Nat)}
    {read' : Nat → Decoding (Value × Nat)} (hread : ∀ head, Follows b (read head) (read' head))
    (count head : Nat) :
    Follows b (readRepeated read count head) (Abi.readRepeated read' count head) := by
  induction count generalizing head with
  | zero => exact follows_pure _
  | succ count ih =>
    refine (hread head).bind ?_
    rintro ⟨v, next⟩ -
    exact (ih next).bind fun items _ => follows_pure _

theorem follows_readMembers_of_forall {members : List Schema}
    (hmembers : ∀ s ∈ members, ∀ offset,
      Follows b (readValue b s offset) (Abi.readValue b s offset)) (base head : Nat) :
    Follows b (readMembers b base members head) (Abi.readMembers b base members head) := by
  induction members generalizing head with
  | nil => exact follows_pure _
  | cons s members ih =>
    obtain ⟨hs, hmembers⟩ := List.forall_mem_cons.mp hmembers
    rw [readMembers, Abi.readMembers]
    refine (follows_readPlaced hb base s.isDynamic hs head).bind ?_
    rintro ⟨v, next⟩ -
    exact (ih hmembers next).bind fun items _ => follows_pure _

/-- A scalar is a word of the buffer, and checks on its bytes. -/
theorem follows_readValue_of_isScalar {s : Schema} (hscalar : s.isScalar = true) (offset : Nat) :
    Follows b (readValue b s offset) (Abi.readValue b s offset) := by
  have hnext {w : Word} (hw : (b.scalar offset).CanReturn w) (v : Value) :
      Follows b (do return (v, ← Trap.add maxSize offset 32)) (pure (v, offset + 32)) := by
    have hinside := inside_of_scalar hw
    exact .operation (Trap.add_of_le (by omega)) (follows_pure _)
  cases s with
  | uint bits =>
    rw [readValue, Abi.readValue]
    exact (follows_scalar hb offset).bind fun w hw => (hnext hw _).guard
  | int bits =>
    rw [readValue, Abi.readValue]
    refine (follows_scalar hb offset).bind fun w hw => .operation (toSigned_eq w) ?_
    exact .operation (fitsSigned_eq _ bits) (hnext hw _).guard
  | address =>
    rw [readValue, Abi.readValue]
    refine (follows_scalar hb offset).bind fun w hw => ?_
    refine .operation (Trap.slice_zero (by rw [w.length_bytes]; decide)) (Follows.guard ?_)
    refine .operation (Trap.slice_to_end w.length_bytes (by decide)) ?_
    exact .operation (Trap.fixed_of_length (length_addressBytes w)) (hnext hw _)
  | bool =>
    rw [readValue, Abi.readValue]
    refine (follows_scalar hb offset).bind fun w hw => .operation (toSize?_eq w) ?_
    rcases w.toUInt64? with _ | _ | _ | n
    · exact follows_throw _
    · exact hnext hw _
    · exact hnext hw _
    · exact follows_throw _
  | fixedBytes size =>
    rw [readValue, Abi.readValue]
    refine (follows_scalar hb offset).bind fun w hw => ?_
    by_cases hsize : 32 < size
    · rw [if_pos hsize, if_neg (fun h => Nat.not_le.mpr hsize h.1)]
      exact follows_throw _
    · rw [if_neg hsize]
      have hsize : size ≤ 32 := Nat.le_of_not_lt hsize
      simp only [hsize, true_and]
      refine .operation (Trap.slice_to_end w.length_bytes hsize) (Follows.guard ?_)
      exact .operation (Trap.slice_zero (by rwa [w.length_bytes])) (hnext hw _)
  | _ => cases hscalar

/-- **The reader of a valid schema follows that of the plain
operations**, from any offset. -/
theorem follows_readValue {s : Schema} (hs : s.IsValid) (offset : Nat) :
    Follows b (readValue b s offset) (Abi.readValue b s offset) := by
  induction s using Schema.ind generalizing offset with
  | scalar s hscalar => exact follows_readValue_of_isScalar hb hscalar offset
  | bytes =>
    rw [readValue, Abi.readValue]
    refine (follows_lengthPrefixedAt hb offset).bind fun bs hbs => ?_
    have hinside := inside_of_lengthPrefixedAt hbs
    exact .operation (Trap.add_of_le (by omega)) (follows_pure _)
  | string =>
    rw [readValue, Abi.readValue]
    refine (follows_lengthPrefixedAt hb offset).bind fun bs hbs => ?_
    have hinside := inside_of_lengthPrefixedAt hbs
    cases Bytes.toText? bs with
    | some text => exact .operation (Trap.add_of_le (by omega)) (follows_pure _)
    | none => exact follows_throw _
  | array element ih =>
    have helement := Schema.isValid_array_iff.mp hs
    rw [readValue, Abi.readValue]
    refine (follows_sizeAt hb offset .arrayLength).bind fun count hcount => ?_
    have hinside : offset + 32 ≤ b.size := hcount.inside_of_sizeAt
    refine (follows_charge offset 32).bind fun _ _ => ?_
    refine (follows_target_of_le (by omega)).silent ?_
    refine (follows_ensureItems hb _ count element).bind fun _ hroom => ?_
    refine (follows_allocate (count_le_of_ensureItems hb helement hroom)).silent ?_
    have hread := follows_readPlaced hb (offset + 32) element.isDynamic (ih helement)
    refine (follows_readRepeated hread count _).bind fun items _ => ?_
    exact .operation (Trap.add_of_le (by omega)) (follows_pure _)
  | fixedArray element size ih =>
    obtain ⟨-, -, helement⟩ := Schema.isValid_fixedArray_iff.mp hs
    rw [readValue, Abi.readValue]
    refine (follows_ensureItems hb offset size element).bind fun _ hroom => ?_
    refine (follows_allocate (count_le_of_ensureItems hb helement hroom)).silent ?_
    have hread := follows_readPlaced hb offset element.isDynamic (ih helement)
    exact (follows_readRepeated hread size offset).bind fun items _ => follows_pure _
  | tuple members ih =>
    obtain ⟨-, hmembers⟩ := Schema.isValid_tuple_iff.mp hs
    rw [readValue, Abi.readValue]
    refine (follows_readMembers_of_forall hb (fun s hs => ih s hs (hmembers s hs)) _ _).bind ?_
    exact fun items _ => follows_pure _

end

/-! ## Decoding byte strings -/

/-- **A use of some data**: it is of a part of them up to their end, no
byte outside of that part was looked at, and no list was set up for more
items than the data have words. -/
structure Use.Within (use : Use) (data : Bytes) : Prop where
  /-- The bytes decoded are those from some place of the data on. -/
  bytes_suffix : use.bytes <:+ data
  /-- Only they were looked at. -/
  read_inside : ∀ span ∈ use.read, span.offset + span.length ≤ use.bytes.length
  /-- Every item of a list has a word of its own. -/
  allocated_le : ∀ count ∈ use.allocated, count ≤ data.length / 32

/-- Each of the uses is one of some of the sources. -/
def Covered (sources : List Bytes) (uses : List Use) : Prop :=
  ∀ use ∈ uses, ∃ data ∈ sources, use.Within data

/-- **A run that comes to a result**, whatever was used before it. It does
not trap, and uses nothing but its sources. -/
def Yields (sources : List Bytes) (r : Run α) (result : Except AbiError α) : Prop :=
  ∀ uses, Covered sources uses →
    ∃ uses', Covered sources uses' ∧ r.run.run uses = .ok (result, uses')

variable {sources : List Bytes}

theorem yields_pure (a : α) : Yields sources (pure a) (.ok a) :=
  fun uses huses => ⟨uses, huses, rfl⟩

theorem yields_throw (e : AbiError) : Yields sources (throw e : Run α) (.error e) :=
  fun uses huses => ⟨uses, huses, rfl⟩

/-- A sequence goes on with what its first part comes to. -/
theorem Yields.bind {r : Run α} {a : α} {f : α → Run β} {result : Except AbiError β}
    (h : Yields sources r (.ok a)) (hf : Yields sources (f a) result) :
    Yields sources (r >>= f) result := by
  intro uses huses
  obtain ⟨mid, hmid, hrun⟩ := h uses huses
  obtain ⟨uses', huses', hrun'⟩ := hf mid hmid
  refine ⟨uses', huses', ?_⟩
  rw [ExceptT.run_bind, StateT.run_bind, hrun]
  exact hrun'

/-- A refusal is the last that it does. -/
theorem Yields.refused {r : Run α} {e : AbiError} {f : α → Run β}
    (h : Yields sources r (.error e)) : Yields sources (r >>= f) (.error e) := by
  intro uses huses
  obtain ⟨mid, hmid, hrun⟩ := h uses huses
  refine ⟨mid, hmid, ?_⟩
  rw [ExceptT.run_bind, StateT.run_bind, hrun]
  rfl

theorem Yields.map {r : Run α} {result : Except AbiError α} (f : α → β)
    (h : Yields sources r result) : Yields sources (do return f (← r)) (result.map f) := by
  cases result with
  | error e => exact h.refused
  | ok a => exact h.bind (yields_pure (f a))

/-- **A reading that follows a decoding** uses its bytes, and comes to the
result of the decoding. -/
theorem yields_readFrom (reading : Buffer → Reading α) {d : Decoding α} {bs data : Bytes}
    (hbs : bs <:+ data) (hdata : data ∈ sources)
    (h : Follows (Buffer.ofBytes bs) (reading (Buffer.ofBytes bs)) d) :
    Yields sources (readFrom bs reading) (d.result (Buffer.ofBytes bs)) := by
  have hsize : (Budget.ofBuffer (Buffer.ofBytes bs)).remaining = bs.length := Buffer.size_ofBytes bs
  intro uses huses
  obtain ⟨usage, husage, hrun, -⟩ := h (.fresh bs.length) (Budget.ofBuffer (Buffer.ofBytes bs))
    ⟨by simp [Usage.fresh], by simp [Usage.fresh]⟩ hsize.symm
  refine ⟨⟨bs, usage.read, usage.allocated⟩ :: uses, ?_, ?_⟩
  · refine List.forall_mem_cons.mpr ⟨⟨data, hdata, hbs, ?_, ?_⟩, huses⟩
    · intro span hspan
      have hinside := husage.read_inside span hspan
      unfold Span.Inside at hinside
      rwa [Buffer.size_ofBytes] at hinside
    · intro count hcount
      have hle := husage.allocated_le count hcount
      rw [Buffer.size_ofBytes] at hle
      exact Nat.le_trans hle (Nat.div_le_div_right hbs.length_le)
  · have hread : (readFrom bs reading).run.run uses
        = (reading (Buffer.ofBytes bs)).run.run (.fresh bs.length) >>= fun ran =>
          .ok (ran.1, ⟨bs, ran.2.read, ran.2.allocated⟩ :: uses) := rfl
    rw [hread, hrun]
    rfl

theorem yields_decodeValueAt {data : Bytes} (hdata : data.length < maxSize) (s : Schema)
    (offset : Nat) :
    Yields [data] (decodeValueAt data s offset) (Abi.decodeValueAt data s offset) := by
  unfold decodeValueAt Abi.decodeValueAt
  cases hs : s.defect? with
  | some e => exact yields_throw _
  | none =>
    refine yields_readFrom (fun b => readValue b s offset) (List.suffix_refl data)
      List.mem_cons_self ?_
    exact follows_readValue (by rwa [Buffer.size_ofBytes]) hs offset

theorem yields_decode {bs data : Bytes} (hbs : bs <:+ data) (hdata : data ∈ sources)
    (hsize : data.length < maxSize) (schemas : List Schema) :
    Yields sources (decode bs schemas) (Abi.decode bs schemas) := by
  unfold decode Abi.decode
  cases hschemas : Schema.defectIn? schemas with
  | some e => exact yields_throw _
  | none =>
    have hvalid := Schema.defectIn?_eq_none_iff.mp hschemas
    have hb : (Buffer.ofBytes bs).size < maxSize := by
      rw [Buffer.size_ofBytes]
      exact Nat.lt_of_le_of_lt hbs.length_le hsize
    have hread := yields_readFrom (fun b => readMembers b 0 schemas 0) hbs hdata
      (follows_readMembers_of_forall hb
        (fun s hs offset => follows_readValue hb (hvalid s hs) offset) 0 0)
    dsimp only
    generalize (Abi.readMembers (Buffer.ofBytes bs) 0 schemas 0).result (Buffer.ofBytes bs)
      = result at hread ⊢
    cases result with
    | error e => exact hread.refused
    | ok read =>
      refine hread.bind ?_
      dsimp only
      cases checkSchemas read.1 schemas with
      | error e => exact yields_throw e
      | ok _ => exact yields_pure read.1

theorem yields_decodeSingle {bs data : Bytes} (hbs : bs <:+ data) (hdata : data ∈ sources)
    (hsize : data.length < maxSize) (s : Schema) :
    Yields sources (decodeSingle bs s) (Abi.decodeSingle bs s) := by
  have hdecode := yields_decode hbs hdata hsize [s]
  unfold decodeSingle Abi.decodeSingle
  generalize Abi.decode bs [s] = result at hdecode ⊢
  cases result with
  | error e => exact hdecode.refused
  | ok values =>
    refine hdecode.bind ?_
    dsimp only
    cases values.getLast? with
    | some v => exact yields_pure v
    | none => exact yields_throw _

/-- What is looked at of a payload, before anything is decoded, is its
first four bytes; the rest is passed on. -/
theorem follows_behindSelector {payload : Bytes} (hsize : payload.length < maxSize)
    (selector : Selector) :
    Follows (Buffer.ofBytes payload) (behindSelector (Buffer.ofBytes payload) selector)
      (if payload.length < 4 then throw (.outOfBounds 0 4 payload.length)
        else if payload.take 4 = selector.bytes then pure (payload.drop 4)
        else throw (.selectorMismatch selector.bytes (payload.take 4))) := by
  have hb := Buffer.size_ofBytes payload
  have hensure := follows_ensure (b := .ofBytes payload) (by rwa [hb]) 0 4
  unfold Buffer.ensure at hensure
  rw [hb] at hensure
  by_cases hlen : payload.length < 4
  · rw [if_pos hlen]
    rw [if_neg (by omega)] at hensure
    exact hensure.refused
  · rw [if_neg hlen]
    rw [if_pos (by omega)] at hensure
    have hfirst := follows_slice (b := .ofBytes payload) (Nat.zero_le 4) (by omega)
    have hrest := follows_slice (show 4 ≤ (Buffer.ofBytes payload).size by omega) (Nat.le_refl _)
    have htake : (Buffer.ofBytes payload).slice 0 (4 - 0) = payload.take 4 := by
      rw [Buffer.slice_eq]
      rfl
    have hdrop : (Buffer.ofBytes payload).slice 4 ((Buffer.ofBytes payload).size - 4)
        = payload.drop 4 := by
      rw [Buffer.slice_eq, hb, ← List.length_drop]
      exact List.take_length
    rw [htake] at hfirst
    rw [hdrop] at hrest
    refine hensure.silent (hfirst.silent ?_)
    by_cases hselector : payload.take 4 = selector.bytes
    · rw [if_pos hselector, if_pos hselector]
      exact hrest
    · rw [if_neg hselector, if_neg hselector]
      exact hfirst.silent (follows_throw _)

theorem yields_decodeBehind {payload : Bytes} (hsize : payload.length < maxSize)
    (selector : Selector) (schemas : List Schema) :
    Yields [payload] (decodeBehind selector payload schemas)
      (Abi.decodeBehind selector payload schemas) := by
  have hread := yields_readFrom (fun b => behindSelector b selector) (List.suffix_refl payload)
    (List.mem_singleton_self payload) (follows_behindSelector hsize selector)
  unfold decodeBehind Abi.decodeBehind
  by_cases hlen : payload.length < 4
  · rw [if_pos hlen] at hread ⊢
    exact hread.refused
  · rw [if_neg hlen] at hread ⊢
    by_cases hselector : payload.take 4 = selector.bytes
    · rw [if_pos hselector] at hread ⊢
      exact hread.bind
        (yields_decode (List.drop_suffix 4 payload) (List.mem_singleton_self payload) hsize schemas)
    · rw [if_neg hselector] at hread ⊢
      exact hread.refused

/-! ## Logs of events -/

theorem yields_decodeTopic {topic : Word} (htopic : topic.bytes ∈ sources) (s : Schema) :
    Yields sources (decodeTopic s topic) (Event.decodeTopic s topic) := by
  have hsize : topic.bytes.length < maxSize := by
    rw [topic.length_bytes]
    decide
  unfold decodeTopic Event.decodeTopic
  split
  · exact yields_pure _
  · exact yields_decodeSingle (List.suffix_refl _) htopic hsize s

theorem yields_assign {params : List EventParam} {topics : List Word}
    (htopics : ∀ topic ∈ topics, topic.bytes ∈ sources) (values : List Value) :
    Yields sources (assign params topics values) (Event.assign params topics values) := by
  induction params generalizing topics values with
  | nil => exact yields_pure []
  | cons p params ih =>
    unfold assign Event.assign
    by_cases hindexed : p.indexed
    · rw [if_pos hindexed, if_pos hindexed]
      cases topics with
      | nil => exact yields_throw _
      | cons topic topics =>
        obtain ⟨htopic, htopics⟩ := List.forall_mem_cons.mp htopics
        have hvalue := yields_decodeTopic htopic p.param.schema
        dsimp only
        generalize Event.decodeTopic p.param.schema topic = result at hvalue ⊢
        cases result with
        | error e => exact hvalue.refused
        | ok v =>
          have hfront := (ih htopics values).map ((p.param.name, v) :: ·)
          refine hvalue.bind ?_
          dsimp only
          generalize Event.assign params topics values = assigned at hfront ⊢
          cases assigned <;> exact hfront
    · rw [if_neg hindexed, if_neg hindexed]
      cases values with
      | nil => exact yields_throw _
      | cons v values =>
        have hfront := (ih htopics values).map ((p.param.name, v) :: ·)
        dsimp only
        generalize Event.assign params topics values = assigned at hfront ⊢
        cases assigned <;> exact hfront

/-- The topics of the parameters are among those of the log. -/
theorem mem_of_mem_parameterTopics {e : Event} {topics rest : List Word} {topic : Word}
    (h : e.parameterTopics topics = .ok rest) (hmem : topic ∈ rest) : topic ∈ topics := by
  unfold Event.parameterTopics at h
  by_cases hanonymous : e.anonymous
  · rw [if_pos hanonymous] at h
    cases h
    exact hmem
  · rw [if_neg hanonymous] at h
    cases topics with
    | nil => cases h
    | cons first others =>
      dsimp only at h
      split at h
      · cases h
        exact List.mem_cons_of_mem _ hmem
      · cases h

theorem yields_decodeEvent {data : Bytes} (hsize : data.length < maxSize) (e : Event)
    (topics : List Word) :
    Yields (data :: topics.map FixedBytes.bytes) (decodeEvent e topics data)
      (e.decode topics data) := by
  unfold decodeEvent Event.decode
  cases htopics : e.parameterTopics topics with
  | error err => exact yields_throw err
  | ok rest =>
    have hrest (topic : Word) (h : topic ∈ rest) :
        topic.bytes ∈ data :: topics.map FixedBytes.bytes :=
      List.mem_cons_of_mem _ (List.mem_map_of_mem (mem_of_mem_parameterTopics htopics h))
    have hdecode := yields_decode (List.suffix_refl data)
      (List.mem_cons_self (l := topics.map FixedBytes.bytes)) hsize e.dataSchemas
    dsimp only
    generalize Abi.decode data e.dataSchemas = result at hdecode ⊢
    cases result with
    | error err => exact hdecode.refused
    | ok values => exact hdecode.bind (yields_assign hrest values)

/-- **Decoding never traps**, whatever the bytes, the schemas and the
offset are. Written with operations that can, each way to decode comes to
the result it has with the plain operations. Only bytes that are there are
looked at – those of the data, and for the indexed parameters of an event
those of its topics – and lists of items are only set up for as many as
have a word each. -/
theorem decoding_never_traps {data : Bytes} (hdata : data.length < 2 ^ 63) :
    (∀ schemas, Yields [data] (decode data schemas) (Abi.decode data schemas))
      ∧ (∀ s, Yields [data] (decodeSingle data s) (Abi.decodeSingle data s))
      ∧ (∀ s offset, Yields [data] (decodeValueAt data s offset) (Abi.decodeValueAt data s offset))
      ∧ (∀ f, Yields [data] (decodeCall f data) (f.decodeCall data))
      ∧ (∀ e, Yields [data] (decodeRevert e data) (e.decodeRevert data))
      ∧ ∀ e topics, Yields (data :: topics.map FixedBytes.bytes) (decodeEvent e topics data)
          (e.decode topics data) := by
  have hsize : data.length < maxSize := Nat.lt_trans hdata (by decide)
  have hsuffix := List.suffix_refl data
  have hmem := List.mem_singleton_self data
  refine ⟨?decode, ?single, ?valueAt, ?call, ?revert, ?event⟩
  case decode => exact yields_decode hsuffix hmem hsize
  case single => exact yields_decodeSingle hsuffix hmem hsize
  case valueAt => exact yields_decodeValueAt hsize
  case call => exact fun f => yields_decodeBehind hsize f.selector f.inputSchemas
  case revert => exact fun e => yields_decodeBehind hsize e.selector e.inputSchemas
  case event => exact yields_decodeEvent hsize

/-- An array of as many numbers as a size can count, and one number for
all of them. -/
def hugeCount : Bytes :=
  (Word.ofNat 32).bytes ++ (Word.ofNat maxSize).bytes ++ (Word.ofNat 7).bytes

/-- The number of items exceeds every size with the bytes of an item, and
the last of all offsets with those of a word. -/
theorem decoding_never_traps_hugeCount :
    hugeCount.length < 2 ^ 63
      ∧ Yields [hugeCount] (decode hugeCount [.array (.uint 256)])
          (.error (.outOfBounds 64 maxSize 96))
      ∧ Yields [hugeCount] (decodeValueAt hugeCount (.uint 256) maxSize)
          (.error (.outOfBounds maxSize 32 96)) := by
  have hsize : hugeCount.length < 2 ^ 63 := by decide
  have hdecode : Abi.decode hugeCount [.array (.uint 256)]
      = .error (.outOfBounds 64 maxSize 96) := by decide +kernel
  have hvalueAt : Abi.decodeValueAt hugeCount (.uint 256) maxSize
      = .error (.outOfBounds maxSize 32 96) := by decide +kernel
  obtain ⟨hyields, -, hyieldsAt, -⟩ := decoding_never_traps hsize
  refine ⟨hsize, ?_, ?_⟩
  · rw [← hdecode]
    exact hyields _
  · rw [← hvalueAt]
    exact hyieldsAt _ _

/-- What is on record of an array with one item: its offset, its length
and the item, and the list that was set up. -/
example :
    ((decode ((Word.ofNat 32).bytes ++ (Word.ofNat 1).bytes ++ (Word.ofNat 7).bytes)
        [.array (.uint 256)]).run.run []).toOption.map
      (fun ran => ran.2.map fun use => (use.read.map Span.offset, use.allocated))
      = some [([64, 32, 0], [1])] := by
  decide +kernel

end EthCall.Abi.Trapping
