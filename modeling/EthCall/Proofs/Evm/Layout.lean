import EthCall.Evm.Assembler
import EthCall.Proofs.Evm.InstructionStart

/-!
# The layout of assembled code

Directives emit bytes one after the other, and references are filled in
when all bytes are there. Neither may move an instruction. Bytes that fall
into whole instructions (`Whole`) do so behind others that do
(`InstructionStart.behind`), so each directive starts where an instruction
starts. And the bytes that are filled in are pushed ones, which are passed
over wherever instructions are looked for; it does not matter whether they
look like a mark, or like a push (`InstructionStart.of_agrees`).

`Assembly.Aligned` is what holds of the code under construction after any
number of directives, and `Assembly.Resolved` is what filling in does to
it.
-/

namespace EthCall.Evm

/-! ## Whole instructions -/

/-- **Bytes that fall into whole instructions**: the last of them ends
where the bytes end. -/
def Whole (bs : Bytes) : Prop := InstructionStart bs bs.length

/-- Whether they do is told by the scan. -/
theorem whole_iff {bs : Bytes} : Whole bs ↔ (scanned bs bs.length).skip = 0 :=
  (skip_scanned_eq_zero_iff (Nat.le_refl _)).symm

/-- Bytes behind others do not move the instructions of those. -/
theorem InstructionStart.append {xs : Bytes} {p : Nat} (h : InstructionStart xs p) (ys : Bytes) :
    InstructionStart (xs ++ ys) p := by
  induction h with
  | first => exact .first
  | next _ hbyte ih =>
    have hlt := (List.getElem?_eq_some_iff.mp hbyte).1
    exact .next ih ((List.getElem?_append_left hlt).trans hbyte)

/-- Neither do they add any in front of themselves. -/
theorem InstructionStart.of_append {xs ys : Bytes} {p : Nat} (h : InstructionStart (xs ++ ys) p)
    (hp : p ≤ xs.length) : InstructionStart xs p := by
  induction h with
  | first => exact .first
  | @next q byte _ hbyte ih =>
    have hlt : q < xs.length := by omega
    exact .next (ih (Nat.le_of_lt hlt)) ((List.getElem?_append_left hlt).symm.trans hbyte)

/-- **Behind whole instructions others start where they start alone.** -/
theorem InstructionStart.behind {xs ys : Bytes} {p : Nat} (hxs : Whole xs)
    (h : InstructionStart ys p) : InstructionStart (xs ++ ys) (xs.length + p) := by
  induction h with
  | first => exact InstructionStart.append hxs ys
  | @next p byte _ hbyte ih =>
    have hbyte' : (xs ++ ys)[xs.length + p]? = some byte := by
      rw [List.getElem?_append_right (Nat.le_add_right _ _), Nat.add_sub_cancel_left, hbyte]
    rw [← Nat.add_assoc, ← Nat.add_assoc]
    exact .next ih hbyte'

theorem whole_nil : Whole [] := .first

/-- Whole instructions behind whole instructions. -/
theorem Whole.append {xs ys : Bytes} (hxs : Whole xs) (hys : Whole ys) : Whole (xs ++ ys) := by
  unfold Whole
  rw [List.length_append]
  exact .behind hxs hys

/-- An instruction with the bytes it pushes. -/
theorem whole_cons {byte : UInt8} {bs : Bytes} (h : bs.length = pushSize byte) :
    Whole (byte :: bs) := by
  have hnext : InstructionStart (byte :: bs) (0 + 1 + pushSize byte) := .next .first rfl
  rw [← h, Nat.zero_add, Nat.add_comm] at hnext
  exact hnext

/-- The byte of a push says how many bytes it pushes. -/
theorem pushSize_ofNat {n : Nat} (hpos : 0 < n) (hle : n ≤ 32) :
    pushSize (UInt8.ofNat (0x5f + n)) = n := by
  have hbyte : (UInt8.ofNat (0x5f + n)).toNat = 0x5f + n :=
    UInt8.toNat_ofNat_of_lt' (by show 0x5f + n < 256; omega)
  rw [pushSize, hbyte, if_pos ⟨by omega, by omega⟩]
  omega

variable {code : Bytes}

/-- **Bytes among those that are pushed may be exchanged** without moving an
instruction. -/
theorem InstructionStart.of_agrees {code' : Bytes} {p : Nat} (h : InstructionStart code p)
    (hagrees : ∀ q, InstructionStart code q → code'[q]? = code[q]?) :
    InstructionStart code' p := by
  induction h with
  | first => exact .first
  | next hq hbyte ih => exact .next ih ((hagrees _ hq).trans hbyte)

/-! ## Code under construction -/

/-- A directive that emits whole instructions. The bytes given have to be
such, and one that is given alone may not push any. -/
def Directive.Aligned : Directive → Prop
  | .op byte => pushSize byte = 0
  | .ops bs => Whole bs
  | .raw bs => Whole bs
  | _ => True

/-- A push of two bytes, the first of which is at `place`. -/
def PushesAt (bs : Bytes) (place : Nat) : Prop :=
  ∃ p, place = p + 1 ∧ InstructionStart bs p ∧ bs[p]? = some 0x61 ∧ place + 2 ≤ bs.length

theorem PushesAt.append {bs : Bytes} {place : Nat} (h : PushesAt bs place) (ys : Bytes) :
    PushesAt (bs ++ ys) place := by
  obtain ⟨p, rfl, hp, hbyte, hlen⟩ := h
  refine ⟨p, rfl, hp.append ys, ?_, ?_⟩
  · rw [List.getElem?_append_left (by omega), hbyte]
  · rw [List.length_append]
    omega

/-- No instruction starts at the bytes that such a push pushes. -/
theorem PushesAt.ne {bs : Bytes} {place q : Nat} (h : PushesAt bs place)
    (hq : InstructionStart bs q) : q ≠ place ∧ q ≠ place + 1 := by
  obtain ⟨p, rfl, hp, hbyte, hlen⟩ := h
  have htwo : pushSize 0x61 = 2 := rfl
  refine ⟨?_, ?_⟩
  · rintro rfl
    exact hp.not_pushed (j := 0) hbyte (by omega) (by omega) hq
  · rintro rfl
    exact hp.not_pushed (j := 1) hbyte (by omega) (by omega) hq

/-- An instruction that marks its place. -/
def MarksAt (bs : Bytes) (place : Nat) : Prop :=
  InstructionStart bs place ∧ bs[place]? = some jumpDestByte

theorem MarksAt.append {bs : Bytes} {place : Nat} (h : MarksAt bs place) (ys : Bytes) :
    MarksAt (bs ++ ys) place :=
  ⟨h.1.append ys,
    (List.getElem?_append_left (List.getElem?_eq_some_iff.mp h.2).1).trans h.2⟩

namespace Assembly

/-- **Code under construction that falls into whole instructions.** -/
structure Aligned (a : Assembly) : Prop where
  /-- The next byte starts an instruction. -/
  whole : Whole a.code.toList
  /-- What is to be filled in is pushed. -/
  pushes : ∀ r ∈ a.references.toList, PushesAt a.code.toList r.1
  /-- No byte is to be filled in twice. -/
  apart : a.references.toList.Pairwise fun r r' => r.1 + 2 ≤ r'.1
  /-- Each label marks its place. -/
  marks : ∀ l ∈ a.labels, MarksAt a.code.toList l.2

theorem aligned_empty : Aligned .empty where
  whole := whole_nil
  pushes _ h := absurd h List.not_mem_nil
  apart := .nil
  marks _ h := absurd h List.not_mem_nil

variable {a : Assembly}

theorem toList_emit (a : Assembly) (bs : Bytes) :
    (a.emit bs).code.toList = a.code.toList ++ bs :=
  Array.toList_appendList

theorem toList_pushLabel (a : Assembly) (label : String) :
    (a.pushLabel label).code.toList = a.code.toList ++ [0x61, 0, 0] :=
  Array.toList_appendList

theorem references_pushLabel (a : Assembly) (label : String) :
    (a.pushLabel label).references.toList
      = a.references.toList ++ [(a.code.toList.length + 1, label)] :=
  Array.toList_push

/-- Emitting whole instructions. -/
theorem Aligned.emit (h : a.Aligned) {bs : Bytes} (hbs : Whole bs) : (a.emit bs).Aligned := by
  refine ⟨?_, ?_, h.apart, ?_⟩
  · rw [toList_emit]
    exact h.whole.append hbs
  · rw [toList_emit]
    exact fun r hr => (h.pushes r hr).append bs
  · rw [toList_emit]
    exact fun l hl => (h.marks l hl).append bs

/-- What is wrong is remembered and changes nothing else. -/
theorem Aligned.fail (h : a.Aligned) (e : AssemblerError) : (a.fail e).Aligned :=
  ⟨h.whole, h.pushes, h.apart, h.marks⟩

/-- A reference behind the code so far. -/
theorem Aligned.pushLabel (h : a.Aligned) (label : String) : (a.pushLabel label).Aligned := by
  have hpush : Whole [0x61, 0, 0] := whole_cons rfl
  refine ⟨?_, ?_, ?_, ?_⟩
  · rw [toList_pushLabel]
    exact h.whole.append hpush
  · rw [toList_pushLabel, references_pushLabel]
    intro r hr
    rcases List.mem_append.mp hr with hr | hr
    · exact (h.pushes r hr).append _
    · obtain rfl := List.mem_singleton.mp hr
      refine ⟨a.code.toList.length, rfl, InstructionStart.append h.whole _, ?_, ?_⟩
      · rw [List.getElem?_append_right (Nat.le_refl _), Nat.sub_self]
        rfl
      · rw [List.length_append]
        exact Nat.le_refl _
  · rw [references_pushLabel]
    refine List.pairwise_append.mpr ⟨h.apart, List.pairwise_singleton _ _, ?_⟩
    intro r hr r' hr'
    obtain rfl := List.mem_singleton.mp hr'
    obtain ⟨p, hp, -, -, hlen⟩ := h.pushes r hr
    show r.1 + 2 ≤ a.code.toList.length + 1
    omega
  · rw [toList_pushLabel]
    exact fun l hl => (h.marks l hl).append _

/-- A label behind the code so far. -/
theorem Aligned.mark (h : a.Aligned) (label : String) : (a.mark label).Aligned := by
  unfold Assembly.mark
  split
  case h_1 => exact h.fail _
  case h_2 =>
    have hemit : (a.emit [jumpDestByte]).Aligned := h.emit (whole_cons rfl)
    refine ⟨hemit.whole, hemit.pushes, hemit.apart, List.forall_mem_cons.mpr ⟨?_, hemit.marks⟩⟩
    refine ⟨?_, ?_⟩
    · show InstructionStart (a.emit [jumpDestByte]).code.toList a.code.toList.length
      rw [toList_emit]
      exact InstructionStart.append h.whole _
    · show (a.emit [jumpDestByte]).code.toList[a.code.toList.length]? = some jumpDestByte
      rw [toList_emit, List.getElem?_append_right (Nat.le_refl _), Nat.sub_self]
      rfl

/-- A push of bytes, if there is one. -/
theorem Aligned.pushBytes (h : a.Aligned) (bs : Bytes) : (a.pushBytes bs).Aligned := by
  unfold Assembly.pushBytes
  split
  case isTrue => exact h.fail _
  case isFalse hsize =>
    obtain ⟨hne, hle⟩ := not_or.mp hsize
    have hpos := List.length_pos_iff.mpr hne
    exact h.emit (whole_cons (pushSize_ofNat hpos (Nat.le_of_not_lt hle)).symm)

/-- **Every directive keeps whole instructions whole.** -/
theorem Aligned.follow (h : a.Aligned) {d : Directive} (hd : d.Aligned) :
    (a.follow d).Aligned := by
  cases d with
  | op byte => exact h.emit (whole_cons hd.symm)
  | ops bs | raw bs => exact h.emit hd
  | pushBytes bs => exact h.pushBytes bs
  | pushWord w =>
    show (a.pushWord w).Aligned
    unfold Assembly.pushWord
    split
    · exact h.emit (whole_cons rfl)
    · exact h.pushBytes _
  | pushLabel label => exact h.pushLabel label
  | label label => exact h.mark label
  | jump label => exact (h.pushLabel label).emit (whole_cons rfl)
  | jumpIf label => exact (h.pushLabel label).emit (whole_cons rfl)

/-- So do all of them. -/
theorem aligned_foldl {ds : List Directive} (hds : ∀ d ∈ ds, d.Aligned) (h : a.Aligned) :
    (ds.foldl Assembly.follow a).Aligned := by
  induction ds generalizing a with
  | nil => exact h
  | cons d ds ih =>
    obtain ⟨hd, hds⟩ := List.forall_mem_cons.mp hds
    exact ih hds (h.follow hd)

/-! ## What is emitted stays -/

/-- **More was emitted and referred to**, and nothing taken back. -/
structure Extends (a b : Assembly) : Prop where
  /-- The code is longer. -/
  code_kept : a.code.toList <+: b.code.toList
  /-- There are more references. -/
  references_kept : a.references.toList <+: b.references.toList

theorem Extends.refl (a : Assembly) : a.Extends a := ⟨List.prefix_refl _, List.prefix_refl _⟩

theorem Extends.trans {a b c : Assembly} (h : a.Extends b) (h' : b.Extends c) : a.Extends c :=
  ⟨h.code_kept.trans h'.code_kept, h.references_kept.trans h'.references_kept⟩

theorem extends_emit (a : Assembly) (bs : Bytes) : a.Extends (a.emit bs) :=
  ⟨⟨bs, (toList_emit a bs).symm⟩, List.prefix_refl _⟩

theorem extends_fail (a : Assembly) (e : AssemblerError) : a.Extends (a.fail e) :=
  ⟨List.prefix_refl _, List.prefix_refl _⟩

theorem extends_pushBytes (a : Assembly) (bs : Bytes) : a.Extends (a.pushBytes bs) := by
  unfold Assembly.pushBytes
  split
  · exact extends_fail a _
  · exact extends_emit a _

theorem extends_pushLabel (a : Assembly) (label : String) : a.Extends (a.pushLabel label) :=
  ⟨⟨_, (toList_pushLabel a label).symm⟩, ⟨_, (references_pushLabel a label).symm⟩⟩

/-- No directive takes anything back. -/
theorem extends_follow (a : Assembly) (d : Directive) : a.Extends (a.follow d) := by
  cases d with
  | op | ops | raw => exact extends_emit a _
  | pushBytes bs => exact extends_pushBytes a bs
  | pushWord w =>
    show a.Extends (a.pushWord w)
    unfold Assembly.pushWord
    split
    · exact extends_emit a _
    · exact extends_pushBytes a _
  | pushLabel label => exact extends_pushLabel a label
  | label label =>
    show a.Extends (a.mark label)
    unfold Assembly.mark
    split
    · exact extends_fail a _
    · exact ⟨(extends_emit a [jumpDestByte]).code_kept, List.prefix_refl _⟩
  | jump label | jumpIf label => exact (extends_pushLabel a label).trans (extends_emit _ _)

theorem extends_foldl (ds : List Directive) (a : Assembly) :
    a.Extends (ds.foldl Assembly.follow a) := by
  induction ds generalizing a with
  | nil => exact .refl a
  | cons d ds ih => exact (extends_follow a d).trans (ih _)

/-! ## Filling in -/

/-- **What filling in does to code**: it fills in the references, and
nothing else. -/
structure Resolved (labels : List (String × Nat)) (references : List (Nat × String))
    (code code' : Array UInt8) : Prop where
  /-- There are as many bytes as before. -/
  size_eq : code'.size = code.size
  /-- Other bytes are what they were. -/
  unchanged : ∀ i, (∀ r ∈ references, i ≠ r.1 ∧ i ≠ r.1 + 1) → code'[i]? = code[i]?
  /-- A reference is replaced by the place of its label, which two bytes can
  hold. -/
  filled : ∀ r ∈ references, ∃ place, labels.lookup r.2 = some place ∧ place ≤ 0xffff
    ∧ code'[r.1]? = some (UInt8.ofNat (place / 256))
    ∧ code'[r.1 + 1]? = some (UInt8.ofNat place)

/-- The two bytes of one reference. -/
theorem resolved_singleton {labels : List (String × Nat)} {code code' : Array UInt8}
    {r : Nat × String} (hroom : r.1 + 2 ≤ code.size) (h : resolve labels code r = .ok code') :
    Resolved labels [r] code code' := by
  unfold resolve at h
  split at h
  case h_1 => cases h
  case h_2 place hplace =>
    split at h
    case isFalse => cases h
    case isTrue hle =>
      cases h
      refine ⟨by simp, ?_, ?_⟩
      · intro i hi
        obtain ⟨hfirst, hsecond⟩ := hi r (List.mem_singleton_self r)
        rw [Array.getElem?_setIfInBounds_ne (Ne.symm hsecond),
          Array.getElem?_setIfInBounds_ne (Ne.symm hfirst)]
      · intro r' hr'
        obtain rfl := List.mem_singleton.mp hr'
        refine ⟨place, hplace, hle, ?_, ?_⟩
        · rw [Array.getElem?_setIfInBounds_ne (Nat.succ_ne_self _),
            Array.getElem?_setIfInBounds_self_of_lt (by omega)]
        · exact Array.getElem?_setIfInBounds_self_of_lt
            (by rw [Array.size_setIfInBounds]; omega)

/-- **Filling in all references**, no byte of which is another one's. -/
theorem resolved_of_foldlM {labels : List (String × Nat)} {references : List (Nat × String)}
    {code code' : Array UInt8} (hapart : references.Pairwise fun r r' => r.1 + 2 ≤ r'.1)
    (hroom : ∀ r ∈ references, r.1 + 2 ≤ code.size)
    (h : references.foldlM (resolve labels) code = .ok code') :
    Resolved labels references code code' := by
  induction references generalizing code with
  | nil =>
    cases h
    exact ⟨rfl, fun _ _ => rfl, fun _ hr => absurd hr List.not_mem_nil⟩
  | cons r references ih =>
    obtain ⟨hbefore, hapart⟩ := List.pairwise_cons.mp hapart
    obtain ⟨hr, hroom⟩ := List.forall_mem_cons.mp hroom
    rw [List.foldlM_cons] at h
    cases hfirst : resolve labels code r with
    | error e =>
      rw [hfirst] at h
      cases h
    | ok mid =>
      rw [hfirst] at h
      have hone := resolved_singleton hr hfirst
      have hrest := ih hapart (hone.size_eq ▸ hroom) h
      refine ⟨hrest.size_eq.trans hone.size_eq, ?_, List.forall_mem_cons.mpr ⟨?_, hrest.filled⟩⟩
      · intro i hi
        obtain ⟨hir, hi⟩ := List.forall_mem_cons.mp hi
        rw [hrest.unchanged i hi]
        exact hone.unchanged i (List.forall_mem_singleton.mpr hir)
      · -- the bytes of `r` are not touched again, as all others come behind
        obtain ⟨place, hplace, hle, hhigh, hlow⟩ := hone.filled r (List.mem_singleton_self r)
        refine ⟨place, hplace, hle, ?_, ?_⟩
        · rw [hrest.unchanged r.1 fun r' hr' => ⟨by have := hbefore r' hr'; omega,
            by have := hbefore r' hr'; omega⟩]
          exact hhigh
        · rw [hrest.unchanged (r.1 + 1) fun r' hr' => ⟨by have := hbefore r' hr'; omega,
            by have := hbefore r' hr'; omega⟩]
          exact hlow

/-- **Code that is built** has nothing wrong with it and has its references
filled in. -/
theorem resolved_of_build {a : Assembly} (ha : a.Aligned) {code : Bytes}
    (h : a.build = .ok code) :
    a.error? = none ∧ Resolved a.labels a.references.toList a.code code.toArray := by
  unfold build at h
  split at h
  case h_1 => cases h
  case h_2 herror =>
    split at h
    case h_1 => cases h
    case h_2 code' hcode' =>
      cases h
      refine ⟨herror, resolved_of_foldlM ha.apart (fun r hr => ?_) hcode'⟩
      obtain ⟨p, -, -, -, hlen⟩ := ha.pushes r hr
      rwa [Array.length_toList] at hlen

/-- **Filling in moves no instruction**, and no instruction's own byte is
filled in. -/
theorem Resolved.agrees {a : Assembly} (ha : a.Aligned) {code : Bytes}
    (h : Resolved a.labels a.references.toList a.code code.toArray) {p : Nat}
    (hp : InstructionStart a.code.toList p) :
    InstructionStart code p ∧ code[p]? = a.code.toList[p]? := by
  have hagrees (q : Nat) (hq : InstructionStart a.code.toList q) :
      code[q]? = a.code.toList[q]? := by
    rw [← List.getElem?_toArray, h.unchanged q fun r hr => (ha.pushes r hr).ne hq,
      Array.getElem?_toList]
  exact ⟨hp.of_agrees hagrees, hagrees p hp⟩

end Assembly

end EthCall.Evm
