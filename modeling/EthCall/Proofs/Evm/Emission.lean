import EthCall.Proofs.Bytes
import EthCall.Proofs.Evm.Labels

/-!
# What directives emit

A directive emits the same number of bytes wherever it stands, and only a
reference depends on anything else: it pushes the place of its label. So
once it is known where the labels are, each directive can be spelled out
on its own (`Directive.spelled`), and the code is what they spell, one
behind the other. While code is under construction the places are not
known, and it is spelled with all of them at zero (`Assembly.Follows`).

A directive that is wrong emits nothing, and two kinds of directives can
be: a push of too many bytes or of none, and a label that stands already
(`Directive.defect?`). It is remembered, and nothing else comes of it
(`Assembly.follow_of_defect?`).
-/

namespace EthCall.Evm

/-! ## Directives spelled out -/

/-- **A push of bytes**, as an instruction. -/
def pushOf (bs : Bytes) : Bytes := UInt8.ofNat (0x5f + bs.length) :: bs

@[simp] theorem length_pushOf (bs : Bytes) : (pushOf bs).length = bs.length + 1 := rfl

/-- The push of a place. -/
theorem pushOf_place (q : Nat) :
    pushOf (Bytes.ofNat 2 q) = [0x61, UInt8.ofNat (q / 256), UInt8.ofNat q] := by
  rw [pushOf, Bytes.length_ofNat]
  rfl

namespace Directive

/-- **The bytes of a directive**, where it is known where labels stand. A
reference pushes the place in two bytes. -/
def spelled (place : String → Nat) : Directive → Bytes
  | .op byte => [byte]
  | .ops bs => bs
  | .raw bs => bs
  | .pushBytes bs => pushOf bs
  | .pushWord w => pushOf (Bytes.dropLeadingZeros w.bytes)
  | .pushLabel l => pushOf (Bytes.ofNat 2 (place l))
  | .label _ => [jumpDestByte]
  | .jump l => pushOf (Bytes.ofNat 2 (place l)) ++ [0x56]
  | .jumpIf l => pushOf (Bytes.ofNat 2 (place l)) ++ [0x57]

/-- The label a directive refers to. -/
def reference? : Directive → Option String
  | .pushLabel l => some l
  | .jump l => some l
  | .jumpIf l => some l
  | _ => none

/-- The label that a directive puts up. -/
def label? : Directive → Option String
  | .label l => some l
  | _ => none

/-- **What is wrong with a directive** behind others. -/
def defect? (before : List Directive) : Directive → Option AssemblerError
  | .pushBytes bs =>
    if bs.length = 0 ∨ 32 < bs.length then some (.invalidPushSize bs.length) else none
  | .label l => if .label l ∈ before then some (.duplicateLabel l) else none
  | _ => none

theorem defect?_eq_none_iff {before : List Directive} {d : Directive} :
    d.defect? before = none ↔ (∀ bs, d = pushBytes bs → 1 ≤ bs.length ∧ bs.length ≤ 32)
      ∧ ∀ l, d = label l → label l ∉ before := by
  cases d with
  | pushBytes bs =>
    simp only [defect?, ite_eq_right_iff, reduceCtorEq, imp_false, pushBytes.injEq, forall_eq',
      false_implies, implies_true, and_true]
    omega
  | label l => simp [defect?]
  | _ => simp [defect?]

theorem defect?_pushBytes_eq_some_iff {before : List Directive} {bs : Bytes}
    {e : AssemblerError} : (pushBytes bs).defect? before = some e
      ↔ (bs.length = 0 ∨ 32 < bs.length) ∧ .invalidPushSize bs.length = e := by
  rw [defect?, Option.ite_none_right_eq_some, Option.some.injEq]

theorem defect?_label_eq_some_iff {before : List Directive} {l : String} {e : AssemblerError} :
    (label l).defect? before = some e ↔ label l ∈ before ∧ .duplicateLabel l = e := by
  rw [defect?, Option.ite_none_right_eq_some, Option.some.injEq]

/-- A reference is a push of the place, with a jump behind it or nothing. -/
theorem exists_spelled_of_reference? {d : Directive} {label : String}
    (h : d.reference? = some label) :
    ∃ behind, ∀ place, d.spelled place = pushOf (Bytes.ofNat 2 (place label)) ++ behind := by
  cases d with
  | pushLabel => cases h; exact ⟨[], fun _ => (List.append_nil _).symm⟩
  | jump => cases h; exact ⟨[0x56], fun _ => rfl⟩
  | jumpIf => cases h; exact ⟨[0x57], fun _ => rfl⟩
  | _ => cases h

/-- Any other directive is spelled the same wherever labels stand. -/
theorem spelled_of_reference?_eq_none {d : Directive} (h : d.reference? = none)
    (place place' : String → Nat) : d.spelled place = d.spelled place' := by
  cases d with
  | pushLabel | jump | jumpIf => cases h
  | _ => rfl

/-- **A directive has the same size wherever labels stand.** -/
theorem length_spelled (d : Directive) (place place' : String → Nat) :
    (d.spelled place).length = (d.spelled place').length := by
  cases h : d.reference? with
  | none => rw [spelled_of_reference?_eq_none h place place']
  | some label =>
    obtain ⟨behind, hspelled⟩ := exists_spelled_of_reference? h
    rw [hspelled, hspelled, List.length_append, List.length_append, length_pushOf, length_pushOf,
      Bytes.length_ofNat, Bytes.length_ofNat]

/-- So do any number of them. -/
theorem length_flatMap_spelled (ds : List Directive) (place place' : String → Nat) :
    (ds.flatMap (spelled place)).length = (ds.flatMap (spelled place')).length := by
  induction ds with
  | nil => rfl
  | cons d ds ih =>
    rw [List.flatMap_cons, List.flatMap_cons, List.length_append, List.length_append, ih,
      d.length_spelled place place']

/-- **The references of directives** of which the first emits its bytes from
`start` on: the places that they are filled in at, and their labels. -/
def references : (start : Nat) → List Directive → List (Nat × String)
  | _, [] => []
  | start, d :: ds =>
    (d.reference?.map fun label => (start + 1, label)).toList
      ++ references (start + (d.spelled fun _ => 0).length) ds

/-- Those of further directives come behind. -/
theorem references_append (start : Nat) (ds ds' : List Directive) :
    references start (ds ++ ds') = references start ds
      ++ references (start + (ds.flatMap (spelled fun _ => 0)).length) ds' := by
  induction ds generalizing start with
  | nil => rfl
  | cons d ds ih =>
    rw [List.cons_append, references, references, ih, List.append_assoc, List.flatMap_cons,
      List.length_append, Nat.add_assoc]

end Directive

/-! ## Following a directive -/

/-- Without its leading zeros a word is no longer. -/
theorem length_dropLeadingZeros_le (w : Word) :
    (Bytes.dropLeadingZeros w.bytes).length ≤ 32 := by
  have hle := Bytes.length_dropLeadingZeros_le w.bytes
  rwa [w.length_bytes] at hle

namespace Assembly

variable {a : Assembly} {before : List Directive} {d : Directive}

theorem pushBytes_of_length {bs : Bytes} (h : 1 ≤ bs.length ∧ bs.length ≤ 32) :
    a.pushBytes bs = a.emit (pushOf bs) := by
  refine if_neg (not_or.mpr ⟨?_, Nat.not_lt.mpr h.2⟩)
  exact List.length_pos_iff.mp h.1

/-- A word is pushed without its leading zeros, and zero as no bytes. -/
theorem pushWord_eq (a : Assembly) (w : Word) :
    a.pushWord w = a.emit (pushOf (Bytes.dropLeadingZeros w.bytes)) := by
  have hlen := length_dropLeadingZeros_le w
  unfold pushWord
  split
  case h_1 hzero =>
    rw [hzero]
    rfl
  case h_2 b rest hbytes =>
    rw [hbytes] at hlen ⊢
    exact pushBytes_of_length ⟨Nat.le_add_left 1 _, hlen⟩

/-- **A directive that is wrong is remembered and does nothing else**, as
long as the labels entered are those that stand in front of it. -/
theorem follow_of_defect? (hlabels : ∀ label, a.labels.lookup label = none ↔ .label label ∉ before)
    {e : AssemblerError} (h : d.defect? before = some e) : a.follow d = a.fail e := by
  cases d with
  | pushBytes bs =>
    obtain ⟨hsize, rfl⟩ := Directive.defect?_pushBytes_eq_some_iff.mp h
    exact if_pos (hsize.imp_left List.length_eq_zero_iff.mp)
  | label label =>
    obtain ⟨hmem, rfl⟩ := Directive.defect?_label_eq_some_iff.mp h
    have hsome : a.labels.lookup label ≠ none := mt (hlabels label).mp (not_not.mpr hmem)
    obtain ⟨place, hplace⟩ := Option.ne_none_iff_exists'.mp hsome
    show a.mark label = _
    rw [mark, hplace]
  | _ => cases h

/-- **What any other directive does**: it emits its bytes, with places still
at zero, and is entered among the references if it is one. -/
structure Follows (a b : Assembly) (d : Directive) : Prop where
  /-- The bytes come behind those that are there. -/
  code_eq : b.code.toList = a.code.toList ++ d.spelled fun _ => 0
  /-- So does the reference. -/
  references_eq : b.references.toList = a.references.toList
    ++ (d.reference?.map fun label => (a.code.toList.length + 1, label)).toList
  /-- There is nothing new that is wrong. -/
  error?_eq : b.error? = a.error?

/-- Emitting bytes is no more than that. -/
theorem follows_emit (a : Assembly) (hreference : d.reference? = none) {bs : Bytes}
    (hspelled : d.spelled (fun _ => 0) = bs) : Follows a (a.emit bs) d where
  code_eq := by rw [toList_emit, hspelled]
  references_eq := by
    rw [hreference]
    exact (List.append_nil _).symm
  error?_eq := rfl

theorem follows_of_defect?_eq_none
    (hlabels : ∀ label, a.labels.lookup label = none ↔ .label label ∉ before)
    (h : d.defect? before = none) : Follows a (a.follow d) d := by
  cases d with
  | op | ops | raw => exact follows_emit a rfl rfl
  | pushBytes bs =>
    rw [follow, pushBytes_of_length ((Directive.defect?_eq_none_iff.mp h).1 bs rfl)]
    exact follows_emit a rfl rfl
  | pushWord w =>
    rw [follow, pushWord_eq]
    exact follows_emit a rfl rfl
  | label label =>
    have hlookup := (hlabels label).mpr ((Directive.defect?_eq_none_iff.mp h).2 label rfl)
    have hmark : a.follow (.label label)
        = { a with labels := (label, a.offset) :: a.labels }.emit [jumpDestByte] := by
      show a.mark label = _
      rw [mark, hlookup]
    rw [hmark]
    exact ⟨toList_emit _ _, (List.append_nil _).symm, rfl⟩
  | pushLabel label =>
    refine ⟨?_, references_pushLabel a label, rfl⟩
    rw [follow, toList_pushLabel, Directive.spelled, pushOf_place]
    rfl
  | jump label | jumpIf label =>
    refine ⟨?_, references_pushLabel a label, rfl⟩
    rw [follow, toList_emit, toList_pushLabel, List.append_assoc, Directive.spelled, pushOf_place]
    rfl

end Assembly

end EthCall.Evm
