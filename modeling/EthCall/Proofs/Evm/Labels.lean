import EthCall.Proofs.Evm.Jump
import EthCall.Proofs.Evm.Layout
import Mathlib.Data.List.Induction

/-!
# Labels

A label is a name for a place in code that is still being assembled, and a
jump to it is a push of that place in front of a jump. Whoever writes
directives relies on the execution to take it the same way: to find an
instruction at each directive, a mark at each label, and to go on at the
label when it comes to the jump. It does (`assemble_reaches_labels`), for
whatever is pushed, emitted or referred to in between.

The assembler keeps places by counting bytes, and the execution finds
instructions by reading them, so what ties the two is that the bytes fall
into whole instructions (`EthCall.Proofs.Evm.Layout`). Bytes that a
directive is given have to do so.
-/

namespace EthCall.Evm

/-! ## Places -/

namespace Directive

/-- **Where the `i`-th directive emits its first byte.** -/
def place (ds : List Directive) (i : Nat) : Nat :=
  ((ds.take i).foldl Assembly.follow .empty).offset

/-- Behind all bytes that the directives before it emit. -/
theorem place_eq_length (ds : List Directive) (i : Nat) :
    place ds i = ((ds.take i).foldl Assembly.follow .empty).code.toList.length := rfl

/-- **A label stands at a place.** -/
def LabelAt (ds : List Directive) (label : String) (q : Nat) : Prop :=
  ∃ i, ds[i]? = some (.label label) ∧ place ds i = q

/-- A directive behind others changes nothing of what they put where. -/
theorem labelAt_concat {ds : List Directive} {d : Directive} {label : String} {q : Nat} :
    LabelAt (ds ++ [d]) label q
      ↔ LabelAt ds label q
        ∨ d = .label label ∧ (ds.foldl Assembly.follow .empty).offset = q := by
  constructor
  · rintro ⟨i, hi, hq⟩
    have hlt : i < (ds ++ [d]).length := (List.getElem?_eq_some_iff.mp hi).1
    rw [List.length_append, List.length_singleton] at hlt
    rcases Nat.lt_or_eq_of_le (Nat.le_of_lt_succ hlt) with hlt | rfl
    · refine .inl ⟨i, ?_, ?_⟩
      · rwa [List.getElem?_append_left hlt] at hi
      · rwa [place, List.take_append_of_le_length (Nat.le_of_lt hlt)] at hq
    · refine .inr ⟨?_, ?_⟩
      · rw [List.getElem?_append_right (Nat.le_refl _), Nat.sub_self] at hi
        exact Option.some.inj hi
      · rwa [place, List.take_left] at hq
  · rintro (⟨i, hi, hq⟩ | ⟨rfl, hq⟩)
    · have hlt : i < ds.length := (List.getElem?_eq_some_iff.mp hi).1
      refine ⟨i, ?_, ?_⟩
      · rwa [List.getElem?_append_left hlt]
      · rwa [place, List.take_append_of_le_length (Nat.le_of_lt hlt)]
    · refine ⟨ds.length, ?_, ?_⟩
      · rw [List.getElem?_append_right (Nat.le_refl _), Nat.sub_self]
        rfl
      · rwa [place, List.take_left]

end Directive

namespace Assembly

variable {a : Assembly}

theorem error?_fail_ne_none (e : AssemblerError) : (a.fail e).error? ≠ none := by
  unfold fail
  cases a.error? <;> exact Option.some_ne_none _

theorem error?_pushBytes {bs : Bytes} (h : (a.pushBytes bs).error? = none) :
    a.error? = none := by
  unfold pushBytes at h
  split at h
  · exact absurd h (error?_fail_ne_none _)
  · exact h

/-- What was wrong is not forgotten. -/
theorem error?_follow {d : Directive} (h : (a.follow d).error? = none) : a.error? = none := by
  cases d with
  | pushBytes bs => exact error?_pushBytes h
  | pushWord w =>
    change (a.pushWord w).error? = none at h
    unfold pushWord at h
    split at h
    · exact h
    · exact error?_pushBytes h
  | label label =>
    change (a.mark label).error? = none at h
    unfold mark at h
    split at h
    · exact absurd h (error?_fail_ne_none _)
    · exact h
  | _ => exact h

theorem labels_pushBytes (bs : Bytes) : (a.pushBytes bs).labels = a.labels := by
  unfold pushBytes
  split <;> rfl

/-- Only labels are entered among the labels. -/
theorem labels_follow {d : Directive} (hd : ∀ label, d ≠ .label label) :
    (a.follow d).labels = a.labels := by
  cases d with
  | pushBytes bs => exact labels_pushBytes bs
  | pushWord w =>
    show (a.pushWord w).labels = a.labels
    unfold pushWord
    split
    · rfl
    · exact labels_pushBytes _
  | label label => exact absurd rfl (hd label)
  | _ => rfl

/-- **The labels entered are those that stand somewhere**, as long as
nothing is wrong. -/
theorem lookup_labels_eq_some_iff {ds : List Directive}
    (h : (ds.foldl follow .empty).error? = none) (label : String) (q : Nat) :
    (ds.foldl follow .empty).labels.lookup label = some q ↔ Directive.LabelAt ds label q := by
  induction ds using List.reverseRecOn generalizing q with
  | nil =>
    refine iff_of_false (by simp [empty]) ?_
    rintro ⟨i, hi, -⟩
    simp at hi
  | append_singleton ds d ih =>
    rw [List.foldl_append] at h ⊢
    change ((ds.foldl follow .empty).follow d).error? = none at h
    show ((ds.foldl follow .empty).follow d).labels.lookup label = some q ↔ _
    have ih := ih (error?_follow h)
    rw [Directive.labelAt_concat]
    by_cases hd : ∃ l, d = .label l
    · obtain ⟨l, rfl⟩ := hd
      -- nothing is wrong, so the label is a new one
      cases hl : (ds.foldl follow .empty).labels.lookup l with
      | some place =>
        change ((ds.foldl follow .empty).mark l).error? = none at h
        rw [mark, hl] at h
        exact absurd h (error?_fail_ne_none _)
      | none =>
        have hlabels : ((ds.foldl follow .empty).follow (.label l)).labels
            = (l, (ds.foldl follow .empty).offset) :: (ds.foldl follow .empty).labels := by
          show ((ds.foldl follow .empty).mark l).labels = _
          rw [mark, hl]
          rfl
        rw [hlabels, List.lookup_cons, ← ih]
        by_cases hne : label = l
        · subst hne
          simp [hl]
        · rw [beq_false_of_ne hne]
          simp [Ne.symm hne]
    · rw [labels_follow fun l heq => hd ⟨l, heq⟩, ih]
      exact ⟨.inl, fun h => h.resolve_right fun hlabel => hd ⟨label, hlabel.1⟩⟩

end Assembly

/-! ## Built code -/

variable {ds : List Directive} {code : Bytes}

/-- What the directives up to the `i`-th have emitted. -/
theorem extends_take (ds : List Directive) (i : Nat) :
    Assembly.Extends ((ds.take i).foldl Assembly.follow .empty)
      (ds.foldl Assembly.follow .empty) := by
  have h := Assembly.extends_foldl (ds.drop i) ((ds.take i).foldl Assembly.follow .empty)
  rwa [← List.foldl_append, List.take_append_drop] at h

/-- The directive itself comes next. -/
theorem foldl_take_succ {i : Nat} {d : Directive} (hd : ds[i]? = some d) :
    (ds.take (i + 1)).foldl Assembly.follow .empty
      = ((ds.take i).foldl Assembly.follow .empty).follow d := by
  rw [List.take_add_one, hd, Option.toList_some, List.foldl_append]
  rfl

/-- **Every directive starts where an instruction starts**, before the
references are filled in. -/
theorem instructionStart_place (hds : ∀ d ∈ ds, d.Aligned) (i : Nat) :
    InstructionStart (ds.foldl Assembly.follow .empty).code.toList (Directive.place ds i) := by
  have htake : ∀ d ∈ ds.take i, d.Aligned := fun d hd => hds d (List.mem_of_mem_take hd)
  have hwhole := (Assembly.aligned_foldl htake Assembly.aligned_empty).whole
  obtain ⟨ys, hys⟩ := (extends_take ds i).code_kept
  rw [← hys]
  exact InstructionStart.append hwhole ys

/-- **A label marks its place.** -/
theorem isJumpTarget_of_labelAt (hds : ∀ d ∈ ds, d.Aligned) (hcode : assemble ds = .ok code)
    {label : String} {q : Nat} (h : Directive.LabelAt ds label q) : IsJumpTarget code q := by
  have haligned := Assembly.aligned_foldl hds Assembly.aligned_empty
  obtain ⟨herror, hresolved⟩ := Assembly.resolved_of_build haligned hcode
  have hlookup := (Assembly.lookup_labels_eq_some_iff herror label q).mpr h
  obtain ⟨before, behind, hlabels, -⟩ := List.lookup_eq_some_iff.mp hlookup
  obtain ⟨hstart, hmark⟩ := haligned.marks (label, q) (hlabels ▸ List.mem_append_cons_self)
  obtain ⟨hstart', hbyte⟩ := hresolved.agrees haligned hstart
  have hmark' : code[q]? = some jumpDestByte := hbyte.trans hmark
  exact ⟨(List.getElem?_eq_some_iff.mp hmark').1, hstart', hmark'⟩

/-- **What a jump to a label becomes**: a push of two bytes that spell the
place of the label, and the jump. -/
structure JumpEmitted (ds : List Directive) (code : Bytes) (p : Nat) (label : String)
    (byte : UInt8) (q : Nat) : Prop where
  /-- The label stands there and nowhere else. -/
  labelAt_iff : ∀ q', Directive.LabelAt ds label q' ↔ q' = q
  /-- Two bytes hold the place. -/
  le : q ≤ 0xffff
  /-- The push. -/
  push : code[p]? = some 0x61
  /-- The high byte of the place. -/
  high : code[p + 1]? = some (UInt8.ofNat (q / 256))
  /-- The low byte of the place. -/
  low : code[p + 2]? = some (UInt8.ofNat q)
  /-- The jump. -/
  jump : code[p + 3]? = some byte

/-- The bytes of a jump to a label, and the reference among them that is
still to be filled in. -/
theorem emits_of_jump {i : Nat} {d : Directive} {label : String} {byte : UInt8}
    (hd : ds[i]? = some d)
    (hfollow : ∀ a : Assembly, a.follow d = (a.pushLabel label).emit [byte]) :
    (∃ ys, ∀ j, (ds.foldl Assembly.follow .empty).code.toList[Directive.place ds i + j]?
        = (0x61 :: 0 :: 0 :: byte :: ys)[j]?)
      ∧ (Directive.place ds i + 1, label)
        ∈ (ds.foldl Assembly.follow .empty).references.toList := by
  have hextends := extends_take ds (i + 1)
  rw [foldl_take_succ hd, hfollow] at hextends
  constructor
  · obtain ⟨ys, hys⟩ := hextends.code_kept
    rw [Assembly.toList_emit, Assembly.toList_pushLabel, List.append_assoc, List.append_assoc]
      at hys
    refine ⟨ys, fun j => ?_⟩
    rw [← hys, Directive.place_eq_length, List.getElem?_append_right (Nat.le_add_right _ j),
      Nat.add_sub_cancel_left]
    rfl
  · refine hextends.references_kept.subset ?_
    show _ ∈ (Assembly.pushLabel _ label).references.toList
    rw [Assembly.references_pushLabel]
    exact List.mem_append_right _ (List.mem_singleton_self _)

/-- **A jump to a label is built with the place of that label.** -/
theorem exists_jumpEmitted (hds : ∀ d ∈ ds, d.Aligned) (hcode : assemble ds = .ok code)
    {i : Nat} {d : Directive} {label : String} {byte : UInt8} (hd : ds[i]? = some d)
    (hfollow : ∀ a : Assembly, a.follow d = (a.pushLabel label).emit [byte]) :
    ∃ q, JumpEmitted ds code (Directive.place ds i) label byte q := by
  have haligned := Assembly.aligned_foldl hds Assembly.aligned_empty
  obtain ⟨herror, hresolved⟩ := Assembly.resolved_of_build haligned hcode
  obtain ⟨⟨ys, hbyte⟩, hreference⟩ := emits_of_jump hd hfollow
  obtain ⟨q, hlookup, hle, hhigh, hlow⟩ := hresolved.filled _ hreference
  have hstart := instructionStart_place hds i
  have hpush := hbyte 0
  have hjump := hresolved.agrees haligned (.next hstart hpush)
  refine ⟨q, ?_, hle, ?_, ?_, ?_, ?_⟩
  · intro q'
    rw [← Assembly.lookup_labels_eq_some_iff herror, hlookup, Option.some.injEq, eq_comm]
  · exact (hresolved.agrees haligned hstart).2.trans hpush
  · exact List.getElem?_toArray.symm.trans hhigh
  · exact List.getElem?_toArray.symm.trans hlow
  · exact hjump.2.trans (hbyte 3)

/-! ## Taking the jump -/

namespace Machine

/-- The machine a jump to a label is next on, with what the jump leaves of
the stack. -/
inductive AtLabelJump (ds : List Directive) (m : Machine) : String → List UInt256 → Prop where
  /-- In any case. -/
  | jump {i : Nat} {label : String} (hd : ds[i]? = some (.jump label))
    (hpc : m.frame.pc = Directive.place ds i) : AtLabelJump ds m label m.frame.stack
  /-- On a condition that holds. -/
  | jumpIf {i : Nat} {label : String} {condition : UInt256} {rest : List UInt256}
    (hd : ds[i]? = some (.jumpIf label)) (hpc : m.frame.pc = Directive.place ds i)
    (hstack : m.frame.stack = condition :: rest) (hcondition : condition ≠ 0) :
    AtLabelJump ds m label rest

/-- **Two instructions lead to a place**: as far as the limits let the
execution go, it goes there, and it is never told that it may not. -/
structure LeadsTo (env : Env) (m : Machine) (q : Nat) (kept : List UInt256) : Prop where
  /-- With room for the place on the stack, and two more instructions, the
  execution goes on there. -/
  arrives : ∀ steps steps', m.frame.stack.length < env.settings.stackLimit.toNat →
    m.charge? env = some steps → charge? env ⟨m.frame, steps⟩ = some steps' →
    ∃ mid, m.step env = .running mid
      ∧ mid.step env = .running ⟨{ m.frame with pc := q, stack := kept }, steps'⟩
  /-- The first instruction does not end as a jump that is refused. -/
  push_not_refused : ∀ target m', m.step env ≠ .ended (.halted (.invalidJump target)) m'
  /-- Neither does the second. -/
  jump_not_refused : ∀ mid, m.step env = .running mid →
    ∀ target m', mid.step env ≠ .ended (.halted (.invalidJump target)) m'

variable {settings : Settings} {calldata : Bytes} {m : Machine} {p q : Nat} {byte : UInt8}
  {label : String} {kept : List UInt256}

/-- The two bytes of a reference spell the place. -/
theorem numberOfBytes_of_jumpEmitted (h : JumpEmitted ds code p label byte q) :
    numberOfBytes (zeroExtended code.toArray (p + 1) 2) = BitVec.ofNat 256 q := by
  have hbytes : zeroExtended code.toArray (p + 1) 2
      = [UInt8.ofNat (q / 256), UInt8.ofNat q] := by
    show [code.toArray.getD (p + 1) 0, code.toArray.getD (p + 2) 0] = _
    rw [Array.getD_eq_getD_getElem?, Array.getD_eq_getD_getElem?, List.getElem?_toArray,
      List.getElem?_toArray, h.high, h.low]
    rfl
  have hle := h.le
  have hvalue : Bytes.toNat [UInt8.ofNat (q / 256), UInt8.ofNat q] = q := by
    show (0 * 256 + (UInt8.ofNat (q / 256)).toNat) * 256 + (UInt8.ofNat q).toNat = q
    rw [UInt8.toNat_ofNat', UInt8.toNat_ofNat']
    omega
  rw [numberOfBytes, hbytes, hvalue]

/-- **The push puts the place on the stack**, if that has room. -/
theorem step_of_jumpEmitted (h : JumpEmitted ds code p label byte q) (hpc : m.frame.pc = p)
    {steps : Nat} (hsteps : m.charge? (Env.new settings code calldata) = some steps) :
    m.step (Env.new settings code calldata)
      = ({ m.frame with pc := p + 3 }.push (Env.new settings code calldata)
        (BitVec.ofNat 256 q)).progress steps := by
  have hbyte : (Env.new settings code calldata).code[m.frame.pc]? = some 0x61 :=
    List.getElem?_toArray.trans (hpc ▸ h.push)
  have hop : Op.ofByte? 0x61 = some (.push 2) := rfl
  rw [step_eq hbyte hsteps, Frame.dispatch, hop, ← numberOfBytes_of_jumpEmitted h, ← hpc]
  rfl

/-- The machine behind the push. -/
def pushed (m : Machine) (p q steps : Nat) : Machine :=
  ⟨{ m.frame with pc := p + 3, stack := BitVec.ofNat 256 q :: m.frame.stack }, steps⟩

/-- **A push of a place and a jump lead to the place**, if a jump may lead
there. -/
theorem leadsTo_of_jumpEmitted (h : JumpEmitted ds code p label byte q) (hpc : m.frame.pc = p)
    (hjumps : ∀ steps, (m.pushed p q steps).JumpsNext code (BitVec.ofNat 256 q) kept)
    (htarget : IsJumpTarget code q) :
    m.LeadsTo (Env.new settings code calldata) q kept := by
  have hle := h.le
  have hdest : (BitVec.ofNat 256 q).toNat = q := by
    rw [BitVec.toNat_ofNat]
    omega
  have hjump {steps steps' : Nat}
      (hsteps' : (m.pushed p q steps).charge? (Env.new settings code calldata) = some steps') :
      (m.pushed p q steps).step (Env.new settings code calldata)
        = .running ⟨{ m.frame with pc := q, stack := kept }, steps'⟩ := by
    rw [step_of_jumpsNext (hjumps steps) hsteps',
      Frame.jumpTo_of_isJumpTarget (hdest.symm ▸ htarget), hdest]
    rfl
  refine ⟨?_, ?_, ?_⟩
  · intro steps steps' hroom hsteps hsteps'
    refine ⟨m.pushed p q steps, ?_, hjump hsteps'⟩
    rw [step_of_jumpEmitted h hpc hsteps,
      Frame.push_of_lt (f := { m.frame with pc := p + 3 }) hroom]
    rfl
  · intro target m' heq
    rcases step_cases (Env.new settings code calldata) m with
      ⟨-, hstep⟩ | ⟨-, hstep⟩ | ⟨-, steps, -, hsteps, -⟩
    · cases hstep.symm.trans heq
    · cases hstep.symm.trans heq
    · rw [step_of_jumpEmitted h hpc hsteps, Frame.push] at heq
      split at heq <;> cases heq
  · intro mid hmid target m' heq
    obtain ⟨steps, rfl⟩ : ∃ steps, mid = m.pushed p q steps := by
      rcases step_cases (Env.new settings code calldata) m with
        ⟨-, hstep⟩ | ⟨-, hstep⟩ | ⟨-, steps, -, hsteps, -⟩
      · cases hstep.symm.trans hmid
      · cases hstep.symm.trans hmid
      · rw [step_of_jumpEmitted h hpc hsteps, Frame.push] at hmid
        split at hmid <;> cases hmid
        exact ⟨steps, rfl⟩
    rcases step_cases (Env.new settings code calldata) (m.pushed p q steps) with
      ⟨-, hstep⟩ | ⟨-, hstep⟩ | ⟨-, steps', -, hsteps', -⟩
    · cases hstep.symm.trans heq
    · cases hstep.symm.trans heq
    · cases (hjump hsteps').symm.trans heq

end Machine

/-- **Assembled code does what its directives say about labels.** Every
directive starts where an instruction starts, every label marks its place,
and a jump to a label leads to the place of that label in any execution of
the code, whatever its limits let it do. -/
theorem assemble_reaches_labels (hds : ∀ d ∈ ds, d.Aligned) (hcode : assemble ds = .ok code) :
    (∀ i < ds.length, InstructionStart code (Directive.place ds i))
    ∧ (∀ label q, Directive.LabelAt ds label q → (jumpTargets code).getD q false = true)
    ∧ ∀ (m : Machine) (label : String) (kept : List UInt256), m.AtLabelJump ds label kept →
      ∃ q, (∀ q', Directive.LabelAt ds label q' ↔ q' = q)
        ∧ ∀ settings calldata, m.LeadsTo (Env.new settings code calldata) q kept := by
  have haligned := Assembly.aligned_foldl hds Assembly.aligned_empty
  obtain ⟨-, hresolved⟩ := Assembly.resolved_of_build haligned hcode
  refine ⟨?_, ?_, ?_⟩
  · intro i _
    exact (hresolved.agrees haligned (instructionStart_place hds i)).1
  · intro label q hlabel
    exact (getD_jumpTargets code q).mpr (isJumpTarget_of_labelAt hds hcode hlabel)
  · intro m label kept hm
    cases hm with
    | jump hd hpc =>
      obtain ⟨q, hjump⟩ := exists_jumpEmitted hds hcode hd fun _ => rfl
      refine ⟨q, hjump.labelAt_iff, fun settings calldata => ?_⟩
      refine Machine.leadsTo_of_jumpEmitted hjump hpc (fun steps => .jump hjump.jump rfl) ?_
      exact isJumpTarget_of_labelAt hds hcode ((hjump.labelAt_iff q).mpr rfl)
    | jumpIf hd hpc hstack hcondition =>
      obtain ⟨q, hjump⟩ := exists_jumpEmitted hds hcode hd fun _ => rfl
      refine ⟨q, hjump.labelAt_iff, fun settings calldata => ?_⟩
      refine Machine.leadsTo_of_jumpEmitted hjump hpc (fun steps => ?_) ?_
      · exact .jumpIf hjump.jump (congrArg _ hstack) hcondition
      · exact isJumpTarget_of_labelAt hds hcode ((hjump.labelAt_iff q).mpr rfl)

/-- A jump over so many bytes that the place of its label looks like a
mark. -/
def farDirectives : List Directive :=
  [.pushNumber 1, .jumpIf "end", .raw (Bytes.zeros 0x55), .label "end"]

/-- The code they describe. -/
def farCode : Bytes := [0x60, 1, 0x61, 0, 0x5b, 0x57] ++ Bytes.zeros 0x55 ++ [0x5b]

/-- The jump is taken to the label, and not to the byte that was filled
in. -/
theorem assemble_reaches_labels_far :
    (∀ d ∈ farDirectives, d.Aligned) ∧ assemble farDirectives = .ok farCode
      ∧ (jumpTargets farCode).getD 0x5b false = true
      ∧ ∃ mid, (Machine.after (Env.new .standard farCode []) 1).step
            (Env.new .standard farCode []) = .running mid
          ∧ mid.step (Env.new .standard farCode [])
            = .running ⟨{ Frame.initial with pc := 0x5b }, 3⟩ := by
  have hds : ∀ d ∈ farDirectives, d.Aligned := by
    simp only [farDirectives, List.forall_mem_cons]
    exact ⟨trivial, trivial, whole_iff.mpr (by decide +kernel), trivial, by simp⟩
  have hcode : assemble farDirectives = .ok farCode := by decide +kernel
  obtain ⟨-, hlabels, hjumps⟩ := assemble_reaches_labels hds hcode
  have hlabel : Directive.LabelAt farDirectives "end" 0x5b := ⟨3, rfl, by decide +kernel⟩
  have hd : farDirectives[1]? = some (.jumpIf "end") := rfl
  have hstack : (Machine.after (Env.new .standard farCode []) 1).frame.stack = [1] := by
    decide +kernel
  have hjump : (Machine.after (Env.new .standard farCode []) 1).AtLabelJump farDirectives
      "end" [] := .jumpIf hd (by decide +kernel) hstack (by decide)
  obtain ⟨q, hq, hleads⟩ := hjumps _ _ _ hjump
  obtain rfl := (hq 0x5b).mp hlabel
  refine ⟨hds, hcode, hlabels "end" 0x5b hlabel, ?_⟩
  exact (hleads .standard []).arrives 2 3 (by decide +kernel) (by decide +kernel)
    (by decide +kernel)

end EthCall.Evm
