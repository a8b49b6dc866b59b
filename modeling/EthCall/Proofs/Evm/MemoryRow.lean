import EthCall.Proofs.Evm.Bounds
import EthCall.Proofs.Evm.Row

/-!
# Memory as a row of bytes

What a contract can see of its memory is an endless row of bytes, zero at
the start. That the memory of a machine grows, and when, cannot be told
from the row (`Memory.row_grow`).

`Row.after` says what each instruction does to the row. Five of them
overwrite a stretch, among them one that copies the row into itself; for
it the bytes are those from before, and it does not matter whether the two
stretches overlap. All others leave the row alone. `Row.Shows` says what
the instructions that read a stretch make of its bytes. Both are told in
terms of rows, without sizes, limits or reservations.
-/

namespace EthCall.Evm

namespace Row

/-- **The row behind an instruction** that finds its operands on a
stack. -/
def after (code calldata : Bytes) (A : Row) : Option Op → List UInt256 → Row
  | some .memoryStore, offset :: x :: _ => A.overwrite offset.toNat (Bytes.ofNat 32 x.toNat)
  | some .memoryStore8, offset :: x :: _ => A.overwrite offset.toNat [UInt8.ofNat x.toNat]
  | some .memoryCopy, dest :: source :: len :: _ =>
    A.overwrite dest.toNat (A.stretch source.toNat len.toNat)
  | some .callDataCopy, dest :: source :: len :: _ =>
    A.overwrite dest.toNat ((ofBytes calldata).stretch source.toNat len.toNat)
  | some .codeCopy, dest :: source :: len :: _ =>
    A.overwrite dest.toNat ((ofBytes code).stretch source.toNat len.toNat)
  | _, _ => A

/-- **What an instruction makes of the bytes it reads**, for one that finds
its operands on a stack and leads to `p`. -/
def Shows (A : Row) (address : Address) (logs : Array Log) (p : Progress) :
    Option Op → List UInt256 → Prop
  | some .memoryLoad, offset :: rest =>
    ∃ m, p = .running m ∧ m.frame.stack = numberOfBytes (A.stretch offset.toNat 32) :: rest
  | some .keccak256, offset :: len :: rest =>
    ∃ m, p = .running m
      ∧ m.frame.stack = (keccak256 (A.stretch offset.toNat len.toNat)).toUInt256 :: rest
  | some (.log n), offset :: len :: rest =>
    if n ≤ rest.length then
      ∃ m, p = .running m ∧ m.frame.stack = rest.drop n
        ∧ m.frame.logs = logs.push ⟨address, (rest.take n).map Word.ofUInt256,
          A.stretch offset.toNat len.toNat⟩
    else True
  | some .return_, offset :: len :: _ =>
    ∃ m, p = .ended (.returned (A.stretch offset.toNat len.toNat)) m
  | some .revert, offset :: len :: _ =>
    ∃ m, p = .ended (.reverted (A.stretch offset.toNat len.toNat)) m
  | _, _ => True

/-- Only the instructions that write into memory change the row. -/
theorem after_of_not_writesMemory (code calldata : Bytes) (A : Row) {op : Op}
    (hop : op.writesMemory = false) (stack : List UInt256) :
    A.after code calldata (some op) stack = A := by
  cases op <;> first | rfl | cases hop

end Row

namespace Frame

variable {env : Env} {op : Op} {f g : Frame} {offset len : UInt256} {memory : Memory}

/-! ## Changes of the row -/

/-- Granting a stretch sets no byte. -/
theorem Granted.byte_eq (h : Granted env f offset len memory) : memory.byte = f.memory.byte := by
  cases h <;> rfl

/-- **No change sets a byte beyond the memory in use.** -/
theorem Change.zeroBeyond (h : Change env op f g) (hf : f.memory.ZeroBeyond) :
    g.memory.ZeroBeyond := by
  cases h with
  | grant _ _ hgranted =>
    intro i hi
    rw [hgranted.byte_eq]
    exact hf i (Nat.le_trans hgranted.size_le hi)
  | write _ _ hcovers => exact hf.write hcovers
  | _ => exact hf

/-- **Only writing sets bytes.** -/
theorem Change.byte_eq (h : Change env op f g) (hop : op.writesMemory = false) :
    g.memory.byte = f.memory.byte := by
  cases h with
  | grant _ _ hgranted => exact hgranted.byte_eq
  | write hwrites => exact absurd (hwrites.symm.trans hop) Bool.noConfusion
  | _ => rfl

/-! ## Writing -/

/-- A stretch is reserved unless that stops the execution. -/
theorem reserve_of_fault?_eq_none {k : Frame → Effect}
    (hgo : (f.reserve env offset len k).fault? = none) :
    ∃ memory, Granted env f offset len memory
      ∧ f.reserve env offset len k = k { f with memory := memory } := by
  rcases reserve_cases env f offset len k with ⟨e, heq⟩ | hgranted
  · rw [heq] at hgo
    cases hgo
  · exact hgranted

/-- A stretch is read unless that stops the execution, and what is read
are the bytes that were there. -/
theorem fetch_of_fault?_eq_none {k : Bytes → Frame → Effect}
    (hgo : (f.fetch env offset len k).fault? = none) :
    ∃ memory, memory.byte = f.memory.byte
      ∧ f.fetch env offset len k
        = k (Row.stretch f.memory.byte offset.toNat len.toNat) { f with memory := memory } := by
  obtain ⟨memory, hgranted, heq⟩ := reserve_of_fault?_eq_none hgo
  refine ⟨memory, hgranted.byte_eq, heq.trans ?_⟩
  rw [Memory.read_eq_stretch, hgranted.byte_eq]

/-- Bytes that are put into memory overwrite the row. -/
theorem byte_put {bs : Unit → Bytes} (hgo : (f.put env offset len bs).fault? = none) :
    (f.put env offset len bs).frame.memory.byte
      = Row.overwrite f.memory.byte offset.toNat (bs ()) := by
  obtain ⟨memory, hgranted, heq⟩ := reserve_of_fault?_eq_none hgo
  rw [put, heq]
  show (memory.write offset.toNat (bs ())).byte = _
  rw [Memory.byte_write, hgranted.byte_eq]

/-- **Copied bytes are those from before**, whether or not they are among
those that are overwritten. -/
theorem byte_copy {dest source : UInt256}
    (hgo : (f.reserve env dest len fun g => g.fetch env source len fun bs g =>
      .next { g with memory := g.memory.write dest.toNat bs }).fault? = none) :
    (f.reserve env dest len fun g => g.fetch env source len fun bs g =>
        .next { g with memory := g.memory.write dest.toNat bs }).frame.memory.byte
      = Row.overwrite f.memory.byte dest.toNat
        (Row.stretch f.memory.byte source.toNat len.toNat) := by
  obtain ⟨memory, htarget, heq⟩ := reserve_of_fault?_eq_none hgo
  rw [heq] at hgo ⊢
  obtain ⟨memory', hsource, heq⟩ := fetch_of_fault?_eq_none hgo
  rw [heq]
  show (memory'.write dest.toNat _).byte = _
  rw [Memory.byte_write, hsource, htarget.byte_eq]

/-- Missing operands change no memory. -/
theorem memory_pop2_of_length_lt (h : f.stack.length < 2)
    (k : UInt256 → UInt256 → Frame → Effect) : (f.pop2 k).frame.memory = f.memory := by
  unfold pop2 pop
  match hstack : f.stack, h with
  | [], _ => rfl
  | [_], _ => rfl

theorem memory_pop3_of_length_lt (h : f.stack.length < 3)
    (k : UInt256 → UInt256 → UInt256 → Frame → Effect) :
    (f.pop3 k).frame.memory = f.memory := by
  unfold pop3 pop2 pop
  match hstack : f.stack, h with
  | [], _ => rfl
  | [_], _ => rfl
  | [_, _], _ => rfl

/-- **What the instructions that write into memory make of the row.** -/
theorem byte_perform_of_writesMemory {settings : Settings} {code calldata : Bytes} {gas : Nat}
    {byte : UInt8} (hop : op.writesMemory = true)
    (hgo : (f.perform (Env.new settings code calldata) gas byte op).fault? = none) :
    (f.perform (Env.new settings code calldata) gas byte op).frame.memory.byte
      = Row.after code calldata f.memory.byte (some op) f.stack := by
  cases op with
  | memoryStore | memoryStore8 =>
    rcases hstack : f.stack with _ | ⟨offset, _ | ⟨x, rest⟩⟩
    case cons.cons =>
      rw [perform, pop2_of_stack hstack] at hgo ⊢
      exact byte_put hgo
    all_goals exact congrArg Memory.byte (memory_pop2_of_length_lt (by simp [hstack]) _)
  | memoryCopy =>
    rcases hstack : f.stack with _ | ⟨dest, _ | ⟨source, _ | ⟨len, rest⟩⟩⟩
    case cons.cons.cons =>
      rw [perform, pop3_of_stack hstack] at hgo ⊢
      exact byte_copy hgo
    all_goals exact congrArg Memory.byte (memory_pop3_of_length_lt (by simp [hstack]) _)
  | callDataCopy | codeCopy =>
    rcases hstack : f.stack with _ | ⟨dest, _ | ⟨source, _ | ⟨len, rest⟩⟩⟩
    case cons.cons.cons =>
      rw [perform, pop3_of_stack hstack] at hgo ⊢
      rw [byte_put hgo]
      exact congrArg (Row.overwrite _ _) (zeroExtended_toArray _ _ _)
    all_goals exact congrArg Memory.byte (memory_pop3_of_length_lt (by simp [hstack]) _)
  | _ => cases hop

/-- **The row behind an instruction**, unless that stops the execution. -/
theorem byte_dispatch {settings : Settings} {code calldata : Bytes} {gas : Nat} {byte : UInt8}
    (hgo : (f.dispatch (Env.new settings code calldata) gas byte).fault? = none) :
    (f.dispatch (Env.new settings code calldata) gas byte).frame.memory.byte
      = Row.after code calldata f.memory.byte (Op.ofByte? byte) f.stack := by
  unfold dispatch at hgo ⊢
  cases hbyte : Op.ofByte? byte with
  | none => rfl
  | some op =>
    rw [hbyte] at hgo
    cases hop : op.writesMemory with
    | true => exact byte_perform_of_writesMemory hop hgo
    | false =>
      rw [Row.after_of_not_writesMemory _ _ _ hop]
      exact invariant_changes (I := fun g => g.memory.byte = f.memory.byte)
        (fun _ _ hchange hg => (hchange.byte_eq hop).trans hg)
        (changes_perform _ gas byte op f) rfl

/-! ## Reading -/

/-- **What an instruction makes of the bytes it reads**, unless that stops
the execution. A result has room where its operand was. -/
theorem shows_perform {gas steps : Nat} {byte : UInt8}
    (hdepth : f.stack.length ≤ env.settings.stackLimit.toNat)
    (hgo : (f.perform env gas byte op).fault? = none) :
    Row.Shows f.memory.byte env.settings.block.address f.logs
      ((f.perform env gas byte op).progress steps) (some op) f.stack := by
  cases op with
  | memoryLoad =>
    rcases hstack : f.stack with _ | ⟨offset, rest⟩
    · trivial
    · have hroom : rest.length < env.settings.stackLimit.toNat := by
        rw [hstack] at hdepth
        exact hdepth
      rw [perform, pop_of_stack hstack] at hgo ⊢
      obtain ⟨memory, -, heq⟩ := fetch_of_fault?_eq_none hgo
      rw [heq]
      exact ⟨_, congrArg (Effect.progress steps) (push_of_lt hroom _), rfl⟩
  | keccak256 =>
    rcases hstack : f.stack with _ | ⟨offset, _ | ⟨len, rest⟩⟩
    · trivial
    · trivial
    · have hroom : rest.length < env.settings.stackLimit.toNat := by
        rw [hstack] at hdepth
        exact Nat.lt_of_succ_lt hdepth
      rw [perform, pop2_of_stack hstack] at hgo ⊢
      obtain ⟨memory, -, heq⟩ := fetch_of_fault?_eq_none hgo
      rw [heq]
      exact ⟨_, congrArg (Effect.progress steps) (push_of_lt hroom _), rfl⟩
  | log n =>
    rcases hstack : f.stack with _ | ⟨offset, _ | ⟨len, rest⟩⟩
    · trivial
    · trivial
    · rw [Row.Shows]
      split
      case isTrue htopics =>
        rw [perform, pop2_of_stack hstack,
          popMany_of_le (f := { f with stack := rest }) htopics] at hgo ⊢
        obtain ⟨memory, -, heq⟩ := fetch_of_fault?_eq_none hgo
        rw [heq]
        exact ⟨_, rfl, rfl, rfl⟩
      case isFalse => trivial
  | return_ | revert =>
    rcases hstack : f.stack with _ | ⟨offset, _ | ⟨len, rest⟩⟩
    · trivial
    · trivial
    · rw [perform, pop2_of_stack hstack] at hgo ⊢
      obtain ⟨memory, -, heq⟩ := fetch_of_fault?_eq_none hgo
      rw [heq]
      exact ⟨_, rfl⟩
  | _ => trivial

/-- The same for the instruction of a byte. -/
theorem shows_dispatch {gas steps : Nat} {byte : UInt8}
    (hdepth : f.stack.length ≤ env.settings.stackLimit.toNat)
    (hgo : (f.dispatch env gas byte).fault? = none) :
    Row.Shows f.memory.byte env.settings.block.address f.logs
      ((f.dispatch env gas byte).progress steps) (Op.ofByte? byte) f.stack := by
  unfold dispatch at hgo ⊢
  cases hbyte : Op.ofByte? byte with
  | none => trivial
  | some op =>
    rw [hbyte] at hgo
    exact shows_perform hdepth hgo

end Frame

/-! ## Executions -/

namespace Machine

/-- **No byte is ever set beyond the memory in use.** -/
theorem zeroBeyond_after (env : Env) (n : Nat) : (after env n).frame.memory.ZeroBeyond :=
  invariant_after (I := fun f => f.memory.ZeroBeyond) (fun _ _ => Std.TreeMap.getD_emptyc)
    (fun _ hf => hf) (fun _ _ _ hchange => hchange.zeroBeyond) n

/-- **Memory is a row that is zero at the start**, as far as a contract can
tell: that it grows does not show, a step that does not stop the execution
does to the row what its instruction does to rows, and the bytes an
instruction reads are those of the row. -/
theorem memory_is_row (settings : Settings) (code calldata : Bytes) :
    (after (Env.new settings code calldata) 0).frame.memory.row = Row.zero
      ∧ ∀ n, let env := Env.new settings code calldata
        let m := after env n
        (∀ size, (m.frame.memory.grow size).row = m.frame.memory.row)
        ∧ ((m.step env).fault? = none →
          (m.step env).machine.frame.memory.row
              = m.frame.memory.row.after code calldata (m.op? code) m.frame.stack
            ∧ m.frame.memory.row.Shows settings.block.address m.frame.logs (m.step env)
              (m.op? code) m.frame.stack) := by
  have hzero := zeroBeyond_after (Env.new settings code calldata)
  refine ⟨Memory.row_eq_byte (hzero 0), fun n => ?_⟩
  intro env m
  refine ⟨Memory.row_grow (hzero n), fun hgo => ?_⟩
  have hnext : (m.step env).machine.frame.memory.ZeroBeyond := hzero (n + 1)
  have hdepth := (within_frame_after env n).stack_le
  rw [Memory.row_eq_byte hnext, Memory.row_eq_byte (hzero n)]
  rcases step_cases env m with ⟨hend, heq⟩ | ⟨-, heq⟩ | ⟨byte, steps, hbyte, -, heq⟩
  · have hop : m.op? code = none := by
      rw [op?, List.getElem?_toArray.symm.trans hend]
      rfl
    rw [heq, hop]
    exact ⟨rfl, trivial⟩
  · rw [heq] at hgo
    cases hgo
  · have hop : m.op? code = Op.ofByte? byte := by
      rw [op?, List.getElem?_toArray.symm.trans hbyte]
      rfl
    rw [heq, Effect.fault?_progress] at hgo
    rw [heq, Effect.machine_progress, hop]
    exact ⟨Frame.byte_dispatch hgo, Frame.shows_dispatch (f := m.frame.advance) hdepth hgo⟩

/-- Memory that holds a one, of which three bytes are copied one place
on. -/
def overlappingCode : Bytes :=
  [0x60, 1, 0x60, 0, 0x53, 0x60, 3, 0x60, 0, 0x60, 1, 0x5e]

/-- The one is copied once, and is not copied on. -/
theorem memory_is_row_overlapping :
    ((after (Env.new .standard overlappingCode []) 6).step
        (Env.new .standard overlappingCode [])).fault? = none
      ∧ ((after (Env.new .standard overlappingCode []) 6).step
          (Env.new .standard overlappingCode [])).machine.frame.memory.row
        = (after (Env.new .standard overlappingCode []) 6).frame.memory.row.overwrite 1
          ((after (Env.new .standard overlappingCode []) 6).frame.memory.row.stretch 0 3) := by
  have hgo : ((after (Env.new .standard overlappingCode []) 6).step
      (Env.new .standard overlappingCode [])).fault? = none := by decide +kernel
  have hop : (after (Env.new .standard overlappingCode []) 6).op? overlappingCode
      = some .memoryCopy := by decide +kernel
  have hstack : (after (Env.new .standard overlappingCode []) 6).frame.stack = [1, 0, 3] := by
    decide +kernel
  have hafter (A : Row) : A.after overlappingCode [] (some .memoryCopy) [1, 0, 3]
      = A.overwrite 1 (A.stretch 0 3) := rfl
  have h := (((memory_is_row .standard overlappingCode []).2 6).2 hgo).1
  rw [hop, hstack, hafter] at h
  exact ⟨hgo, h⟩

end Machine

end EthCall.Evm
