import EthCall.Proofs.Evm.Change

/-!
# The course of an execution

`Machine.after` is the machine that any number of steps leave behind. No
step is left out: the machine of a step that ended the execution, or that
failed half way, is there as well, and so is whatever it would do if it
were made to go on.

A step counts one instruction and carries it out, or it leaves the machine
as it is (`Machine.machine_step_cases`). What it does to the frame is a change or
several (`EthCall.Proofs.Evm.Change`), and so what every change keeps is
true of every machine (`Machine.invariant_after`). The position is
followed apart, as it has to be known exactly (`Machine.pc_step`): it
moves behind an instruction and all it pushes, or to a marked place.
-/

namespace EthCall.Evm

/-! ## The position behind an instruction -/

/-- How many bytes behind its own belong to an instruction. -/
def Op.immediates : Op → Nat
  | push size => size
  | _ => 0

/-- What is true of the 256 numbers that a byte can be is true of every
byte. -/
theorem forall_byte {P : UInt8 → Prop} (h : ∀ n : Fin 256, P (UInt8.ofNat n)) (byte : UInt8) :
    P byte := by
  simpa using h ⟨byte.toNat, byte.toNat_lt⟩

/-- The bytes that the scan of the code skips are those that belong to the
instruction. -/
theorem pushSize_eq (byte : UInt8) : pushSize byte = (Op.ofByte? byte).elim 0 Op.immediates :=
  forall_byte (P := fun byte => pushSize byte = (Op.ofByte? byte).elim 0 Op.immediates)
    (by decide +kernel) byte

/-- At most a word is pushed. -/
theorem pushSize_le (byte : UInt8) : pushSize byte ≤ 32 := by
  unfold pushSize
  split <;> omega

namespace Frame

variable {env : Env}

@[simp] theorem pc_push (f : Frame) (x : UInt256) : (f.push env x).frame.pc = f.pc := by
  unfold push
  split <;> rfl

/-- Only passing pushed bytes and jumping move the position. -/
theorem Change.pc {op : Op} {f g : Frame} (h : Change env op f g) :
    g.pc = f.pc + op.immediates ∨ g.pc = f.pc ∨ env.targets.getD g.pc false = true := by
  cases h with
  | pass => exact .inl rfl
  | jump _ _ htarget => exact .inr (.inr htarget)
  | _ => exact .inr (.inl rfl)

/-- **The position behind an instruction**: the next instruction, or a
place that is marked. -/
theorem pc_perform (env : Env) (gas : Nat) (byte : UInt8) (op : Op) (f : Frame) :
    (f.perform env gas byte op).frame.pc = f.pc + op.immediates
      ∨ env.targets.getD (f.perform env gas byte op).frame.pc false = true := by
  cases op with
  | push size => exact .inl (pc_push _ _)
  | _ =>
    -- a place once reached is kept, or left for another one
    refine invariant_changes (I := fun g => g.pc = f.pc ∨ env.targets.getD g.pc false = true)
      (fun g g' hchange hg => ?_) (changes_perform env gas byte _ f) (.inl rfl)
    rcases hchange.pc with heq | heq | htarget
    · exact heq ▸ hg
    · exact heq ▸ hg
    · exact .inr htarget

/-- The same for the instruction of a byte, or for a byte that is none. -/
theorem pc_dispatch (env : Env) (gas : Nat) (byte : UInt8) (f : Frame) :
    (f.dispatch env gas byte).frame.pc = f.pc + pushSize byte
      ∨ env.targets.getD (f.dispatch env gas byte).frame.pc false = true := by
  rw [pushSize_eq]
  unfold dispatch
  split
  case h_1 op hop => rw [hop]; exact pc_perform env gas byte op f
  case h_2 hop => rw [hop]; exact .inl rfl

end Frame

/-! ## Steps -/

/-- Why an instruction stops the execution, if it does. -/
def Effect.fault? : Effect → Option Fault
  | fault e _ => some e
  | _ => none

/-- Why a step stops the execution, if it does. -/
def Progress.fault? : Progress → Option Fault
  | stopped e _ => some e
  | _ => none

@[simp] theorem Effect.machine_progress (e : Effect) (steps : Nat) :
    (e.progress steps).machine = ⟨e.frame, steps⟩ := by
  cases e <;> rfl

@[simp] theorem Effect.fault?_progress (e : Effect) (steps : Nat) :
    (e.progress steps).fault? = e.fault? := by
  cases e <;> rfl

namespace Machine

/-- The instruction a machine is at. There is none at the end of the code,
and at a byte that stands for none. -/
def op? (code : Bytes) (m : Machine) : Option Op :=
  code[m.frame.pc]?.bind Op.ofByte?

/-- **A step ends at the end of the code, is not allowed, or carries out
an instruction.** -/
theorem step_cases (env : Env) (m : Machine) :
    env.code[m.frame.pc]? = none ∧ m.step env = .ended (.returned []) m
      ∨ m.charge? env = none
        ∧ m.step env = .stopped (.stepLimitExceeded env.settings.stepLimit.toNat) m
      ∨ ∃ byte steps, env.code[m.frame.pc]? = some byte ∧ m.charge? env = some steps
        ∧ m.step env = (m.frame.advance.dispatch env
          (env.settings.stepLimit.toNat - steps) byte).progress steps := by
  unfold step
  split
  case h_1 hend => exact .inl ⟨hend, rfl⟩
  case h_2 byte hbyte =>
    split
    case h_1 hsteps => exact .inr (.inl ⟨hsteps, rfl⟩)
    case h_2 steps hsteps => exact .inr (.inr ⟨byte, steps, hbyte, hsteps, rfl⟩)

/-- **What a step leaves behind**: the machine as it was, or what the
instruction makes of it. -/
theorem machine_step_cases (env : Env) (m : Machine) :
    (m.step env).machine = m
      ∨ ∃ byte steps, env.code[m.frame.pc]? = some byte ∧ m.charge? env = some steps
        ∧ (m.step env).machine = ⟨(m.frame.advance.dispatch env
          (env.settings.stepLimit.toNat - steps) byte).frame, steps⟩ := by
  rcases step_cases env m with ⟨-, heq⟩ | ⟨-, heq⟩ | ⟨byte, steps, hbyte, hsteps, heq⟩
  · exact .inl (congrArg Progress.machine heq)
  · exact .inl (congrArg Progress.machine heq)
  · exact .inr ⟨byte, steps, hbyte, hsteps, heq ▸ Effect.machine_progress _ _⟩

/-- The step that carries out an instruction. -/
theorem step_eq {env : Env} {m : Machine} {byte : UInt8} {steps : Nat}
    (hbyte : env.code[m.frame.pc]? = some byte) (hsteps : m.charge? env = some steps) :
    m.step env = (m.frame.advance.dispatch env
      (env.settings.stepLimit.toNat - steps) byte).progress steps := by
  unfold step
  simp only [hbyte, hsteps]

/-- The same for a byte that stands for an instruction. -/
theorem step_eq_perform {env : Env} {m : Machine} {byte : UInt8} {op : Op} {steps : Nat}
    (hbyte : env.code[m.frame.pc]? = some byte) (hop : Op.ofByte? byte = some op)
    (hsteps : m.charge? env = some steps) :
    m.step env = (m.frame.advance.perform env
      (env.settings.stepLimit.toNat - steps) byte op).progress steps := by
  rw [step_eq hbyte hsteps, Frame.dispatch, hop]

/-- Below the limit one more instruction is allowed, and it is counted. -/
theorem charge?_of_lt {env : Env} {m : Machine} (h : m.steps < env.settings.stepLimit.toNat) :
    m.charge? env = some (m.steps + 1) := by
  have hlimit : env.settings.stepLimit.toNat ≤ maxSize :=
    Nat.le_pred_of_lt env.settings.stepLimit.toNat_lt
  unfold charge?
  rw [Nat.min_eq_left (Nat.le_trans h hlimit)]
  exact if_neg (Nat.not_lt.mpr h)

/-- **The machine that `n` steps leave behind.** -/
def after (env : Env) : Nat → Machine
  | 0 => initial
  | n + 1 => ((after env n).step env).machine

variable {env : Env}

/-- **What every change keeps, a step keeps.** -/
theorem invariant_step {I : Frame → Prop} (hadvance : ∀ f, I f → I f.advance)
    (hchange : ∀ op f g, Frame.Change env op f g → I f → I g) {m : Machine} (hm : I m.frame) :
    I (m.step env).machine.frame := by
  rcases machine_step_cases env m with heq | ⟨byte, steps, -, -, heq⟩
  · rw [heq]
    exact hm
  · rw [heq]
    exact Frame.invariant_dispatch (fun op _ => hchange op) _ (hadvance _ hm)

/-- **What every change keeps is true all along**, if it is true of the
initial frame. -/
theorem invariant_after {I : Frame → Prop} (hinitial : I .initial)
    (hadvance : ∀ f, I f → I f.advance)
    (hchange : ∀ op f g, Frame.Change env op f g → I f → I g) (n : Nat) :
    I (after env n).frame := by
  induction n with
  | zero => exact hinitial
  | succ n ih => exact invariant_step hadvance hchange ih

/-- **Where a step leads**: nowhere, behind the instruction, or to a
marked place. -/
theorem pc_step (env : Env) (m : Machine) :
    (m.step env).machine.frame.pc = m.frame.pc
      ∨ ∃ byte, env.code[m.frame.pc]? = some byte
        ∧ ((m.step env).machine.frame.pc = m.frame.pc + 1 + pushSize byte
          ∨ env.targets.getD (m.step env).machine.frame.pc false = true) := by
  rcases machine_step_cases env m with heq | ⟨byte, steps, hbyte, -, heq⟩
  · rw [heq]
    exact .inl rfl
  · refine .inr ⟨byte, hbyte, ?_⟩
    rw [heq]
    exact Frame.pc_dispatch env _ byte m.frame.advance

end Machine

end EthCall.Evm
