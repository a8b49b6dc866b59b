import EthCall.Proofs.Evm.Course
import EthCall.Proofs.Evm.InstructionStart

/-!
# The bounds of an execution

Settings bound the stack, the memory and the number of instructions, and
nothing but the instructions themselves keeps the bounds: there is no one
place where all of them are checked. `Frame.Within` is what the settings
promise of a frame. Every change of a frame keeps it, as each that could
break it comes with the check that was made for it (`Frame.Change.within`);
so it holds after any number of steps, and it asks nothing of the
settings.

The position is bounded by the code and not by the settings. A push at
the very end of the code is the only way to get past that end, and
it gets no further than the word it would push.
-/

namespace EthCall.Evm

/-- **The bounds of a frame**: what limits promise. -/
structure Frame.Within (settings : Settings) (f : Frame) : Prop where
  /-- The stack is no deeper than it may be. -/
  stack_le : f.stack.length ≤ settings.stackLimit.toNat
  /-- Memory is in use by whole words. -/
  dvd_size : 32 ∣ f.memory.size
  /-- No more memory is in use than may be. -/
  size_le : f.memory.size ≤ settings.memoryLimit.toNat

/-- **The bounds of a machine** that executes some code. -/
structure Machine.Within (settings : Settings) (code : Bytes) (m : Machine) : Prop where
  /-- The frame has its bounds. -/
  frame : m.frame.Within settings
  /-- No more instructions were carried out than may be, so that what is
  left of them is a number. -/
  steps_le : m.steps ≤ settings.stepLimit.toNat
  /-- The position is in the code, or less than a word and its push behind
  it. -/
  pc_le : m.frame.pc ≤ code.length + 32

namespace Frame

variable {env : Env} {op : Op} {f g : Frame}

theorem within_initial (settings : Settings) : Within settings .initial :=
  ⟨Nat.zero_le _, Nat.dvd_zero 32, Nat.zero_le _⟩

/-- What is granted are whole words within the limit. -/
theorem Granted.within {offset len : UInt256} {memory : Memory}
    (h : Granted env f offset len memory) (hf : f.Within env.settings) :
    Within env.settings { f with memory := memory } := by
  cases h with
  | empty => exact hf
  | grown hlimit =>
    refine ⟨hf.stack_le, ?_, Nat.max_le.mpr ⟨hf.size_le, hlimit⟩⟩
    show 32 ∣ max f.memory.size (wholeWords (offset.toNat + len.toNat))
    rcases Nat.le_total f.memory.size (wholeWords (offset.toNat + len.toNat)) with hle | hle
    · rw [Nat.max_eq_right hle]
      exact dvd_wholeWords _
    · rw [Nat.max_eq_left hle]
      exact hf.dvd_size

/-- **Every change keeps the bounds.** -/
theorem Change.within (h : Change env op f g) (hf : f.Within env.settings) :
    g.Within env.settings := by
  cases h with
  | take _ _ hsuffix =>
    exact ⟨Nat.le_trans hsuffix.length_le hf.stack_le, hf.dvd_size, hf.size_le⟩
  | put _ _ x hroom => exact ⟨hroom, hf.dvd_size, hf.size_le⟩
  | exchange _ _ hlength => exact ⟨hlength ▸ hf.stack_le, hf.dvd_size, hf.size_le⟩
  | grant _ _ hgranted => exact hgranted.within hf
  | write =>
    refine ⟨hf.stack_le, ?_, ?_⟩
    · rw [Memory.size_write]
      exact hf.dvd_size
    · rw [Memory.size_write]
      exact hf.size_le
  | store | storeTransient | log | pass | jump => exact ⟨hf.stack_le, hf.dvd_size, hf.size_le⟩

/-- **No change gives memory back.** -/
theorem Change.size_le (h : Change env op f g) : f.memory.size ≤ g.memory.size := by
  cases h with
  | grant _ _ hgranted => exact hgranted.size_le
  | write => exact Nat.le_of_eq (Memory.size_write _ _ _).symm
  | _ => exact Nat.le_refl _

end Frame

namespace Machine

variable {env : Env}

/-- The frame stays within the bounds. -/
theorem within_frame_after (env : Env) (n : Nat) :
    (after env n).frame.Within env.settings :=
  invariant_after (Frame.within_initial _) (fun _ hf => ⟨hf.stack_le, hf.dvd_size, hf.size_le⟩)
    (fun _ _ _ hchange => hchange.within) n

/-- A step gives no memory back. -/
theorem size_le_step (env : Env) (m : Machine) :
    m.frame.memory.size ≤ (m.step env).machine.frame.memory.size :=
  invariant_step (I := fun f => m.frame.memory.size ≤ f.memory.size) (fun _ hf => hf)
    (fun _ _ _ hchange hf => Nat.le_trans hf hchange.size_le) (Nat.le_refl _)

/-- Neither do several. -/
theorem size_le_after_add (env : Env) (n k : Nat) :
    (after env n).frame.memory.size ≤ (after env (n + k)).frame.memory.size := by
  induction k with
  | zero => exact Nat.le_refl _
  | succ k ih => exact Nat.le_trans ih (size_le_step env _)

/-- The count of a step is within the limit. -/
theorem steps_after_le (env : Env) (n : Nat) :
    (after env n).steps ≤ env.settings.stepLimit.toNat := by
  induction n with
  | zero => exact Nat.zero_le _
  | succ n ih =>
    show ((after env n).step env).machine.steps ≤ _
    rcases machine_step_cases env (after env n) with heq | ⟨byte, steps, -, hsteps, heq⟩
    · rw [heq]
      exact ih
    · rw [heq]
      exact le_of_charge? hsteps

/-- **How far behind the code a machine can come.** -/
theorem pc_after_le (settings : Settings) (code calldata : Bytes) (n : Nat) :
    (after (Env.new settings code calldata) n).frame.pc ≤ code.length + 32 := by
  induction n with
  | zero => exact Nat.zero_le _
  | succ n ih =>
    rcases pc_step (Env.new settings code calldata) (after (Env.new settings code calldata) n)
      with heq | ⟨byte, hbyte, heq | htarget⟩
    · exact Nat.le_trans (Nat.le_of_eq heq) ih
    · -- the instruction is in the code, and what it pushes is at most a word
      have hlt : (after (Env.new settings code calldata) n).frame.pc < code.length :=
        (List.getElem?_eq_some_iff.mp (List.getElem?_toArray.symm.trans hbyte)).1
      have hword := pushSize_le byte
      refine Nat.le_trans (Nat.le_of_eq heq) ?_
      omega
    · have htarget := ((getD_jumpTargets code _).mp htarget).1
      exact Nat.le_trans (Nat.le_of_lt htarget) (Nat.le_add_right _ _)

/-- **An execution stays within its bounds**, whatever the settings, code
and calldata are, and memory that is in use stays in use. -/
theorem within_after (settings : Settings) (code calldata : Bytes) (n : Nat) :
    (after (Env.new settings code calldata) n).Within settings code
      ∧ ∀ k, (after (Env.new settings code calldata) n).frame.memory.size
        ≤ (after (Env.new settings code calldata) (n + k)).frame.memory.size :=
  ⟨⟨within_frame_after (Env.new settings code calldata) n,
    steps_after_le (Env.new settings code calldata) n, pc_after_le settings code calldata n⟩,
    size_le_after_add (Env.new settings code calldata) n⟩

/-- A push without its bytes leads a whole word past the code. -/
example : (after (Env.new .standard [0x7f] []) 1).frame.pc = 33 := by decide +kernel

end Machine

end EthCall.Evm
