import EthCall.Proofs.Evm.Jump
import EthCall.Proofs.Evm.Limits
import EthCall.Proofs.Evm.Row

/-!
# Passing through code

What code does to numbers that are not known is said one instruction after
the other. Execution **passes** from a frame to another one in `n`
instructions if it has the same result from both, once they are counted
(`Frame.Passes`); and it **ends** from a frame if its result is known
(`Frame.Ends`). Passages are joined, so that a piece of code is the chain
of its instructions, and is itself one link when the next piece is
described.

There is one passage for each kind of instruction. It says what there has
to be on the stack, and that there is room for what the instruction puts
there. An instruction that needs memory asks for its stretch to lie a word
below the limit, which is enough for the whole words that are reserved.
-/

namespace EthCall.Evm

/-- The instruction at a place of the code. -/
def Env.opAt? (env : Env) (pc : Nat) : Option Op := env.code[pc]?.bind Op.ofByte?

/-- The memory when a number is stored in a word of it. -/
def Memory.stored (m : Memory) (offset : Nat) (x : UInt256) : Memory :=
  (m.grow (Frame.wholeWords (offset + 32))).write offset (Word.ofUInt256 x).bytes

/-- The bytes of the number are put over those that were there. -/
theorem Memory.byte_stored (m : Memory) (offset : Nat) (x : UInt256) :
    (m.stored offset x).byte = Row.overwrite m.byte offset (Word.ofUInt256 x).bytes :=
  byte_write _ _ _

/-- The number is read back. -/
theorem Memory.read_stored (m : Memory) (offset : Nat) (x : UInt256) :
    (m.stored offset x).read offset 32 = (Word.ofUInt256 x).bytes := by
  have h := Row.stretch_overwrite m.byte offset (Word.ofUInt256 x).bytes []
  rw [List.append_nil, (Word.ofUInt256 x).length_bytes] at h
  rw [read_eq_stretch, byte_stored, h]

namespace Frame

variable {env : Env} {f g h : Frame} {m n pc : Nat} {stack : List UInt256} {memory : Memory}
  {o : Outcome} {logs : List Log} {op : Op}

/-- The frame at another place, with another stack and memory. -/
def placed (f : Frame) (pc : Nat) (stack : List UInt256) (memory : Memory) : Frame :=
  { f with pc := pc, stack := stack, memory := memory }

/-- **Execution passes from one frame to another** in `n` instructions, if
the limit allows so many. -/
def Passes (env : Env) (n : Nat) (f g : Frame) : Prop :=
  ∀ steps, steps + n ≤ env.settings.stepLimit.toNat →
    Machine.run env ⟨f, steps⟩ = Machine.run env ⟨g, steps + n⟩

/-- **Execution ends from a frame** after `n` instructions, with these
logs. -/
def Ends (env : Env) (f : Frame) (n : Nat) (o : Outcome) (logs : List Log) : Prop :=
  ∀ steps, steps + n ≤ env.settings.stepLimit.toNat →
    Machine.run env ⟨f, steps⟩ = .ok ⟨o, steps + n, logs⟩

/-- Passages are joined. -/
theorem Passes.trans (hfg : f.Passes env m g) (hgh : g.Passes env n h) :
    f.Passes env (m + n) h := by
  intro steps hsteps
  rw [hfg steps (by omega), hgh (steps + m) (by omega), Nat.add_assoc]

instance : Trans (Passes env m) (Passes env n) (Passes env (m + n)) := ⟨Passes.trans⟩

/-- A passage leads to an end. -/
theorem Passes.ends (hfg : f.Passes env m g) (hg : g.Ends env n o logs) :
    f.Ends env (m + n) o logs := by
  intro steps hsteps
  rw [hfg steps (by omega), hg (steps + m) (by omega), Nat.add_assoc]

/-! ## One instruction -/

/-- The step that carries out the instruction a frame is at. -/
theorem step_of_opAt? (hop : env.opAt? f.pc = some op) {steps : Nat}
    (hsteps : steps + 1 ≤ env.settings.stepLimit.toNat) :
    ∃ gas byte, Machine.step env ⟨f, steps⟩
      = (f.advance.perform env gas byte op).progress (steps + 1) := by
  obtain ⟨byte, hbyte, hop⟩ := Option.bind_eq_some_iff.mp hop
  have hcharge : Machine.charge? env ⟨f, steps⟩ = some (steps + 1) :=
    Machine.charge?_of_lt hsteps
  exact ⟨_, byte, Machine.step_eq_perform (m := ⟨f, steps⟩) hbyte hop hcharge⟩

/-- An instruction after which execution goes on. -/
theorem step_of_perform (hop : env.opAt? f.pc = some op)
    (h : ∀ gas byte, f.advance.perform env gas byte op = .next g) {steps : Nat}
    (hsteps : steps + 1 ≤ env.settings.stepLimit.toNat) :
    Machine.step env ⟨f, steps⟩ = .running ⟨g, steps + 1⟩ := by
  obtain ⟨gas, byte, hstep⟩ := step_of_opAt? hop hsteps
  rwa [h] at hstep

/-- **It is a passage.** -/
theorem passes_of_perform (hop : env.opAt? f.pc = some op)
    (h : ∀ gas byte, f.advance.perform env gas byte op = .next g) : f.Passes env 1 g := by
  intro steps hsteps
  rw [Machine.run_of_running (step_of_perform hop h hsteps), if_pos (Nat.lt_succ_self steps)]

/-- **One that ends the execution is an end.** -/
theorem ends_of_perform (hop : env.opAt? f.pc = some op)
    (h : ∀ gas byte, f.advance.perform env gas byte op = .finish o g) :
    f.Ends env 1 o g.logs.toList := by
  intro steps hsteps
  obtain ⟨gas, byte, hstep⟩ := step_of_opAt? hop hsteps
  rw [h] at hstep
  exact Machine.run_of_ended hstep

/-! ## Numbers -/

section Numbers

variable (hroom : stack.length < env.settings.stackLimit.toNat)
include hroom

/-- A word of calldata takes the place of its offset. -/
theorem perform_callDataLoad {offset : UInt256} (hstack : f.stack = offset :: stack) (gas : Nat)
    (byte : UInt8) : f.perform env gas byte .callDataLoad = .next { f with
      stack := numberOfBytes (zeroExtended env.calldata offset.toNat 32) :: stack } := by
  rw [perform, pop_of_stack hstack]
  exact push_of_lt hroom _

theorem passes_push (size : Nat) {x : UInt256} (hop : env.opAt? pc = some (.push size))
    (hx : numberOfBytes (zeroExtended env.code (pc + 1) size) = x) :
    (f.placed pc stack memory).Passes env 1 (f.placed (pc + 1 + size) (x :: stack) memory) := by
  subst hx
  exact passes_of_perform hop fun _ _ => push_of_lt hroom _

theorem passes_dup {n : Nat} {x : UInt256} (hop : env.opAt? pc = some (.dup n))
    (hx : stack[n - 1]? = some x) :
    (f.placed pc stack memory).Passes env 1 (f.placed (pc + 1) (x :: stack) memory) := by
  refine passes_of_perform hop fun _ _ => ?_
  have hx : (f.placed pc stack memory).advance.stack[n - 1]? = some x := hx
  simp only [perform, hx]
  exact push_of_lt hroom x

theorem passes_callDataLoad {offset : UInt256} (hop : env.opAt? pc = some .callDataLoad) :
    (f.placed pc (offset :: stack) memory).Passes env 1 (f.placed (pc + 1)
      (numberOfBytes (zeroExtended env.calldata offset.toNat 32) :: stack) memory) :=
  passes_of_perform hop (perform_callDataLoad hroom rfl)

theorem passes_binary (op : BinaryOp) {a b : UInt256} (hop : env.opAt? pc = some (.binary op)) :
    (f.placed pc (a :: b :: stack) memory).Passes env 1
      (f.placed (pc + 1) (op.apply a b :: stack) memory) :=
  passes_of_perform hop fun _ _ => (pop2_of_stack rfl _).trans (push_of_lt hroom _)

end Numbers

/-! ## Jumps -/

theorem passes_jumpDest (hop : env.opAt? pc = some .jumpDest) :
    (f.placed pc stack memory).Passes env 1 (f.placed (pc + 1) stack memory) :=
  passes_of_perform hop fun _ _ => rfl

/-- A jump on a condition goes on behind itself, or elsewhere. -/
theorem passes_jumpIf {dest condition : UInt256} (hop : env.opAt? pc = some .jumpIf)
    (hdest : env.targets.getD dest.toNat false = true) :
    (f.placed pc (dest :: condition :: stack) memory).Passes env 1
      (f.placed (if condition = 0 then pc + 1 else dest.toNat) stack memory) := by
  refine passes_of_perform hop fun _ _ => (pop2_of_stack rfl _).trans ?_
  by_cases hzero : condition = 0
  · rw [if_pos hzero, if_pos hzero]
    rfl
  · rw [if_neg hzero, if_neg hzero]
    exact if_pos hdest

/-! ## Memory -/

section Stretches

variable {offset len : UInt256} (hlimit : offset.toNat + len.toNat + 31
  ≤ env.settings.memoryLimit.toNat)
include hlimit

/-- A stretch a word below the limit is granted. -/
theorem reserve_of_le (hlen : len ≠ 0) (f : Frame) (k : Frame → Effect) :
    f.reserve env offset len k
      = k { f with memory := f.memory.grow (wholeWords (offset.toNat + len.toNat)) } := by
  have hmax : env.settings.memoryLimit.toNat ≤ maxSize :=
    Nat.le_pred_of_lt env.settings.memoryLimit.toNat_lt
  have hwords : wholeWords (offset.toNat + len.toNat) ≤ env.settings.memoryLimit.toNat := by
    unfold wholeWords
    omega
  unfold reserve
  rw [if_neg hlen]
  exact (if_neg (by omega)).trans (if_neg (by omega))

/-- A stretch that is granted is read, and the logs stay what they are. -/
theorem exists_fetch_of_le (f : Frame) (k : Bytes → Frame → Effect) :
    ∃ memory, f.fetch env offset len k
      = k (f.memory.read offset.toNat len.toNat) { f with memory := memory } := by
  unfold fetch
  by_cases hlen : len = 0
  · refine ⟨f.memory, ?_⟩
    rw [reserve, if_pos hlen]
  · exact ⟨_, reserve_of_le hlimit hlen f _⟩

/-- An instruction that ends the execution with a stretch of memory. -/
theorem ends_of_fetch {outcome : Bytes → Outcome} (hop : env.opAt? pc = some op)
    (hperform : ∀ gas byte f, perform env gas byte f op = f.pop2 fun offset len f =>
      f.fetch env offset len fun bs f => .finish (outcome bs) f) :
    (f.placed pc (offset :: len :: stack) memory).Ends env 1
      (outcome (memory.read offset.toNat len.toNat)) f.logs.toList := by
  obtain ⟨memory', hfetch⟩ := exists_fetch_of_le hlimit (f.placed (pc + 1) stack memory)
    fun bs f => .finish (outcome bs) f
  refine ends_of_perform (g := { f.placed (pc + 1) stack memory with memory := memory' }) hop ?_
  intro gas byte
  rw [hperform, pop2_of_stack rfl]
  exact hfetch

theorem ends_return_ (hop : env.opAt? pc = some .return_) :
    (f.placed pc (offset :: len :: stack) memory).Ends env 1
      (.returned (memory.read offset.toNat len.toNat)) f.logs.toList :=
  ends_of_fetch hlimit hop fun _ _ _ => rfl

theorem ends_revert (hop : env.opAt? pc = some .revert) :
    (f.placed pc (offset :: len :: stack) memory).Ends env 1
      (.reverted (memory.read offset.toNat len.toNat)) f.logs.toList :=
  ends_of_fetch hlimit hop fun _ _ _ => rfl

/-- A stretch is logged with topics off the stack. -/
theorem passes_log {n : Nat} (hn : n ≤ stack.length) (hop : env.opAt? pc = some (.log n)) :
    ∃ memory', (f.placed pc (offset :: len :: stack) memory).Passes env 1
      ({ f with logs := f.logs.push ⟨env.settings.block.address,
        (stack.take n).map Word.ofUInt256, memory.read offset.toNat len.toNat⟩ }.placed
          (pc + 1) (stack.drop n) memory') := by
  obtain ⟨memory', hfetch⟩ := exists_fetch_of_le hlimit (f.placed (pc + 1) (stack.drop n) memory)
    fun data f => .next { f with
      logs := f.logs.push ⟨env.settings.block.address, (stack.take n).map Word.ofUInt256, data⟩ }
  refine ⟨memory', passes_of_perform hop fun _ _ => (pop2_of_stack rfl _).trans ?_⟩
  exact (popMany_of_le hn _).trans hfetch

end Stretches

/-- The end of an execution that returns nothing. -/
theorem ends_stop (hop : env.opAt? pc = some .stop) :
    (f.placed pc stack memory).Ends env 1 (.returned []) f.logs.toList :=
  ends_of_perform (g := f.placed (pc + 1) stack memory) hop fun _ _ => rfl

theorem passes_memoryStore {offset x : UInt256} (hop : env.opAt? pc = some .memoryStore)
    (hlimit : offset.toNat + 32 + 31 ≤ env.settings.memoryLimit.toNat) :
    (f.placed pc (offset :: x :: stack) memory).Passes env 1
      (f.placed (pc + 1) stack (memory.stored offset.toNat x)) := by
  refine passes_of_perform hop fun _ _ => (pop2_of_stack rfl _).trans ?_
  have hlen : (32 : UInt256) ≠ 0 := by decide
  exact reserve_of_le hlimit hlen _ _

end Frame

/-! ## Executions -/

/-- What is said of the initial frame is said of the execution. -/
theorem execute_of_ends {settings : Settings} {code calldata : Bytes} {n : Nat} {o : Outcome}
    {logs : List Log} (hcode : code.length ≤ settings.maxCodeSize.toNat)
    (hsteps : n ≤ settings.stepLimit.toNat)
    (h : Frame.initial.Ends (Env.new settings code calldata) n o logs) :
    execute settings code calldata = .ok ⟨o, n, logs⟩ := by
  have hrun := h 0 (Nat.le_trans (Nat.le_of_eq (Nat.zero_add n)) hsteps)
  rw [Nat.zero_add] at hrun
  unfold execute
  rw [if_neg (Nat.not_lt.mpr hcode)]
  exact hrun

end EthCall.Evm
