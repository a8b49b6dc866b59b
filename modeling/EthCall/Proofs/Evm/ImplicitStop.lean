import EthCall.Proofs.Evm.Layout
import EthCall.Proofs.Evm.Limits
import EthCall.Proofs.Evm.Row

/-!
# The zeros behind the code

An execution that comes to the end of its code ends as if the code went on
with zeros, which are stops. Code is read in four places, and each has its
own idea of where it ends: the next instruction, the bytes of a push, a
stretch that is copied into memory, and the places that a jump may lead
to. That zeros may be put behind the code is so a statement about all four
of them.

To every instruction but one the longer code looks the same
(`Env.LooksLike`): it pushes and copies the same bytes, and its jumps are
granted or refused alike. The one instruction that tells them apart asks
for the size of the code. As long as none does, the two executions go the
same way, step by step, and they part where the shorter code ends. There
one of them ends without an instruction, and the other one may carry out a
stop, which is counted (`Machine.endsLike_run`).
-/

namespace EthCall.Evm

/-! ## Code that looks the same -/

/-- **Surroundings that look the same** to every instruction that does not
ask for the size of the code. -/
structure Env.LooksLike (env env' : Env) : Prop where
  /-- The settings are the same. -/
  settings_eq : env'.settings = env.settings
  /-- The calldata are the same. -/
  calldata_eq : env'.calldata = env.calldata
  /-- The same bytes are read off the code. -/
  code_eq : ∀ offset len, zeroExtended env'.code offset len = zeroExtended env.code offset len
  /-- A jump may lead to the same places. -/
  targets_eq : ∀ dest, env'.targets.getD dest false = env.targets.getD dest false

namespace Frame

variable {env env' : Env}

/-- **An instruction cannot tell surroundings apart** that look the same,
unless it asks for the size of the code. -/
theorem perform_of_looksLike (h : env.LooksLike env') (gas : Nat) (byte : UInt8) {op : Op}
    (hop : op ≠ .context .codeSize) (f : Frame) :
    f.perform env' gas byte op = f.perform env gas byte op := by
  obtain ⟨settings, code, targets, calldata⟩ := env
  obtain ⟨settings', code', targets', calldata'⟩ := env'
  obtain ⟨hsettings, hcalldata, hcode, htargets⟩ := h
  obtain rfl : settings' = settings := hsettings
  obtain rfl : calldata' = calldata := hcalldata
  have hjump (f : Frame) (dest : UInt256) :
      f.jumpTo ⟨settings', code', targets', calldata'⟩ dest
        = f.jumpTo ⟨settings', code, targets, calldata'⟩ dest := by
    simp only [jumpTo, htargets]
  cases op with
  | context q =>
    cases q with
    | codeSize => exact absurd rfl hop
    | _ => rfl
  | codeCopy | push =>
    simp only [perform, hcode]
    rfl
  | jump | jumpIf => simp only [perform, hjump]
  | _ => rfl

end Frame

/-- The byte of the instruction that asks for the size of the code. -/
def codeSizeByte : UInt8 := 0x38

/-- No other byte stands for it. -/
theorem eq_codeSizeByte_of_ofByte? {byte : UInt8}
    (h : Op.ofByte? byte = some (.context .codeSize)) : byte = codeSizeByte :=
  forall_byte (P := fun byte => Op.ofByte? byte = some (.context .codeSize) → byte = codeSizeByte)
    (by decide +kernel) byte h

/-- The same for the instruction of a byte, or for a byte that is none. -/
theorem Frame.dispatch_of_looksLike {env env' : Env} (h : env.LooksLike env') (gas : Nat)
    {byte : UInt8} (hbyte : byte ≠ codeSizeByte) (f : Frame) :
    f.dispatch env' gas byte = f.dispatch env gas byte := by
  unfold dispatch
  cases hop : Op.ofByte? byte with
  | none => rfl
  | some op =>
    have hsize : op ≠ .context .codeSize := by
      rintro rfl
      exact hbyte (eq_codeSizeByte_of_ofByte? hop)
    exact perform_of_looksLike h gas byte hsize f

/-! ## Zeros behind the code -/

variable {code : Bytes}

/-- A zero marks no place. -/
theorem isJumpTarget_append_zeros (code : Bytes) (k d : Nat) :
    IsJumpTarget (code ++ Bytes.zeros k) d ↔ IsJumpTarget code d := by
  constructor
  · rintro ⟨hlen, hstart, hbyte⟩
    rcases Nat.lt_or_ge d code.length with hin | hout
    · exact ⟨hin, hstart.of_append (Nat.le_of_lt hin),
        (List.getElem?_append_left hin).symm.trans hbyte⟩
    · rw [List.getElem?_append_right hout] at hbyte
      have hzero := List.eq_of_mem_replicate (List.mem_of_getElem? hbyte)
      exact absurd hzero (by decide)
  · rintro ⟨hlen, hstart, hbyte⟩
    refine ⟨?_, hstart.append _, (List.getElem?_append_left hlen).trans hbyte⟩
    rw [List.length_append]
    omega

/-- **Code with zeros behind it looks the same.** -/
theorem Env.looksLike_append_zeros (settings : Settings) (code calldata : Bytes) (k : Nat) :
    (Env.new settings code calldata).LooksLike
      (Env.new settings (code ++ Bytes.zeros k) calldata) where
  settings_eq := rfl
  calldata_eq := rfl
  code_eq offset len := by
    show zeroExtended (code ++ Bytes.zeros k).toArray offset len = zeroExtended code.toArray _ _
    rw [zeroExtended_toArray, zeroExtended_toArray, Row.ofBytes_append_zeros]
  targets_eq dest := by
    rw [Bool.eq_iff_iff]
    exact (getD_jumpTargets _ _).trans
      ((isJumpTarget_append_zeros code k dest).trans (getD_jumpTargets _ _).symm)

/-! ## The two executions -/

/-- **Ends alike**: the outcome and the logs are the same, and there is at
most one instruction more. -/
structure Execution.EndsLike (x x' : Execution) : Prop where
  /-- The outcome is the same. -/
  outcome_eq : x'.outcome = x.outcome
  /-- The logs are the same. -/
  logs_eq : x'.logs = x.logs
  /-- One instruction more may have been carried out. -/
  steps_eq : x'.steps = x.steps ∨ x'.steps = x.steps + 1

namespace Machine

variable {settings : Settings} {calldata : Bytes} {m : Machine}

/-- The end of the code ends the execution. -/
theorem step_of_length_le (settings : Settings) (calldata : Bytes)
    (hpc : code.length ≤ m.frame.pc) :
    m.step (Env.new settings code calldata) = .ended (.returned []) m := by
  have hnone : (Env.new settings code calldata).code[m.frame.pc]? = none :=
    List.getElem?_toArray.trans (List.getElem?_eq_none hpc)
  unfold step
  rw [hnone]

/-- An instruction of the code does the same with zeros behind the
code. -/
theorem step_append_zeros (settings : Settings) (calldata : Bytes) (k : Nat)
    (hpc : m.frame.pc < code.length) (hsize : code[m.frame.pc]? ≠ some codeSizeByte) :
    m.step (Env.new settings (code ++ Bytes.zeros k) calldata)
      = m.step (Env.new settings code calldata) := by
  have hbyte := List.getElem?_eq_getElem hpc
  have hcode : (Env.new settings code calldata).code[m.frame.pc]? = some code[m.frame.pc] :=
    List.getElem?_toArray.trans hbyte
  have hcode' : (Env.new settings (code ++ Bytes.zeros k) calldata).code[m.frame.pc]?
      = some code[m.frame.pc] :=
    List.getElem?_toArray.trans ((List.getElem?_append_left hpc).trans hbyte)
  have hcharge : m.charge? (Env.new settings (code ++ Bytes.zeros k) calldata)
      = m.charge? (Env.new settings code calldata) := rfl
  have hne : code[m.frame.pc] ≠ codeSizeByte := fun heq => hsize (heq ▸ hbyte)
  unfold step
  rw [hcode, hcode', hcharge]
  cases m.charge? (Env.new settings code calldata) with
  | none => rfl
  | some steps =>
    exact congrArg (Effect.progress steps) (Frame.dispatch_of_looksLike
      (Env.looksLike_append_zeros settings code calldata k) _ hne _)

/-- Where the code has ended, the zeros behind it end the execution as
well: it carries out one of them, or has come past them. -/
theorem exists_ended_append_zeros (calldata : Bytes) (k : Nat) (hpc : code.length ≤ m.frame.pc)
    (hsteps : m.steps < settings.stepLimit.toNat) :
    ∃ m', m.step (Env.new settings (code ++ Bytes.zeros k) calldata) = .ended (.returned []) m'
      ∧ m'.frame.logs = m.frame.logs ∧ (m'.steps = m.steps ∨ m'.steps = m.steps + 1) := by
  rcases Nat.lt_or_ge m.frame.pc (code.length + k) with hin | hout
  · have hbyte : (Env.new settings (code ++ Bytes.zeros k) calldata).code[m.frame.pc]?
        = some 0 := by
      refine List.getElem?_toArray.trans ((List.getElem?_append_right hpc).trans ?_)
      exact List.getElem?_replicate_of_lt (by omega)
    exact ⟨_, step_eq hbyte (charge?_of_lt hsteps), rfl, .inr rfl⟩
  · have hend : (code ++ Bytes.zeros k).length ≤ m.frame.pc := by
      rw [List.length_append, Bytes.length_zeros]
      exact hout
    exact ⟨m, step_of_length_le settings calldata hend, rfl, .inl rfl⟩

/-- **An execution that ends, ends alike with zeros behind its code**, if
no instruction asks for the size of the code and the limit allows one
instruction more. -/
theorem endsLike_run {x : Execution} (k : Nat)
    (hsize : ∀ p, InstructionStart code p → code[p]? ≠ some codeSizeByte)
    (hm : InstructionStart code m.frame.pc)
    (hx : m.run (Env.new settings code calldata) = .ok x)
    (hsteps : x.steps < settings.stepLimit.toNat) :
    ∃ x', m.run (Env.new settings (code ++ Bytes.zeros k) calldata) = .ok x'
      ∧ x.EndsLike x' := by
  induction m using run.induct (Env.new settings code calldata) with
  | case1 m m' hstep hlt ih =>
    rcases Nat.lt_or_ge m.frame.pc code.length with hpc | hpc
    · have hstart : InstructionStart code
          (m.step (Env.new settings code calldata)).machine.frame.pc :=
        instructionStart_pc_step hm
      rw [hstep] at hstart
      have hstep' := (step_append_zeros settings calldata k hpc (hsize _ hm)).trans hstep
      rw [run_of_running hstep, if_pos hlt] at hx
      rw [run_of_running hstep', if_pos hlt]
      exact ih hstart hx
    · cases (step_of_length_le settings calldata hpc).symm.trans hstep
  | case2 m m' hstep hlt =>
    rw [run_of_running hstep, if_neg hlt] at hx
    cases hx
  | case3 m o m' hstep =>
    rw [run_of_ended hstep] at hx
    cases hx
    rcases Nat.lt_or_ge m.frame.pc code.length with hpc | hpc
    · have hstep' := (step_append_zeros settings calldata k hpc (hsize _ hm)).trans hstep
      exact ⟨_, run_of_ended hstep', rfl, rfl, .inl rfl⟩
    · -- the executions part here, as the shorter code has ended
      cases (step_of_length_le settings calldata hpc).symm.trans hstep
      obtain ⟨m', hstep', hlogs, hcount⟩ := exists_ended_append_zeros calldata k hpc hsteps
      exact ⟨_, run_of_ended hstep', rfl, congrArg Array.toList hlogs, hcount⟩
  | case4 m e m' hstep =>
    rw [run_of_stopped hstep] at hx
    cases hx

end Machine

/-- **Zeros behind the code change nothing**, as long as the code may be so
long: if no instruction asks for its size, an execution that ends with an
instruction to spare has the same outcome and the same logs, and carries
out at most one instruction more. Bytes that are pushed may look like the
one that asks. -/
theorem execute_append_zeros {settings : Settings} {code : Bytes}
    (hsize : ∀ p, InstructionStart code p → code[p]? ≠ some codeSizeByte) {k : Nat}
    (hk : code.length + k ≤ settings.maxCodeSize.toNat) {calldata : Bytes} {x : Execution}
    (hx : execute settings code calldata = .ok x)
    (hsteps : x.steps < settings.stepLimit.toNat) :
    ∃ x', execute settings (code ++ Bytes.zeros k) calldata = .ok x'
      ∧ x'.outcome = x.outcome ∧ x'.logs = x.logs
      ∧ (x'.steps = x.steps ∨ x'.steps = x.steps + 1) := by
  have hcode : ¬ settings.maxCodeSize.toNat < code.length := by omega
  have hcode' : ¬ settings.maxCodeSize.toNat < (code ++ Bytes.zeros k).length := by
    rw [List.length_append, Bytes.length_zeros]
    omega
  unfold execute at hx ⊢
  rw [if_neg hcode] at hx
  rw [if_neg hcode']
  obtain ⟨x', hx', hlike⟩ := Machine.endsLike_run k hsize .first hx hsteps
  exact ⟨x', hx', hlike.outcome_eq, hlike.logs_eq, hlike.steps_eq⟩

/-- Code that copies itself into memory, with zeros behind it, logs its last
byte with the first of them, and ends with a push that has none of its two
bytes. The number of bytes it copies looks like the question for its
size. -/
def openEndedCode : Bytes :=
  [0x60, codeSizeByte, 0x5f, 0x5f, 0x39, 0x60, 2, 0x60, 10, 0xa0, 0x61]

/-- Two zeros behind the code are pushed, and a third one is a stop. -/
theorem execute_append_zeros_openEnded :
    execute .standard openEndedCode []
        = .ok ⟨.returned [], 8, [⟨Settings.standard.block.address, [], [0x61, 0]⟩]⟩
      ∧ (∃ x, execute .standard (openEndedCode ++ Bytes.zeros 2) [] = .ok x
        ∧ x.outcome = .returned [] ∧ (x.steps = 8 ∨ x.steps = 9))
      ∧ ∃ x, execute .standard (openEndedCode ++ Bytes.zeros 3) [] = .ok x
        ∧ x.outcome = .returned [] ∧ (x.steps = 8 ∨ x.steps = 9) := by
  have hsize : ∀ p, InstructionStart openEndedCode p → openEndedCode[p]? ≠ some codeSizeByte :=
    forall_instructionStart_ne (by decide +kernel)
  have hx : execute .standard openEndedCode []
      = .ok ⟨.returned [], 8, [⟨Settings.standard.block.address, [], [0x61, 0]⟩]⟩ := by
    decide +kernel
  obtain ⟨x, hx', houtcome, -, hsteps⟩ :=
    execute_append_zeros hsize (k := 2) (by decide +kernel) hx (by decide)
  obtain ⟨y, hy, houtcome', -, hsteps'⟩ :=
    execute_append_zeros hsize (k := 3) (by decide +kernel) hx (by decide)
  exact ⟨hx, ⟨x, hx', houtcome, hsteps⟩, ⟨y, hy, houtcome', hsteps'⟩⟩

end EthCall.Evm
