import EthCall.Proofs.Evm.Jump
import Mathlib.Control.Monad.Basic

/-!
# Raising limits

A limit can end an execution, and apart from that an execution cannot tell
what its limits are. Two executions whose settings differ in the limits
alone therefore go the same way, step by step, until one of them comes to
its end by a limit (`Machine.agrees_step`). If the one with the lower
limits ends in any other way, the other one ends like it
(`execute_of_limits_le`).

There is one exception, an instruction that asks how many instructions are
left. It has to be absent where instructions start; the same byte among
the pushed ones does no harm.
-/

namespace EthCall.Evm

/-! ## Ends that limits bring about -/

/-- **The same block, and no limit lower.** Where the limits come from does
not matter. -/
structure Settings.LimitsLe (s s' : Settings) : Prop where
  /-- The block is the same. -/
  block_eq : s.block = s'.block
  /-- As many instructions may be carried out. -/
  stepLimit_le : s.stepLimit ≤ s'.stepLimit
  /-- As much memory may be in use. -/
  memoryLimit_le : s.memoryLimit ≤ s'.memoryLimit
  /-- The stack may be as deep. -/
  stackLimit_le : s.stackLimit ≤ s'.stackLimit
  /-- The code may be as long. -/
  maxCodeSize_le : s.maxCodeSize ≤ s'.maxCodeSize

/-- A fault for which a limit is to blame. -/
def Fault.IsLimit : Fault → Prop
  | .stepLimitExceeded _ => True
  | .memoryLimitExceeded _ _ => True
  | .codeTooLarge _ _ => True
  | .unsupportedOpcode _ _ => False

/-- An outcome for which a limit is to blame, if the stack limits are not
the same. It is the only one. -/
def Outcome.IsLimit (s s' : Settings) (o : Outcome) : Prop :=
  o = .halted .stackOverflow ∧ s.stackLimit ≠ s'.stackLimit

/-- An effect for which a limit is to blame. -/
def Effect.IsLimit (s s' : Settings) : Effect → Prop
  | .next _ => False
  | .finish o _ => o.IsLimit s s'
  | .fault e _ => e.IsLimit

/-- A step that leads to an end for which a limit is to blame. -/
def Progress.IsLimit (s s' : Settings) : Progress → Prop
  | .running _ => False
  | .ended o _ => o.IsLimit s s'
  | .stopped e _ => e.IsLimit

/-- **Two effects agree**: they are the same, or a limit is to blame for the
first. -/
def Effect.Agrees (s s' : Settings) (e e' : Effect) : Prop :=
  e = e' ∨ e.IsLimit s s'

/-- The same for what two steps lead to. -/
def Progress.Agrees (s s' : Settings) (p p' : Progress) : Prop :=
  p = p' ∨ p.IsLimit s s'

/-- Steps agree if their instructions do. -/
theorem Effect.Agrees.progress {s s' : Settings} {e e' : Effect} (h : e.Agrees s s' e')
    (steps : Nat) : (e.progress steps).Agrees s s' (e'.progress steps) := by
  rcases h with rfl | hlimit
  · exact .inl rfl
  · refine .inr ?_
    cases e <;> exact hlimit

/-- The byte of the instruction that asks how many instructions are
left. -/
def gasByte : UInt8 := 0x5a

/-- No other byte stands for it. -/
theorem eq_gasByte_of_ofByte? {byte : UInt8} (h : Op.ofByte? byte = some (.context .gas)) :
    byte = gasByte :=
  forall_byte (P := fun byte => Op.ofByte? byte = some (.context .gas) → byte = gasByte)
    (by decide +kernel) byte h

/-- The same surroundings under other settings. -/
def Env.withSettings (env : Env) (s' : Settings) : Env := { env with settings := s' }

namespace Frame

variable {env : Env} {s' : Settings} (h : env.settings.LimitsLe s')

/-! ## The parts of an instruction -/

theorem agrees_pop {k k' : UInt256 → Frame → Effect}
    (hk : ∀ a g, (k a g).Agrees env.settings s' (k' a g)) (f : Frame) :
    (f.pop k).Agrees env.settings s' (f.pop k') := by
  unfold pop
  split
  · exact hk _ _
  · exact .inl rfl

theorem agrees_pop2 {k k' : UInt256 → UInt256 → Frame → Effect}
    (hk : ∀ a b g, (k a b g).Agrees env.settings s' (k' a b g)) (f : Frame) :
    (f.pop2 k).Agrees env.settings s' (f.pop2 k') :=
  agrees_pop (fun a => agrees_pop (hk a)) f

theorem agrees_pop3 {k k' : UInt256 → UInt256 → UInt256 → Frame → Effect}
    (hk : ∀ a b c g, (k a b c g).Agrees env.settings s' (k' a b c g)) (f : Frame) :
    (f.pop3 k).Agrees env.settings s' (f.pop3 k') :=
  agrees_pop2 (fun a b => agrees_pop (hk a b)) f

theorem agrees_popMany {n : Nat} {k k' : List UInt256 → Frame → Effect}
    (hk : ∀ xs g, (k xs g).Agrees env.settings s' (k' xs g)) (f : Frame) :
    (f.popMany n k).Agrees env.settings s' (f.popMany n k') := by
  unfold popMany
  split
  · exact hk _ _
  · exact .inl rfl

include h

/-- What has room on a stack has room on a deeper one. -/
theorem agrees_push (f : Frame) (x : UInt256) :
    (f.push env x).Agrees env.settings s' (f.push (env.withSettings s') x) := by
  by_cases hroom : f.stack.length < env.settings.stackLimit.toNat
  · have hroom' : f.stack.length < (env.withSettings s').settings.stackLimit.toNat :=
      Nat.lt_of_lt_of_le hroom h.stackLimit_le
    rw [push_of_lt hroom, push_of_lt hroom']
    exact .inl rfl
  · by_cases heq : env.settings.stackLimit = s'.stackLimit
    · refine .inl ?_
      unfold push
      rw [show (env.withSettings s').settings.stackLimit = env.settings.stackLimit from heq.symm]
    · refine .inr ?_
      rw [push, if_neg hroom]
      exact ⟨rfl, heq⟩

/-- What is granted is granted by a higher limit, and nothing else is. -/
theorem agrees_reserve {offset len : UInt256} {k k' : Frame → Effect}
    (hk : ∀ g, (k g).Agrees env.settings s' (k' g)) (f : Frame) :
    (f.reserve env offset len k).Agrees env.settings s'
      (f.reserve (env.withSettings s') offset len k') := by
  unfold reserve
  by_cases hlen : len = 0
  · rw [if_pos hlen, if_pos hlen]
    exact hk f
  · rw [if_neg hlen, if_neg hlen]
    by_cases hmax : maxSize < offset.toNat + len.toNat + 31
    · exact .inr (by simp only [if_pos hmax]; trivial)
    · by_cases hlimit : env.settings.memoryLimit.toNat < wholeWords (offset.toNat + len.toNat)
      · exact .inr (by simp only [if_neg hmax, if_pos hlimit]; trivial)
      · have hlimit' : ¬ (env.withSettings s').settings.memoryLimit.toNat
            < wholeWords (offset.toNat + len.toNat) :=
          fun hlt => hlimit (Nat.lt_of_le_of_lt h.memoryLimit_le hlt)
        simp only [if_neg hmax, if_neg hlimit, if_neg hlimit']
        exact hk _

theorem agrees_fetch {offset len : UInt256} {k k' : Bytes → Frame → Effect}
    (hk : ∀ bs g, (k bs g).Agrees env.settings s' (k' bs g)) (f : Frame) :
    (f.fetch env offset len k).Agrees env.settings s'
      (f.fetch (env.withSettings s') offset len k') :=
  agrees_reserve h (fun _ => hk _ _) f

theorem agrees_put (offset len : UInt256) (bs : Unit → Bytes) (f : Frame) :
    (f.put env offset len bs).Agrees env.settings s'
      (f.put (env.withSettings s') offset len bs) :=
  agrees_reserve h (fun _ => .inl rfl) f

/-- **No question has an answer that tells of the limits**, except the one
about the instructions that are left. -/
theorem answer_withSettings (gas gas' : Nat) (f : Frame) {q : ContextOp} (hq : q ≠ .gas) :
    f.answer (env.withSettings s') gas' q = f.answer env gas q := by
  have hblock : (env.withSettings s').settings.block = env.settings.block := h.block_eq.symm
  cases q with
  | gas => exact absurd rfl hq
  | _ => simp only [answer, hblock] <;> rfl

/-! ## Instructions -/

/-- **An instruction does the same under higher limits**, unless a limit
ends it. -/
theorem agrees_perform (gas gas' : Nat) (byte : UInt8) {op : Op} (hop : op ≠ .context .gas)
    (f : Frame) :
    (f.perform env gas byte op).Agrees env.settings s'
      (f.perform (env.withSettings s') gas' byte op) := by
  cases op with
  | stop | jumpDest | invalid | external => exact .inl rfl
  | unary | record | callDataLoad => exact agrees_pop (fun _ g => agrees_push h g _) f
  | storageLoad => exact agrees_pop (fun key g => agrees_push h g (g.storage.getD key 0)) f
  | transientLoad => exact agrees_pop (fun key g => agrees_push h g (g.transient.getD key 0)) f
  | binary => exact agrees_pop2 (fun _ _ g => agrees_push h g _) f
  | ternary => exact agrees_pop3 (fun _ _ _ g => agrees_push h g _) f
  | keccak256 => exact agrees_pop2 (fun _ _ => agrees_fetch h fun _ g => agrees_push h g _) f
  | context q =>
    have hq : q ≠ .gas := fun heq => hop (congrArg Op.context heq)
    rw [perform, perform, answer_withSettings h gas gas' f hq]
    exact agrees_push h f _
  | callDataCopy | codeCopy => exact agrees_pop3 (fun dest _ len => agrees_put h dest len _) f
  | memoryLoad => exact agrees_pop (fun _ => agrees_fetch h fun _ g => agrees_push h g _) f
  | memoryStore => exact agrees_pop2 (fun offset _ => agrees_put h offset 32 _) f
  | memoryStore8 => exact agrees_pop2 (fun offset _ => agrees_put h offset 1 _) f
  | memoryCopy =>
    exact agrees_pop3 (fun _ _ _ => agrees_reserve h (agrees_fetch h fun _ _ => .inl rfl)) f
  | push size => exact agrees_push h _ _
  | dup n =>
    unfold perform
    dsimp only
    split
    · exact agrees_push h f _
    · exact .inl rfl
  | log n =>
    have hblock : (env.withSettings s').settings.block = env.settings.block := h.block_eq.symm
    unfold perform
    dsimp only
    rw [hblock]
    exact agrees_pop2 (fun _ _ => agrees_popMany fun _ => agrees_fetch h fun _ _ => .inl rfl) f
  | return_ | revert => exact agrees_pop2 (fun _ _ => agrees_fetch h fun _ _ => .inl rfl) f
  | pop | returnDataCopy | storageStore | transientStore | jump | jumpIf | swap => exact .inl rfl

/-- The same for the instruction of a byte, or for a byte that is none. -/
theorem agrees_dispatch (gas gas' : Nat) {byte : UInt8} (hbyte : byte ≠ gasByte) (f : Frame) :
    (f.dispatch env gas byte).Agrees env.settings s'
      (f.dispatch (env.withSettings s') gas' byte) := by
  unfold dispatch
  cases hop : Op.ofByte? byte with
  | none => exact .inl rfl
  | some op =>
    have hgas : op ≠ .context .gas := by
      rintro rfl
      exact hbyte (eq_gasByte_of_ofByte? hop)
    exact agrees_perform h gas gas' byte hgas f

end Frame

/-! ## Executions -/

namespace Machine

variable {env : Env} {s' : Settings} (h : env.settings.LimitsLe s')
include h

/-- An instruction that may be carried out may be carried out under a
higher limit. -/
theorem charge?_withSettings {m : Machine} {steps : Nat} (hsteps : m.charge? env = some steps) :
    m.charge? (env.withSettings s') = some steps := by
  have hle := le_of_charge? hsteps
  have heq : min (m.steps + 1) maxSize = steps := by
    simp only [charge?] at hsteps
    split at hsteps
    · cases hsteps
    · exact Option.some.inj hsteps
  have hlimit : ¬ (env.withSettings s').settings.stepLimit.toNat < steps :=
    Nat.not_lt.mpr (Nat.le_trans hle h.stepLimit_le)
  simp only [charge?, heq]
  exact if_neg hlimit

/-- **A step does the same under higher limits**, unless a limit ends the
execution. -/
theorem agrees_step {m : Machine} (hgas : env.code[m.frame.pc]? ≠ some gasByte) :
    (m.step env).Agrees env.settings s' (m.step (env.withSettings s')) := by
  rcases step_cases env m with ⟨hend, heq⟩ | ⟨-, heq⟩ | ⟨byte, steps, hbyte, hsteps, heq⟩
  · refine .inl ?_
    have hend' : (env.withSettings s').code[m.frame.pc]? = none := hend
    rw [heq, step, hend']
  · refine .inr ?_
    rw [heq]
    trivial
  · have hbyte' : (env.withSettings s').code[m.frame.pc]? = some byte := hbyte
    rw [heq, step_eq hbyte' (charge?_withSettings h hsteps)]
    have hne : byte ≠ gasByte := fun heq => hgas (heq ▸ hbyte)
    exact (Frame.agrees_dispatch h _ _ hne _).progress steps

omit h

/-! ### To the end -/

variable {m m' : Machine}

theorem run_of_running (hstep : m.step env = .running m') :
    m.run env = if m.steps < m'.steps then m'.run env
      else .error (.stepLimitExceeded env.settings.stepLimit.toNat) := by
  rw [run]
  split
  case h_1 heq =>
    cases hstep.symm.trans heq
    rfl
  all_goals
    rename_i heq
    cases hstep.symm.trans heq

theorem run_of_ended {o : Outcome} (hstep : m.step env = .ended o m') :
    m.run env = .ok ⟨o, m'.steps, m'.frame.logs.toList⟩ := by
  rw [run]
  split
  case h_2 heq =>
    cases hstep.symm.trans heq
    rfl
  all_goals
    rename_i heq
    cases hstep.symm.trans heq

theorem run_of_stopped {e : Fault} (hstep : m.step env = .stopped e m') :
    m.run env = .error e := by
  rw [run]
  split
  case h_3 heq =>
    cases hstep.symm.trans heq
    rfl
  all_goals
    rename_i heq
    cases hstep.symm.trans heq

/-- A result for which a limit is to blame. -/
def IsLimitResult (s s' : Settings) : Except Fault Execution → Prop
  | .ok x => x.outcome.IsLimit s s'
  | .error e => e.IsLimit

/-- **An execution has the same result under higher limits**, unless a
limit is to blame for it. -/
theorem agrees_run {s s' : Settings} {code calldata : Bytes} (h : s.LimitsLe s')
    (hgas : ∀ p, InstructionStart code p → code[p]? ≠ some gasByte)
    (hm : InstructionStart code m.frame.pc) :
    m.run (Env.new s code calldata) = m.run (Env.new s' code calldata)
      ∨ IsLimitResult s s' (m.run (Env.new s code calldata)) := by
  have hagrees {m : Machine} (hm : InstructionStart code m.frame.pc) :
      (m.step (Env.new s code calldata)).Agrees s s' (m.step (Env.new s' code calldata)) :=
    agrees_step h fun heq => hgas _ hm (List.getElem?_toArray.symm.trans heq)
  induction m using run.induct (Env.new s code calldata) with
  | case1 m m' hstep hlt ih =>
    have hstart : InstructionStart code
        (m.step (Env.new s code calldata)).machine.frame.pc := instructionStart_pc_step hm
    rw [hstep] at hstart
    rcases hagrees hm with heq | hlimit
    · rw [run_of_running hstep, run_of_running (heq.symm.trans hstep), if_pos hlt, if_pos hlt]
      exact ih hstart
    · rw [hstep] at hlimit
      exact hlimit.elim
  | case2 m m' hstep hlt =>
    refine .inr ?_
    rw [run_of_running hstep, if_neg hlt]
    trivial
  | case3 m o m' hstep =>
    rw [run_of_ended hstep]
    rcases hagrees hm with heq | hlimit
    · exact .inl (run_of_ended (heq.symm.trans hstep)).symm
    · rw [hstep] at hlimit
      exact .inr hlimit
  | case4 m e m' hstep =>
    rw [run_of_stopped hstep]
    rcases hagrees hm with heq | hlimit
    · exact .inl (run_of_stopped (heq.symm.trans hstep)).symm
    · rw [hstep] at hlimit
      exact .inr hlimit

end Machine

/-- The same for code that may be too long. -/
theorem agrees_execute {s s' : Settings} {code : Bytes} (h : s.LimitsLe s')
    (hgas : ∀ p, InstructionStart code p → code[p]? ≠ some gasByte) (calldata : Bytes) :
    execute s code calldata = execute s' code calldata
      ∨ Machine.IsLimitResult s s' (execute s code calldata) := by
  unfold execute
  by_cases hsize : s.maxCodeSize.toNat < code.length
  · rw [if_pos hsize]
    exact .inr trivial
  · have hsize' : ¬ s'.maxCodeSize.toNat < code.length :=
      fun hlt => hsize (Nat.lt_of_le_of_lt h.maxCodeSize_le hlt)
    rw [if_neg hsize, if_neg hsize']
    exact Machine.agrees_run h hgas .first

/-- **Higher limits never change how an execution ends**, if no instruction
asks how many are left: outcome, count and logs are the same. Only a stack
that was too deep for lower limits may now have room. Neither do they help
an execution that needs the state of other accounts. -/
theorem execute_of_limits_le {s s' : Settings} (h : s.LimitsLe s') {code : Bytes}
    (hgas : ∀ p, InstructionStart code p → code[p]? ≠ some gasByte) (calldata : Bytes) :
    (∀ x, execute s code calldata = .ok x →
      x.outcome ≠ .halted .stackOverflow ∨ s.stackLimit = s'.stackLimit →
      execute s' code calldata = .ok x)
    ∧ ∀ byte op, execute s code calldata = .error (.unsupportedOpcode byte op) →
      execute s' code calldata = .error (.unsupportedOpcode byte op) := by
  constructor
  · intro x hx hstack
    rcases agrees_execute h hgas calldata with heq | hlimit
    · exact heq.symm.trans hx
    · rw [hx] at hlimit
      obtain ⟨houtcome, hne⟩ := hlimit
      exact absurd hstack (not_or.mpr ⟨not_not_intro houtcome, hne⟩)
  · intro byte op hfault
    rcases agrees_execute h hgas calldata with heq | hlimit
    · exact heq.symm.trans hfault
    · rw [hfault] at hlimit
      exact hlimit.elim

/-- Settings that allow four instructions, a word of memory, two numbers on
the stack and six bytes of code. -/
def tightSettings : Settings := ⟨.custom, 4, 32, 2, 6, .initial⟩

theorem tightSettings_limitsLe : tightSettings.LimitsLe .standard :=
  ⟨rfl, by decide, by decide, by decide, by decide⟩

/-- A pushed `gasByte` is stored in memory, and then the instruction `last`
comes. -/
def storingCode (last : UInt8) : Bytes := [0x60, gasByte, 0x60, 0, 0x52, last]

/-- The byte that asks for the instructions left is only pushed. -/
theorem storingCode_ne_gasByte {last : UInt8} (h : last ≠ gasByte) (p : Nat)
    (hp : InstructionStart (storingCode last) p) : (storingCode last)[p]? ≠ some gasByte := by
  match p with
  | 0 | 2 | 3 | 4 => exact of_decide_eq_true rfl
  | 1 =>
    -- the scan has the pushed byte still to skip
    have hskip : (scanned (storingCode last) 1).skip = 0 :=
      (skip_scanned_eq_zero_iff (Nat.le_add_left 1 5)).mpr hp
    cases hskip
  | 5 => exact fun heq => h (Option.some.inj heq)
  | _ + 6 => exact of_decide_eq_true rfl

/-- Settings that allow just what is needed have the result that the
standard ones have, and the fault. -/
theorem execute_of_limits_le_storing :
    execute tightSettings (storingCode 0) [] = .ok ⟨.returned [], 4, []⟩
      ∧ execute .standard (storingCode 0) [] = .ok ⟨.returned [], 4, []⟩
      ∧ execute tightSettings (storingCode 0xf1) [] = .error (.unsupportedOpcode 0xf1 .call)
      ∧ execute .standard (storingCode 0xf1) [] = .error (.unsupportedOpcode 0xf1 .call) :=
  have hreturn : execute tightSettings (storingCode 0) [] = .ok ⟨.returned [], 4, []⟩ := by
    decide +kernel
  have hcall : execute tightSettings (storingCode 0xf1) []
      = .error (.unsupportedOpcode 0xf1 .call) := by decide +kernel
  ⟨hreturn,
    (execute_of_limits_le tightSettings_limitsLe (storingCode_ne_gasByte (by decide)) []).1 _
      hreturn (.inl (by decide)),
    hcall,
    (execute_of_limits_le tightSettings_limitsLe (storingCode_ne_gasByte (by decide)) []).2 _ _
      hcall⟩

end EthCall.Evm
