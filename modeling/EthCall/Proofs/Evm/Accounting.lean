import EthCall.Proofs.Evm.Bounds
import EthCall.Proofs.Evm.Limits
import Mathlib

/-!
# Counting instructions

Code can go in circles for ever. What brings an execution to an end all
the same is the count of instructions. Every step that goes on has raised
it, by one and before anything else, and it is not raised beyond the limit.

The count is compared here with what is counted, the steps that carry out
an instruction (`Machine.executed`), and they are the same at all times
(`Machine.steps_after`). A step at the end of the code carries out nothing
and is not counted; it is why there may be one step more than
instructions. From there on the count tells where an execution is, and the
one place where it can be used up is the end that the limit brings about
(`Machine.run_counts_instructions`).

Where the limit is the largest number a count can be, nothing of this
holds: the count stays there, and the limit is never exceeded.
-/

namespace EthCall.Evm

/-! ## What instructions fail with

Only the count can exceed the limit of instructions. No instruction fails
in this way. -/

/-- A fault that an instruction can have. -/
def Fault.OfInstruction : Fault → Prop
  | .memoryLimitExceeded _ _ => True
  | .unsupportedOpcode _ _ => True
  | _ => False

/-- An effect whose fault, if it is one, is that of an instruction. -/
def Effect.FaultsByItself (e : Effect) : Prop :=
  ∀ fault, e.fault? = some fault → fault.OfInstruction

namespace Frame

variable {env : Env}

theorem faultsByItself_next (f : Frame) : (Effect.next f).FaultsByItself :=
  fun _ h => nomatch h

theorem faultsByItself_finish (o : Outcome) (f : Frame) : (Effect.finish o f).FaultsByItself :=
  fun _ h => nomatch h

theorem faultsByItself_halt (f : Frame) (reason : Halt) : (f.halt reason).FaultsByItself :=
  faultsByItself_finish _ f

theorem faultsByItself_push (f : Frame) (x : UInt256) : (f.push env x).FaultsByItself := by
  unfold push
  split
  · exact faultsByItself_next _
  · exact faultsByItself_halt f _

theorem faultsByItself_pop {k : UInt256 → Frame → Effect} (hk : ∀ a g, (k a g).FaultsByItself)
    (f : Frame) : (f.pop k).FaultsByItself := by
  unfold pop
  split
  · exact hk _ _
  · exact faultsByItself_halt f _

theorem faultsByItself_pop2 {k : UInt256 → UInt256 → Frame → Effect}
    (hk : ∀ a b g, (k a b g).FaultsByItself) (f : Frame) : (f.pop2 k).FaultsByItself :=
  faultsByItself_pop (fun a => faultsByItself_pop (hk a)) f

theorem faultsByItself_pop3 {k : UInt256 → UInt256 → UInt256 → Frame → Effect}
    (hk : ∀ a b c g, (k a b c g).FaultsByItself) (f : Frame) : (f.pop3 k).FaultsByItself :=
  faultsByItself_pop2 (fun a b => faultsByItself_pop (hk a b)) f

theorem faultsByItself_popMany {n : Nat} {k : List UInt256 → Frame → Effect}
    (hk : ∀ xs g, (k xs g).FaultsByItself) (f : Frame) : (f.popMany n k).FaultsByItself := by
  unfold popMany
  split
  · exact hk _ _
  · exact faultsByItself_halt _ _

/-- A stretch that is refused exceeds the limit of the memory. -/
theorem faultsByItself_reserve {offset len : UInt256} {k : Frame → Effect}
    (hk : ∀ g, (k g).FaultsByItself) (f : Frame) :
    (f.reserve env offset len k).FaultsByItself := by
  unfold reserve
  dsimp only
  split
  · exact hk f
  · split
    · rintro _ ⟨⟩
      trivial
    · split
      · rintro _ ⟨⟩
        trivial
      · exact hk _

theorem faultsByItself_fetch {offset len : UInt256} {k : Bytes → Frame → Effect}
    (hk : ∀ bs g, (k bs g).FaultsByItself) (f : Frame) :
    (f.fetch env offset len k).FaultsByItself :=
  faultsByItself_reserve (fun _ => hk _ _) f

theorem faultsByItself_put (offset len : UInt256) (bs : Unit → Bytes) (f : Frame) :
    (f.put env offset len bs).FaultsByItself :=
  faultsByItself_reserve (fun _ => faultsByItself_next _) f

theorem faultsByItself_jumpTo (dest : UInt256) (f : Frame) :
    (f.jumpTo env dest).FaultsByItself := by
  unfold jumpTo
  split
  · exact faultsByItself_next _
  · exact faultsByItself_halt f _

/-- **An instruction fails for its memory, or for what it would need of
other accounts.** -/
theorem faultsByItself_perform (env : Env) (gas : Nat) (byte : UInt8) (op : Op) (f : Frame) :
    (f.perform env gas byte op).FaultsByItself := by
  cases op with
  | stop | jumpDest | invalid => exact fun _ h => nomatch h
  | external op =>
    rintro _ ⟨⟩
    trivial
  | unary | record | callDataLoad =>
    exact faultsByItself_pop (fun _ g => faultsByItself_push g _) f
  | storageLoad =>
    exact faultsByItself_pop (fun key g => faultsByItself_push g (g.storage.getD key 0)) f
  | transientLoad =>
    exact faultsByItself_pop (fun key g => faultsByItself_push g (g.transient.getD key 0)) f
  | binary => exact faultsByItself_pop2 (fun _ _ g => faultsByItself_push g _) f
  | ternary => exact faultsByItself_pop3 (fun _ _ _ g => faultsByItself_push g _) f
  | keccak256 =>
    exact faultsByItself_pop2 (fun _ _ => faultsByItself_fetch fun _ g => faultsByItself_push g _) f
  | context => exact faultsByItself_push f _
  | callDataCopy | codeCopy =>
    exact faultsByItself_pop3 (fun dest _ len => faultsByItself_put dest len _) f
  | returnDataCopy =>
    refine faultsByItself_pop3 (fun _ _ _ g => ?_) f
    split
    · exact faultsByItself_next g
    · exact faultsByItself_halt g _
  | pop => exact faultsByItself_pop (fun _ g => faultsByItself_next g) f
  | memoryLoad =>
    exact faultsByItself_pop (fun _ => faultsByItself_fetch fun _ g => faultsByItself_push g _) f
  | memoryStore => exact faultsByItself_pop2 (fun offset _ => faultsByItself_put offset 32 _) f
  | memoryStore8 => exact faultsByItself_pop2 (fun offset _ => faultsByItself_put offset 1 _) f
  | memoryCopy =>
    exact faultsByItself_pop3 (fun _ _ _ => faultsByItself_reserve
      (faultsByItself_fetch fun _ _ => faultsByItself_next _)) f
  | storageStore | transientStore =>
    exact faultsByItself_pop2 (fun _ _ _ => faultsByItself_next _) f
  | jump => exact faultsByItself_pop faultsByItself_jumpTo f
  | jumpIf =>
    refine faultsByItself_pop2 (fun dest condition g => ?_) f
    split
    · exact faultsByItself_next g
    · exact faultsByItself_jumpTo dest g
  | push size => exact faultsByItself_push _ _
  | dup n =>
    unfold perform
    dsimp only
    split
    · exact faultsByItself_push f _
    · exact faultsByItself_halt f _
  | swap n =>
    unfold perform
    dsimp only
    split
    · exact faultsByItself_next _
    · exact faultsByItself_halt f _
  | log n =>
    exact faultsByItself_pop2 (fun _ _ => faultsByItself_popMany fun _ =>
      faultsByItself_fetch fun _ _ => faultsByItself_next _) f
  | return_ | revert =>
    exact faultsByItself_pop2 (fun _ _ => faultsByItself_fetch fun _ _ =>
      faultsByItself_finish _ _) f

/-- The same for the instruction of a byte, or for a byte that is none. -/
theorem faultsByItself_dispatch (env : Env) (gas : Nat) (byte : UInt8) (f : Frame) :
    (f.dispatch env gas byte).FaultsByItself := by
  unfold dispatch
  split
  · exact faultsByItself_perform env gas byte _ f
  · exact faultsByItself_halt f _

end Frame

/-! ## What is counted -/

namespace Machine

/-- **The byte whose instruction a step carries out**: the one at the
position, if the code has one there and one more instruction is
allowed. -/
def dispatched? (env : Env) (m : Machine) : Option UInt8 :=
  if (m.charge? env).isSome then env.code[m.frame.pc]? else none

/-- **How many of the first `n` steps carry out an instruction.** -/
def executed (env : Env) : Nat → Nat
  | 0 => 0
  | n + 1 => executed env n + (if ((after env n).dispatched? env).isSome then 1 else 0)

variable {env : Env}

/-- While the limit is not the largest number of all, the count is raised
by one. -/
theorem charge?_eq (hlimit : env.settings.stepLimit.toNat < maxSize) {m : Machine}
    (hm : m.steps ≤ env.settings.stepLimit.toNat) :
    m.charge? env
      = if m.steps < env.settings.stepLimit.toNat then some (m.steps + 1) else none := by
  have hmin : min (m.steps + 1) maxSize = m.steps + 1 := by omega
  unfold charge?
  dsimp only
  rw [hmin]
  by_cases h : m.steps < env.settings.stepLimit.toNat
  · rw [if_pos h, if_neg (Nat.not_lt.mpr h)]
  · rw [if_neg h, if_pos (Nat.lt_succ_of_le (Nat.le_of_not_lt h))]

/-- **A step that carries out an instruction counts it.** -/
theorem step_of_dispatched (hlimit : env.settings.stepLimit.toNat < maxSize) {m : Machine}
    (hm : m.steps ≤ env.settings.stepLimit.toNat) {byte : UInt8}
    (h : m.dispatched? env = some byte) :
    m.steps < env.settings.stepLimit.toNat
      ∧ m.step env = (m.frame.advance.dispatch env
        (env.settings.stepLimit.toNat - (m.steps + 1)) byte).progress (m.steps + 1) := by
  have hcharge := charge?_eq hlimit hm
  unfold dispatched? at h
  by_cases hlt : m.steps < env.settings.stepLimit.toNat
  · rw [if_pos hlt] at hcharge
    rw [hcharge] at h
    exact ⟨hlt, step_eq h hcharge⟩
  · rw [if_neg hlt] at hcharge
    rw [hcharge] at h
    cases h

/-- **A step that carries out none ends the execution** and leaves the
machine as it is: at the end of the code, or at the limit. -/
theorem step_of_not_dispatched (hlimit : env.settings.stepLimit.toNat < maxSize) {m : Machine}
    (hm : m.steps ≤ env.settings.stepLimit.toNat) (h : m.dispatched? env = none) :
    env.code[m.frame.pc]? = none ∧ m.step env = .ended (.returned []) m
      ∨ m.steps = env.settings.stepLimit.toNat ∧ env.code[m.frame.pc]? ≠ none
        ∧ m.step env = .stopped (.stepLimitExceeded env.settings.stepLimit.toNat) m := by
  rcases step_cases env m with hend | ⟨hsteps, heq⟩ | ⟨byte, steps, hbyte, hsteps, -⟩
  · exact .inl hend
  · refine .inr ⟨?_, ?_, heq⟩
    · rw [charge?_eq hlimit hm] at hsteps
      by_contra hne
      rw [if_pos (Nat.lt_of_le_of_ne hm hne)] at hsteps
      cases hsteps
    · -- the end of the code comes before the limit
      intro hend
      rw [step, hend] at heq
      cases heq
  · unfold dispatched? at h
    rw [hsteps, hbyte] at h
    cases h

/-- **The count is the number of instructions that were carried out**,
after any number of steps. -/
theorem steps_after (hlimit : env.settings.stepLimit.toNat < maxSize) (n : Nat) :
    (after env n).steps = executed env n := by
  induction n with
  | zero => rfl
  | succ n ih =>
    have hle := steps_after_le env n
    rw [after, executed, ← ih]
    cases hbyte : (after env n).dispatched? env with
    | none =>
      rcases step_of_not_dispatched hlimit hle hbyte with ⟨-, heq⟩ | ⟨-, -, heq⟩
      · rw [heq]
        rfl
      · rw [heq]
        rfl
    | some byte =>
      rw [(step_of_dispatched hlimit hle hbyte).2, Effect.machine_progress]
      rfl

/-- The instruction that asks for what is left is told the limit less what
was carried out, itself included. -/
theorem step_of_gas (hlimit : env.settings.stepLimit.toNat < maxSize) {n : Nat}
    (h : (after env n).dispatched? env = some gasByte) :
    executed env (n + 1) ≤ env.settings.stepLimit.toNat
      ∧ (after env n).step env = ((after env n).frame.advance.push env
        (BitVec.ofNat 256 (env.settings.stepLimit.toNat - executed env (n + 1)))).progress
          (executed env (n + 1)) := by
  have hexecuted : executed env (n + 1) = (after env n).steps + 1 := by
    rw [executed, h, steps_after hlimit]
    rfl
  obtain ⟨hlt, heq⟩ := step_of_dispatched hlimit (steps_after_le env n) h
  have hop : Op.ofByte? gasByte = some (.context .gas) := rfl
  rw [hexecuted, heq, Frame.dispatch, hop]
  exact ⟨hlt, rfl⟩

/-! ## Going on and coming to an end -/

end Machine

/-- **What an execution has come to** by a step, unless it is still under
way. -/
def Progress.result? : Progress → Option (Except Fault Execution)
  | running _ => none
  | ended o m => some (.ok ⟨o, m.steps, m.frame.logs.toList⟩)
  | stopped e _ => some (.error e)

/-- A step without a result is one that goes on. -/
theorem Progress.eq_running_of_result? {p : Progress} (h : p.result? = none) :
    p = .running p.machine := by
  cases p with
  | running m => rfl
  | _ => cases h

namespace Machine

/-- **The execution ends with the `n`-th step**, counted from zero, and
with this result: all steps before go on. -/
structure EndsAt (env : Env) (n : Nat) (result : Except Fault Execution) : Prop where
  /-- The steps before go on. -/
  goes_on : ∀ i < n, (after env i).step env = .running (after env (i + 1))
  /-- The step itself does not. -/
  result_eq : ((after env n).step env).result? = some result

variable {env : Env}

/-- A step that goes on has carried out an instruction. -/
theorem dispatched?_of_running (hlimit : env.settings.stepLimit.toNat < maxSize) {m m' : Machine}
    (hm : m.steps ≤ env.settings.stepLimit.toNat) (h : m.step env = .running m') :
    (m.dispatched? env).isSome = true := by
  cases hbyte : m.dispatched? env with
  | some byte => rfl
  | none =>
    rcases step_of_not_dispatched hlimit hm hbyte with ⟨-, heq⟩ | ⟨-, -, heq⟩
    · cases heq.symm.trans h
    · cases heq.symm.trans h

/-- **While an execution goes on, every step is an instruction.** -/
theorem executed_eq_of_goes_on (hlimit : env.settings.stepLimit.toNat < maxSize) {n : Nat}
    (h : ∀ i < n, (after env i).step env = .running (after env (i + 1))) :
    executed env n = n := by
  induction n with
  | zero => rfl
  | succ n ih =>
    have hrunning := h n (Nat.lt_succ_self n)
    rw [executed, ih fun i hi => h i (Nat.lt_succ_of_lt hi),
      if_pos (dispatched?_of_running hlimit (steps_after_le env n) hrunning)]

/-- **Every execution ends**, at the latest with the step behind the last
instruction that is allowed. -/
theorem exists_endsAt (hlimit : env.settings.stepLimit.toNat < maxSize) :
    ∃ n result, n ≤ env.settings.stepLimit.toNat ∧ EndsAt env n result := by
  have hgoes {n : Nat} (hn : ∀ i < n, ((after env i).step env).result? = none) :
      ∀ i < n, (after env i).step env = .running (after env (i + 1)) :=
    fun i hi => Progress.eq_running_of_result? (hn i hi)
  -- otherwise one instruction more would have been carried out than the limit allows
  have hends : ∃ n, ((after env n).step env).result? ≠ none := by
    by_contra hnone
    have hnone : ∀ n, ((after env n).step env).result? = none := by simpa using hnone
    have hle := steps_after_le env (env.settings.stepLimit.toNat + 1)
    rw [steps_after hlimit, executed_eq_of_goes_on hlimit (hgoes fun i _ => hnone i)] at hle
    omega
  classical
  have hbefore : ∀ i < Nat.find hends, ((after env i).step env).result? = none :=
    fun i hi => Decidable.not_not.mp (Nat.find_min hends hi)
  obtain ⟨result, hresult⟩ := Option.ne_none_iff_exists'.mp (Nat.find_spec hends)
  refine ⟨Nat.find hends, result, ?_, hgoes hbefore, hresult⟩
  have hle := steps_after_le env (Nat.find hends)
  rwa [steps_after hlimit, executed_eq_of_goes_on hlimit (hgoes hbefore)] at hle

/-- The last step gives the result of its machine. -/
theorem run_of_result? {m : Machine} {result : Except Fault Execution}
    (h : (m.step env).result? = some result) : m.run env = result := by
  cases hstep : m.step env with
  | running m' =>
    rw [hstep] at h
    cases h
  | ended o m' =>
    rw [hstep] at h
    rw [run_of_ended hstep]
    exact Option.some.inj h
  | stopped e m' =>
    rw [hstep] at h
    rw [run_of_stopped hstep]
    exact Option.some.inj h

/-- **An execution that returns has come to its end** by some step, whatever
the limit is. -/
theorem exists_endsAt_of_run {x : Execution} (hx : initial.run env = .ok x) :
    ∃ n, EndsAt env n (.ok x) := by
  -- by induction along the execution, from any of its machines on
  have hfrom : ∀ m n, m = after env n →
      (∀ i < n, (after env i).step env = .running (after env (i + 1))) → m.run env = .ok x →
      ∃ n, EndsAt env n (.ok x) := by
    intro m
    induction m using Machine.run.induct env with
    | case1 m m' hstep hlt ih =>
      rintro n rfl hgoes hrun
      have hnext : m' = after env (n + 1) := by
        rw [after, hstep]
        rfl
      refine ih (n + 1) hnext (fun i hi => ?_) ?_
      · rcases Nat.lt_succ_iff_lt_or_eq.mp hi with hi | rfl
        · exact hgoes i hi
        · rw [hstep, hnext]
      · rwa [run_of_running hstep, if_pos hlt] at hrun
    | case2 m m' hstep hlt =>
      rintro n rfl - hrun
      rw [run_of_running hstep, if_neg hlt] at hrun
      cases hrun
    | case3 m o m' hstep =>
      rintro n rfl hgoes hrun
      refine ⟨n, hgoes, ?_⟩
      rw [run_of_ended hstep] at hrun
      rw [hstep]
      exact congrArg some hrun
    | case4 m e m' hstep =>
      rintro n rfl - hrun
      rw [run_of_stopped hstep] at hrun
      cases hrun
  exact hfrom initial 0 rfl (fun i hi => absurd hi (Nat.not_lt_zero i)) hx

/-- **Carrying an execution to its end gives the result of its last
step.** -/
theorem EndsAt.run_eq (hlimit : env.settings.stepLimit.toNat < maxSize) {n : Nat}
    {result : Except Fault Execution} (h : EndsAt env n result) :
    initial.run env = result := by
  -- by induction backwards, from the last step to the first
  have hrun : ∀ k ≤ n, (after env (n - k)).run env = result := by
    intro k hk
    induction k with
    | zero => exact run_of_result? h.result_eq
    | succ k ih =>
      have hgoes : ∀ i < n - k, (after env i).step env = .running (after env (i + 1)) :=
        fun i hi => h.goes_on i (by omega)
      have hplace : n - k = n - (k + 1) + 1 := by omega
      have hstep := hgoes (n - (k + 1)) (by omega)
      have hsteps : (after env (n - (k + 1))).steps < (after env (n - (k + 1) + 1)).steps := by
        rw [steps_after hlimit, steps_after hlimit, ← hplace, executed_eq_of_goes_on hlimit hgoes,
          executed_eq_of_goes_on hlimit fun i hi => hgoes i (by omega)]
        omega
      rw [run_of_running hstep, if_pos hsteps, ← hplace]
      exact ih (by omega)
  have h0 := hrun n (Nat.le_refl n)
  rwa [Nat.sub_self] at h0

/-- What is returned is read off the machine that the last step leaves
behind. -/
theorem EndsAt.eq_after {n : Nat} {x : Execution} (h : EndsAt env n (.ok x)) :
    x.steps = (after env (n + 1)).steps ∧ x.logs = (after env (n + 1)).frame.logs.toList := by
  have hresult := h.result_eq
  cases hstep : (after env n).step env with
  | ended o m =>
    rw [hstep] at hresult
    obtain rfl : ⟨o, m.steps, m.frame.logs.toList⟩ = x := by simpa [Progress.result?] using hresult
    rw [after, hstep]
    exact ⟨rfl, rfl⟩
  | _ =>
    rw [hstep] at hresult
    cases hresult

/-- An execution that returns has counted its instructions, also the one
that ended it. -/
theorem EndsAt.steps_eq (hlimit : env.settings.stepLimit.toNat < maxSize) {n : Nat}
    {x : Execution} (h : EndsAt env n (.ok x)) : x.steps = executed env (n + 1) :=
  h.eq_after.1.trans (steps_after hlimit (n + 1))

/-- A step that carries out an instruction does not end at the limit: no
instruction has a fault of this kind. -/
theorem result?_ne_stepLimitExceeded (hlimit : env.settings.stepLimit.toNat < maxSize)
    {m : Machine} (hm : m.steps ≤ env.settings.stepLimit.toNat) {byte : UInt8}
    (hbyte : m.dispatched? env = some byte) (limit : Nat) :
    (m.step env).result? ≠ some (.error (.stepLimitExceeded limit)) := by
  rw [(step_of_dispatched hlimit hm hbyte).2]
  have hfaults := Frame.faultsByItself_dispatch env
    (env.settings.stepLimit.toNat - (m.steps + 1)) byte m.frame.advance
  intro hresult
  cases heffect : m.frame.advance.dispatch env
      (env.settings.stepLimit.toNat - (m.steps + 1)) byte with
  | fault e f =>
    rw [heffect] at hresult hfaults
    obtain rfl : e = .stepLimitExceeded limit := by
      simpa [Effect.progress, Progress.result?] using hresult
    exact hfaults _ rfl
  | _ =>
    rw [heffect] at hresult
    simp [Effect.progress, Progress.result?] at hresult

/-- **The limit ends an execution that has used it up**, and at no other
place than where there is an instruction to follow. -/
theorem EndsAt.eq_stepLimitExceeded_iff (hlimit : env.settings.stepLimit.toNat < maxSize) {n : Nat}
    {result : Except Fault Execution} (h : EndsAt env n result)
    (hn : n ≤ env.settings.stepLimit.toNat) (limit : Nat) :
    result = .error (.stepLimitExceeded limit)
      ↔ limit = env.settings.stepLimit.toNat ∧ executed env limit = limit
        ∧ (∀ i < limit, (after env i).step env = .running (after env (i + 1)))
        ∧ (after env limit).frame.pc < env.code.size := by
  have hexecuted := executed_eq_of_goes_on hlimit h.goes_on
  have hsteps : (after env n).steps = n := (steps_after hlimit n).trans hexecuted
  have hle := steps_after_le env n
  have hresult := h.result_eq
  constructor
  · rintro rfl
    cases hbyte : (after env n).dispatched? env with
    | some byte =>
      exact absurd hresult (result?_ne_stepLimitExceeded hlimit hle hbyte limit)
    | none =>
      rcases step_of_not_dispatched hlimit hle hbyte with ⟨-, heq⟩ | ⟨hused, hcode, heq⟩
      · rw [heq] at hresult
        simp [Progress.result?] at hresult
      · rw [heq] at hresult
        obtain rfl : env.settings.stepLimit.toNat = limit := by
          simpa [Progress.result?] using hresult
        rw [hsteps] at hused
        rw [hused] at h hcode hexecuted
        refine ⟨rfl, hexecuted, h.goes_on, ?_⟩
        simpa using hcode
  · rintro ⟨rfl, hexecuted, hgoes, hpc⟩
    have hused : (after env env.settings.stepLimit.toNat).steps
        = env.settings.stepLimit.toNat := (steps_after hlimit _).trans hexecuted
    have hnone : (after env env.settings.stepLimit.toNat).dispatched? env = none := by
      unfold dispatched?
      rw [charge?_eq hlimit (Nat.le_of_eq hused), hused, if_neg (Nat.lt_irrefl _)]
      rfl
    rcases step_of_not_dispatched hlimit (Nat.le_of_eq hused) hnone with ⟨hend, -⟩ | ⟨-, -, heq⟩
    · rw [Array.getElem?_eq_getElem hpc] at hend
      cases hend
    · obtain rfl : n = env.settings.stepLimit.toNat := by
        refine Nat.le_antisymm hn (Nat.le_of_not_lt fun hlt => ?_)
        rw [hgoes n hlt] at hresult
        cases hresult
      rw [heq] at hresult
      exact (Option.some.inj hresult).symm

/-- **The count brings every execution to an end, and is what it should
be.** With a limit below the largest number of all,

* an execution takes no more steps than the limit allows instructions, and
  one more; what it returns tells how many instructions were carried out,
  which are no more than that;
* it exceeds the limit exactly if it has carried out as many instructions
  as it may, each of which went on, and there is one more to follow;
* an instruction that asks how many are left is told the limit less those
  that were carried out, itself included. -/
theorem run_counts_instructions (settings : Settings) (code calldata : Bytes)
    (hlimit : settings.stepLimit.toNat < 2 ^ 64 - 1) :
    let env := Env.new settings code calldata
    let limit := settings.stepLimit.toNat
    (∃ n ≤ limit, EndsAt env n (initial.run env)
      ∧ ∀ x, initial.run env = .ok x → x.steps = executed env (n + 1) ∧ x.steps ≤ limit)
    ∧ (∀ k, initial.run env = .error (.stepLimitExceeded k)
      ↔ k = limit ∧ executed env k = k
        ∧ (∀ i < k, (after env i).step env = .running (after env (i + 1)))
        ∧ (after env k).frame.pc < code.length)
    ∧ ∀ i, (after env i).dispatched? env = some gasByte →
      executed env (i + 1) ≤ limit
        ∧ (after env i).step env = ((after env i).frame.advance.push env
          (BitVec.ofNat 256 (limit - executed env (i + 1)))).progress (executed env (i + 1)) := by
  intro env limit
  obtain ⟨n, result, hn, hends⟩ : ∃ n result,
      n ≤ env.settings.stepLimit.toNat ∧ EndsAt env n result :=
    exists_endsAt hlimit
  obtain rfl := hends.run_eq hlimit
  refine ⟨⟨n, hn, hends, fun x hx => ?_⟩, hends.eq_stepLimitExceeded_iff hlimit hn,
    fun i hgas => step_of_gas hlimit hgas⟩
  rw [hx] at hends
  have hsteps := hends.steps_eq hlimit
  have hle := steps_after_le env (n + 1)
  rw [steps_after hlimit, ← hsteps] at hle
  exact ⟨hsteps, hle⟩

/-- Settings that allow six instructions. -/
def sixSteps : Settings := Settings.standard.withStepLimit 6

/-- A mark, the question how many instructions are left, and a jump back to
the mark. -/
def circlingCode : Bytes := [jumpDestByte, gasByte, 0x5f, 0x56]

/-- Code that goes in circles is stopped by the limit, in the middle of its
second round, and is told by then that four instructions are left, and
none. -/
theorem run_counts_instructions_circling :
    sixSteps.stepLimit.toNat < 2 ^ 64 - 1
      ∧ initial.run (Env.new sixSteps circlingCode []) = .error (.stepLimitExceeded 6)
      ∧ (after (Env.new sixSteps circlingCode []) 2).frame.stack = [4]
      ∧ (after (Env.new sixSteps circlingCode []) 6).frame.stack = [0, 4] := by
  have hlimit : sixSteps.stepLimit.toNat < 2 ^ 64 - 1 := by decide
  obtain ⟨-, hexceeded, hgas⟩ := run_counts_instructions sixSteps circlingCode [] hlimit
  have hgoes : ∀ i < 6, (after (Env.new sixSteps circlingCode []) i).step
      (Env.new sixSteps circlingCode [])
        = .running (after (Env.new sixSteps circlingCode []) (i + 1)) := by
    intro i hi
    obtain rfl | rfl | rfl | rfl | rfl | rfl : i = 0 ∨ i = 1 ∨ i = 2 ∨ i = 3 ∨ i = 4 ∨ i = 5 := by
      omega
    all_goals rfl
  refine ⟨hlimit, (hexceeded 6).mpr ⟨rfl, rfl, hgoes, by decide +kernel⟩, ?_, ?_⟩
  · obtain ⟨-, hstep⟩ := hgas 1 rfl
    rw [after, hstep]
    rfl
  · obtain ⟨-, hstep⟩ := hgas 5 rfl
    rw [after, hstep]
    rfl

end Machine

end EthCall.Evm
