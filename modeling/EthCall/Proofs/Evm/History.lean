import EthCall.Proofs.Evm.Accounting
import EthCall.Proofs.Evm.MemoryRow

/-!
# What an execution remembers

Three parts of a frame outlast the instructions that change them: the two
storages and the logs. What they hold is told here by the history of the
execution, a list of acts. An `Act` is a number stored under a key or an
entry logged, and each instruction of these kinds that is carried out is one
act, with the operands and the memory it has found (`Machine.act?`).

The history says all there is to say about the three parts
(`Frame.Remembers`). A storage holds under a key what was stored there last,
in this storage and under this key, and zero if nothing was; the logs are
the entries in their order. What is stored in the other storage or under
another key, and whatever happens on the stack and in memory, is not in
the list that is looked at.

Nothing is ever taken back. The entries are there also if the execution
comes to an end by a revert or a halt.
-/

namespace EthCall.Evm

/-! ## Acts -/

/-- **The storages of a frame.** -/
inductive StoreKind where
  /-- The one that would outlast the transaction. -/
  | persistent
  /-- The one that is forgotten with it. -/
  | transient
  deriving DecidableEq

namespace StoreKind

/-- The instruction that reads the storage. -/
def loadOp : StoreKind → Op
  | persistent => .storageLoad
  | transient => .transientLoad

/-- The instruction that writes it. -/
def storeOp : StoreKind → Op
  | persistent => .storageStore
  | transient => .transientStore

/-- The storage of this kind. -/
def of (f : Frame) : StoreKind → Store
  | persistent => f.storage
  | transient => f.transient

end StoreKind

/-- **Something an execution does that is remembered.** -/
inductive Act where
  /-- A number is stored under a key. -/
  | stored (kind : StoreKind) (key x : UInt256)
  /-- An entry is logged. -/
  | logged (entry : Log)
  deriving DecidableEq

namespace Act

/-- The number that is stored in a storage under a key, if the act is
that. -/
def storedAt? (kind : StoreKind) (key : UInt256) : Act → Option UInt256
  | stored kind' key' x => if kind' = kind ∧ key' = key then some x else none
  | logged _ => none

/-- The entry that is logged, if the act is that. -/
def entry? : Act → Option Log
  | stored _ _ _ => none
  | logged entry => some entry

/-- **What was stored last** in a storage under a key. It is zero if nothing
was. -/
def lastStored (kind : StoreKind) (key : UInt256) (acts : List Act) : UInt256 :=
  (acts.filterMap (storedAt? kind key)).getLast?.getD 0

/-- The entries that were logged, in their order. -/
def entries (acts : List Act) : List Log := acts.filterMap entry?

/-- The latest act decides, if it is about the same storage and key. -/
theorem lastStored_append (kind : StoreKind) (key : UInt256) (acts : List Act) (act : Act) :
    lastStored kind key (acts ++ [act])
      = (act.storedAt? kind key).getD (lastStored kind key acts) := by
  unfold lastStored
  rw [List.filterMap_append]
  cases hstored : act.storedAt? kind key with
  | none =>
    rw [List.filterMap_cons_none hstored, List.filterMap_nil, List.append_nil]
    rfl
  | some x =>
    rw [List.filterMap_cons_some hstored, List.filterMap_nil, List.getLast?_concat]
    rfl

theorem entries_append (acts more : List Act) :
    entries (acts ++ more) = entries acts ++ entries more :=
  List.filterMap_append

end Act

/-- An instruction that is an act. -/
def Op.isAct : Op → Bool
  | storageStore | transientStore | log _ => true
  | _ => false

/-- **The act that an instruction is** if it is carried out, for one that
finds a frame. -/
def Op.act? (address : Address) (f : Frame) (op : Op) : Option Act :=
  match op, f.stack with
  | storageStore, key :: x :: _ => some (.stored .persistent key x)
  | transientStore, key :: x :: _ => some (.stored .transient key x)
  | log n, offset :: len :: rest =>
    if n ≤ rest.length then
      some (.logged ⟨address, (rest.take n).map Word.ofUInt256,
        f.memory.row.stretch offset.toNat len.toNat⟩)
    else none
  | _, _ => none

/-- The other instructions are none. -/
theorem Op.act?_of_not_isAct (address : Address) (f : Frame) {op : Op}
    (h : op.isAct = false) : op.act? address f = none := by
  cases op <;> first | rfl | cases h

/-- Whether execution goes on. -/
def Effect.goesOn : Effect → Bool
  | next _ => true
  | _ => false

/-- Whether execution goes on. -/
def Progress.goesOn : Progress → Bool
  | running _ => true
  | _ => false

@[simp] theorem Effect.goesOn_progress (e : Effect) (steps : Nat) :
    (e.progress steps).goesOn = e.goesOn := by
  cases e <;> rfl

/-! ## Frames and acts -/

namespace Frame

/-- The frame behind an act. -/
def record (f : Frame) : Act → Frame
  | .stored .persistent key x => { f with storage := f.storage.insert key x }
  | .stored .transient key x => { f with transient := f.transient.insert key x }
  | .logged entry => { f with logs := f.logs.push entry }

/-- **A frame holds what the acts tell.** -/
structure Remembers (f : Frame) (acts : List Act) : Prop where
  /-- A storage holds under a key what was stored there last. -/
  store_eq : ∀ kind key, (StoreKind.of f kind).getD key 0 = Act.lastStored kind key acts
  /-- The logs are the entries. -/
  logs_eq : f.logs.toList = Act.entries acts

variable {env : Env} {f : Frame} {acts : List Act}

/-- At the start there is nothing to remember. -/
theorem remembers_initial : Remembers .initial [] where
  store_eq kind _ := by cases kind <;> exact Std.TreeMap.getD_emptyc
  logs_eq := rfl

/-- A storage changes under one key. -/
theorem getD_of_record (f : Frame) (act : Act) (kind : StoreKind) (key : UInt256) :
    (StoreKind.of (f.record act) kind).getD key 0
      = (act.storedAt? kind key).getD ((StoreKind.of f kind).getD key 0) := by
  cases act with
  | logged => cases kind <;> rfl
  | stored kind' key' x =>
    by_cases hkind : kind' = kind
    · subst hkind
      have hinsert (s : Store) : (s.insert key' x).getD key 0
          = (if key' = key then some x else none).getD (s.getD key 0) := by
        by_cases hkey : key' = key <;> simp [Std.TreeMap.getD_insert, hkey]
      simp only [Act.storedAt?, true_and]
      cases kind' <;> exact hinsert _
    · simp only [Act.storedAt?, hkind, false_and, if_false]
      cases kind <;> cases kind' <;> first | rfl | exact absurd rfl hkind

/-- **One act more is remembered.** -/
theorem Remembers.record (h : f.Remembers acts) (act : Act) :
    (f.record act).Remembers (acts ++ [act]) where
  store_eq kind key := by
    rw [getD_of_record, h.store_eq, Act.lastStored_append]
  logs_eq := by
    rw [Act.entries_append, ← h.logs_eq]
    cases act with
    | stored kind => cases kind <;> exact (List.append_nil _).symm
    | logged entry => exact Array.toList_push

/-- The instructions that are no acts change nothing of it. -/
theorem Change.remembers {op : Op} {g : Frame} (h : Change env op f g)
    (hop : op.isAct = false) (hf : f.Remembers acts) : g.Remembers acts := by
  cases h with
  | store | storeTransient | log => cases hop
  | _ => exact ⟨hf.store_eq, hf.logs_eq⟩

/-! ## Instructions -/

/-- Two operands are there, or nothing but the stack changes. -/
theorem pop2_cases (f : Frame) (k : UInt256 → UInt256 → Frame → Effect) :
    (∃ a b rest, f.stack = a :: b :: rest ∧ f.pop2 k = k a b { f with stack := rest })
      ∨ ∃ stack, f.pop2 k = { f with stack := stack }.halt .stackUnderflow := by
  rcases hstack : f.stack with _ | ⟨a, _ | ⟨b, rest⟩⟩
  · refine .inr ⟨f.stack, ?_⟩
    unfold pop2 pop
    simp only [hstack]
    exact congrArg (fun stack => halt { f with stack := stack } .stackUnderflow) hstack
  · refine .inr ⟨[], ?_⟩
    unfold pop2
    rw [pop_of_stack hstack]
    rfl
  · exact .inl ⟨a, b, rest, rfl, pop2_of_stack hstack k⟩

/-- **An instruction that is an act is carried out, or it changes nothing
but the stack**, and then execution does not go on. -/
def RecordsOrEnds (env : Env) (f : Frame) (op : Op) (effect : Effect) : Prop :=
  (∃ act stack memory, op.act? env.settings.block.address f = some act
      ∧ effect = .next ({ f with stack := stack, memory := memory }.record act))
    ∨ ∃ stack, effect.frame = { f with stack := stack } ∧ effect.goesOn = false

theorem recordsOrEnds_store (env : Env) (gas : Nat) (byte : UInt8) (kind : StoreKind) (f : Frame) :
    f.RecordsOrEnds env kind.storeOp (f.perform env gas byte kind.storeOp) := by
  have hperform : f.perform env gas byte kind.storeOp
      = f.pop2 fun key x g => .next (g.record (.stored kind key x)) := by
    cases kind <;> rfl
  rw [hperform]
  rcases pop2_cases f fun key x g => .next (g.record (.stored kind key x)) with
    ⟨key, x, rest, hstack, heq⟩ | ⟨stack, heq⟩
  · refine .inl ⟨.stored kind key x, rest, f.memory, ?_, heq⟩
    cases kind <;> simp only [StoreKind.storeOp, Op.act?, hstack]
  · rw [heq]
    exact .inr ⟨stack, rfl, rfl⟩

/-- The bytes of an entry are those from before memory was reserved. -/
theorem recordsOrEnds_log (env : Env) (gas : Nat) (byte : UInt8) (n : Nat)
    (hzero : f.memory.ZeroBeyond) :
    f.RecordsOrEnds env (.log n) (f.perform env gas byte (.log n)) := by
  rw [perform]
  rcases pop2_cases f _ with ⟨offset, len, rest, hstack, heq⟩ | ⟨stack, heq⟩
  · rw [heq]
    by_cases htopics : n ≤ rest.length
    · rw [popMany_of_le (f := { f with stack := rest }) htopics, fetch]
      rcases reserve_cases env { f with stack := rest.drop n } offset len _ with
        ⟨fault, heq⟩ | ⟨memory, hgranted, heq⟩
      · rw [heq]
        exact .inr ⟨rest.drop n, rfl, rfl⟩
      · have hbyte : memory.byte = f.memory.byte := hgranted.byte_eq
        rw [heq]
        refine .inl ⟨.logged ⟨env.settings.block.address, (rest.take n).map Word.ofUInt256,
          memory.read offset.toNat len.toNat⟩, rest.drop n, memory, ?_, rfl⟩
        rw [Memory.read_eq_stretch, hbyte, ← Memory.row_eq_byte hzero]
        simp only [Op.act?, hstack, if_pos htopics]
    · rw [popMany, if_neg htopics]
      exact .inr ⟨[], rfl, rfl⟩
  · rw [heq]
    exact .inr ⟨stack, rfl, rfl⟩

theorem recordsOrEnds_perform (env : Env) (gas : Nat) (byte : UInt8) {op : Op}
    (hop : op.isAct = true) (hzero : f.memory.ZeroBeyond) :
    f.RecordsOrEnds env op (f.perform env gas byte op) := by
  cases op with
  | storageStore => exact recordsOrEnds_store env gas byte .persistent f
  | transientStore => exact recordsOrEnds_store env gas byte .transient f
  | log n => exact recordsOrEnds_log env gas byte n hzero
  | _ => cases hop

/-- **An instruction adds its act to what is remembered**, if it is one
and execution goes on. -/
theorem remembers_perform (env : Env) (gas : Nat) (byte : UInt8) (op : Op)
    (hzero : f.memory.ZeroBeyond) (hf : f.Remembers acts) :
    (f.perform env gas byte op).frame.Remembers (acts
      ++ (if (f.perform env gas byte op).goesOn then op.act? env.settings.block.address f
        else none).toList) := by
  cases hop : op.isAct with
  | false =>
    rw [Op.act?_of_not_isAct _ f hop, ite_self, Option.toList_none, List.append_nil]
    exact invariant_changes (fun _ _ hchange hg => hchange.remembers hop hg)
      (changes_perform env gas byte op f) hf
  | true =>
    rcases recordsOrEnds_perform env gas byte hop hzero with
      ⟨act, stack, memory, hact, heq⟩ | ⟨stack, hframe, hends⟩
    · rw [heq, hact]
      exact Remembers.record (f := { f with stack := stack, memory := memory })
        ⟨hf.store_eq, hf.logs_eq⟩ act
    · rw [hframe, hends, if_neg Bool.false_ne_true, Option.toList_none, List.append_nil]
      exact ⟨hf.store_eq, hf.logs_eq⟩

end Frame

/-! ## Executions -/

namespace Machine

/-- **The act of a step**: that of the instruction it carries out, if
execution goes on. -/
def act? (env : Env) (m : Machine) : Option Act :=
  if (m.step env).goesOn then
    (env.code[m.frame.pc]?.bind Op.ofByte?).bind (Op.act? env.settings.block.address m.frame)
  else none

/-- **The history of an execution**: the acts of the first `n` steps. -/
def history (env : Env) : Nat → List Act
  | 0 => []
  | n + 1 => history env n ++ ((after env n).act? env).toList

variable {env : Env} {m : Machine}

/-- The history goes on. -/
theorem history_isPrefix (env : Env) (n k : Nat) : history env n <+: history env (n + k) := by
  induction k with
  | zero => exact List.prefix_refl _
  | succ k ih => exact ih.trans (List.prefix_append _ _)

/-- **A step adds its act to what is remembered.** -/
theorem remembers_step {acts : List Act} (hzero : m.frame.memory.ZeroBeyond)
    (hm : m.frame.Remembers acts) :
    (m.step env).machine.frame.Remembers (acts ++ (m.act? env).toList) := by
  unfold act?
  rcases step_cases env m with ⟨-, heq⟩ | ⟨-, heq⟩ | ⟨byte, steps, hbyte, -, heq⟩
  · simpa [heq, Progress.goesOn, Progress.machine] using hm
  · simpa [heq, Progress.goesOn, Progress.machine] using hm
  · rw [heq, hbyte, Effect.machine_progress, Effect.goesOn_progress, Option.bind_some,
      Frame.dispatch]
    cases Op.ofByte? byte with
    | none => simpa [Frame.halt, Effect.goesOn] using ⟨hm.store_eq, hm.logs_eq⟩
    | some op =>
      exact Frame.remembers_perform (f := m.frame.advance) env _ byte op hzero
        ⟨hm.store_eq, hm.logs_eq⟩

/-- **At all times a frame holds what the history tells.** -/
theorem remembers_after (env : Env) (n : Nat) :
    (after env n).frame.Remembers (history env n) := by
  induction n with
  | zero => exact Frame.remembers_initial
  | succ n ih => exact remembers_step (zeroBeyond_after env n) ih

section Code

variable {settings : Settings} {code calldata : Bytes}

theorem op?_new (m : Machine) :
    (Env.new settings code calldata).code[m.frame.pc]?.bind Op.ofByte? = m.op? code := by
  rw [op?]
  exact congrArg (Option.bind · Op.ofByte?) List.getElem?_toArray

/-- **Each instruction that is carried out and is an act has its place in
the history**, and no other has. -/
theorem isSome_act? {m' : Machine} {op : Op} (hzero : m.frame.memory.ZeroBeyond)
    (hop : m.op? code = some op) (hstep : m.step (Env.new settings code calldata) = .running m') :
    (m.act? (Env.new settings code calldata)).isSome = op.isAct := by
  have hgoes : (m.step (Env.new settings code calldata)).goesOn = true := by
    rw [hstep]
    rfl
  rw [act?, if_pos hgoes, op?_new, hop, Option.bind_some]
  cases hact : op.isAct with
  | false =>
    rw [Op.act?_of_not_isAct _ _ hact]
    rfl
  | true =>
    obtain ⟨byte, hbyte, hbyteOp⟩ := Option.bind_eq_some_iff.mp hop
    rcases step_cases (Env.new settings code calldata) m with
      ⟨-, heq⟩ | ⟨-, heq⟩ | ⟨-, steps, -, hsteps, -⟩
    · rw [heq] at hgoes
      cases hgoes
    · rw [heq] at hgoes
      cases hgoes
    · rw [step_eq_perform (List.getElem?_toArray.trans hbyte) hbyteOp hsteps,
        Effect.goesOn_progress] at hgoes
      rcases Frame.recordsOrEnds_perform (f := m.frame.advance) (Env.new settings code calldata)
        (settings.stepLimit.toNat - steps) byte hact hzero with ⟨_, -, -, hsome, -⟩ | ⟨-, -, hends⟩
      · exact congrArg Option.isSome hsome
      · cases hgoes.symm.trans hends

/-- An instruction that reads a storage finds room for what it reads. -/
theorem step_of_load {kind : StoreKind} {key : UInt256} {rest : List UInt256} {steps : Nat}
    (hdepth : m.frame.stack.length ≤ settings.stackLimit.toNat)
    (hop : m.op? code = some kind.loadOp) (hstack : m.frame.stack = key :: rest)
    (hsteps : m.charge? (Env.new settings code calldata) = some steps) :
    m.step (Env.new settings code calldata)
      = .running ⟨{ m.frame.advance with
          stack := (StoreKind.of m.frame kind).getD key 0 :: rest }, steps⟩ := by
  obtain ⟨byte, hbyte, hop⟩ := Option.bind_eq_some_iff.mp hop
  have hroom : rest.length < (Env.new settings code calldata).settings.stackLimit.toNat := by
    rw [hstack] at hdepth
    exact hdepth
  have hperform (gas : Nat) : m.frame.advance.perform (Env.new settings code calldata) gas byte
      kind.loadOp = m.frame.advance.pop fun key f =>
        f.push (Env.new settings code calldata) ((StoreKind.of f kind).getD key 0) := by
    cases kind <;> rfl
  rw [step_eq_perform (List.getElem?_toArray.trans hbyte) hop hsteps, hperform,
    Frame.pop_of_stack (f := m.frame.advance) hstack,
    Frame.push_of_lt (f := { m.frame.advance with stack := rest }) hroom]
  rfl

/-- An execution that returns has come to its end by some step. -/
theorem exists_endsAt_of_execute {x : Execution} (hx : execute settings code calldata = .ok x) :
    ∃ n, EndsAt (Env.new settings code calldata) n (.ok x) := by
  unfold execute at hx
  split at hx
  · cases hx
  · exact exists_endsAt_of_run hx

end Code

/-- **Two storages and the logs, told by the history.** In every execution,
after any number of steps,

* a step that goes on is an act exactly if its instruction is one, and
  the history before stays as it is;
* each storage holds under each key what was stored there last, or zero,
  and this is what an instruction that reads the storage puts on the stack;
* the logs are the entries of the history.

What is returned in the end has the entries of all steps, however the
execution has ended. -/
theorem remembers_history (settings : Settings) (code calldata : Bytes) :
    let env := Env.new settings code calldata
    (∀ n, let m := after env n
      (∀ op m', m.op? code = some op → m.step env = .running m' →
        (m.act? env).isSome = op.isAct)
      ∧ (∀ k, history env n <+: history env (n + k))
      ∧ (∀ kind key, (StoreKind.of m.frame kind).getD key 0
        = Act.lastStored kind key (history env n))
      ∧ (∀ kind key rest steps, m.op? code = some (StoreKind.loadOp kind) →
        m.frame.stack = key :: rest → m.charge? env = some steps →
        m.step env = .running ⟨{ m.frame.advance with
          stack := Act.lastStored kind key (history env n) :: rest }, steps⟩)
      ∧ m.frame.logs.toList = Act.entries (history env n))
    ∧ ∀ x, execute settings code calldata = .ok x →
      ∃ n, EndsAt env n (.ok x) ∧ x.logs = Act.entries (history env (n + 1)) := by
  intro env
  refine ⟨fun n => ?_, fun x hx => ?_⟩
  · intro m
    have hremembers := remembers_after env n
    refine ⟨fun op m' => isSome_act? (zeroBeyond_after env n), history_isPrefix env n,
      hremembers.store_eq, fun kind key rest steps hop hstack hsteps => ?_, hremembers.logs_eq⟩
    rw [← hremembers.store_eq]
    exact step_of_load (within_frame_after env n).stack_le hop hstack hsteps
  · obtain ⟨n, hends⟩ := exists_endsAt_of_execute hx
    exact ⟨n, hends, hends.eq_after.2.trans (remembers_after env (n + 1)).logs_eq⟩

/-- Numbers are stored under two keys, in the other storage, and under the
first key again; what is found there is logged, and then the execution is
reverted. -/
def revertingCode : Bytes :=
  [0x60, 5, 0x60, 1, 0x55, 0x60, 6, 0x60, 2, 0x55, 0x60, 7, 0x60, 1, 0x5d, 0x60, 8, 0x60, 1, 0x55,
    0x60, 1, 0x54, 0x60, 1, 0x5f, 0xa1, 0x5f, 0x5f, 0xfd]

/-- The entry has what was stored last as its topic, and the revert does not
take it back. -/
theorem remembers_history_reverting :
    (after (Env.new .standard revertingCode []) 14).frame.stack = [8]
      ∧ execute .standard revertingCode [] = .ok ⟨.reverted [], 20,
        [⟨Settings.standard.block.address, [Word.ofUInt256 8], [0]⟩]⟩
      ∧ ∃ n, EndsAt (Env.new .standard revertingCode []) n (.ok ⟨.reverted [], 20,
          [⟨Settings.standard.block.address, [Word.ofUInt256 8], [0]⟩]⟩)
        ∧ [⟨Settings.standard.block.address, [Word.ofUInt256 8], [0]⟩]
          = Act.entries (history (Env.new .standard revertingCode []) (n + 1)) := by
  obtain ⟨hsteps, hruns⟩ := remembers_history .standard revertingCode []
  have hx : execute .standard revertingCode [] = .ok ⟨.reverted [], 20,
      [⟨Settings.standard.block.address, [Word.ofUInt256 8], [0]⟩]⟩ := by decide +kernel
  have hlast : Act.lastStored .persistent 1 (history (Env.new .standard revertingCode []) 13)
      = 8 := by decide +kernel
  have hload := (hsteps 13).2.2.2.1 .persistent 1 [] 14 (by decide +kernel) (by decide +kernel)
    (by decide +kernel)
  refine ⟨?_, hx, hruns _ hx⟩
  rw [after, hload, hlast]
  rfl

end Machine

end EthCall.Evm
