import EthCall.Proofs.Evm.Limits

/-!
# What an execution is not told

An execution is told the calldata and the block only where it asks for
them, by the instructions that `Op.asksCalldata` and `Op.asksBlock` list.
Nothing else reads them: neither how far the memory reaches nor where a
jump may lead depends on either. Code in which none of these instructions
starts therefore goes the same way on any calldata, and in any block
(`execute_of_neverAsks`). Their bytes may well be among the pushed ones.

One thing is told unasked. A log carries the address of the contract, which
is part of the block. Two frames in two blocks are so never quite the same,
and are compared up to it: `Frame.relocate` moves the logs of a frame to
other addresses, and every instruction commutes with it
(`Frame.perform_relocate`). On other calldata in the same block nothing is
to be moved, and the same lemmas serve with the identity.
-/

namespace EthCall.Evm

/-! ## Asking -/

/-- The questions that are answered from the block. -/
def ContextOp.asksBlock : ContextOp → Bool
  | address | origin | caller | gasPrice | coinbase | timestamp | number | prevRandao | gasLimit
  | chainId | baseFee => true
  | _ => false

/-- **The instructions that are told of the block.** -/
def Op.asksBlock : Op → Bool
  | context q => q.asksBlock
  | _ => false

/-- **The instructions that are told of the calldata.** -/
def Op.asksCalldata : Op → Bool
  | callDataLoad | callDataCopy | context .callDataSize => true
  | _ => false

/-- **Code without such instructions.** A byte that is only pushed may look
like one of them. -/
def NeverAsks (asks : Op → Bool) (code : Bytes) : Prop :=
  ∀ p, InstructionStart code p → ∀ op, code[p]?.bind Op.ofByte? = some op → asks op = false

/-- It is enough to look where the scan skips nothing. -/
theorem neverAsks_of_scanned {asks : Op → Bool} {code : Bytes}
    (h : ∀ p < code.length, (scanned code p).skip = 0 →
      ((code[p]?.bind Op.ofByte?).any asks) = false) : NeverAsks asks code := by
  intro p hp op hop
  obtain ⟨byte, hbyte, -⟩ := Option.bind_eq_some_iff.mp hop
  have hlt := (List.getElem?_eq_some_iff.mp hbyte).1
  have hany := h p hlt ((skip_scanned_eq_zero_iff (Nat.le_of_lt hlt)).mpr hp)
  rwa [hop] at hany

/-! ## Elsewhere -/

/-- The same surroundings in another block and on other calldata. -/
def Env.elsewhere (env : Env) (block : BlockEnv) (calldata : Array UInt8) : Env :=
  { env with settings := { env.settings with block := block }, calldata := calldata }

/-- **An instruction that cannot tell** the surroundings from those
elsewhere: it is told of nothing that is another there. -/
structure Op.CannotTell (env : Env) (block : BlockEnv) (calldata : Array UInt8) (op : Op) :
    Prop where
  /-- It is told of the block only where that is the same. -/
  block_eq : op.asksBlock = true → block = env.settings.block
  /-- It is told of the calldata only where they are the same. -/
  calldata_eq : op.asksCalldata = true → calldata = env.calldata

/-- A log of another contract. -/
def Log.relocate (move : Address → Address) (l : Log) : Log :=
  { l with address := move l.address }

/-- An execution whose logs are of another contract. -/
def Execution.relocate (move : Address → Address) (x : Execution) : Execution :=
  { x with logs := x.logs.map (Log.relocate move) }

/-- The same for a frame. -/
def Frame.relocate (move : Address → Address) (f : Frame) : Frame :=
  { f with logs := f.logs.map (Log.relocate move) }

/-- The same for what an instruction leads to. -/
def Effect.relocate (move : Address → Address) : Effect → Effect
  | next f => .next (f.relocate move)
  | finish o f => .finish o (f.relocate move)
  | fault e f => .fault e (f.relocate move)

/-- The same for an execution under way. -/
def Machine.relocate (move : Address → Address) (m : Machine) : Machine :=
  { m with frame := m.frame.relocate move }

/-- The same for what a step leads to. -/
def Progress.relocate (move : Address → Address) : Progress → Progress
  | running m => .running (m.relocate move)
  | ended o m => .ended o (m.relocate move)
  | stopped e m => .stopped e (m.relocate move)

/-- Steps commute with it if their instructions do. -/
theorem Effect.progress_relocate (move : Address → Address) (e : Effect) (steps : Nat) :
    (e.relocate move).progress steps = (e.progress steps).relocate move := by
  cases e <;> rfl

/-- Logs that are moved nowhere stay. -/
theorem Execution.relocate_id (x : Execution) : x.relocate id = x := by
  have hlogs : x.logs.map (Log.relocate id) = x.logs := List.map_id x.logs
  unfold relocate
  rw [hlogs]

namespace Frame

variable {env : Env} {block : BlockEnv} {calldata : Array UInt8} {move : Address → Address}

/-! ## The parts of an instruction

If what follows a part commutes with moving the logs, so does the whole. -/

section Parts

variable {f : Frame} {offset len : UInt256}

theorem pop_relocate {k k' : UInt256 → Frame → Effect}
    (hk : ∀ a g, k' a (g.relocate move) = (k a g).relocate move) :
    (f.relocate move).pop k' = (f.pop k).relocate move := by
  cases hstack : f.stack with
  | nil =>
    unfold pop
    rw [show (f.relocate move).stack = [] from hstack, hstack]
    rfl
  | cons a rest =>
    rw [pop_of_stack hstack, pop_of_stack (f := f.relocate move) hstack]
    exact hk a { f with stack := rest }

theorem pop2_relocate {k k' : UInt256 → UInt256 → Frame → Effect}
    (hk : ∀ a b g, k' a b (g.relocate move) = (k a b g).relocate move) :
    (f.relocate move).pop2 k' = (f.pop2 k).relocate move :=
  pop_relocate fun a _ => pop_relocate (hk a)

theorem pop3_relocate {k k' : UInt256 → UInt256 → UInt256 → Frame → Effect}
    (hk : ∀ a b c g, k' a b c (g.relocate move) = (k a b c g).relocate move) :
    (f.relocate move).pop3 k' = (f.pop3 k).relocate move :=
  pop2_relocate fun a b _ => pop_relocate (hk a b)

theorem popMany_relocate {n : Nat} {k k' : List UInt256 → Frame → Effect}
    (hk : ∀ xs g, k' xs (g.relocate move) = (k xs g).relocate move) :
    (f.relocate move).popMany n k' = (f.popMany n k).relocate move := by
  unfold popMany
  rw [apply_ite (Effect.relocate move), ← hk]
  rfl

theorem push_relocate (x : UInt256) :
    (f.relocate move).push (env.elsewhere block calldata) x = (f.push env x).relocate move := by
  unfold push
  rw [apply_ite (Effect.relocate move)]
  rfl

theorem reserve_relocate {k k' : Frame → Effect}
    (hk : ∀ g, k' (g.relocate move) = (k g).relocate move) :
    (f.relocate move).reserve (env.elsewhere block calldata) offset len k'
      = (f.reserve env offset len k).relocate move := by
  unfold reserve
  dsimp only
  rw [apply_ite (Effect.relocate move), apply_ite (Effect.relocate move),
    apply_ite (Effect.relocate move), ← hk, ← hk]
  rfl

theorem fetch_relocate {k k' : Bytes → Frame → Effect}
    (hk : ∀ bs g, k' bs (g.relocate move) = (k bs g).relocate move) :
    (f.relocate move).fetch (env.elsewhere block calldata) offset len k'
      = (f.fetch env offset len k).relocate move :=
  reserve_relocate fun _ => hk _ _

theorem put_relocate {bs : Unit → Bytes} :
    (f.relocate move).put (env.elsewhere block calldata) offset len bs
      = (f.put env offset len bs).relocate move :=
  reserve_relocate fun _ => rfl

theorem jumpTo_relocate (dest : UInt256) :
    (f.relocate move).jumpTo (env.elsewhere block calldata) dest
      = (f.jumpTo env dest).relocate move := by
  unfold jumpTo
  rw [apply_ite (Effect.relocate move)]
  rfl

end Parts

/-- What is logged is logged by another contract. -/
theorem relocate_log (f : Frame) (entry : Log) :
    { f with logs := f.logs.push entry }.relocate move
      = { f.relocate move with logs := (f.relocate move).logs.push (entry.relocate move) } := by
  unfold relocate
  rw [Array.map_push]

/-- **Every answer is the same**, unless what was asked for is another. -/
theorem answer_relocate {q : ContextOp} (h : (Op.context q).CannotTell env block calldata)
    (gas : Nat) (f : Frame) :
    (f.relocate move).answer (env.elsewhere block calldata) gas q = f.answer env gas q := by
  cases q with
  | callDataSize =>
    obtain rfl := h.calldata_eq rfl
    rfl
  | callValue | codeSize | returnDataSize | selfBalance | blobBaseFee | pc | memorySize | gas => rfl
  | _ =>
    obtain rfl := h.block_eq rfl
    rfl

/-! ## Instructions -/

/-- **An instruction does the same elsewhere**, if it cannot tell: its log is
moved, and that is all. -/
theorem perform_relocate (hmove : move env.settings.block.address = block.address) {op : Op}
    (h : op.CannotTell env block calldata) (gas : Nat) (byte : UInt8) (f : Frame) :
    (f.relocate move).perform (env.elsewhere block calldata) gas byte op
      = (f.perform env gas byte op).relocate move := by
  unfold perform
  cases op with
  | stop | jumpDest | invalid | external => rfl
  | unary | record | storageLoad | transientLoad => exact pop_relocate fun _ _ => push_relocate _
  | binary => exact pop2_relocate fun _ _ _ => push_relocate _
  | ternary => exact pop3_relocate fun _ _ _ _ => push_relocate _
  | keccak256 => exact pop2_relocate fun _ _ _ => fetch_relocate fun _ _ => push_relocate _
  | context q =>
    dsimp only
    rw [answer_relocate h]
    exact push_relocate _
  | callDataLoad =>
    obtain rfl := h.calldata_eq rfl
    exact pop_relocate fun _ _ => push_relocate _
  | callDataCopy =>
    obtain rfl := h.calldata_eq rfl
    exact pop3_relocate fun _ _ _ _ => put_relocate
  | codeCopy => exact pop3_relocate fun _ _ _ _ => put_relocate
  | returnDataCopy =>
    refine pop3_relocate fun _ source len g => ?_
    rw [apply_ite (Effect.relocate move)]
    rfl
  | pop => exact pop_relocate fun _ _ => rfl
  | memoryLoad => exact pop_relocate fun _ _ => fetch_relocate fun _ _ => push_relocate _
  | memoryStore | memoryStore8 => exact pop2_relocate fun _ _ _ => put_relocate
  | memoryCopy =>
    exact pop3_relocate fun _ _ _ _ => reserve_relocate fun _ => fetch_relocate fun _ _ => rfl
  | storageStore | transientStore => exact pop2_relocate fun _ _ _ => rfl
  | jump => exact pop_relocate fun dest _ => jumpTo_relocate dest
  | jumpIf =>
    refine pop2_relocate fun dest condition g => ?_
    rw [apply_ite (Effect.relocate move), ← jumpTo_relocate dest]
    rfl
  | push size => exact push_relocate (f := { f with pc := f.pc + size }) _
  | dup n =>
    dsimp only
    rw [show (f.relocate move).stack = f.stack from rfl]
    split
    · exact push_relocate _
    · rfl
  | swap n =>
    dsimp only
    rw [show (f.relocate move).stack = f.stack from rfl]
    split <;> rfl
  | log n =>
    refine pop2_relocate fun _ _ _ => popMany_relocate fun topics _ =>
      fetch_relocate fun data g => ?_
    rw [Effect.relocate, relocate_log, Log.relocate, hmove]
    rfl
  | return_ | revert => exact pop2_relocate fun _ _ _ => fetch_relocate fun _ _ => rfl

/-- The same for the instruction of a byte, or for a byte that is none. -/
theorem dispatch_relocate (hmove : move env.settings.block.address = block.address) {byte : UInt8}
    (h : ∀ op, Op.ofByte? byte = some op → op.CannotTell env block calldata) (gas : Nat)
    (f : Frame) : (f.relocate move).dispatch (env.elsewhere block calldata) gas byte
      = (f.dispatch env gas byte).relocate move := by
  unfold dispatch
  cases hop : Op.ofByte? byte with
  | none => rfl
  | some op => exact perform_relocate hmove (h op hop) gas byte f

end Frame

/-! ## Executions -/

namespace Machine

variable {env : Env} {block : BlockEnv} {move : Address → Address}

/-- Nothing has been logged at the start. -/
theorem relocate_initial : initial.relocate move = initial := by
  unfold relocate initial Frame.relocate Frame.initial
  rw [Array.map_empty]

/-- **A step does the same elsewhere**, if its instruction cannot tell. -/
theorem step_relocate {calldata : Array UInt8}
    (hmove : move env.settings.block.address = block.address) {m : Machine}
    (h : ∀ op, env.code[m.frame.pc]?.bind Op.ofByte? = some op →
      op.CannotTell env block calldata) :
    (m.relocate move).step (env.elsewhere block calldata) = (m.step env).relocate move := by
  have hcode : (env.elsewhere block calldata).code[(m.relocate move).frame.pc]?
      = env.code[m.frame.pc]? := rfl
  have hcharge : (m.relocate move).charge? (env.elsewhere block calldata) = m.charge? env := rfl
  unfold step
  rw [hcode, hcharge]
  cases hbyte : env.code[m.frame.pc]? with
  | none => rfl
  | some byte =>
    cases m.charge? env with
    | none => rfl
    | some steps =>
      have hdispatch := Frame.dispatch_relocate hmove
        (fun op hop => h op (by rw [hbyte]; exact hop))
        (env.settings.stepLimit.toNat - steps) m.frame.advance
      exact (congrArg (Effect.progress steps) hdispatch).trans (Effect.progress_relocate ..)

/-- **An execution goes the same way elsewhere**, if none of its
instructions can tell. -/
theorem run_relocate {settings : Settings} {code calldata calldata' : Bytes}
    (hmove : move settings.block.address = block.address)
    (h : ∀ p, InstructionStart code p → ∀ op, code[p]?.bind Op.ofByte? = some op →
      op.CannotTell (Env.new settings code calldata) block calldata'.toArray) {m : Machine}
    (hm : InstructionStart code m.frame.pc) :
    (m.relocate move).run (Env.new { settings with block := block } code calldata')
      = (m.run (Env.new settings code calldata)).map (Execution.relocate move) := by
  have hstep {m : Machine} {p : Progress} (hm : InstructionStart code m.frame.pc)
      (heq : m.step (Env.new settings code calldata) = p) :
      (m.relocate move).step (Env.new { settings with block := block } code calldata')
        = p.relocate move := by
    have hcannot : ∀ op,
        (Env.new settings code calldata).code[m.frame.pc]?.bind Op.ofByte? = some op →
        op.CannotTell (Env.new settings code calldata) block calldata'.toArray := by
      intro op hop
      refine h _ hm op ?_
      rw [← hop]
      exact congrArg (Option.bind · Op.ofByte?) List.getElem?_toArray.symm
    rw [← heq]
    exact step_relocate hmove hcannot
  induction m using run.induct (Env.new settings code calldata) with
  | case1 m m' heq hlt ih =>
    have hstart : InstructionStart code
        (m.step (Env.new settings code calldata)).machine.frame.pc := instructionStart_pc_step hm
    rw [heq] at hstart
    rw [run_of_running heq, run_of_running (hstep hm heq), if_pos hlt, ← ih hstart]
    exact if_pos hlt
  | case2 m m' heq hlt =>
    rw [run_of_running heq, run_of_running (hstep hm heq), if_neg hlt]
    exact if_neg hlt
  | case3 m o m' heq =>
    rw [run_of_ended heq, run_of_ended (hstep hm heq)]
    have hlogs : (m'.relocate move).frame.logs.toList
        = m'.frame.logs.toList.map (Log.relocate move) := Array.toList_map
    rw [hlogs]
    rfl
  | case4 m e m' heq =>
    rw [run_of_stopped heq, run_of_stopped (hstep hm heq)]
    rfl

end Machine

/-- The same for code that may be too long. -/
theorem execute_relocate {settings : Settings} {block : BlockEnv} {move : Address → Address}
    {code calldata calldata' : Bytes} (hmove : move settings.block.address = block.address)
    (h : ∀ p, InstructionStart code p → ∀ op, code[p]?.bind Op.ofByte? = some op →
      op.CannotTell (Env.new settings code calldata) block calldata'.toArray) :
    execute { settings with block := block } code calldata'
      = (execute settings code calldata).map (Execution.relocate move) := by
  unfold execute
  rw [apply_ite (Except.map (Execution.relocate move)), ← Machine.run_relocate hmove h .first,
    Machine.relocate_initial]
  rfl

/-- **An execution depends on nothing that it does not ask for.** If no
instruction asks for the calldata, the result is the same on all calldata:
outcome, count and logs, or the fault. If none asks for the block, it is
the same in all blocks, but for the address in the logs, which is that of
the contract in the block. -/
theorem execute_of_neverAsks (settings : Settings) (code : Bytes) :
    (NeverAsks Op.asksCalldata code → ∀ calldata calldata' : Bytes,
      execute settings code calldata = execute settings code calldata')
    ∧ (NeverAsks Op.asksBlock code → ∀ (block : BlockEnv) (calldata : Bytes),
      execute { settings with block := block } code calldata
        = (execute settings code calldata).map (Execution.relocate fun _ => block.address)) := by
  constructor
  · intro h calldata calldata'
    have hmove : id settings.block.address = settings.block.address := rfl
    have heq : execute settings code calldata
        = (execute settings code calldata').map (Execution.relocate id) :=
      execute_relocate hmove fun p hp op hop =>
        ⟨fun _ => rfl, fun hasks => absurd (h p hp op hop) (by rw [hasks]; decide)⟩
    cases hx : execute settings code calldata' with
    | error e => rw [heq, hx, Except.map]
    | ok x => rw [heq, hx, Except.map, Execution.relocate_id]
  · intro h block calldata
    exact execute_relocate rfl fun p hp op hop =>
      ⟨fun hasks => absurd (h p hp op hop) (by rw [hasks]; decide), fun _ => rfl⟩

/-- Code that logs the bytes of two instructions, one that asks for the
calldata and one that asks for the address. It only pushes them. -/
def secretiveCode : Bytes := [0x61, 0x36, 0x30, 0x5f, 0x52, 0x60, 2, 0x60, 30, 0xa0]

/-- A block with other accounts, at another time. -/
def laterBlock : BlockEnv :=
  { BlockEnv.initial with timestamp := 7, address := ⟨List.replicate 20 1, rfl⟩ }

/-- The log tells where the contract is, and nothing else. -/
theorem execute_of_neverAsks_secretive :
    NeverAsks Op.asksCalldata secretiveCode ∧ NeverAsks Op.asksBlock secretiveCode
      ∧ execute .standard secretiveCode []
        = .ok ⟨.returned [], 6, [⟨BlockEnv.initial.address, [], [0x36, 0x30]⟩]⟩
      ∧ execute .standard secretiveCode [1, 2, 3]
        = .ok ⟨.returned [], 6, [⟨BlockEnv.initial.address, [], [0x36, 0x30]⟩]⟩
      ∧ execute { Settings.standard with block := laterBlock } secretiveCode []
        = .ok ⟨.returned [], 6, [⟨laterBlock.address, [], [0x36, 0x30]⟩]⟩ := by
  have hcalldata : NeverAsks Op.asksCalldata secretiveCode :=
    neverAsks_of_scanned (by decide +kernel)
  have hblock : NeverAsks Op.asksBlock secretiveCode := neverAsks_of_scanned (by decide +kernel)
  have hx : execute .standard secretiveCode []
      = .ok ⟨.returned [], 6, [⟨BlockEnv.initial.address, [], [0x36, 0x30]⟩]⟩ := by
    decide +kernel
  refine ⟨hcalldata, hblock, hx, ?_, ?_⟩
  · rw [(execute_of_neverAsks .standard secretiveCode).1 hcalldata [1, 2, 3] [], hx]
  · rw [(execute_of_neverAsks .standard secretiveCode).2 hblock laterBlock [], hx]
    rfl

end EthCall.Evm
