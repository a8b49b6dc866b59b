import EthCall.Evm.Arithmetic
import EthCall.Evm.Memory
import EthCall.Evm.Outcome
import EthCall.Evm.Settings
import EthCall.Keccak

/-!
# The machine

The machine carries out the code of one contract on some calldata. All it
changes is in a `Frame`: the position in the code, the stack, the memory,
the two storages and the logs, each empty at the start. What it only reads
– code, calldata, settings – is the `Env`.

`Frame.perform` is the effect of one instruction. It is written in the
order in which an instruction meets its obstacles: first it takes its
operands from the stack, then it reserves memory, and last it puts
its result on the stack.

`Machine.step` adds the counting of instructions and `run` repeats it. A
step leaves a machine behind whatever it leads to, also where it fails
half way: operands that were taken stay taken, and memory that was
reserved stays reserved.
-/

namespace EthCall.Evm

/-! ## The surroundings -/

/-- A scan of code, byte by byte. -/
structure JumpScan where
  /-- How many of the next bytes are pushed and are no instructions. -/
  skip : Nat
  /-- For each byte passed, whether execution may go on there. -/
  marks : Array Bool

/-- Pass one byte. -/
def JumpScan.pass (s : JumpScan) (byte : UInt8) : JumpScan :=
  match s.skip with
  | skip + 1 => ⟨skip, s.marks.push false⟩
  | 0 => ⟨pushSize byte, s.marks.push (byte == jumpDestByte)⟩

/-- **Where execution may go on after a jump**: at the marking bytes that
are instructions and not pushed. -/
def jumpTargets (code : Bytes) : Array Bool :=
  (code.foldl JumpScan.pass ⟨0, #[]⟩).marks

/-- **What an execution reads but does not change.** -/
structure Env where
  /-- The limits and the block. -/
  settings : Settings
  /-- The code. -/
  code : Array UInt8
  /-- Where execution may go on after a jump. -/
  targets : Array Bool
  /-- The calldata. -/
  calldata : Array UInt8

/-- The surroundings of some code on some calldata. -/
def Env.new (settings : Settings) (code calldata : Bytes) : Env :=
  ⟨settings, code.toArray, jumpTargets code, calldata.toArray⟩

/-! ## Frames -/

/-- The storage of a contract. -/
abbrev Store := Std.TreeMap UInt256 UInt256

/-- **What an execution changes.** -/
structure Frame where
  /-- The position in the code. -/
  pc : Nat
  /-- The stack, its top first. -/
  stack : List UInt256
  /-- The memory. -/
  memory : Memory
  /-- The storage. -/
  storage : Store
  /-- The storage that is forgotten with the transaction. -/
  transient : Store
  /-- What was logged so far. -/
  logs : Array Log

/-- A frame at the start of the code. -/
def Frame.initial : Frame := ⟨0, [], .empty, ∅, ∅, #[]⟩

/-- **What an instruction leads to**, with the frame it leaves behind. -/
inductive Effect where
  /-- Execution goes on. -/
  | next (f : Frame)
  /-- Execution ends. -/
  | finish (o : Outcome) (f : Frame)
  /-- Execution is stopped. -/
  | fault (e : Fault) (f : Frame)

/-- The frame an instruction leaves behind. -/
def Effect.frame : Effect → Frame
  | next f => f
  | finish _ f => f
  | fault _ f => f

namespace Frame

/-- End as a mistake of the contract. -/
def halt (f : Frame) (reason : Halt) : Effect :=
  .finish (.halted reason) f

/-- Put a number on the stack, if it has room. -/
def push (env : Env) (f : Frame) (x : UInt256) : Effect :=
  if f.stack.length < env.settings.stackLimit.toNat then .next { f with stack := x :: f.stack }
  else f.halt .stackOverflow

/-- Take `n` numbers from the stack, the top first. Where there are fewer,
those that are there are taken. -/
def popMany (f : Frame) (n : Nat) (k : List UInt256 → Frame → Effect) : Effect :=
  if n ≤ f.stack.length then k (f.stack.take n) { f with stack := f.stack.drop n }
  else { f with stack := [] }.halt .stackUnderflow

/-- Take one number from the stack. -/
def pop (f : Frame) (k : UInt256 → Frame → Effect) : Effect :=
  match f.stack with
  | a :: rest => k a { f with stack := rest }
  | [] => f.halt .stackUnderflow

/-- Take two numbers from the stack, the top first. -/
def pop2 (f : Frame) (k : UInt256 → UInt256 → Frame → Effect) : Effect :=
  f.pop fun a f => f.pop fun b f => k a b f

/-- Take three numbers from the stack, the top first. -/
def pop3 (f : Frame) (k : UInt256 → UInt256 → UInt256 → Frame → Effect) : Effect :=
  f.pop2 fun a b f => f.pop fun c f => k a b c f

/-- The bytes of memory that reach up to `last`, in whole words. -/
def wholeWords (last : Nat) : Nat := (last + 31) / 32 * 32

/-- **Reserve a stretch of memory.** The memory in use grows to whole
words. A stretch without bytes needs nothing, wherever it is. -/
def reserve (env : Env) (f : Frame) (offset len : UInt256) (k : Frame → Effect) : Effect :=
  if len = 0 then k f
  else
    let last := offset.toNat + len.toNat
    let limit := env.settings.memoryLimit.toNat
    if maxSize < last + 31 then .fault (.memoryLimitExceeded maxSize limit) f
    else if limit < wholeWords last then .fault (.memoryLimitExceeded (wholeWords last) limit) f
    else k { f with memory := f.memory.grow (wholeWords last) }

/-- Reserve a stretch of memory and read it. -/
def fetch (env : Env) (f : Frame) (offset len : UInt256) (k : Bytes → Frame → Effect) : Effect :=
  f.reserve env offset len fun f => k (f.memory.read offset.toNat len.toNat) f

/-- Reserve a stretch of memory and write it. The bytes are asked
for only when the stretch is granted. -/
def put (env : Env) (f : Frame) (offset len : UInt256) (bs : Unit → Bytes) : Effect :=
  f.reserve env offset len fun f =>
    .next { f with memory := f.memory.write offset.toNat (bs ()) }

/-- **Go on elsewhere**, if execution may go on there. A place beyond
every size is reported as `maxSize`. -/
def jumpTo (env : Env) (f : Frame) (dest : UInt256) : Effect :=
  if env.targets.getD dest.toNat false then .next { f with pc := dest.toNat }
  else f.halt (.invalidJump (min dest.toNat maxSize))

/-- The answer to a question about the surroundings. The position is that
of the asking instruction, and `gas` is the number of instructions
left. -/
def answer (env : Env) (gas : Nat) (f : Frame) : ContextOp → UInt256
  | .address => BitVec.ofNat 256 env.settings.block.address.toNat
  | .origin => BitVec.ofNat 256 env.settings.block.origin.toNat
  | .caller => BitVec.ofNat 256 env.settings.block.caller.toNat
  | .callValue => 0
  | .callDataSize => BitVec.ofNat 256 env.calldata.size
  | .codeSize => BitVec.ofNat 256 env.code.size
  | .gasPrice => BitVec.ofNat 256 env.settings.block.baseFee.toNat
  | .returnDataSize => 0
  | .coinbase => BitVec.ofNat 256 env.settings.block.coinbase.toNat
  | .timestamp => BitVec.ofNat 256 env.settings.block.timestamp.toNat
  | .number => BitVec.ofNat 256 env.settings.block.number.toNat
  | .prevRandao => env.settings.block.prevRandao.toUInt256
  | .gasLimit => BitVec.ofNat 256 env.settings.block.gasLimit.toNat
  | .chainId => BitVec.ofNat 256 env.settings.block.chainId.toNat
  | .selfBalance => 0
  | .baseFee => BitVec.ofNat 256 env.settings.block.baseFee.toNat
  | .blobBaseFee => 1
  | .pc => BitVec.ofNat 256 (f.pc - 1)
  | .memorySize => BitVec.ofNat 256 f.memory.size
  | .gas => BitVec.ofNat 256 gas

/-- **The effect of an instruction** on a frame whose position is already
behind the instruction's byte. -/
def perform (env : Env) (gas : Nat) (byte : UInt8) (f : Frame) : Op → Effect
  | .stop => .finish (.returned []) f
  | .unary op => f.pop fun a f => f.push env (op.apply a)
  | .binary op => f.pop2 fun a b f => f.push env (op.apply a b)
  | .ternary op => f.pop3 fun a b c f => f.push env (op.apply a b c)
  | .keccak256 => f.pop2 fun offset len f =>
    f.fetch env offset len fun bs f => f.push env (keccak256 bs).toUInt256
  | .context q => f.push env (f.answer env gas q)
  | .record _ => f.pop fun _ f => f.push env 0
  | .callDataLoad => f.pop fun offset f =>
    f.push env (numberOfBytes (zeroExtended env.calldata offset.toNat 32))
  | .callDataCopy => f.pop3 fun dest source len f =>
    f.put env dest len fun _ => zeroExtended env.calldata source.toNat len.toNat
  | .codeCopy => f.pop3 fun dest source len f =>
    f.put env dest len fun _ => zeroExtended env.code source.toNat len.toNat
  | .returnDataCopy => f.pop3 fun _ source len f =>
    -- Nothing was called, so there are no return data.
    if source = 0 ∧ len = 0 then .next f else f.halt .returnDataOutOfBounds
  | .pop => f.pop fun _ f => .next f
  | .memoryLoad => f.pop fun offset f =>
    f.fetch env offset 32 fun bs f => f.push env (numberOfBytes bs)
  | .memoryStore => f.pop2 fun offset x f => f.put env offset 32 fun _ => (Word.ofUInt256 x).bytes
  | .memoryStore8 => f.pop2 fun offset x f => f.put env offset 1 fun _ => [UInt8.ofNat x.toNat]
  | .memoryCopy => f.pop3 fun dest source len f =>
    -- The target is reserved first. The bytes are read before any is written, so that the
    -- stretches may overlap.
    f.reserve env dest len fun f => f.fetch env source len fun bs f =>
      .next { f with memory := f.memory.write dest.toNat bs }
  | .storageLoad => f.pop fun key f => f.push env (f.storage.getD key 0)
  | .storageStore => f.pop2 fun key x f => .next { f with storage := f.storage.insert key x }
  | .transientLoad => f.pop fun key f => f.push env (f.transient.getD key 0)
  | .transientStore => f.pop2 fun key x f =>
    .next { f with transient := f.transient.insert key x }
  | .jump => f.pop fun dest f => f.jumpTo env dest
  | .jumpIf => f.pop2 fun dest condition f =>
    if condition = 0 then .next f else f.jumpTo env dest
  | .jumpDest => .next f
  | .push size =>
    { f with pc := f.pc + size }.push env (numberOfBytes (zeroExtended env.code f.pc size))
  | .dup n =>
    match f.stack[n - 1]? with
    | some x => f.push env x
    | none => f.halt .stackUnderflow
  | .swap n =>
    match f.stack, f.stack[n]? with
    | top :: rest, some x => .next { f with stack := x :: rest.set (n - 1) top }
    | _, _ => f.halt .stackUnderflow
  | .log n => f.pop2 fun offset len f =>
    -- The topics are off the stack before memory is reserved.
    f.popMany n fun topics f => f.fetch env offset len fun data f =>
      .next { f with
        logs := f.logs.push ⟨env.settings.block.address, topics.map Word.ofUInt256, data⟩ }
  | .return_ => f.pop2 fun offset len f =>
    f.fetch env offset len fun bs f => .finish (.returned bs) f
  | .revert => f.pop2 fun offset len f =>
    f.fetch env offset len fun bs f => .finish (.reverted bs) f
  | .invalid => f.halt .designatedInvalid
  | .external op => .fault (.unsupportedOpcode byte op) f

/-- The frame with its position behind the byte it is at. -/
def advance (f : Frame) : Frame := { f with pc := f.pc + 1 }

/-- The effect of the instruction a byte stands for. -/
def dispatch (env : Env) (gas : Nat) (byte : UInt8) (f : Frame) : Effect :=
  match Op.ofByte? byte with
  | some op => f.perform env gas byte op
  | none => f.halt (.invalidOpcode byte)

end Frame

/-! ## Running -/

/-- **An execution under way.** -/
structure Machine where
  /-- What the contract sees. -/
  frame : Frame
  /-- How many instructions were carried out. -/
  steps : Nat

/-- An execution that has not begun. -/
def Machine.initial : Machine := ⟨.initial, 0⟩

/-- **What a step leads to**, with the machine it leaves behind. -/
inductive Progress where
  /-- The execution is under way. -/
  | running (m : Machine)
  /-- The execution has ended. -/
  | ended (o : Outcome) (m : Machine)
  /-- The execution is stopped. -/
  | stopped (e : Fault) (m : Machine)

/-- The machine a step leaves behind. -/
def Progress.machine : Progress → Machine
  | running m => m
  | ended _ m => m
  | stopped _ m => m

/-- What an instruction leads to, as a step that brings the count to
`steps`. -/
def Effect.progress (steps : Nat) : Effect → Progress
  | next f => .running ⟨f, steps⟩
  | finish o f => .ended o ⟨f, steps⟩
  | fault e f => .stopped e ⟨f, steps⟩

/-- The count with one more instruction, if the limit allows one. A count
at `maxSize` stays there. -/
def Machine.charge? (env : Env) (m : Machine) : Option Nat :=
  let steps := min (m.steps + 1) maxSize
  if env.settings.stepLimit.toNat < steps then none else some steps

/-- **One step**: the end of the code ends the execution, and any other
place costs one instruction. -/
def Machine.step (env : Env) (m : Machine) : Progress :=
  match env.code[m.frame.pc]? with
  | none => .ended (.returned []) m
  | some byte =>
    match m.charge? env with
    | none => .stopped (.stepLimitExceeded env.settings.stepLimit.toNat) m
    | some steps =>
      (m.frame.advance.dispatch env (env.settings.stepLimit.toNat - steps) byte).progress steps

/-- A count stays within the limit. -/
theorem Machine.le_of_charge? {env : Env} {m : Machine} {steps : Nat}
    (h : m.charge? env = some steps) : steps ≤ env.settings.stepLimit.toNat := by
  simp only [Machine.charge?] at h
  split at h
  · cases h
  · cases h
    omega

/-- A step that does not end the execution leaves a count within the
limit. -/
theorem Machine.steps_le_of_step_running {env : Env} {m m' : Machine}
    (h : m.step env = .running m') : m'.steps ≤ env.settings.stepLimit.toNat := by
  unfold Machine.step at h
  split at h
  · cases h
  · split at h
    · cases h
    · rename_i steps hsteps
      unfold Effect.progress at h
      split at h <;> cases h
      exact Machine.le_of_charge? hsteps

/-- **Carry an execution to its end.** It is given up where the count
cannot grow, which it takes `maxSize` instructions to come to. -/
def Machine.run (env : Env) (m : Machine) : Except Fault Execution :=
  match _h : m.step env with
  | .running m' =>
    if m.steps < m'.steps then run env m'
    else .error (.stepLimitExceeded env.settings.stepLimit.toNat)
  | .ended o m' => .ok ⟨o, m'.steps, m'.frame.logs.toList⟩
  | .stopped e _ => .error e
termination_by env.settings.stepLimit.toNat - m.steps
decreasing_by
  have := Machine.steps_le_of_step_running _h
  omega

/-- Something that can execute code on calldata. -/
abbrev Executor := (code calldata : Bytes) → Except Fault Execution

/-- **Execute code on calldata**, from nothing. -/
def execute (settings : Settings) : Executor := fun code calldata =>
  if settings.maxCodeSize.toNat < code.length then
    .error (.codeTooLarge code.length settings.maxCodeSize.toNat)
  else Machine.initial.run (Env.new settings code calldata)

end EthCall.Evm
