import EthCall.Evm.Machine
import EthCall.Proofs.Evm.TrappingArithmetic

/-!
# Steps, operation by operation

The steps of `EthCall.Evm.Machine` read memory at any place, take any part
of the code and know the `n`-th number from the top. Here are the same
steps as a machine takes them, which has none of that for free: memory is
a row of bytes whose parts have to be in it, the stack is a row that ends
with its top and is indexed from its other end, every place and every
length is a number of a size, and each of the sums and differences that
such places come from is one more operation that can trap.

Nothing is guarded here that an instruction does not guard itself. Where
it compares, saturates or asks for the checked sum, so does the
definition, and where it relies on what an earlier part has checked – that
a reserved stretch is in memory, that the position has passed a byte, that
the count is within the limit – the operation stands without a guard.
`EthCall.Proofs.Evm.Untrapped` shows that none of them traps.

What cannot trap is taken over from the steps as they are: the operations
on numbers that wrap around, the pushing of a number, the two storages and
the counting of instructions, which saturates.
-/

namespace EthCall.Evm.Trapping

/-! ## Bytes in memory -/

/-- The bytes from `first` on that are in front of `last`. Memory ends where
what is in use of it ends. -/
def read (m : Memory) (first last : Nat) : Except Trap Bytes :=
  if first ≤ last ∧ last ≤ m.size then .ok (m.read first (last - first)) else .error .outOfRange

/-- Memory with as many other bytes from `first` on, in front of `last`. -/
def write (m : Memory) (first last : Nat) (bs : Bytes) : Except Trap Memory :=
  if first ≤ last ∧ last ≤ m.size then
    if bs.length = last - first then .ok (m.write first bs) else .error .lengthMismatch
  else .error .outOfRange

/-- Memory with another byte at a place. -/
def setByte (m : Memory) (i : Nat) (b : UInt8) : Except Trap Memory :=
  if i < m.size then .ok (m.write i [b]) else .error .outOfRange

/-- Memory with the bytes from `first` on, in front of `last`, copied to
another place of it. -/
def copyWithin (m : Memory) (first last dest : Nat) : Except Trap Memory :=
  if first ≤ last ∧ last ≤ m.size ∧ dest + (last - first) ≤ m.size then
    .ok (m.write dest (m.read first (last - first)))
  else .error .outOfRange

/-- So many places, zero at first, into which the bytes of a source are
copied from an offset on, as far as there are any. -/
def filled (source : Array UInt8) (offset : UInt256) (len : Nat) : Except Trap Bytes :=
  match toSize? offset with
  | some start =>
    if start < source.size then do
      let rest ← Trap.sub source.size start
      let available := min rest len
      let last ← Trap.add maxSize start available
      Trap.overwrite (Bytes.zeros len) 0 available (← Trap.slice source.toList start last)
    else return Bytes.zeros len
  | none => return Bytes.zeros len

/-- A word of a source. -/
def loadWord (source : Array UInt8) (offset : UInt256) : Except Trap UInt256 := do
  ofBytes (← filled source offset 32)

/-! ## Operands -/

/-- Take one number from the stack. -/
def pop (f : Frame) (k : UInt256 → Frame → Except Trap Effect) : Except Trap Effect :=
  match f.stack with
  | x :: rest => k x { f with stack := rest }
  | [] => return f.halt .stackUnderflow

/-- Take two numbers from the stack, the top first. -/
def pop2 (f : Frame) (k : UInt256 → UInt256 → Frame → Except Trap Effect) : Except Trap Effect :=
  pop f fun x f => pop f fun y f => k x y f

/-- Take three numbers from the stack, the top first. -/
def pop3 (f : Frame) (k : UInt256 → UInt256 → UInt256 → Frame → Except Trap Effect) :
    Except Trap Effect :=
  pop2 f fun x y f => pop f fun z f => k x y z f

/-- Take so many numbers from the stack, one after the other. -/
def popMany : (n : Nat) → (f : Frame) → (List UInt256 → Frame → Except Trap Effect) →
    Except Trap Effect
  | 0, f, k => k [] f
  | n + 1, f, k => pop f fun x f => popMany n f fun xs f => k (x :: xs) f

/-- The place and the length of a stretch and the end of its last word, as
sizes, if they are that. The end is still to be rounded down. -/
def extent? (offset len : UInt256) : Option (Nat × Nat × Nat) := do
  let start ← toSize? offset
  let len ← toSize? len
  let last ← Trap.checkedAdd? maxSize start len
  let padded ← Trap.checkedAdd? maxSize last 31
  return (start, len, padded)

/-- **Reserve a stretch of memory**, and go on with its place and its
length as sizes. Those of a stretch without bytes are zero. -/
def reserve (env : Env) (f : Frame) (offset len : UInt256)
    (k : (start len : Nat) → Frame → Except Trap Effect) : Except Trap Effect :=
  if len = 0 then k 0 0 f
  else
    let limit := env.settings.memoryLimit.toNat
    match extent? offset len with
    | none => return .fault (.memoryLimitExceeded maxSize limit) f
    | some (start, len, padded) => do
      let size ← Trap.mul maxSize (padded / 32) 32
      if limit < size then return .fault (.memoryLimitExceeded size limit) f
      else k start len { f with memory := f.memory.grow size }

/-- Reserve a stretch of memory and read it. -/
def fetch (env : Env) (f : Frame) (offset len : UInt256)
    (k : Bytes → Frame → Except Trap Effect) : Except Trap Effect :=
  reserve env f offset len fun start len f => do
    let last ← Trap.add maxSize start len
    k (← read f.memory start last) f

/-- Reserve a stretch of memory and fill it from a source. -/
def copy (env : Env) (f : Frame) (source : Array UInt8) (dest offset len : UInt256) :
    Except Trap Effect :=
  reserve env f dest len fun start len f => do
    let last ← Trap.add maxSize start len
    let bs ← filled source offset len
    return .next { f with memory := ← write f.memory start last bs }

/-- Go on elsewhere, if execution may go on there. The marks are only asked
for a place that is in the code. -/
def jumpTo (env : Env) (f : Frame) (dest : UInt256) : Except Trap Effect :=
  match toSize? dest with
  | some place =>
    if place < env.code.size then do
      if ← Trap.index env.targets.toList place then return .next { f with pc := place }
      else return f.halt (.invalidJump place)
    else return f.halt (.invalidJump place)
  | none => return f.halt (.invalidJump maxSize)

/-- The answer to a question about the surroundings, after so many
steps. -/
def answer (env : Env) (steps : Nat) (f : Frame) : ContextOp → Except Trap UInt256
  | .pc => do return BitVec.ofNat 256 (← Trap.sub f.pc 1)
  | .gas => do return BitVec.ofNat 256 (← Trap.sub env.settings.stepLimit.toNat steps)
  | q => return f.answer env 0 q

/-! ## Bytes that are several instructions -/

/-- How far a byte is behind another one. Both are numbers of a byte. -/
def distance (byte first : UInt8) : Except Trap Nat :=
  Trap.sub byte.toNat first.toNat

/-- The same, counted from one. -/
def place (byte first : UInt8) : Except Trap Nat := do
  Trap.add 255 (← distance byte first) 1

/-- How many bytes a byte pushes. -/
def pushed (byte : UInt8) : Except Trap Nat :=
  if 0x60 ≤ byte.toNat ∧ byte.toNat ≤ 0x7f then place byte 0x60 else return 0

/-- Push the bytes behind a push. Those that the code does not have are
zero. -/
def push (env : Env) (byte : UInt8) (f : Frame) : Except Trap Effect := do
  let size ← pushed byte
  let start ← Trap.sub 32 size
  let available := min (env.code.size - f.pc) size
  let last ← Trap.add maxSize start available
  let bs ← Trap.slice env.code.toList f.pc (← Trap.add maxSize f.pc available)
  let word ← Trap.overwrite (Bytes.zeros 32) start last bs
  let pc ← Trap.add maxSize f.pc size
  let x ← ofBytes word
  return Frame.push env { f with pc := pc } x

/-- Push a copy of a number. The stack is a list that ends with its
top. -/
def dup (env : Env) (byte : UInt8) (f : Frame) : Except Trap Effect := do
  let depth ← place byte 0x80
  if f.stack.length < depth then return f.halt .stackUnderflow
  else
    let x ← Trap.index f.stack.reverse (← Trap.sub f.stack.length depth)
    return f.push env x

/-- Exchange the top with another number. -/
def swap (byte : UInt8) (f : Frame) : Except Trap Effect := do
  let depth ← place byte 0x90
  if f.stack.length ≤ depth then return f.halt .stackUnderflow
  else
    let top ← Trap.sub f.stack.length 1
    let stack ← Trap.swap f.stack.reverse top (← Trap.sub top depth)
    return .next { f with stack := stack.reverse }

/-- Log a stretch of memory. -/
def log (env : Env) (byte : UInt8) (f : Frame) : Except Trap Effect := do
  let topicCount ← distance byte 0xa0
  pop2 f fun offset len f =>
    popMany topicCount f fun topics f => fetch env f offset len fun data f =>
      return .next { f with
        logs := f.logs.push ⟨env.settings.block.address, topics.map Word.ofUInt256, data⟩ }

/-! ## Instructions -/

/-- **The effect of an instruction** on a frame whose position is already
behind the instruction's byte. -/
def perform (env : Env) (steps : Nat) (byte : UInt8) (f : Frame) : Op → Except Trap Effect
  | .unary op => pop f fun x f => return f.push env (op.apply x)
  | .binary op => pop2 f fun x y f => do return f.push env (← binary op x y)
  | .ternary op => pop3 f fun x y n f => do return f.push env (← ternary op x y n)
  | .keccak256 => pop2 f fun offset len f =>
    fetch env f offset len fun bs f => return f.push env (keccak256 bs).toUInt256
  | .context q => do return f.push env (← answer env steps f q)
  | .record _ => pop f fun _ f => return f.push env 0
  | .callDataLoad => pop f fun offset f => do
    return f.push env (← loadWord env.calldata offset)
  | .callDataCopy => pop3 f fun dest offset len f => copy env f env.calldata dest offset len
  | .codeCopy => pop3 f fun dest offset len f => copy env f env.code dest offset len
  | .returnDataCopy => pop3 f fun dest offset len f =>
    if offset = 0 ∧ len = 0 then reserve env f dest len fun _ _ f => return .next f
    else return f.halt .returnDataOutOfBounds
  | .pop => pop f fun _ f => return .next f
  | .memoryLoad => pop f fun offset f => reserve env f offset 32 fun start _ f => do
    let last ← Trap.add maxSize start 32
    return f.push env (← ofBytes (← read f.memory start last))
  | .memoryStore => pop2 f fun offset x f => reserve env f offset 32 fun start _ f => do
    let last ← Trap.add maxSize start 32
    return .next { f with memory := ← write f.memory start last (Word.ofUInt256 x).bytes }
  | .memoryStore8 => pop2 f fun offset x f => reserve env f offset 1 fun start _ f => do
    return .next { f with memory := ← setByte f.memory start (← Trapping.byte x 0) }
  | .memoryCopy => pop3 f fun dest offset len f =>
    if len = 0 then return .next f
    else reserve env f dest len fun dest len f =>
      reserve env f offset (BitVec.ofNat 256 len) fun start _ f => do
        let last ← Trap.add maxSize start len
        return .next { f with memory := ← copyWithin f.memory start last dest }
  | .storageLoad => pop f fun key f => return f.push env (f.storage.getD key 0)
  | .storageStore => pop2 f fun key x f =>
    return .next { f with storage := f.storage.insert key x }
  | .transientLoad => pop f fun key f => return f.push env (f.transient.getD key 0)
  | .transientStore => pop2 f fun key x f =>
    return .next { f with transient := f.transient.insert key x }
  | .jump => pop f fun dest f => jumpTo env f dest
  | .jumpIf => pop2 f fun dest condition f =>
    if condition = 0 then return .next f else jumpTo env f dest
  | .push 0 => return f.push env 0
  | .push _ => push env byte f
  | .dup _ => dup env byte f
  | .swap _ => swap byte f
  | .log _ => log env byte f
  | .return_ => pop2 f fun offset len f =>
    fetch env f offset len fun bs f => return .finish (.returned bs) f
  | .revert => pop2 f fun offset len f =>
    fetch env f offset len fun bs f => return .finish (.reverted bs) f
  | .stop => return .finish (.returned []) f
  | .jumpDest => return .next f
  | .invalid => return f.halt .designatedInvalid
  | .external op => return .fault (.unsupportedOpcode byte op) f

/-- The effect of the instruction a byte stands for. -/
def dispatch (env : Env) (steps : Nat) (byte : UInt8) (f : Frame) : Except Trap Effect :=
  match Op.ofByte? byte with
  | some op => perform env steps byte f op
  | none => return f.halt (.invalidOpcode byte)

/-- **One step.** -/
def step (env : Env) (m : Machine) : Except Trap Progress :=
  match env.code[m.frame.pc]? with
  | none => return .ended (.returned []) m
  | some byte =>
    match m.charge? env with
    | none => return .stopped (.stepLimitExceeded env.settings.stepLimit.toNat) m
    | some steps => do
      let pc ← Trap.add maxSize m.frame.pc 1
      let effect ← dispatch env steps byte { m.frame with pc := pc }
      return effect.progress steps

/-! ## Executions -/

/-- Mark a place, if its byte does. -/
def mark (byte : UInt8) (pc : Nat) (marks : List Bool) : Except Trap (List Bool) :=
  if byte = jumpDestByte then Trap.set marks pc true else return marks

/-- **The marks of the places that a jump may lead to.** The scan goes on
from one instruction to the next. -/
def scan (code : Bytes) (pc : Nat) (marks : List Bool) : Except Trap (List Bool) :=
  if pc < code.length then do
    let byte ← Trap.index code pc
    let marks ← mark byte pc marks
    let size ← pushed byte
    let _next ← Trap.add maxSize pc (← Trap.add maxSize 1 size)
    scan code (pc + (1 + size)) marks
  else return marks
termination_by code.length - pc

/-- The surroundings of some code on some calldata. -/
def prepare (settings : Settings) (code calldata : Bytes) : Except Trap Env := do
  let targets ← scan code 0 (List.replicate code.length false)
  return ⟨settings, code.toArray, targets.toArray, calldata.toArray⟩

/-- **The machine that `n` steps leave behind.** -/
def after (env : Env) : Nat → Except Trap Machine
  | 0 => return .initial
  | n + 1 => do
    let m ← after env n
    let p ← step env m
    return p.machine

end EthCall.Evm.Trapping
