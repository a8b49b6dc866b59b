import EthCall.Text.Decimal
import EthCall.Word

/-!
# Settings of an execution

An execution is bounded in four ways – the number of instructions, the
bytes of memory, the depth of the stack, the size of the code – and takes
place in a block whose data never change. There are three profiles of
limits to start from; settings made by hand are `custom`.

Settings that no execution could run under are invalid
(`Settings.defect?`). Settings that are merely unusual carry warnings.
-/

namespace EthCall.Evm

/-- The depth of the stack that contracts are promised. -/
def maxStackDepth : UInt64 := 1024

/-- The largest code that can be deployed, in bytes. -/
def maxCodeSize : UInt64 := 24576

/-- Where the limits come from. -/
inductive Profile where
  /-- Limits like those of the main network. -/
  | standard
  /-- Small limits, for code that is not trusted. -/
  | strict
  /-- Large limits, for heavy queries. -/
  | relaxed
  /-- Limits set by hand. -/
  | custom
  deriving DecidableEq

/-- The name of a profile. -/
def Profile.name : Profile → String
  | standard => "standard"
  | strict => "strict"
  | relaxed => "relaxed"
  | custom => "custom"

/-- The profiles. -/
def Profile.all : List Profile := [standard, strict, relaxed, custom]

/-- **The block and the transaction** an execution takes place in. -/
structure BlockEnv where
  /-- The chain. -/
  chainId : UInt64
  /-- The number of the block. -/
  number : UInt64
  /-- The time of the block. -/
  timestamp : UInt64
  /-- The gas of the block. -/
  gasLimit : UInt64
  /-- The fee of the block, which is also what the transaction pays. -/
  baseFee : UInt64
  /-- The account the fees go to. -/
  coinbase : Address
  /-- The randomness of the block. -/
  prevRandao : Word
  /-- The contract that is executed. -/
  address : Address
  /-- The account that calls it. -/
  caller : Address
  /-- The account the transaction comes from. -/
  origin : Address
  deriving DecidableEq

/-- The first chain, at its start, and empty accounts. -/
def BlockEnv.initial : BlockEnv where
  chainId := 1
  number := 0
  timestamp := 0
  gasLimit := 30000000
  baseFee := 0
  coinbase := .zero 20
  prevRandao := .zero 32
  address := .zero 20
  caller := .zero 20
  origin := .zero 20

/-- **What bounds and surrounds an execution.** -/
structure Settings where
  /-- Where the limits come from. -/
  profile : Profile
  /-- The largest number of instructions. -/
  stepLimit : UInt64
  /-- The largest number of bytes of memory. -/
  memoryLimit : UInt64
  /-- The largest number of entries on the stack. -/
  stackLimit : UInt64
  /-- The largest number of bytes of code. -/
  maxCodeSize : UInt64
  /-- The block. -/
  block : BlockEnv
  deriving DecidableEq

namespace Settings

/-- Limits like those of the main network. -/
def standard : Settings :=
  ⟨.standard, 10000000, 16 * 1024 * 1024, maxStackDepth, Evm.maxCodeSize, .initial⟩

/-- Small limits. -/
def strict : Settings :=
  ⟨.strict, 1000000, 1024 * 1024, maxStackDepth, Evm.maxCodeSize, .initial⟩

/-- Large limits. -/
def relaxed : Settings :=
  ⟨.relaxed, 100000000, 64 * 1024 * 1024, maxStackDepth, 2 * Evm.maxCodeSize, .initial⟩

instance : Inhabited Settings := ⟨standard⟩

/-- The same settings with another number of instructions. They are
custom. -/
def withStepLimit (s : Settings) (limit : UInt64) : Settings :=
  { s with stepLimit := limit, profile := .custom }

end Settings

/-- Why no execution can run under some settings. -/
inductive SettingsError where
  /-- Not one instruction. -/
  | noSteps
  /-- Memory for less than a word. -/
  | smallMemory (limit : UInt64)
  /-- No stack, or a deeper one than contracts are promised. -/
  | stackRange (limit : UInt64)
  /-- No code. -/
  | noCode
  deriving DecidableEq

/-- The text of the error. -/
def SettingsError.message : SettingsError → String
  | noSteps => "step_limit must be positive"
  | smallMemory _ => "memory_limit must hold at least one word"
  | stackRange _ => s!"stack_limit must be in 1..={maxStackDepth.toNat}"
  | noCode => "max_code_size must be positive"

/-- The offending limit, where the text of the error does not give it
away. -/
def SettingsError.details? : SettingsError → Option String
  | smallMemory limit => some s!"memory_limit = {limit.toNat}"
  | stackRange limit => some s!"stack_limit = {limit.toNat}"
  | _ => none

namespace Settings

/-- **What makes settings impossible to run under**: the first of the
limits, in their order, that is out of range. -/
def defect? (s : Settings) : Option SettingsError :=
  if s.stepLimit = 0 then some .noSteps
  else if s.memoryLimit < 32 then some (.smallMemory s.memoryLimit)
  else if s.stackLimit = 0 ∨ maxStackDepth < s.stackLimit then some (.stackRange s.stackLimit)
  else if s.maxCodeSize = 0 then some .noCode
  else none

/-- What is unusual about settings. -/
def warnings (s : Settings) : List String :=
  let shallow :=
    if s.stackLimit < maxStackDepth then
      [s!"Warning: stack_limit {s.stackLimit.toNat} is below the EVM depth of " ++
        Nat.repr maxStackDepth.toNat]
    else []
  let large :=
    if Evm.maxCodeSize < s.maxCodeSize then
      ["Warning: max_code_size exceeds the EIP-170 limit"]
    else []
  let ragged :=
    if s.memoryLimit % 32 ≠ 0 then ["Warning: memory_limit is not a multiple of 32"] else []
  shallow ++ large ++ ragged

end Settings

end EthCall.Evm
