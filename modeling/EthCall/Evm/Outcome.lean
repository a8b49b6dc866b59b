import EthCall.Evm.Opcode
import EthCall.Word

/-!
# How an execution ends

An execution that is allowed to end has an **outcome**: an output, the
payload of a revert, or a halt, which is the contract's own mistake. An
execution that is not allowed to go on has a **fault**: a limit is
exceeded, or other accounts would be needed. A fault is no answer of the
contract and is kept apart from all outcomes.
-/

namespace EthCall.Evm

/-- Why a contract cannot go on. -/
inductive Halt where
  /-- A byte that is no instruction. -/
  | invalidOpcode (byte : UInt8)
  /-- A jump to where execution may not go on. -/
  | invalidJump (target : Nat)
  /-- An instruction without all its operands. -/
  | stackUnderflow
  /-- A result without room. -/
  | stackOverflow
  /-- A read of return data that are not there. -/
  | returnDataOutOfBounds
  /-- The instruction that is invalid by design. -/
  | designatedInvalid
  deriving DecidableEq

/-- The two hexadecimal digits of a byte. -/
def byteText (b : UInt8) : String :=
  Hex.write [b]

/-- The text of the reason. -/
def Halt.message : Halt → String
  | invalidOpcode byte => "invalid opcode " ++ byteText byte
  | invalidJump target => s!"invalid jump destination {target}"
  | stackUnderflow => "stack underflow"
  | stackOverflow => "stack overflow"
  | returnDataOutOfBounds => "return data out of bounds"
  | designatedInvalid => "designated invalid instruction"

/-- **How an execution ended.** -/
inductive Outcome where
  /-- With an output. -/
  | returned (output : Bytes)
  /-- With the payload of a revert. -/
  | reverted (payload : Bytes)
  /-- With nothing, by the contract's own mistake. -/
  | halted (reason : Halt)
  deriving DecidableEq

/-- Whether there is an output. -/
def Outcome.isSuccess : Outcome → Bool
  | returned _ => true
  | _ => false

/-- **A log**: data under topics. -/
structure Log where
  /-- The contract that logged. -/
  address : Address
  /-- The topics. -/
  topics : List Word
  /-- The data. -/
  data : Bytes
  deriving DecidableEq

/-- **An execution that ended.** -/
structure Execution where
  /-- How it ended. -/
  outcome : Outcome
  /-- How many instructions were carried out. -/
  steps : Nat
  /-- What was logged, in order. A revert or halt does not withdraw
  it here. -/
  logs : List Log
  deriving DecidableEq

/-- **Why an execution is stopped from the outside.** -/
inductive Fault where
  /-- It has carried out as many instructions as it may. -/
  | stepLimitExceeded (limit : Nat)
  /-- It needs more memory than it may have. A number of bytes beyond
  every size is given as `maxSize`. -/
  | memoryLimitExceeded (requested limit : Nat)
  /-- It needs the state of other accounts. -/
  | unsupportedOpcode (byte : UInt8) (op : ExternalOp)
  /-- The code is larger than it may be. -/
  | codeTooLarge (size limit : Nat)
  deriving DecidableEq

/-- The text of the fault. -/
def Fault.message : Fault → String
  | stepLimitExceeded limit => s!"Step limit of {limit} exceeded"
  | memoryLimitExceeded requested limit =>
    s!"Memory expansion to {requested} bytes exceeds limit of {limit}"
  | unsupportedOpcode byte op =>
    "Opcode " ++ op.mnemonic ++ " (" ++ byteText byte ++ ") needs state outside an isolated query"
  | codeTooLarge size limit => s!"Bytecode of {size} bytes exceeds limit of {limit}"

end EthCall.Evm
