import EthCall.Abi.Payload
import EthCall.Evm.Machine

/-!
# Queries

A query executes the code of a contract on some calldata and says what
came of it. An output is passed on. A revert is **classified**: the errors
that the contract is known to raise are searched for the one its payload
names, and where the payload can be decoded the revert is that error with
its values. Every other payload is kept as it is.

Execution is a parameter (`Evm.Executor`), and nothing is assumed of it.
A fault of the executor is an error of the query and never a revert.
-/

namespace EthCall

open Abi Evm

/-- **What a contract said when it reverted.** -/
inductive Revert where
  /-- A known error, with its values. -/
  | known (error : CustomError) (values : List Value)
  /-- Something else: the payload, and the mistake that ended the
  execution if one did. -/
  | unrecognized (data : Bytes) (halt : Option Halt)
  deriving DecidableEq

namespace Revert

/-- Whether it is a known error. -/
def isKnown : Revert → Bool
  | known _ _ => true
  | unrecognized _ _ => false

/-- The name of the known error. -/
def errorName? : Revert → Option String
  | known error _ => some error.name
  | unrecognized _ _ => none

/-- The payload that was not recognized. -/
def rawData? : Revert → Option Bytes
  | known _ _ => none
  | unrecognized data _ => some data

/-- The text of a revert. -/
def text : Revert → String
  | known error values => error.name ++ (Value.tuple values).text
  | unrecognized data (some reason) =>
    "halted: " ++ reason.message ++ " (data " ++ Hex.write data ++ ")"
  | unrecognized data none => "unrecognized revert " ++ Hex.write data

/-- **Classify the payload of a revert.** The first of the known errors
that has its selector decides. -/
def classify (known : List CustomError) (halt : Option Halt) (data : Bytes) : Revert :=
  if data.length < 4 then .unrecognized data halt
  else
    match known.find? fun e => e.selector.bytes = data.take 4 with
    | none => .unrecognized data halt
    | some error =>
      match error.decodeRevert data with
      | .ok values => .known error values
      | .error _ => .unrecognized data halt

end Revert

/-- **What came of a query.** -/
inductive Answer where
  /-- The contract returned an output. -/
  | success (output : Bytes)
  /-- The contract reverted. -/
  | reverted (revert : Revert)
  deriving DecidableEq

/-- The output, if there is one. -/
def Answer.output? : Answer → Option Bytes
  | success output => some output
  | reverted _ => none

/-- The classified outcome of an execution. A halt is a revert without a
payload. -/
def Answer.ofOutcome (known : List CustomError) : Outcome → Answer
  | .returned output => success output
  | .reverted payload => reverted (.classify known none payload)
  | .halted reason => reverted (.classify known (some reason) [])

/-- **Why a query has no answer.** -/
inductive QueryError where
  /-- The execution was stopped. -/
  | fault (fault : Fault)
  /-- The contract reverted where results were asked for. -/
  | reverted (revert : Revert)
  /-- The arguments cannot be encoded or the output cannot be decoded. -/
  | abi (error : AbiError)
  /-- The code or the calldata are not hexadecimal. -/
  | hex (error : HexError)
  deriving DecidableEq

/-- The text of the error. -/
def QueryError.message : QueryError → String
  | .fault e => "Execution fault: " ++ e.message
  | .reverted revert => "Execution reverted: " ++ revert.text
  | .abi e => "ABI error: " ++ e.message
  | .hex e => "Hex error: " ++ e.message

namespace Query

/-- **Execute code on calldata** and classify what came of it. -/
def execute (executor : Executor) (known : List CustomError) (code calldata : Bytes) :
    Except QueryError Answer :=
  match executor code calldata with
  | .error e => .error (.fault e)
  | .ok execution => .ok (.ofOutcome known execution.outcome)

/-- The same for code and calldata in hexadecimal. -/
def executeHex (executor : Executor) (known : List CustomError) (code calldata : String) :
    Except QueryError Answer :=
  match Hex.parse code with
  | .error e => .error (.hex e)
  | .ok code =>
    match Hex.parse calldata with
    | .error e => .error (.hex e)
    | .ok calldata => execute executor known code calldata

/-- **Call a function**: encode the arguments, execute, and decode the
results. -/
def call (executor : Executor) (known : List CustomError) (code : Bytes) (f : Function)
    (arguments : List Value) : Except QueryError (List Value) :=
  match f.encodeCall arguments with
  | .error e => .error (.abi e)
  | .ok calldata =>
    match execute executor known code calldata with
    | .error e => .error e
    | .ok (.reverted revert) => .error (.reverted revert)
    | .ok (.success output) =>
      match f.decodeResult output with
      | .error e => .error (.abi e)
      | .ok results => .ok results

end Query

end EthCall
