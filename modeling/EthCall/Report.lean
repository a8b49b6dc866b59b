import EthCall.Evm.Assembler
import EthCall.Query

/-!
# Reports

Each part of the library has errors of its own. Where a caller wants one
kind of error for all of them – to log it, to send it on – the error is
turned into a **report**: a code that says what sort of thing went wrong,
a message, and sometimes details.
-/

namespace EthCall

open Abi Evm

/-- What sort of thing went wrong. -/
inductive ReportCode where
  | malformedInput | invalidHex | invalidType
  | schemaMismatch | encodingOverflow | decodingFailed
  | executionRevert | executionFault
  | invalidConfig | jsonError
  deriving DecidableEq

namespace ReportCode

/-- All codes. -/
def all : List ReportCode :=
  [malformedInput, invalidHex, invalidType, schemaMismatch, encodingOverflow, decodingFailed,
   executionRevert, executionFault, invalidConfig, jsonError]

/-- The code as it stands in a message. -/
def label : ReportCode → String
  | malformedInput => "MalformedInput"
  | invalidHex => "InvalidHex"
  | invalidType => "InvalidType"
  | schemaMismatch => "SchemaMismatch"
  | encodingOverflow => "EncodingOverflow"
  | decodingFailed => "DecodingFailed"
  | executionRevert => "ExecutionRevert"
  | executionFault => "ExecutionFault"
  | invalidConfig => "InvalidConfig"
  | jsonError => "JsonError"

/-- The code as it stands in data. -/
def key : ReportCode → String
  | malformedInput => "malformed_input"
  | invalidHex => "invalid_hex"
  | invalidType => "invalid_type"
  | schemaMismatch => "schema_mismatch"
  | encodingOverflow => "encoding_overflow"
  | decodingFailed => "decoding_failed"
  | executionRevert => "execution_revert"
  | executionFault => "execution_fault"
  | invalidConfig => "invalid_config"
  | jsonError => "json_error"

end ReportCode

/-- **What went wrong, for any reader.** -/
structure Report where
  /-- The sort of thing. -/
  code : ReportCode
  /-- What happened. -/
  message : String
  /-- What else is known. -/
  details : Option String
  deriving DecidableEq

namespace Report

/-- A report without details. -/
def plain (code : ReportCode) (message : String) : Report := ⟨code, message, none⟩

/-- The same report with these details. -/
def withDetails (r : Report) (details : String) : Report := { r with details := some details }

/-- **The text of a report.** -/
def text (r : Report) : String :=
  let line := "[" ++ r.code.label ++ "] " ++ r.message
  match r.details with
  | some details => line ++ " (" ++ details ++ ")"
  | none => line

/-! ## Reports of errors -/

/-- The report of an error in hexadecimal text. -/
def ofHexError (e : HexError) : Report := plain .invalidHex e.message

/-- The report of an error about a word. -/
def ofWordError : WordError → Report
  | .hex e => ofHexError e
  | e@(.unsignedOverflow) => plain .encodingOverflow e.message
  | e@(.signedOverflow) => plain .encodingOverflow e.message
  | e => plain .malformedInput e.message

/-- The sort of an error of encoding or decoding. -/
def codeOfAbiError : AbiError → ReportCode
  | .invalidType _ => .invalidType
  | .invalidSignature _ => .invalidType
  | .invalidValue _ => .malformedInput
  | .overflow _ _ => .encodingOverflow
  | .typeMismatch _ _ => .schemaMismatch
  | .lengthMismatch _ _ => .schemaMismatch
  | .corrupt _ => .decodingFailed
  | .outOfBounds _ _ _ => .decodingFailed
  | .selectorMismatch _ _ => .decodingFailed

/-- The report of an error of encoding or decoding. -/
def ofAbiError (e : AbiError) : Report := plain (codeOfAbiError e) e.message

/-- The report of a fault. -/
def ofFault (e : Fault) : Report := plain .executionFault e.message

/-- The report of an error of the assembler. -/
def ofAssemblerError (e : AssemblerError) : Report :=
  plain .malformedInput ("Assembler error: " ++ e.message)

/-- The report of an error of a query. -/
def ofQueryError : QueryError → Report
  | .fault e => ofFault e
  | .reverted revert => (plain .executionRevert "Execution reverted").withDetails revert.text
  | .abi e => ofAbiError e
  | .hex e => ofHexError e

/-- The report of invalid settings. -/
def ofSettingsError (e : SettingsError) : Report := ⟨.invalidConfig, e.message, e.details?⟩

end Report

end EthCall
