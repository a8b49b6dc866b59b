import EthCall.Evm.Settings
import EthCall.Json.Record
import EthCall.Report

/-!
# Settings and reports in JSON

Settings are written as a record of all limits and the block. Any of them
may be missing when they are read, and takes its standard value. Addresses
and words are hexadecimal, and have to have their size.
-/

namespace EthCall

/-- A byte string of fixed size as JSON. -/
def FixedBytes.toJson {n : Nat} (b : FixedBytes n) : Json := .text (Hex.write b.bytes)

/-- A byte string of fixed size from JSON. -/
def FixedBytes.ofJson? (n : Nat) (j : Json) : Option (FixedBytes n) :=
  match j.asText? with
  | some s => (FixedBytes.parseHex n s).toOption
  | none => none

namespace Evm

/-! ## Settings -/

/-- A block as JSON. -/
def BlockEnv.toJson (b : BlockEnv) : Json :=
  .record [("chain_id", .natural b.chainId.toNat), ("number", .natural b.number.toNat),
    ("timestamp", .natural b.timestamp.toNat), ("gas_limit", .natural b.gasLimit.toNat),
    ("base_fee", .natural b.baseFee.toNat), ("coinbase", b.coinbase.toJson),
    ("prevrandao", b.prevRandao.toJson), ("address", b.address.toJson),
    ("caller", b.caller.toJson), ("origin", b.origin.toJson)]

/-- A block from JSON. -/
def BlockEnv.ofJson? (j : Json) : Option BlockEnv := do
  let start := BlockEnv.initial
  let fields ← j.fields? ["chain_id", "number", "timestamp", "gas_limit", "base_fee", "coinbase",
    "prevrandao", "address", "caller", "origin"]
  return {
    chainId := ← Json.optional? fields 0 start.chainId Json.asUInt64?
    number := ← Json.optional? fields 1 start.number Json.asUInt64?
    timestamp := ← Json.optional? fields 2 start.timestamp Json.asUInt64?
    gasLimit := ← Json.optional? fields 3 start.gasLimit Json.asUInt64?
    baseFee := ← Json.optional? fields 4 start.baseFee Json.asUInt64?
    coinbase := ← Json.optional? fields 5 start.coinbase (FixedBytes.ofJson? 20)
    prevRandao := ← Json.optional? fields 6 start.prevRandao (FixedBytes.ofJson? 32)
    address := ← Json.optional? fields 7 start.address (FixedBytes.ofJson? 20)
    caller := ← Json.optional? fields 8 start.caller (FixedBytes.ofJson? 20)
    origin := ← Json.optional? fields 9 start.origin (FixedBytes.ofJson? 20) }

/-- Settings as JSON. -/
def Settings.toJson (s : Settings) : Json :=
  .record [("profile", .text s.profile.name), ("step_limit", .natural s.stepLimit.toNat),
    ("memory_limit", .natural s.memoryLimit.toNat), ("stack_limit", .natural s.stackLimit.toNat),
    ("max_code_size", .natural s.maxCodeSize.toNat), ("block", s.block.toJson)]

/-- **Settings from JSON**, possible to run under or not. -/
def Settings.ofJson? (j : Json) : Option Settings := do
  let start := Settings.standard
  let fields ← j.fields?
    ["profile", "step_limit", "memory_limit", "stack_limit", "max_code_size", "block"]
  return {
    profile := ← Json.optional? fields 0 start.profile (Json.asChoice? Profile.name Profile.all)
    stepLimit := ← Json.optional? fields 1 start.stepLimit Json.asUInt64?
    memoryLimit := ← Json.optional? fields 2 start.memoryLimit Json.asUInt64?
    stackLimit := ← Json.optional? fields 3 start.stackLimit Json.asUInt64?
    maxCodeSize := ← Json.optional? fields 4 start.maxCodeSize Json.asUInt64?
    block := ← Json.optional? fields 5 start.block BlockEnv.ofJson? }

end Evm

/-! ## Reports -/

/-- A report as JSON. -/
def Report.toJson (r : Report) : Json :=
  .record [("code", .text r.code.key), ("message", .text r.message),
    ("details", match r.details with
      | some details => .text details
      | none => .null)]

/-- Details, which may be nothing. -/
def Report.detailsOfJson? : Json → Option (Option String)
  | .null => some none
  | j => j.asText?.map some

/-- A report from JSON. As an array it has to have all three fields. -/
def Report.ofJson? (j : Json) : Option Report := do
  let fields ← j.fields? ["code", "message", "details"]
  let code ← Json.required? fields 0 (Json.asChoice? ReportCode.key ReportCode.all)
  let message ← Json.required? fields 1 Json.asText?
  let details ←
    match j with
    | .array _ => Json.required? fields 2 Report.detailsOfJson?
    | _ => Json.optional? fields 2 none Report.detailsOfJson?
  return ⟨code, message, details⟩

/-! ## Reading from text -/

/-- A text that is not JSON of the shape asked for. -/
def Report.notJson : Report := .plain .jsonError "not JSON of this shape"

/-- **Settings from a JSON text**, which have to be possible to run
under. -/
def Evm.Settings.parse (s : String) : Except Report Evm.Settings :=
  match (Json.parse? s).bind Evm.Settings.ofJson? with
  | none => .error .notJson
  | some settings =>
    match settings.defect? with
    | some e => .error (.ofSettingsError e)
    | none => .ok settings

end EthCall
