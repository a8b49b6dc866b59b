import EthCall.Abi.Descriptor
import EthCall.Json.Buffer
import EthCall.Json.Record

/-!
# Descriptors in JSON

A schema is written as its name, and the descriptors as records. The
selector of a function or an error is not written: it is computed again
when the descriptor is read.
-/

namespace EthCall.Abi

/-! ## Writing -/

/-- A schema as JSON: its name. -/
def Schema.toJson (s : Schema) : Json := .text s.name

/-- A parameter as JSON. -/
def Param.toJson (p : Param) : Json :=
  .record [("name", .text p.name), ("type", p.schema.toJson)]

/-- A function as JSON. -/
def Function.toJson (f : Function) : Json :=
  .record [("name", .text f.name), ("inputs", .array (f.inputs.map Param.toJson)),
    ("outputs", .array (f.outputs.map Param.toJson))]

/-- An error as JSON. -/
def CustomError.toJson (e : CustomError) : Json :=
  .record [("name", .text e.name), ("inputs", .array (e.inputs.map Param.toJson))]

/-- A parameter of an event as JSON. -/
def EventParam.toJson (p : EventParam) : Json :=
  .record [("name", .text p.param.name), ("type", p.param.schema.toJson),
    ("indexed", .bool p.indexed)]

/-- An event as JSON. -/
def Event.toJson (e : Event) : Json :=
  .record [("name", .text e.name), ("inputs", .array (e.inputs.map EventParam.toJson)),
    ("anonymous", .bool e.anonymous)]

/-! ## Reading -/

/-- A schema from its name. -/
def Schema.ofJson? (j : Json) : Option Schema :=
  match j.asText? with
  | some s => (Schema.parse s).toOption
  | none => none

/-- A parameter from JSON. It may go without a name. -/
def Param.ofJson? (j : Json) : Option Param := do
  let fields ← j.fields? ["name", "type"]
  let name ← Json.optional? fields 0 "" Json.asText?
  let schema ← Json.required? fields 1 Schema.ofJson?
  return ⟨name, schema⟩

/-- **A function from JSON.** It may go without parameters and
results. -/
def Function.ofJson? (j : Json) : Option Function := do
  let fields ← j.fields? ["name", "inputs", "outputs"]
  let name ← Json.required? fields 0 Json.asText?
  let inputs ← Json.optional? fields 1 [] (Json.asList? Param.ofJson?)
  let outputs ← Json.optional? fields 2 [] (Json.asList? Param.ofJson?)
  return .new name inputs outputs

/-- **An error from JSON.** It may go without parameters. -/
def CustomError.ofJson? (j : Json) : Option CustomError := do
  let fields ← j.fields? ["name", "inputs"]
  let name ← Json.required? fields 0 Json.asText?
  let inputs ← Json.optional? fields 1 [] (Json.asList? Param.ofJson?)
  return .new name inputs

/-- How deep a member may be nested that stands beside the fields of a
parameter of an event. -/
def eventMemberDepth : Nat := 124

/-- A parameter of an event from JSON. Its fields stand in one object
with those of the parameter itself, so that its other members are held
until it is known that they are no fields. -/
def EventParam.ofJson? (j : Json) : Option EventParam :=
  match j with
  | .object members => do
    let fields ← j.fields? ["name", "type", "indexed"]
    let name ← Json.optional? fields 0 "" Json.asText?
    let schema ← Json.required? fields 1 Schema.ofJson?
    let indexed ← Json.optional? fields 2 false Json.asBool?
    if Json.canHoldMembers eventMemberDepth members then
      return ⟨⟨name, schema⟩, indexed⟩
    else none
  | _ => none

/-- **An event from JSON.** -/
def Event.ofJson? (j : Json) : Option Event := do
  let fields ← j.fields? ["name", "inputs", "anonymous"]
  let name ← Json.required? fields 0 Json.asText?
  let inputs ← Json.required? fields 1 (Json.asList? EventParam.ofJson?)
  let anonymous ← Json.optional? fields 2 false Json.asBool?
  return ⟨name, inputs, anonymous⟩

end EthCall.Abi
