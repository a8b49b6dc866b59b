import EthCall.Json.Descriptors
import EthCall.Proofs.Abi.Name
import EthCall.Proofs.Json.Record

/-!
# Descriptors kept as texts

A descriptor that is written as JSON is read from the text again, whatever
the names in it are. The schemas are written as their names, so that they
have to be such as can be read from a name; the valid ones are.

The selector of a function or an error is not in the text. It is computed
when the descriptor is built, and there is no way to build one but
`Function.new` and `CustomError.new`. So it is the selector of the
signature in every descriptor there is (`Function.Obtained`), and the same
again in one that was read.
-/

namespace EthCall.Abi

/-! ## Descriptors in use -/

/-- **How a function may have been built.** -/
inductive Function.Obtained : Function → Prop
  /-- From parameters. -/
  | new (name : String) (inputs outputs : List Param) : Obtained (.new name inputs outputs)
  /-- From bare schemas. -/
  | ofSchemas (name : String) (inputs outputs : List Schema) :
    Obtained (.ofSchemas name inputs outputs)
  /-- From a signature. -/
  | ofSignature {s : String} {outputs : List Schema} {f : Function}
    (h : Function.ofSignature s outputs = .ok f) : Obtained f
  /-- From JSON. -/
  | ofJson {j : Json} {f : Function} (h : Function.ofJson? j = some f) : Obtained f

/-- **How an error may have been built.** -/
inductive CustomError.Obtained : CustomError → Prop
  /-- From parameters. -/
  | new (name : String) (inputs : List Param) : Obtained (.new name inputs)
  /-- From bare schemas. -/
  | ofSchemas (name : String) (inputs : List Schema) : Obtained (.ofSchemas name inputs)
  /-- From a signature. -/
  | ofSignature {s : String} {e : CustomError} (h : CustomError.ofSignature s = .ok e) : Obtained e
  /-- The error of a failed requirement. -/
  | errorString : Obtained .errorString
  /-- The error of a failed assertion. -/
  | panic : Obtained .panic
  /-- From JSON. -/
  | ofJson {j : Json} {e : CustomError} (h : CustomError.ofJson? j = some e) : Obtained e

/-- All of them come down to one. -/
theorem Function.Obtained.exists_new {f : Function} (h : f.Obtained) :
    ∃ name inputs outputs, f = .new name inputs outputs := by
  cases h with
  | new name inputs outputs => exact ⟨name, inputs, outputs, rfl⟩
  | ofSchemas name inputs outputs => exact ⟨name, _, _, rfl⟩
  | ofSignature h =>
    unfold Function.ofSignature at h
    split at h
    · cases h
    · cases h
      exact ⟨_, _, _, rfl⟩
  | ofJson h =>
    simp only [Function.ofJson?, Option.bind_eq_bind, Option.bind_eq_some_iff] at h
    obtain ⟨_, _, name, _, inputs, _, outputs, _, h⟩ := h
    exact ⟨name, inputs, outputs, (Option.some.inj h).symm⟩

/-- All of them come down to one. -/
theorem CustomError.Obtained.exists_new {e : CustomError} (h : e.Obtained) :
    ∃ name inputs, e = .new name inputs := by
  cases h with
  | new name inputs => exact ⟨name, inputs, rfl⟩
  | ofSchemas name inputs => exact ⟨name, _, rfl⟩
  | ofSignature h =>
    unfold CustomError.ofSignature at h
    split at h
    · cases h
    · cases h
      exact ⟨_, _, rfl⟩
  | errorString => exact ⟨_, _, rfl⟩
  | panic => exact ⟨_, _, rfl⟩
  | ofJson h =>
    simp only [CustomError.ofJson?, Option.bind_eq_bind, Option.bind_eq_some_iff] at h
    obtain ⟨_, _, name, _, inputs, _, h⟩ := h
    exact ⟨name, inputs, (Option.some.inj h).symm⟩

/-! ## Reading what was written -/

variable {s : Schema}

/-- A schema is read from its name. -/
theorem Schema.ofJson?_toJson (hs : s.Readable) : Schema.ofJson? s.toJson = some s := by
  show (Schema.parse s.name).toOption = some s
  rw [hs.parse_name_eq]
  rfl

/-- A parameter is read again. -/
theorem Param.ofJson?_toJson {p : Param} (hp : p.schema.Readable) :
    Param.ofJson? p.toJson = some p := by
  have hfields : p.toJson.fields? ["name", "type"]
      = some [some (.text p.name), some p.schema.toJson] :=
    Json.fields?_record (by simp)
  simp [Param.ofJson?, hfields, Json.optional?, Json.required?, Json.asText?, Json.text,
    Schema.ofJson?_toJson hp]

/-- A function is read again, and with it its selector. -/
theorem Function.ofJson?_toJson {name : String} {inputs outputs : List Param}
    (hinputs : ∀ p ∈ inputs, p.schema.Readable) (houtputs : ∀ p ∈ outputs, p.schema.Readable) :
    Function.ofJson? (Function.new name inputs outputs).toJson
      = some (.new name inputs outputs) := by
  have hfields : (Function.new name inputs outputs).toJson.fields? ["name", "inputs", "outputs"]
      = some [some (.text name), some (.array (inputs.map Param.toJson)),
          some (.array (outputs.map Param.toJson))] :=
    Json.fields?_record (by simp)
  simp [Function.ofJson?, hfields, Json.optional?, Json.required?, Json.asText?, Json.text,
    Json.asList?_array_map fun p hp => Param.ofJson?_toJson (hinputs p hp),
    Json.asList?_array_map fun p hp => Param.ofJson?_toJson (houtputs p hp)]

/-- An error is read again, and with it its selector. -/
theorem CustomError.ofJson?_toJson {name : String} {inputs : List Param}
    (hinputs : ∀ p ∈ inputs, p.schema.Readable) :
    CustomError.ofJson? (CustomError.new name inputs).toJson = some (.new name inputs) := by
  have hfields : (CustomError.new name inputs).toJson.fields? ["name", "inputs"]
      = some [some (.text name), some (.array (inputs.map Param.toJson))] :=
    Json.fields?_record (by simp)
  simp [CustomError.ofJson?, hfields, Json.optional?, Json.required?, Json.asText?, Json.text,
    Json.asList?_array_map fun p hp => Param.ofJson?_toJson (hinputs p hp)]

/-- A parameter of an event is read again. -/
theorem EventParam.ofJson?_toJson {p : EventParam} (hp : p.param.schema.Readable) :
    EventParam.ofJson? p.toJson = some p := by
  have hfields : p.toJson.fields? ["name", "type", "indexed"]
      = some [some (.text p.param.name), some p.param.schema.toJson, some (.bool p.indexed)] :=
    Json.fields?_record (by simp)
  have hobject : p.toJson = .object [(some "name", .text p.param.name),
      (some "type", p.param.schema.toJson), (some "indexed", .bool p.indexed)] := rfl
  have hheld : Json.canHoldMembers eventMemberDepth [(some "name", .text p.param.name),
      (some "type", p.param.schema.toJson), (some "indexed", .bool p.indexed)] = true := rfl
  rw [hobject] at hfields ⊢
  simp only [EventParam.ofJson?, hfields, hheld, if_true]
  simp [Json.optional?, Json.required?, Json.asText?, Json.asBool?, Json.text,
    Schema.ofJson?_toJson hp]

/-- An event is read again. -/
theorem Event.ofJson?_toJson {e : Event} (hinputs : ∀ p ∈ e.inputs, p.param.schema.Readable) :
    Event.ofJson? e.toJson = some e := by
  have hfields : e.toJson.fields? ["name", "inputs", "anonymous"]
      = some [some (.text e.name), some (.array (e.inputs.map EventParam.toJson)),
          some (.bool e.anonymous)] :=
    Json.fields?_record (by simp)
  simp [Event.ofJson?, hfields, Json.optional?, Json.required?, Json.asText?, Json.text,
    Json.asBool?, Json.asList?_array_map fun p hp => EventParam.ofJson?_toJson (hinputs p hp)]

/-! ## Texts -/

theorem Param.isWritable_toJson (p : Param) : p.toJson.IsWritable :=
  Json.isWritable_record (by simp [Schema.toJson, Json.IsWritable.text])

theorem Function.isWritable_toJson (f : Function) : f.toJson.IsWritable :=
  Json.isWritable_record
    (by simp [Json.IsWritable.text, Json.isWritable_array_map Param.isWritable_toJson])

theorem CustomError.isWritable_toJson (e : CustomError) : e.toJson.IsWritable :=
  Json.isWritable_record
    (by simp [Json.IsWritable.text, Json.isWritable_array_map Param.isWritable_toJson])

theorem EventParam.isWritable_toJson (p : EventParam) : p.toJson.IsWritable :=
  Json.isWritable_record (by simp [Schema.toJson, Json.IsWritable.text, Json.IsWritable.bool])

theorem Event.isWritable_toJson (e : Event) : e.toJson.IsWritable :=
  Json.isWritable_record
    (by simp [Json.IsWritable.text, Json.IsWritable.bool,
      Json.isWritable_array_map EventParam.isWritable_toJson])

/-- **Descriptors are read from their texts**, whatever the names in them.
And however a function or an error was built, it keeps the selector of its
signature. -/
theorem ofJson?_parse?_write :
    (∀ f : Function, f.Obtained → (∀ p ∈ f.inputs ++ f.outputs, p.schema.IsValid) →
      (Json.parse? f.toJson.write).bind Function.ofJson? = some f)
    ∧ (∀ e : CustomError, e.Obtained → (∀ p ∈ e.inputs, p.schema.IsValid) →
      (Json.parse? e.toJson.write).bind CustomError.ofJson? = some e)
    ∧ (∀ e : Event, (∀ p ∈ e.inputs, p.param.schema.IsValid) →
      (Json.parse? e.toJson.write).bind Event.ofJson? = some e)
    ∧ (∀ f : Function, f.Obtained →
      f.selector.bytes = (keccak256 (Bytes.ofText f.signature.text)).bytes.take 4)
    ∧ ∀ e : CustomError, e.Obtained →
      e.selector.bytes = (keccak256 (Bytes.ofText e.signature.text)).bytes.take 4 := by
  refine ⟨fun f hf hvalid => ?_, fun e he hvalid => ?_, fun e hvalid => ?_, fun f hf => ?_,
    fun e he => ?_⟩
  · obtain ⟨name, inputs, outputs, rfl⟩ := hf.exists_new
    obtain ⟨hinputs, houtputs⟩ := List.forall_mem_append.mp hvalid
    rw [Json.parse?_write (Function.isWritable_toJson _), Option.bind_some]
    exact Function.ofJson?_toJson (fun p hp => .valid (hinputs p hp))
      fun p hp => .valid (houtputs p hp)
  · obtain ⟨name, inputs, rfl⟩ := he.exists_new
    rw [Json.parse?_write (CustomError.isWritable_toJson _), Option.bind_some]
    exact CustomError.ofJson?_toJson fun p hp => .valid (hvalid p hp)
  · rw [Json.parse?_write (Event.isWritable_toJson e), Option.bind_some]
    exact Event.ofJson?_toJson fun p hp => .valid (hvalid p hp)
  · obtain ⟨name, inputs, outputs, rfl⟩ := hf.exists_new
    rfl
  · obtain ⟨name, inputs, rfl⟩ := he.exists_new
    rfl

/-- Names that have to be escaped, an event with a composite parameter, a
function read from its name alone and an error that compilers emit. -/
theorem ofJson?_parse?_write_escaped :
    (∃ f : Function, f.name = "say \"\\\"\n\x01é"
        ∧ (∀ p ∈ f.inputs ++ f.outputs, p.schema.IsValid)
        ∧ (Json.parse? f.toJson.write).bind Function.ofJson? = some f)
      ∧ (Json.parse? CustomError.errorString.toJson.write).bind CustomError.ofJson?
          = some .errorString
      ∧ (∃ e : Event, (∀ p ∈ e.inputs, p.param.schema.IsValid) ∧ e.anonymous = true
        ∧ e.inputs.map (fun p => p.param.schema.name) = ["(address,bytes4[2])[]", "string"]
        ∧ (Json.parse? e.toJson.write).bind Event.ofJson? = some e)
      ∧ (∃ f : Function, Function.ofJson? (.record [("name", .text "pause")]) = some f
        ∧ f.selector.bytes = (keccak256 (Bytes.ofText f.signature.text)).bytes.take 4)
      ∧ CustomError.panic.selector.bytes
          = (keccak256 (Bytes.ofText CustomError.panic.signature.text)).bytes.take 4 := by
  refine ⟨⟨.new "say \"\\\"\n\x01é" [⟨"\t", .uint 8⟩] [⟨"", .array .bytes⟩], rfl, by decide,
      ofJson?_parse?_write.1 _ (.new _ _ _) (by decide)⟩,
    ofJson?_parse?_write.2.1 _ .errorString (by decide), ?_, ?_,
    ofJson?_parse?_write.2.2.2.2 _ .panic⟩
  · exact ⟨⟨"Moved", [⟨⟨"to", .array (.tuple [.address, .fixedArray (.fixedBytes 4) 2])⟩, true⟩,
      ⟨⟨"", .string⟩, false⟩], true⟩, by decide, rfl, by decide +kernel,
      ofJson?_parse?_write.2.2.1 _ (by decide)⟩
  · have hread : Function.ofJson? (.record [("name", .text "pause")]) = some (.new "pause" [] []) :=
      rfl
    exact ⟨_, hread, ofJson?_parse?_write.2.2.2.1 _ (.ofJson hread)⟩

end EthCall.Abi
