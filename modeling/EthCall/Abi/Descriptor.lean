import EthCall.Abi.Signature
import EthCall.Keccak

/-!
# Descriptors

A contract is used through descriptors of its functions, of the errors it
may revert with, and of the events it logs. A descriptor gives names to
the parameters of a signature. The signature's digest is what the contract
itself knows: its first four bytes, the **selector**, stand in front of
the arguments of a call and of a revert payload, and the whole of it, the
**topic**, marks the logs of an event.

A function and an error keep the selector they were built with. The ways
to build one – from parameters, from bare schemas, from a signature – all
go through `Function.new` and `CustomError.new`, which compute it.
-/

namespace EthCall.Abi

/-- A hash function with digests of a word, such as `keccak256`. -/
abbrev Hash := Bytes → Word

/-- The first four bytes of the digest of a text. -/
def selectorWith (hash : Hash) (s : String) : Selector :=
  ⟨(hash (Bytes.ofText s)).bytes.take 4, by simp [(hash (Bytes.ofText s)).length_bytes]⟩

/-- **The selector of a signature text.** -/
def selectorOf (s : String) : Selector :=
  selectorWith keccak256 s

/-- **The topic of a signature text.** -/
def topicOf (s : String) : Word :=
  keccak256 (Bytes.ofText s)

/-! ## Parameters -/

/-- **A parameter**: its schema and the name it is known by, which may be
empty. -/
structure Param where
  /-- The name. -/
  name : String
  /-- The schema. -/
  schema : Schema
  deriving DecidableEq

/-- A parameter without a name. -/
def Param.unnamed (s : Schema) : Param := ⟨"", s⟩

/-- The schemas of parameters. -/
def Param.schemas (ps : List Param) : List Schema :=
  ps.map Param.schema

/-! ## Functions -/

/-- **A function of a contract.** -/
structure Function where
  /-- The name. -/
  name : String
  /-- What it is called with. -/
  inputs : List Param
  /-- What it returns. -/
  outputs : List Param
  /-- The selector of its signature. -/
  selector : Selector
  deriving DecidableEq

namespace Function

/-- **A function with these parameters.** -/
def new (name : String) (inputs outputs : List Param) : Function where
  name := name
  inputs := inputs
  outputs := outputs
  selector := selectorOf (Signature.text ⟨name, Param.schemas inputs⟩)

/-- A function with parameters of these schemas and no names. -/
def ofSchemas (name : String) (inputs outputs : List Schema) : Function :=
  new name (inputs.map Param.unnamed) (outputs.map Param.unnamed)

/-- A function with a signature read from text. -/
def ofSignature (s : String) (outputs : List Schema) : Except AbiError Function :=
  match Signature.parse s with
  | .error e => .error e
  | .ok signature => .ok (ofSchemas signature.name signature.parameters outputs)

/-- The signature. -/
def signature (f : Function) : Signature := ⟨f.name, Param.schemas f.inputs⟩

/-- The schemas of the arguments. -/
def inputSchemas (f : Function) : List Schema := Param.schemas f.inputs

/-- The schemas of the results. -/
def outputSchemas (f : Function) : List Schema := Param.schemas f.outputs

end Function

/-! ## Errors -/

/-- **An error a contract may revert with.** -/
structure CustomError where
  /-- The name. -/
  name : String
  /-- What it is raised with. -/
  inputs : List Param
  /-- The selector of its signature. -/
  selector : Selector
  deriving DecidableEq

namespace CustomError

/-- **An error with these parameters.** -/
def new (name : String) (inputs : List Param) : CustomError where
  name := name
  inputs := inputs
  selector := selectorOf (Signature.text ⟨name, Param.schemas inputs⟩)

/-- An error with parameters of these schemas and no names. -/
def ofSchemas (name : String) (inputs : List Schema) : CustomError :=
  new name (inputs.map Param.unnamed)

/-- An error with a signature read from text. -/
def ofSignature (s : String) : Except AbiError CustomError :=
  match Signature.parse s with
  | .error e => .error e
  | .ok signature => .ok (ofSchemas signature.name signature.parameters)

/-- The signature. -/
def signature (e : CustomError) : Signature := ⟨e.name, Param.schemas e.inputs⟩

/-- The schemas of the parameters. -/
def inputSchemas (e : CustomError) : List Schema := Param.schemas e.inputs

/-- The error of a failed requirement, which carries a message. -/
def errorString : CustomError := new "Error" [⟨"message", .string⟩]

/-- The error of a failed assertion or a fault of arithmetic, which
carries a code. -/
def panic : CustomError := new "Panic" [⟨"code", .uint 256⟩]

end CustomError

/-- The signature of an error that compilers emit on their own, from its
selector. -/
def builtinErrorOf? (selector : Selector) : Option String :=
  if selector.bytes = [0x08, 0xc3, 0x79, 0xa0] then some "Error(string)"
  else if selector.bytes = [0x4e, 0x48, 0x7b, 0x71] then some "Panic(uint256)"
  else none

/-! ## Events -/

/-- A parameter of an event. One that is *indexed* is logged among the
topics, the others in the data. -/
structure EventParam where
  /-- The parameter. -/
  param : Param
  /-- Whether it is logged among the topics. -/
  indexed : Bool
  deriving DecidableEq

/-- **An event a contract logs.** -/
structure Event where
  /-- The name. -/
  name : String
  /-- What it is logged with. -/
  inputs : List EventParam
  /-- Whether its logs go without the topic that names it. -/
  anonymous : Bool
  deriving DecidableEq

namespace Event

/-- The signature. -/
def signature (e : Event) : Signature :=
  ⟨e.name, e.inputs.map fun p => p.param.schema⟩

/-- The topic that names the event. -/
def topic (e : Event) : Word := topicOf e.signature.text

end Event

end EthCall.Abi
