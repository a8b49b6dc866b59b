import EthCall.Abi.Decode
import EthCall.Abi.Descriptor
import EthCall.Abi.Encode

/-!
# Payloads

What goes to a contract and comes back from it, in terms of descriptors:
the calldata of a call, the payload of a revert, the topics and data of a
log. The first two are a selector followed by an encoded sequence. A log
is taken apart in `Event.decode`: an indexed parameter is found in a topic
and the others in the data.
-/

namespace EthCall.Abi

/-! ## Behind a selector -/

/-- A selector with an encoded sequence behind it. -/
def encodeBehind (selector : Selector) (values : List Value) (schemas : List Schema) :
    Except AbiError Bytes :=
  match encode values schemas with
  | .error e => .error e
  | .ok bs => .ok (selector.bytes ++ bs)

/-- The values encoded behind a selector, which has to be the one
given. -/
def decodeBehind (selector : Selector) (payload : Bytes) (schemas : List Schema) :
    Except AbiError (List Value) :=
  if payload.length < 4 then .error (.outOfBounds 0 4 payload.length)
  else if payload.take 4 = selector.bytes then decode (payload.drop 4) schemas
  else .error (.selectorMismatch selector.bytes (payload.take 4))

namespace Function

/-- **The calldata of a call.** -/
def encodeCall (f : Function) (arguments : List Value) : Except AbiError Bytes :=
  encodeBehind f.selector arguments f.inputSchemas

/-- The arguments of a call, from its calldata. -/
def decodeCall (f : Function) (calldata : Bytes) : Except AbiError (List Value) :=
  decodeBehind f.selector calldata f.inputSchemas

/-- The results of a call, from what it returned. -/
def decodeResult (f : Function) (output : Bytes) : Except AbiError (List Value) :=
  decode output f.outputSchemas

end Function

/-- The calldata of a call of the function with a signature. -/
def encodeCallBySignature (s : String) (arguments : List Value) : Except AbiError Bytes :=
  match Signature.parse s with
  | .error e => .error e
  | .ok signature => encodeBehind (selectorOf signature.text) arguments signature.parameters

namespace CustomError

/-- **The payload of a revert.** -/
def encodeRevert (e : CustomError) (arguments : List Value) : Except AbiError Bytes :=
  encodeBehind e.selector arguments e.inputSchemas

/-- The parameters of an error, from the payload of a revert. -/
def decodeRevert (e : CustomError) (payload : Bytes) : Except AbiError (List Value) :=
  decodeBehind e.selector payload e.inputSchemas

end CustomError

/-! ## Logs of events -/

/-- The topic of the event with a signature. -/
def eventTopic (s : String) : Except AbiError Word :=
  match Signature.parse s with
  | .error e => .error e
  | .ok signature => .ok (topicOf signature.text)

namespace Event

/-- The schemas of the parameters that are logged in the data. -/
def dataSchemas (e : Event) : List Schema :=
  (e.inputs.filter fun p => !p.indexed).map fun p => p.param.schema

/-- The topics behind the one that names the event. -/
def parameterTopics (e : Event) (topics : List Word) : Except AbiError (List Word) :=
  if e.anonymous then .ok topics
  else
    match topics with
    | [] => .error (.corrupt .missingSignatureTopic)
    | first :: rest =>
      if first = e.topic then .ok rest
      else .error (.selectorMismatch e.topic.bytes first.bytes)

/-- The value of an indexed parameter. Of a dynamic one the log holds a
digest, which is all there is to be had. -/
def decodeTopic (s : Schema) (topic : Word) : Except AbiError Value :=
  if s.isDynamic then .ok (.fixedBytes topic.bytes) else decodeSingle topic.bytes s

/-- The parameters in declaration order, each with its value: from the
next topic if it is indexed, and from the next value of the data if not. -/
def assign : List EventParam → (topics : List Word) → (values : List Value) →
    Except AbiError (List (String × Value))
  | [], _, _ => .ok []
  | p :: rest, topics, values =>
    if p.indexed then
      match topics with
      | [] => .error (.corrupt .missingParameterTopic)
      | topic :: topics =>
        match decodeTopic p.param.schema topic with
        | .error e => .error e
        | .ok v =>
          match assign rest topics values with
          | .error e => .error e
          | .ok assigned => .ok ((p.param.name, v) :: assigned)
    else
      match values with
      | [] => .error (.corrupt .missingDataValue)
      | v :: values =>
        match assign rest topics values with
        | .error e => .error e
        | .ok assigned => .ok ((p.param.name, v) :: assigned)

/-- **The named values of a log**, in declaration order. -/
def decode (e : Event) (topics : List Word) (data : Bytes) :
    Except AbiError (List (String × Value)) :=
  match e.parameterTopics topics with
  | .error err => .error err
  | .ok topics =>
    -- All of the data is decoded before any topic is looked at.
    match Abi.decode data e.dataSchemas with
    | .error err => .error err
    | .ok values => assign e.inputs topics values

end Event

end EthCall.Abi
