import EthCall.Abi.Value

/-!
# Errors of encoding and decoding

An error is its cause, and the wording is in one place,
`AbiError.message`. What can be wrong with the encoded bytes themselves –
padding that is not clean, an offset no buffer can have – is a
`Corruption`.
-/

namespace EthCall.Abi

/-- What a word that stands for a size was expected to be. -/
inductive SizeRole where
  /-- The number of bytes of a byte string or text. -/
  | length
  /-- The number of items of an array. -/
  | arrayLength
  /-- The place of an encoding that stands apart. -/
  | offset
  deriving DecidableEq

/-- The words for it in an error. -/
def SizeRole.text : SizeRole → String
  | .length => "length"
  | .arrayLength => "array length"
  | .offset => "offset"

/-- **What can be wrong with encoded bytes** that are long enough. -/
inductive Corruption where
  /-- An unsigned number exceeds its width. -/
  | uintRange (word : Word) (offset bits : Nat)
  /-- A signed number exceeds its width. -/
  | intRange (word : Word) (offset bits : Nat)
  /-- A byte in front of an address is not zero. -/
  | addressPadding (offset : Nat)
  /-- A truth value is neither 0 nor 1. -/
  | boolRange (word : Word) (offset : Nat)
  /-- A byte behind a fixed byte string is not zero. -/
  | bytesPadding (size offset : Nat)
  /-- A text is not UTF-8. -/
  | textEncoding
  /-- A size exceeds `maxSize`. -/
  | sizeRange (role : SizeRole) (word : Word) (offset : Nat)
  /-- More was decoded than there are bytes, so some bytes were decoded
  twice. -/
  | overlap
  /-- A log without the topic that names its event. -/
  | missingSignatureTopic
  /-- A log without a topic for one of the indexed parameters. -/
  | missingParameterTopic
  /-- A log without a value for one of the other parameters. -/
  | missingDataValue
  /-- Nothing was decoded where one value was asked for. -/
  | emptyResult
  deriving DecidableEq

/-- The text of it. -/
def Corruption.message : Corruption → String
  | .uintRange word offset bits =>
    word.toHex ++ s!" at offset {offset} does not fit in uint{bits}"
  | .intRange word offset bits =>
    word.toHex ++ s!" at offset {offset} is not a sign-extended int{bits}"
  | .addressPadding offset => s!"Dirty address padding at offset {offset}"
  | .boolRange word offset => "Invalid bool " ++ word.toHex ++ s!" at offset {offset}"
  | .bytesPadding size offset => s!"Dirty bytes{size} padding at offset {offset}"
  | .textEncoding => "Invalid UTF-8 in string"
  | .sizeRange role word offset =>
    role.text ++ " " ++ word.toHex ++ s!" at offset {offset} is too large"
  | .overlap => "Decoded size exceeds input size (overlapping tails)"
  | .missingSignatureTopic => "Missing event signature topic"
  | .missingParameterTopic => "Missing indexed parameter topic"
  | .missingDataValue => "Missing event data value"
  | .emptyResult => "Empty result"

/-- **Why something is not encoded or decoded.** -/
inductive AbiError where
  /-- A schema the format does not define, or no name of a schema. -/
  | invalidType (cause : SchemaError)
  /-- A text that is not the value asked for. -/
  | invalidValue (cause : ValueError)
  /-- A number that does not fit in the width of its schema. -/
  | overflow (schema : Schema) (value : Int)
  /-- A value of another schema than the one demanded. -/
  | typeMismatch (expected got : Schema)
  /-- Another number of values than of schemas. -/
  | lengthMismatch (expected got : Nat)
  /-- Encoded bytes that are wrong. -/
  | corrupt (cause : Corruption)
  /-- Encoded bytes that are not there: `len` of them were to be read at
  `offset`, of `available` in all. -/
  | outOfBounds (offset len available : Nat)
  /-- Bytes for another function, error or event than the one given. -/
  | selectorMismatch (expected got : Bytes)
  /-- A text that is not a signature. -/
  | invalidSignature (signature : String)
  deriving DecidableEq

/-- The text of the error. -/
def AbiError.message : AbiError → String
  | .invalidType cause => "Invalid type: " ++ cause.message
  | .invalidValue cause => "Invalid value: " ++ cause.message
  | .overflow schema value => "Value does not fit in " ++ schema.name ++ ": " ++ toString value
  | .typeMismatch expected got =>
    "Type mismatch: expected " ++ expected.name ++ ", got " ++ got.name
  | .lengthMismatch expected got => s!"Length mismatch: expected {expected}, got {got}"
  | .corrupt cause => "Decoding error: " ++ cause.message
  | .outOfBounds offset len available =>
    s!"Read of {len} bytes at offset {offset} exceeds buffer of {available} bytes"
  | .selectorMismatch expected got =>
    "Selector mismatch: expected " ++ Hex.write expected ++ ", got " ++ Hex.write got
  | .invalidSignature signature => "Invalid signature: " ++ signature

end EthCall.Abi
