import EthCall.Abi.Error
import EthCall.Abi.Schema.Parser

/-!
# Signatures

A signature is a name and the schemas of its parameters, written
`name(type1,type2,…)`. It may be written with blanks and with the short
names `uint` and `int`; the *canonical* text, without either, is the one
that is hashed.
-/

namespace EthCall.Abi

/-- **A name with the schemas of its parameters.** -/
structure Signature where
  /-- The name. -/
  name : String
  /-- The schemas of the parameters. -/
  parameters : List Schema
  deriving DecidableEq

namespace Signature

/-- **The canonical text.** -/
def text (s : Signature) : String :=
  s.name ++ "(" ++ ",".intercalate (Schema.names s.parameters) ++ ")"

/-- Whether a character may stand in the name of a function, an error or
an event. -/
def isNameChar (c : Char) : Bool :=
  c.isAlphanum || c == '_' || c == '$'

/-- **Read a signature.** The parameter list is read as the name of a
tuple would be. -/
def parse (s : String) : Except AbiError Signature :=
  let cs := Text.trim s.toList
  let name := Text.trim (cs.takeWhile (· != '('))
  let parameters := cs.dropWhile (· != '(')
  let refused := .error (.invalidSignature (String.ofList cs))
  if parameters.getLast? = some ')' ∧ name ≠ [] ∧ name.all isNameChar then
    match Schema.ofChars parameters with
    | .error e => .error (.invalidType e)
    | .ok (.tuple members) => .ok ⟨String.ofList name, members⟩
    | .ok _ => refused
  else refused

end Signature

end EthCall.Abi
