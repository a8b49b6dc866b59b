import EthCall.Json.Reader
import EthCall.Text.Decimal

/-!
# Records in JSON

A record is written as an object with a member for each field. It may also
be given as an array of the fields in their order. Members that are no
fields of the record are ignored; a field given twice is refused. Whether
a field may be missing is the field's own business.
-/

namespace EthCall.Json

/-! ## Scalars -/

/-- A text. -/
def asText? : Json → Option String
  | .string s => s
  | _ => none

/-- A truth value. -/
def asBool? : Json → Option Bool
  | .bool b => some b
  | _ => none

/-- A 64-bit number. -/
def asUInt64? : Json → Option UInt64
  | .number (.natural n) => if n ≤ maxSize then some (UInt64.ofNat n) else none
  | _ => none

/-- The values of an array, each read in the same way. -/
def asList? {α : Type} (read : Json → Option α) : Json → Option (List α)
  | .array items => items.mapM read
  | _ => none

/-- One of several values, by its name. The name may also be the only
member of an object, with nothing in it. -/
def asChoice? {α : Type} (name : α → String) (choices : List α) : Json → Option α
  | .string (some s) => choices.find? fun c => name c = s
  | .object [(some s, .null)] => choices.find? fun c => name c = s
  | _ => none

/-! ## Fields -/

/-- The members of an object, if all their names are texts. -/
def namedMembers? (members : List (Text × Json)) : Option (List (String × Json)) :=
  members.mapM fun m => m.1.map fun name => (name, m.2)

/-- **The fields of a record that were given**, one entry for each of
them. -/
def fields? (names : List String) : Json → Option (List (Option Json))
  | .object members => do
    let members ← namedMembers? members
    names.mapM fun name =>
      match members.filter fun m => m.1 = name with
      | [] => some none
      | [m] => some (some m.2)
      | _ => none
  | .array items =>
    if items.length ≤ names.length then
      some ((List.range names.length).map fun i => items[i]?)
    else none
  | _ => none

/-- The field at an index, which has to be given. -/
def required? {α : Type} (fields : List (Option Json)) (i : Nat) (read : Json → Option α) :
    Option α :=
  match fields[i]? with
  | some (some j) => read j
  | _ => none

/-- The field at an index, or a value that stands for it where it is not
given. -/
def optional? {α : Type} (fields : List (Option Json)) (i : Nat) (default : α)
    (read : Json → Option α) : Option α :=
  match fields[i]? with
  | some (some j) => read j
  | _ => some default

end EthCall.Json
