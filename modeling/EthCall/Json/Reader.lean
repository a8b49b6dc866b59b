import EthCall.Json.Token

/-!
# Reading JSON

The words of a JSON text are put together one at a time. What has been
opened and not yet closed is a stack of `Open` containers, and a
`ReadState` says in addition what may come next. A text is JSON when its
words lead to a value with nothing left open.
-/

namespace EthCall.Json

/-- A container whose end has not come, holding what is complete of it in
reverse. -/
inductive Open where
  /-- An array, ready for an item. -/
  | array (items : List Json)
  /-- An object, ready for the value of a member. -/
  | object (members : List (Text × Json)) (name : Text)

/-- **What was read so far and what may come next.** -/
inductive ReadState where
  /-- A value has to come. -/
  | value (opened : List Open)
  /-- An array was opened: an item or its end. -/
  | firstItem (opened : List Open)
  /-- An object was opened: a member or its end. -/
  | firstMember (opened : List Open)
  /-- The name of a member has to come. -/
  | name (members : List (Text × Json)) (opened : List Open)
  /-- The colon behind a name has to come. -/
  | colon (members : List (Text × Json)) (name : Text) (opened : List Open)
  /-- A value is complete: the next one or the end of what it stands
  in. -/
  | complete (j : Json) (opened : List Open)

/-- Begin a value. -/
def begin? (opened : List Open) : Token → Option ReadState
  | .openArray => some (.firstItem opened)
  | .openObject => some (.firstMember opened)
  | .null => some (.complete .null opened)
  | .bool b => some (.complete (.bool b) opened)
  | .number n => some (.complete (.number n) opened)
  | .string s => some (.complete (.string s) opened)
  | _ => none

/-- **Take in one word.** -/
def ReadState.take? : ReadState → Token → Option ReadState
  | .value opened, t => begin? opened t
  | .firstItem opened, .closeArray => some (.complete (.array []) opened)
  | .firstItem opened, t => begin? (.array [] :: opened) t
  | .firstMember opened, .closeObject => some (.complete (.object []) opened)
  | .firstMember opened, .string s => some (.colon [] s opened)
  | .name members opened, .string s => some (.colon members s opened)
  | .colon members s opened, .colon => some (.value (.object members s :: opened))
  | .complete j (.array items :: opened), .comma => some (.value (.array (j :: items) :: opened))
  | .complete j (.array items :: opened), .closeArray =>
    some (.complete (.array (j :: items).reverse) opened)
  | .complete j (.object members s :: opened), .comma => some (.name ((s, j) :: members) opened)
  | .complete j (.object members s :: opened), .closeObject =>
    some (.complete (.object ((s, j) :: members).reverse) opened)
  | _, _ => none

/-- The value that words spell. -/
def ofTokens? (ts : List Token) : Option Json :=
  match ts.foldlM ReadState.take? (.value []) with
  | some (.complete j []) => some j
  | _ => none

/-- **The value that a text spells**, if it is JSON. -/
def parse? (s : String) : Option Json :=
  match tokens? [] s.toList with
  | some ts => ofTokens? ts
  | none => none

end EthCall.Json
