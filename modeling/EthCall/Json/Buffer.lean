import EthCall.Json.Double

/-!
# Values that can be held

A value in a place where nobody looks need only be JSON. A value that is
held until it is known whether anybody looks has to be a value: its
strings have to be texts, its numbers have to be held as doubles, and it
must not be nested too deeply.
-/

namespace EthCall.Json

mutual

/-- **Whether a value can be held**, nested at most `depth` deep. -/
def canHold (depth : Nat) : Json → Bool
  | null => true
  | bool _ => true
  | number n => n.isFinite
  | string s => s.isSome
  | array items => depth != 0 && canHoldItems (depth - 1) items
  | object members => depth != 0 && canHoldMembers (depth - 1) members

/-- Whether several values can be held. -/
def canHoldItems (depth : Nat) : List Json → Bool
  | [] => true
  | item :: rest => canHold depth item && canHoldItems depth rest

/-- Whether several named values can be held. -/
def canHoldMembers (depth : Nat) : List (Text × Json) → Bool
  | [] => true
  | (name, value) :: rest => name.isSome && canHold depth value && canHoldMembers depth rest

end

end EthCall.Json
