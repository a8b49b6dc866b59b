/-!
# JSON

Descriptors, settings and reports are kept as JSON. A `Json` is what a
JSON text says, member order and repeated members included. Two things a
text can say are not what they seem and are kept apart:

* a string literal can spell half of a surrogate pair, which is no
  character. Such a literal is no text, but it is JSON, and may stand
  where nobody looks at it. It is `none`;
* a number is a `natural` only when it is written as one, in digits and
  nothing else. `1.0` and `-0` are decimals.

`Json.write` writes on one line, without blanks.
-/

namespace EthCall

namespace Json

/-- **A number.** -/
inductive Number where
  /-- Digits. -/
  | natural (n : Nat)
  /-- Digits with a sign, a fraction or an exponent: the number
  `± whole.fraction * 10 ^ exponent`. -/
  | decimal (negative : Bool) (whole : Nat) (fraction : List (Fin 10)) (exponent : Int)
  deriving DecidableEq

/-- The text a string literal spells, if it spells one. -/
abbrev Text := Option String

end Json

/-- **What a JSON text says.** -/
inductive Json where
  /-- Nothing. -/
  | null
  /-- A truth value. -/
  | bool (b : Bool)
  /-- A number. -/
  | number (n : Json.Number)
  /-- A string. -/
  | string (s : Json.Text)
  /-- Values in order. -/
  | array (items : List Json)
  /-- Named values in order. -/
  | object (members : List (Json.Text × Json))
  deriving Inhabited

namespace Json

/-- A string that is a text. -/
def text (s : String) : Json := .string (some s)

/-- A number written in digits. -/
def natural (n : Nat) : Json := .number (.natural n)

/-- Named values. -/
def record (members : List (String × Json)) : Json :=
  .object (members.map fun m => (some m.1, m.2))

/-! ## Writing -/

/-- A character as it stands in a string literal. -/
def escape (c : Char) : List Char :=
  if c = '"' then ['\\', '"']
  else if c = '\\' then ['\\', '\\']
  else if c = '\x08' then ['\\', 'b']
  else if c = '\x0c' then ['\\', 'f']
  else if c = '\n' then ['\\', 'n']
  else if c = '\r' then ['\\', 'r']
  else if c = '\t' then ['\\', 't']
  else if c.toNat < 0x20 then
    ['\\', 'u', '0', '0', Nat.digitChar (c.toNat / 16), Nat.digitChar (c.toNat % 16)]
  else [c]

/-- The literal of a text. -/
def writeText (s : String) : String :=
  "\"" ++ String.ofList (s.toList.flatMap escape) ++ "\""

/-- The literal of a string. One that is no text is written as empty. -/
def writeString (s : Text) : String :=
  writeText (s.getD "")

/-- The text of a number. -/
def Number.write : Number → String
  | natural n => Nat.repr n
  | decimal negative whole fraction exponent =>
    (if negative then "-" else "") ++ Nat.repr whole
      ++ (if fraction.isEmpty then ""
        else "." ++ String.ofList (fraction.map fun (d : Fin 10) => Nat.digitChar d.val))
      ++ "e" ++ toString exponent

mutual

/-- **The text of a JSON value**, on one line. -/
def write : Json → String
  | null => "null"
  | bool b => if b then "true" else "false"
  | number n => n.write
  | string s => writeString s
  | array items => "[" ++ ",".intercalate (writeItems items) ++ "]"
  | object members => "\x7b" ++ ",".intercalate (writeMembers members) ++ "\x7d"

/-- The texts of several values. -/
def writeItems : List Json → List String
  | [] => []
  | item :: rest => write item :: writeItems rest

/-- The texts of several named values. -/
def writeMembers : List (Text × Json) → List String
  | [] => []
  | (name, value) :: rest => (writeString name ++ ":" ++ write value) :: writeMembers rest

end

end Json

end EthCall
