import EthCall.Hex
import EthCall.Text.Blank

/-!
# Log entries

What the library does can be followed in log entries: a message with named
fields. Payloads – code, calldata, what a contract returned – can be very
long, and are cut down to their first bytes and their size before they
become part of an entry. Which fields hold a payload is told by their
names.

Whether entries for debugging are wanted is a switch.
-/

namespace EthCall

/-- How much an entry matters. -/
inductive LogLevel where
  | debug | info | warn | error
  deriving DecidableEq

/-- The name of a level. -/
def LogLevel.name : LogLevel → String
  | debug => "DEBUG"
  | info => "INFO"
  | warn => "WARN"
  | error => "ERROR"

/-- **A log entry.** -/
structure LogEntry where
  /-- How much it matters. -/
  level : LogLevel
  /-- The part of the library it comes from. -/
  module : String
  /-- What happened. -/
  message : String
  /-- The fields and what is shown of them, in order. -/
  fields : List (String × String)

namespace LogEntry

/-! ## Payloads -/

/-- How many bytes are shown of a payload. -/
def shownBytes : Nat := 8

/-- The words by which the name of a field tells that it holds a
payload. -/
def payloadWords : List String :=
  ["bytecode", "code", "calldata", "output", "data", "payload"]

/-- Whether characters contain a word. -/
def contains (word : List Char) : List Char → Bool
  | [] => word.isEmpty
  | c :: rest => word.isPrefixOf (c :: rest) || contains word rest

/-- Whether a field of this name holds a payload. The case of letters does
not matter. The payload words are spelled with letters that have no
capitals outside ASCII. -/
def isPayload (key : String) : Bool :=
  payloadWords.any fun word => contains word.toList (key.toList.map Char.toLower)

/-- What is shown of a payload given as text: blanks around it are
dropped, and hexadecimal digits beyond the first ones are counted and left
out. -/
def abbreviate (value : String) : String :=
  let trimmed := Text.trim value.toList
  let digits := match trimmed with
    | '0' :: 'x' :: rest => rest
    | cs => cs
  if trimmed = [] then "[EMPTY]"
  else if Hex.utf8Length digits ≤ 2 * shownBytes ∨ digits.any fun c => 0x7f < c.toNat then
    String.ofList trimmed
  else
    "0x" ++ String.ofList (digits.take (2 * shownBytes)) ++ s!"...({digits.length / 2} bytes)"

/-- What is shown of a payload given as bytes. -/
def abbreviateBytes (bs : Bytes) : String :=
  if bs.length ≤ shownBytes then Hex.write bs
  else Hex.write (bs.take shownBytes) ++ s!"...({bs.length} bytes)"

/-! ## Entries -/

/-- An entry without fields. -/
def new (level : LogLevel) (module message : String) : LogEntry := ⟨level, module, message, []⟩

/-- Add a field that shows a text. -/
def field (e : LogEntry) (key value : String) : LogEntry :=
  let shown := if isPayload key then abbreviate value else value
  { e with fields := e.fields ++ [(key, shown)] }

/-- Add a field that shows bytes. -/
def bytesField (e : LogEntry) (key : String) (bs : Bytes) : LogEntry :=
  { e with fields := e.fields ++ [(key, abbreviateBytes bs)] }

/-- **The line of an entry.** -/
def line (e : LogEntry) : String :=
  let fields := " ".intercalate (e.fields.map fun f => f.1 ++ "=" ++ f.2)
  let start := e.level.name ++ " [" ++ e.module ++ "] " ++ e.message
  if fields.isEmpty then start else start ++ " | " ++ fields

end LogEntry

/-! ## The switch -/

/-- What can be done with the switch. -/
inductive SwitchAction where
  | enable | disable | check
  deriving DecidableEq

/-- The position of the switch after an action. -/
def SwitchAction.apply : SwitchAction → Bool → Bool
  | enable, _ => true
  | disable, _ => false
  | check, position => position

/-- The positions of the switch after each of several actions. -/
def switchPositions : (position : Bool) → List SwitchAction → List Bool
  | _, [] => []
  | position, action :: rest =>
    action.apply position :: switchPositions (action.apply position) rest

end EthCall
