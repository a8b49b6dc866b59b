import EthCall.Evm.Opcode
import EthCall.Word

/-!
# Assembling code

Code is assembled from directives. Most of them emit the bytes they name.
A label marks the place it stands at, and a reference to a label emits a
push of that place – of two bytes, which are filled in when all labels are
known, so that a reference may stand before its label.

What is wrong with a directive is remembered, the first of it only, and
comes out when the code is built; what is wrong with a reference is found
then.
-/

namespace EthCall.Evm

/-- Why directives are no code. -/
inductive AssemblerError where
  /-- One label at two places. -/
  | duplicateLabel (label : String)
  /-- A reference to a label that is nowhere. -/
  | undefinedLabel (label : String)
  /-- A reference to a label at a place that two bytes cannot hold. -/
  | labelOutOfRange (label : String) (offset : Nat)
  /-- A push of no bytes, or of more than a word. -/
  | invalidPushSize (size : Nat)
  deriving DecidableEq

/-- The text of the error. -/
def AssemblerError.message : AssemblerError → String
  | duplicateLabel label => "Label '" ++ label ++ "' defined twice"
  | undefinedLabel label => "Label '" ++ label ++ "' is referenced but never defined"
  | labelOutOfRange label offset =>
    "Label '" ++ label ++ s!"' at offset {offset} does not fit in PUSH2"
  | invalidPushSize size => s!"PUSH immediate of {size} bytes (expected 1..=32)"

/-- **A directive.** -/
inductive Directive where
  /-- Emit one byte. -/
  | op (byte : UInt8)
  /-- Emit bytes that are instructions. -/
  | ops (bs : Bytes)
  /-- Emit bytes of any kind. -/
  | raw (bs : Bytes)
  /-- Push exactly these bytes. -/
  | pushBytes (bs : Bytes)
  /-- Push a word in as few bytes as hold it. -/
  | pushWord (w : Word)
  /-- Push the place of a label. -/
  | pushLabel (label : String)
  /-- Mark this place and let execution go on here. -/
  | label (label : String)
  /-- Go on at a label. -/
  | jump (label : String)
  /-- Go on at a label unless the top of the stack is zero. -/
  | jumpIf (label : String)
  deriving DecidableEq

/-- Push a 64-bit number in as few bytes as hold it. -/
def Directive.pushNumber (n : UInt64) : Directive := .pushWord (Word.ofNat n.toNat)

/-- **Code under construction.** -/
structure Assembly where
  /-- The bytes emitted so far, places of references still being zero. -/
  code : Array UInt8
  /-- The labels and their places. -/
  labels : List (String × Nat)
  /-- The places to fill in and the labels they refer to, in order. -/
  references : Array (Nat × String)
  /-- The first thing that was wrong. -/
  error? : Option AssemblerError

namespace Assembly

/-- Nothing yet. -/
def empty : Assembly := ⟨#[], [], #[], none⟩

/-- The place where the next byte goes. -/
def offset (a : Assembly) : Nat := a.code.size

/-- Emit bytes. -/
def emit (a : Assembly) (bs : Bytes) : Assembly :=
  { a with code := a.code ++ bs }

/-- Remember what is wrong, unless something was before. -/
def fail (a : Assembly) (e : AssemblerError) : Assembly :=
  { a with error? := a.error?.or (some e) }

/-- Emit a push of bytes. -/
def pushBytes (a : Assembly) (bs : Bytes) : Assembly :=
  if bs = [] ∨ 32 < bs.length then a.fail (.invalidPushSize bs.length)
  else a.emit (UInt8.ofNat (0x5f + bs.length) :: bs)

/-- Emit a push of a word without its leading zero bytes. -/
def pushWord (a : Assembly) (w : Word) : Assembly :=
  match Bytes.dropLeadingZeros w.bytes with
  | [] => a.emit [0x5f]
  | b :: rest => a.pushBytes (b :: rest)

/-- Emit a push of the place of a label. -/
def pushLabel (a : Assembly) (label : String) : Assembly :=
  { a with references := a.references.push (a.offset + 1, label) }.emit [0x61, 0, 0]

/-- Mark this place. -/
def mark (a : Assembly) (label : String) : Assembly :=
  match a.labels.lookup label with
  | some _ => a.fail (.duplicateLabel label)
  | none => { a with labels := (label, a.offset) :: a.labels }.emit [jumpDestByte]

/-- **Follow a directive.** -/
def follow (a : Assembly) : Directive → Assembly
  | .op byte => a.emit [byte]
  | .ops bs => a.emit bs
  | .raw bs => a.emit bs
  | .pushBytes bs => a.pushBytes bs
  | .pushWord w => a.pushWord w
  | .pushLabel label => a.pushLabel label
  | .label label => a.mark label
  | .jump label => (a.pushLabel label).emit [0x56]
  | .jumpIf label => (a.pushLabel label).emit [0x57]

/-- Fill in the place of one reference. -/
def resolve (labels : List (String × Nat)) (code : Array UInt8) (reference : Nat × String) :
    Except AssemblerError (Array UInt8) :=
  match labels.lookup reference.2 with
  | none => .error (.undefinedLabel reference.2)
  | some place =>
    -- Two bytes are kept free for the place.
    if place ≤ 0xffff then
      .ok ((code.setIfInBounds reference.1 (UInt8.ofNat (place / 256))).setIfInBounds
        (reference.1 + 1) (UInt8.ofNat place))
    else .error (.labelOutOfRange reference.2 place)

/-- **Fill in all references.** -/
def build (a : Assembly) : Except AssemblerError Bytes :=
  match a.error? with
  | some e => .error e
  | none =>
    match a.references.toList.foldlM (resolve a.labels) a.code with
    | .error e => .error e
    | .ok code => .ok code.toList

end Assembly

/-- **The code that directives describe.** -/
def assemble (directives : List Directive) : Except AssemblerError Bytes :=
  (directives.foldl Assembly.follow .empty).build

end EthCall.Evm
