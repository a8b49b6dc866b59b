/-!
# Instructions

An instruction is one byte of code, except that a push is followed by the
bytes it pushes. Instructions of one kind – all that replace two numbers
by one, say – differ only in the number they compute, and are kept
together: `Op` has one constructor per kind, and the kind has its own list
of members.

Some bytes are instructions that this library does not carry out, because
they need the state of other accounts (`ExternalOp`); the remaining ones
are no instructions at all.
-/

namespace EthCall.Evm

/-- Replaces the top of the stack by a number computed from it. -/
inductive UnaryOp where
  | isZero | not
  deriving DecidableEq

/-- Replaces the two topmost numbers by one computed from them. -/
inductive BinaryOp where
  | add | mul | sub | div | sdiv | mod | smod | exp | signExtend
  | lt | gt | slt | sgt | eq | and | or | xor | byte | shl | shr | sar
  deriving DecidableEq

/-- Replaces the three topmost numbers by one computed from them. -/
inductive TernaryOp where
  | addMod | mulMod
  deriving DecidableEq

/-- Pushes a number from the surroundings. -/
inductive ContextOp where
  | address | origin | caller | callValue | callDataSize | codeSize | gasPrice | returnDataSize
  | coinbase | timestamp | number | prevRandao | gasLimit | chainId | selfBalance | baseFee
  | blobBaseFee | pc | memorySize | gas
  deriving DecidableEq

/-- Replaces the top of the stack by what is recorded under it outside the
contract. In isolation there are no records, and the answer is zero. -/
inductive RecordOp where
  | balance | blockHash | blobHash
  deriving DecidableEq

/-- Needs the state of other accounts. -/
inductive ExternalOp where
  | extCodeSize | extCodeCopy | extCodeHash | create | call | callCode | delegateCall | create2
  | staticCall | selfDestruct
  deriving DecidableEq

/-- **An instruction.** -/
inductive Op where
  /-- Ends the execution. -/
  | stop
  /-- Computes from one number. -/
  | unary (f : UnaryOp)
  /-- Computes from two numbers. -/
  | binary (f : BinaryOp)
  /-- Computes from three numbers. -/
  | ternary (f : TernaryOp)
  /-- Digests a stretch of memory. -/
  | keccak256
  /-- Asks for the surroundings. -/
  | context (q : ContextOp)
  /-- Asks for a record outside the contract. -/
  | record (q : RecordOp)
  /-- Reads a word of the calldata. -/
  | callDataLoad
  /-- Copies calldata into memory. -/
  | callDataCopy
  /-- Copies code into memory. -/
  | codeCopy
  /-- Copies what the last call returned into memory. -/
  | returnDataCopy
  /-- Drops the top of the stack. -/
  | pop
  /-- Reads a word of memory. -/
  | memoryLoad
  /-- Writes a word of memory. -/
  | memoryStore
  /-- Writes a byte of memory. -/
  | memoryStore8
  /-- Copies memory into memory. -/
  | memoryCopy
  /-- Reads the storage. -/
  | storageLoad
  /-- Writes the storage. -/
  | storageStore
  /-- Reads the transient storage. -/
  | transientLoad
  /-- Writes the transient storage. -/
  | transientStore
  /-- Goes on elsewhere. -/
  | jump
  /-- Goes on elsewhere unless a number is zero. -/
  | jumpIf
  /-- Marks a place where execution may go on. -/
  | jumpDest
  /-- Pushes the number that the next `size` bytes spell. -/
  | push (size : Nat)
  /-- Pushes a copy of the `n`-th number from the top. -/
  | dup (n : Nat)
  /-- Exchanges the top with the `n`-th number below it. -/
  | swap (n : Nat)
  /-- Logs a stretch of memory under so many topics. -/
  | log (topics : Nat)
  /-- Ends the execution with an output. -/
  | return_
  /-- Ends the execution with a payload that says why it failed. -/
  | revert
  /-- Ends the execution as a failure, by design. -/
  | invalid
  /-- Needs the state of other accounts. -/
  | external (o : ExternalOp)
  deriving DecidableEq

/-- How many bytes behind this one belong to it: those a push pushes. -/
def pushSize (byte : UInt8) : Nat :=
  if 0x60 ≤ byte.toNat ∧ byte.toNat ≤ 0x7f then byte.toNat - 0x5f else 0

/-- The byte that marks a place where execution may go on. -/
def jumpDestByte : UInt8 := 0x5b

/-- **The instruction a byte stands for**, if it stands for one. -/
def Op.ofByte? (byte : UInt8) : Option Op :=
  match byte.toNat with
  | 0x00 => some .stop
  | 0x01 => some (.binary .add)
  | 0x02 => some (.binary .mul)
  | 0x03 => some (.binary .sub)
  | 0x04 => some (.binary .div)
  | 0x05 => some (.binary .sdiv)
  | 0x06 => some (.binary .mod)
  | 0x07 => some (.binary .smod)
  | 0x08 => some (.ternary .addMod)
  | 0x09 => some (.ternary .mulMod)
  | 0x0a => some (.binary .exp)
  | 0x0b => some (.binary .signExtend)
  | 0x10 => some (.binary .lt)
  | 0x11 => some (.binary .gt)
  | 0x12 => some (.binary .slt)
  | 0x13 => some (.binary .sgt)
  | 0x14 => some (.binary .eq)
  | 0x15 => some (.unary .isZero)
  | 0x16 => some (.binary .and)
  | 0x17 => some (.binary .or)
  | 0x18 => some (.binary .xor)
  | 0x19 => some (.unary .not)
  | 0x1a => some (.binary .byte)
  | 0x1b => some (.binary .shl)
  | 0x1c => some (.binary .shr)
  | 0x1d => some (.binary .sar)
  | 0x20 => some .keccak256
  | 0x30 => some (.context .address)
  | 0x31 => some (.record .balance)
  | 0x32 => some (.context .origin)
  | 0x33 => some (.context .caller)
  | 0x34 => some (.context .callValue)
  | 0x35 => some .callDataLoad
  | 0x36 => some (.context .callDataSize)
  | 0x37 => some .callDataCopy
  | 0x38 => some (.context .codeSize)
  | 0x39 => some .codeCopy
  | 0x3a => some (.context .gasPrice)
  | 0x3b => some (.external .extCodeSize)
  | 0x3c => some (.external .extCodeCopy)
  | 0x3d => some (.context .returnDataSize)
  | 0x3e => some .returnDataCopy
  | 0x3f => some (.external .extCodeHash)
  | 0x40 => some (.record .blockHash)
  | 0x41 => some (.context .coinbase)
  | 0x42 => some (.context .timestamp)
  | 0x43 => some (.context .number)
  | 0x44 => some (.context .prevRandao)
  | 0x45 => some (.context .gasLimit)
  | 0x46 => some (.context .chainId)
  | 0x47 => some (.context .selfBalance)
  | 0x48 => some (.context .baseFee)
  | 0x49 => some (.record .blobHash)
  | 0x4a => some (.context .blobBaseFee)
  | 0x50 => some .pop
  | 0x51 => some .memoryLoad
  | 0x52 => some .memoryStore
  | 0x53 => some .memoryStore8
  | 0x54 => some .storageLoad
  | 0x55 => some .storageStore
  | 0x56 => some .jump
  | 0x57 => some .jumpIf
  | 0x58 => some (.context .pc)
  | 0x59 => some (.context .memorySize)
  | 0x5a => some (.context .gas)
  | 0x5b => some .jumpDest
  | 0x5c => some .transientLoad
  | 0x5d => some .transientStore
  | 0x5e => some .memoryCopy
  | 0xf0 => some (.external .create)
  | 0xf1 => some (.external .call)
  | 0xf2 => some (.external .callCode)
  | 0xf3 => some .return_
  | 0xf4 => some (.external .delegateCall)
  | 0xf5 => some (.external .create2)
  | 0xfa => some (.external .staticCall)
  | 0xfd => some .revert
  | 0xfe => some .invalid
  | 0xff => some (.external .selfDestruct)
  | code =>
    if 0x5f ≤ code ∧ code ≤ 0x7f then some (.push (code - 0x5f))
    else if 0x80 ≤ code ∧ code ≤ 0x8f then some (.dup (code - 0x7f))
    else if 0x90 ≤ code ∧ code ≤ 0x9f then some (.swap (code - 0x8f))
    else if 0xa0 ≤ code ∧ code ≤ 0xa4 then some (.log (code - 0xa0))
    else none

/-! ## Mnemonics -/

/-- The mnemonic of a unary instruction. -/
def UnaryOp.mnemonic : UnaryOp → String
  | isZero => "ISZERO"
  | not => "NOT"

/-- The mnemonic of a binary instruction. -/
def BinaryOp.mnemonic : BinaryOp → String
  | add => "ADD"
  | mul => "MUL"
  | sub => "SUB"
  | div => "DIV"
  | sdiv => "SDIV"
  | mod => "MOD"
  | smod => "SMOD"
  | exp => "EXP"
  | signExtend => "SIGNEXTEND"
  | lt => "LT"
  | gt => "GT"
  | slt => "SLT"
  | sgt => "SGT"
  | eq => "EQ"
  | and => "AND"
  | or => "OR"
  | xor => "XOR"
  | byte => "BYTE"
  | shl => "SHL"
  | shr => "SHR"
  | sar => "SAR"

/-- The mnemonic of a ternary instruction. -/
def TernaryOp.mnemonic : TernaryOp → String
  | addMod => "ADDMOD"
  | mulMod => "MULMOD"

/-- The mnemonic of a question about the surroundings. -/
def ContextOp.mnemonic : ContextOp → String
  | address => "ADDRESS"
  | origin => "ORIGIN"
  | caller => "CALLER"
  | callValue => "CALLVALUE"
  | callDataSize => "CALLDATASIZE"
  | codeSize => "CODESIZE"
  | gasPrice => "GASPRICE"
  | returnDataSize => "RETURNDATASIZE"
  | coinbase => "COINBASE"
  | timestamp => "TIMESTAMP"
  | number => "NUMBER"
  | prevRandao => "PREVRANDAO"
  | gasLimit => "GASLIMIT"
  | chainId => "CHAINID"
  | selfBalance => "SELFBALANCE"
  | baseFee => "BASEFEE"
  | blobBaseFee => "BLOBBASEFEE"
  | pc => "PC"
  | memorySize => "MSIZE"
  | gas => "GAS"

/-- The mnemonic of a question about a record. -/
def RecordOp.mnemonic : RecordOp → String
  | balance => "BALANCE"
  | blockHash => "BLOCKHASH"
  | blobHash => "BLOBHASH"

/-- The mnemonic of an instruction about other accounts. -/
def ExternalOp.mnemonic : ExternalOp → String
  | extCodeSize => "EXTCODESIZE"
  | extCodeCopy => "EXTCODECOPY"
  | extCodeHash => "EXTCODEHASH"
  | create => "CREATE"
  | call => "CALL"
  | callCode => "CALLCODE"
  | delegateCall => "DELEGATECALL"
  | create2 => "CREATE2"
  | staticCall => "STATICCALL"
  | selfDestruct => "SELFDESTRUCT"

/-- **The mnemonic of an instruction.** -/
def Op.mnemonic : Op → String
  | stop => "STOP"
  | unary f => f.mnemonic
  | binary f => f.mnemonic
  | ternary f => f.mnemonic
  | keccak256 => "KECCAK256"
  | context q => q.mnemonic
  | record q => q.mnemonic
  | callDataLoad => "CALLDATALOAD"
  | callDataCopy => "CALLDATACOPY"
  | codeCopy => "CODECOPY"
  | returnDataCopy => "RETURNDATACOPY"
  | pop => "POP"
  | memoryLoad => "MLOAD"
  | memoryStore => "MSTORE"
  | memoryStore8 => "MSTORE8"
  | memoryCopy => "MCOPY"
  | storageLoad => "SLOAD"
  | storageStore => "SSTORE"
  | transientLoad => "TLOAD"
  | transientStore => "TSTORE"
  | jump => "JUMP"
  | jumpIf => "JUMPI"
  | jumpDest => "JUMPDEST"
  | push size => "PUSH" ++ Nat.repr size
  | dup n => "DUP" ++ Nat.repr n
  | swap n => "SWAP" ++ Nat.repr n
  | log topics => "LOG" ++ Nat.repr topics
  | return_ => "RETURN"
  | revert => "REVERT"
  | invalid => "INVALID"
  | external o => o.mnemonic

/-- Whether a byte is an instruction that needs the state of other
accounts. -/
def isExternal (byte : UInt8) : Bool :=
  match Op.ofByte? byte with
  | some (.external _) => true
  | _ => false

end EthCall.Evm
