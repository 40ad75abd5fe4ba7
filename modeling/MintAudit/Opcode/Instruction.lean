import MintAudit.Text.Pattern

namespace MintAudit

/-!
# Opcodes and instructions

What a line of a listing asks of the machine.
-/

/-! ## Opcode table -/

namespace Opcode

structure Shape where
  code : Nat
  removed : Nat
  added : Nat
  family : Bool
  deriving DecidableEq, Repr

def listed : Table String (Nat × Nat × Nat) :=
  [("STOP", 0x00, 0, 0), ("ADD", 0x01, 2, 1), ("MUL", 0x02, 2, 1), ("SUB", 0x03, 2, 1), ("DIV", 0x04, 2, 1),
    ("SDIV", 0x05, 2, 1), ("MOD", 0x06, 2, 1), ("SMOD", 0x07, 2, 1), ("ADDMOD", 0x08, 3, 1),
    ("MULMOD", 0x09, 3, 1), ("EXP", 0x0A, 2, 1), ("SIGNEXTEND", 0x0B, 2, 1), ("LT", 0x10, 2, 1),
    ("GT", 0x11, 2, 1), ("SLT", 0x12, 2, 1), ("SGT", 0x13, 2, 1), ("EQ", 0x14, 2, 1), ("ISZERO", 0x15, 1, 1),
    ("AND", 0x16, 2, 1), ("OR", 0x17, 2, 1), ("XOR", 0x18, 2, 1), ("NOT", 0x19, 1, 1), ("BYTE", 0x1A, 2, 1),
    ("SHA3", 0x20, 2, 1), ("KECCAK256", 0x20, 2, 1), ("ADDRESS", 0x30, 0, 1), ("BALANCE", 0x31, 1, 1),
    ("ORIGIN", 0x32, 0, 1), ("CALLER", 0x33, 0, 1), ("CALLVALUE", 0x34, 0, 1), ("CALLDATALOAD", 0x35, 1, 1),
    ("CALLDATASIZE", 0x36, 0, 1), ("CALLDATACOPY", 0x37, 3, 0), ("CODESIZE", 0x38, 0, 1),
    ("CODECOPY", 0x39, 3, 0), ("GASPRICE", 0x3A, 0, 1), ("EXTCODESIZE", 0x3B, 1, 1),
    ("EXTCODECOPY", 0x3C, 4, 0), ("MCOPY", 0x3D, 3, 0), ("BLOCKHASH", 0x40, 1, 1), ("COINBASE", 0x41, 0, 1),
    ("TIMESTAMP", 0x42, 0, 1), ("NUMBER", 0x43, 0, 1), ("DIFFICULTY", 0x44, 0, 1), ("GASLIMIT", 0x45, 0, 1),
    ("POP", 0x50, 1, 0), ("MLOAD", 0x51, 1, 1), ("MSTORE", 0x52, 2, 0), ("MSTORE8", 0x53, 2, 0),
    ("SLOAD", 0x54, 1, 1), ("SSTORE", 0x55, 2, 0), ("JUMP", 0x56, 1, 0), ("JUMPI", 0x57, 2, 0),
    ("PC", 0x58, 0, 1), ("MSIZE", 0x59, 0, 1), ("GAS", 0x5A, 0, 1), ("JUMPDEST", 0x5B, 0, 0),
    ("SLOADEXT", 0x5C, 2, 1), ("SSTOREEXT", 0x5D, 3, 0), ("SLOADBYTESEXT", 0x5C, 4, 0),
    ("SSTOREBYTESEXT", 0x5D, 4, 0), ("LOG0", 0xA0, 2, 0), ("LOG1", 0xA1, 3, 0), ("LOG2", 0xA2, 4, 0),
    ("LOG3", 0xA3, 5, 0), ("LOG4", 0xA4, 6, 0), ("CREATE", 0xF0, 3, 1), ("CALL", 0xF1, 7, 1),
    ("CALLCODE", 0xF2, 7, 1), ("RETURN", 0xF3, 2, 0), ("REVERT", 0xFD, 2, 0), ("ASSERTFAIL", 0xFE, 0, 0),
    ("DELEGATECALL", 0xF4, 6, 1), ("BREAKPOINT", 0xF5, 0, 0), ("RNGSEED", 0xF6, 1, 1), ("SSIZEEXT", 0xF7, 2, 1),
    ("SLOADBYTES", 0xF8, 3, 0), ("SSTOREBYTES", 0xF9, 3, 0), ("SSIZE", 0xFA, 1, 1), ("STATEROOT", 0xFB, 1, 1),
    ("TXEXECGAS", 0xFC, 0, 1), ("CALLSTATIC", 0xFD, 7, 1), ("INVALID", 0xFE, 0, 0), ("SUICIDE", 0xFF, 1, 0),
    ("SELFDESTRUCT", 0xFF, 1, 0), ("SHR", 0x1C, 2, 1), ("SHL", 0x1B, 2, 1), ("SAR", 0x1D, 2, 1),
    ("CHAINID", 0x46, 0, 1), ("SELFBALANCE", 0x47, 1, 1), ("BASEFEE", 0x48, 0, 1), ("TLOAD", 0x5D, 1, 1),
    ("TSTORE", 0x5C, 2, 0), ("---END---", 0x00, 0, 0)]

def member? (start : String) (count : Nat) (shape : Nat → Shape) (name : String) : Option Shape :=
  (List.range count).findSome? fun index =>
    if name = start ++ toString (index + 1) then some (shape index) else none

def shape (name : String) : Except Fault Shape :=
  match Table.get? name listed with
  | some (code, removed, added) => .ok ⟨code, removed, added, false⟩
  | none =>
    let families :=
      [member? "PUSH" 32 (fun index => ⟨0x60 + index, 0, 1, true⟩) name,
        member? "DUP" 16 (fun index => ⟨0x80 + index, index + 1, index + 2, true⟩) name,
        member? "SWAP" 16 (fun index => ⟨0x90 + index, index + 2, index + 2, true⟩) name]
    match families.findSome? id with
    | some shape => .ok shape
    | none => .error (.badOpcode name)

/-! ## Base prices -/

def free : List String := ["STOP", "RETURN", "REVERT", "ASSERTFAIL"]

def cheapest : List String :=
  ["ADDRESS", "ORIGIN", "CALLER", "CALLVALUE", "CALLDATASIZE", "CODESIZE", "GASPRICE", "COINBASE", "TIMESTAMP",
    "NUMBER", "DIFFICULTY", "GASLIMIT", "POP", "PC", "MSIZE", "GAS", "BASEFEE", "CHAINID", "TSTORE", "TLOAD"]

def cheap : List String :=
  ["ADD", "SUB", "NOT", "LT", "GT", "SLT", "SGT", "EQ", "ISZERO", "AND", "OR", "XOR", "BYTE", "CALLDATALOAD",
    "MLOAD", "MSTORE", "MSTORE8", "PUSH", "DUP", "SWAP", "SHL", "SHR", "SAR"]

def moderate : List String := ["MUL", "DIV", "SDIV", "MOD", "SMOD", "SIGNEXTEND", "SELFBALANCE"]

def dear : List String := ["ADDMOD", "MULMOD", "JUMP"]

def single : List (String × Nat) :=
  [("EXP", 10), ("SLOAD", 50), ("JUMPDEST", 1), ("SHA3", 30), ("KECCAK256", 30), ("CREATE", 32000), ("CALL", 40),
    ("CALLCODE", 40), ("LOG0", 375), ("LOG1", 750), ("LOG2", 1125), ("LOG3", 1500), ("LOG4", 1875),
    ("EXTCODECOPY", 20), ("CALLDATACOPY", 3), ("CODECOPY", 3), ("BALANCE", 400), ("BLOCKHASH", 20)]

def price (name : String) : Nat :=
  if free.contains name then
    0
  else if cheapest.contains name then
    2
  else if cheap.contains name || Text.startsWith name "PUSH" || Text.startsWith name "DUP"
      || Text.startsWith name "SWAP" then
    3
  else if moderate.contains name then
    5
  else if dear.contains name then
    8
  else if Text.contains "JUMPI" name then
    10
  else if Text.contains "EXTCODESIZE" name then
    20
  else
    (single.lookup name).getD 0

end Opcode

/-! ## Instructions -/

inductive Opcode where
  | stop | add | mul | sub | div | sdiv | mod | smod | addmod | mulmod | exp | signextend
  | lt | gt | slt | sgt | eq | iszero | and | or | xor | not | byte
  | hash
  | address | balance | caller | origin | callvalue | calldataload | calldatasize | calldatacopy
  | codesize | codecopy | returndatacopy | returndatasize | gasprice | extcodesize | extcodecopy
  | blockhash | coinbase | timestamp | number | difficulty | gaslimit
  | pop | mload | mstore | mstore8 | sload | sstore | jump | jumpi | pc | msize | gas | jumpdest
  | create | call | callcode | delegatecall | returnData | revert | selfdestruct
  | shl | shr | sar | selfbalance | chainid | basefee
  deriving DecidableEq, Repr

inductive Instruction where
  | plain (opcode : Opcode)
  | failing
  | push (width : Option Int) (value : Except Fault Int)
  | duplicate (depth : Option Int)
  | swap (depth : Option Int)
  | log (topics : Nat)
  | unknown (name : String)

def Opcode.names : List (String × Opcode) :=
  [("STOP", stop), ("ADD", add), ("MUL", mul), ("SUB", sub), ("DIV", div), ("SDIV", sdiv), ("MOD", mod),
    ("SMOD", smod), ("ADDMOD", addmod), ("MULMOD", mulmod), ("EXP", exp), ("SIGNEXTEND", signextend), ("LT", lt),
    ("GT", gt), ("SLT", slt), ("SGT", sgt), ("EQ", eq), ("ISZERO", iszero), ("AND", and), ("OR", or), ("XOR", xor),
    ("NOT", not), ("BYTE", byte), ("KECCAK256", hash), ("SHA3", hash), ("ADDRESS", address), ("BALANCE", balance),
    ("CALLER", caller), ("ORIGIN", origin), ("CALLVALUE", callvalue), ("CALLDATALOAD", calldataload),
    ("CALLDATASIZE", calldatasize), ("CALLDATACOPY", calldatacopy), ("CODESIZE", codesize),
    ("CODECOPY", codecopy), ("RETURNDATACOPY", returndatacopy), ("RETURNDATASIZE", returndatasize),
    ("GASPRICE", gasprice), ("EXTCODESIZE", extcodesize), ("EXTCODECOPY", extcodecopy), ("BLOCKHASH", blockhash),
    ("COINBASE", coinbase), ("TIMESTAMP", timestamp), ("NUMBER", number), ("DIFFICULTY", difficulty),
    ("GASLIMIT", gaslimit), ("POP", pop), ("MLOAD", mload), ("MSTORE", mstore), ("MSTORE8", mstore8),
    ("SLOAD", sload), ("SSTORE", sstore), ("JUMP", jump), ("JUMPI", jumpi), ("PC", pc), ("MSIZE", msize),
    ("GAS", gas), ("JUMPDEST", jumpdest), ("CREATE", create), ("CREATE2", create), ("CALL", call),
    ("CALLCODE", callcode), ("DELEGATECALL", delegatecall), ("STATICCALL", delegatecall), ("RETURN", returnData),
    ("REVERT", revert), ("SELFDESTRUCT", selfdestruct), ("SHL", shl), ("SHR", shr), ("SAR", sar),
    ("SELFBALANCE", selfbalance), ("CHAINID", chainid), ("BASEFEE", basefee)]

namespace Instruction

def nameOf (line : String) : String :=
  (Text.splitOnChar ' ' line).headD ""

def operand (line : String) : Except Fault Int :=
  match Text.splitOnChar ' ' line with
  | _ :: written :: _ =>
    match Numeral.read? 16 written with
    | some value => .ok value
    | none => .error .wrongValue
  | _ => .error .outOfRange

def numberAfter (start name : String) : Option Int :=
  Numeral.read? 10 (String.ofList (name.toList.drop start.length))

def logs : List (String × Nat) :=
  [("LOG0", 0), ("LOG1", 1), ("LOG2", 2), ("LOG3", 3), ("LOG4", 4)]

def ofLine (line : String) : Instruction :=
  let name := nameOf line
  if name = "INVALID" || name = "ASSERTFAIL" then
    failing
  else
    match Opcode.names.lookup name with
    | some opcode => plain opcode
    | none =>
      if Text.startsWith name "PUSH" then
        push (numberAfter "PUSH" name) (operand line)
      else if Text.startsWith name "DUP" then
        duplicate (numberAfter "DUP" name)
      else if Text.startsWith name "SWAP" then
        swap (numberAfter "SWAP" name)
      else
        match logs.lookup name with
        | some topics => log topics
        | none => unknown name

end Instruction

end MintAudit
