import MintAudit.Detector.TokenCalls

namespace MintAudit

/-!
# Executing instructions

`Machine.execute` does what an instruction asks.
-/

/-! ## Calls that move value -/

attribute [local instance (high)] instPowNat

namespace Calls

open Exec

variable (decider : Decider)

def noteCall : Exec Unit := do
  modifyPath fun path => { path with calls := path.calls ++ [path.pc] }
  let calls := (← path).calls
  modifySession fun session =>
    { session with
      callsAffect := calls.foldl
        (fun table call => if Table.has call table then table else Table.put call false table)
        session.callsAffect }

def assumeOnPath (flag : Flag) : Exec Unit := do
  assumeFlag flag
  modifyPath fun path => { path with conditions := path.conditions ++ [flag.toWord] }

def balanceOf (account : String) : Exec Word := do
  match Table.get? account (← path).balances with
  | some word => return word
  | none => throw .missingKey

def setBalance (account : String) (word : Word) : Exec Unit :=
  modifyPath fun path => { path with balances := Table.put account word path.balances }

def possible (flag : Flag) : Exec Bool := do
  enterScope
  assumeFlag flag
  let answer ← feasible decider
  leaveScope
  return answer

def assumeIfPossible (flag : Flag) : Exec Bool := do
  let answer ← possible decider flag
  if answer then
    assumeOnPath flag
  return answer

def accountOf (recipient : Word) : Exec String :=
  if recipient.isConcrete then
    return "concrete_address_" ++ recipient.render
  else
    freshName Names.anyAddress

def unknownBalance : Exec Word := do
  let balance ← symbolNamed (← freshName Names.anything)
  assumeOnPath (← lift (balance.relate .atLeast (.integer 0)))
  return balance

def giveTo (recipient amount : Word) : Exec Unit := do
  let account ← accountOf recipient
  let before ← unknownBalance
  setBalance account (← lift (before.add amount))

def transfer (recipient amount contractBalance : Word) : Exec Unit := do
  setBalance "Ia" (← lift (contractBalance.sub amount))
  let caller : Word := .term (.binary .and (.symbol "Is" Word.size) (.literal Word.size (2 ^ (160 : Nat) - 1)))
  if ← possible decider (← lift (recipient.differ caller)) then
    giveTo recipient amount
  else
    setBalance "Is" (← lift ((← balanceOf "Is").add amount))

def call (move : Bool) : Exec Unit := do
  need 7
  noteCall
  advance 1
  discard pop
  let recipient ← pop
  let amount ← pop
  drop 4
  if amount.concrete? = some 0 then
    push (.integer 1)
  else
    let contractBalance ← balanceOf "Ia"
    let covered ← lift (amount.relate .atMost contractBalance)
    if ← assumeIfPossible decider covered then
      push (.integer 1)
      if move then
        transfer decider recipient amount contractBalance
    else
      push (.integer 0)

def selfDestruct : Exec Unit := do
  advance 1
  let recipient ← pop
  let amount ← balanceOf "Ia"
  setBalance "Ia" (.integer 0)
  giveTo recipient amount

end Calls

/-! ## Stack and control instructions -/

namespace Control

open Exec

def target (word : Word) : Except Fault Int :=
  match word.concrete? with
  | some value => .ok value
  | none =>
    match word with
    | .term value =>
      match Numeral.read? 10 value.simplify.text with
      | some address => .ok address
      | none => .error .targetNotInteger
    | _ => .error .targetNotInteger

def updateBlock (block : Int) (change : Block → Block) : Exec Unit := do
  discard (lift ((← session).graph.block block))
  modifySession fun session => { session with graph := session.graph.updateBlock block change }

def addJump (block address : Int) : Exec Unit := do
  let graph ← lift ((← session).graph.addJump block address)
  modifySession fun session => { session with graph := graph }

def jump (block : Int) : Exec Unit := do
  need 1
  let address ← lift (target (← pop))
  updateBlock block fun current => { current with jumpTarget := address }
  addJump block address

def branchOf (flag : Word) : Except Fault Word :=
  match flag.concrete? with
  | some 0 => .ok (.term (.binary .eq (.literal 1 0) (.literal 1 1)))
  | some _ => .ok (.truth true)
  | none => do return (← flag.differ (.integer 0)).toWord

def jumpIf (block : Int) : Exec Unit := do
  need 2
  let address ← lift (target (← pop))
  updateBlock block fun current => { current with jumpTarget := address }
  let flag ← pop
  let branch ← lift (branchOf flag)
  updateBlock block fun current => { current with branch := some branch }
  addJump block address

def programCounter : Exec Unit := do
  push (.integer (← path).pc)
  advance 1

def pushConstant (width : Option Int) (value : Except Fault Int) : Exec Unit := do
  let some width := width | throw .wrongValue
  advance (1 + width)
  let value ← lift value
  push (if (← session).settings.unitTest = 3 then Word.constant value else .integer value)

def duplicate (depth : Option Int) : Exec Unit := do
  advance 1
  let some depth := depth | throw .wrongValue
  let stack := (← path).stack
  if (stack.length : Int) ≤ depth - 1 then
    throw .stackUnderflow
  match Sequence.at? stack (depth - 1) with
  | some word => push word
  | none => throw .outOfRange

def exchanged (index : Nat) (stack : List Word) : List Word :=
  match stack, stack[index]? with
  | top :: _, some other => (stack.set index top).set 0 other
  | _, _ => stack

/-- Exchange the top of the stack with a word below it; the word below the top then tells whether a loaded owner is
being deleted. -/
def swap (depth : Option Int) : Exec Unit := do
  advance 1
  let some depth := depth | throw .wrongValue
  let stack := (← path).stack
  if (stack.length : Int) ≤ depth then
    throw .stackUnderflow
  let some index := Sequence.index? stack.length depth | throw .outOfRange
  let stack := exchanged index stack
  modifyPath fun path => { path with stack := stack }
  let some second := stack[1]? | throw .outOfRange
  if ← lift (second.same (← path).gates.burn.loaded) then
    modifyPath fun path =>
      { path with gates := { path.gates with burn := { path.gates.burn with valid := true, trigger := false } } }

def log (topics : Nat) : Exec Unit := do
  advance 1
  drop (2 + topics)

def finish (undo : Bool) : Exec Unit := do
  need 2
  if undo then
    advance 1
  drop 2

def unknown (name : String) : Exec Unit := do
  let mode := (← session).settings.unitTest
  if mode = 2 ∨ mode = 3 then
    throw (.leave (some 103))
  throw (.unknownInstruction name)

end Control

/-! ## Instructions that ask the environment -/

namespace Environment

open Exec

def fact (name : String) : Exec Unit := do
  advance 1
  push (Word.symbol name)

def namedFact (name : String) : Exec Unit := do
  push (← symbolNamed name)

def balance : Exec Unit := do
  need 1
  advance 1
  let address ← pop
  let word ← symbolNamed (← freshName Names.accountBalance)
  let account := if address.isConcrete then "concrete_address_" ++ address.render else address.render
  modifyPath fun path => { path with balances := Table.put account word path.balances }
  push word

def noteVariable (name : String) : Exec Unit :=
  modifySession fun session =>
    { session with
      source := session.source.map fun source => { source with «variables» := source.variables ++ [name] } }

def expectedParameters (function : String) (position : Word) : Exec (Option (Int × List Parameter)) := do
  match (← session).source with
  | none => return none
  | some source =>
    let code ← lift (source.codeAt ((← path).pc - 1))
    match position.concrete?, Table.get? function source.parameters with
    | some value, some parameters =>
      if Text.startsWith code "function" then return some (Int.fdiv (value - 4) 32, parameters) else return none
    | _, _ => return none

def parameterName (index : Int) (parameters : List Parameter) : Exec String := do
  let names := (parameters.filter fun parameter => parameter.position = index).map Parameter.name
  names.forM noteVariable
  match names.getLast? with
  | some name => return name
  | none => throw .unsetLocal

def countLoad (word : Word) (watch : Watch) : Watch :=
  let watch := { watch with loads := watch.loads + 1 }
  if watch.loads = 1 then
    { watch with source := word }
  else if watch.loads = 2 then
    { watch with target := word }
  else if watch.loads = 3 then
    { watch with token := word }
  else
    watch

def loadData (function : String) : Exec Unit := do
  need 1
  advance 1
  let position ← pop
  let name ← match ← expectedParameters function position with
    | some (index, parameters) => parameterName index parameters
    | none => freshName Names.dataWord
  let word ← symbolNamed name
  push word
  modifySession fun session => { session with watch := countLoad word session.watch }

def codeSize : Exec Unit := do
  need 1
  advance 1
  let address ← pop
  namedFact (Names.codeSize address)

def blockHash : Exec Unit := do
  need 1
  advance 1
  discard pop
  namedFact "IH_blockhash"

def gasLeft : Exec Unit := do
  advance 1
  namedFact (← freshName Names.gasLeft)

def consume (count : Nat) : Exec Unit := do
  need count
  advance 1
  drop count

def unknownResult (count : Nat) : Exec Unit := do
  need count
  advance 1
  drop count
  push (← freshSymbol Names.anything)

end Environment

/-! ## One instruction -/

namespace Machine

open Exec

variable (decider : Decider)

def executePlain (block : Int) (function : String) : Opcode → Exec Unit
  | .stop => advance 1
  | .add => Alu.additiveIn block .add
  | .mul => Alu.binary fun first second => lift (Alu.product first second)
  | .sub => Alu.additiveIn block .sub
  | .div => Alu.division decider Alu.quotient fun first second => lift (first.combine .udiv second)
  | .sdiv => Alu.division decider Alu.signedQuotient (Alu.signedQuotientTerm decider)
  | .mod =>
    Alu.division decider (fun first second => .ok (Alu.remainder first second)) fun first second =>
      lift (first.combine .urem second)
  | .smod =>
    Alu.division decider (fun first second => .ok (Alu.signedRemainder first second)) (Alu.signedRemainderTerm decider)
  | .addmod => Alu.modular decider (· + ·) .add .smod
  | .mulmod => Alu.modular decider (· * ·) .mul .urem
  | .exp => Alu.exponentiation
  | .signextend => Alu.signExtension decider
  | .lt => Alu.comparison (fun first second => Alu.unsigned first < Alu.unsigned second) (Word.relateUnsigned .ult)
  | .gt => Alu.comparison (fun first second => Alu.unsigned second < Alu.unsigned first) (Word.relateUnsigned .ugt)
  | .slt => Alu.comparison (fun first second => Alu.asSigned first < Alu.asSigned second) (Word.relate .less)
  | .sgt => Alu.comparison (fun first second => Alu.asSigned second < Alu.asSigned first) (Word.relate .greater)
  | .eq => Alu.comparison (· == ·) Word.equal
  | .iszero => Alu.isZero
  | .and => Alu.binary fun first second => lift (first.and second)
  | .or => Alu.binary fun first second => lift (first.or second)
  | .xor => Alu.binary fun first second => lift (first.xor second)
  | .not => Alu.complement
  | .byte => Alu.byte decider
  | .hash => Memory.hash
  | .address => Environment.fact "Ia"
  | .balance => Environment.balance
  | .caller => Environment.fact "Is"
  | .origin => Environment.fact "Io"
  | .callvalue => Environment.fact "Iv"
  | .calldataload => Environment.loadData function
  | .calldatasize => do
      advance 1
      Environment.namedFact Names.dataSize
  | .calldatacopy => Environment.consume 3
  | .codesize => Memory.codeSize
  | .codecopy => Memory.copyCode decider
  | .returndatacopy => Environment.consume 3
  | .returndatasize => Environment.unknownResult 0
  | .gasprice => Environment.fact "Ip"
  | .extcodesize => Environment.codeSize
  | .extcodecopy => Memory.copyForeignCode decider
  | .blockhash => Environment.blockHash
  | .coinbase => Environment.fact "IH_c"
  | .timestamp => Environment.fact "IH_s"
  | .number => Environment.fact "IH_i"
  | .difficulty => Environment.fact "IH_d"
  | .gaslimit => Environment.fact "IH_l"
  | .pop => Environment.consume 1
  | .mload => Memory.load decider
  | .mstore => Memory.store decider
  | .mstore8 => Memory.storeByte decider
  | .sload => Memory.loadStorage
  | .sstore => Memory.storeStorage
  | .jump => Control.jump block
  | .jumpi => Control.jumpIf block
  | .pc => Control.programCounter
  | .msize => Memory.size
  | .gas => Environment.gasLeft
  | .jumpdest => advance 1
  | .create => Environment.unknownResult 3
  | .call => Calls.call decider true
  | .callcode => Calls.call decider false
  | .delegatecall => Environment.unknownResult 6
  | .returnData => Control.finish false
  | .revert => Control.finish true
  | .selfdestruct => Calls.selfDestruct
  | .shl => Alu.shiftLeft
  | .shr => Alu.shiftRight
  | .sar => Alu.shiftRight
  | .selfbalance => Environment.fact "IH_b"
  | .chainid => Environment.fact "IH_cid"
  | .basefee => Environment.fact "IH_f"

def execute (block : Int) (function : String) : Instruction → Exec Unit
  | .plain opcode => executePlain decider block function opcode
  | .failing => pure ()
  | .push width value => Control.pushConstant width value
  | .duplicate depth => Control.duplicate depth
  | .swap depth => Control.swap depth
  | .log topics => Control.log topics
  | .unknown name => Control.unknown name

def inspect (instruction : Instruction) : Exec Unit := do
  let { session, path } ← get
  let scene : TransferEvent.Scene :=
    { logsFourTopics := match instruction with
        | .log topics => topics == 4
        | _ => false
      stack := path.stack
      scopes := session.scopes
      sender := session.watch.source
      owner := session.watch.owner
      stored := session.watch.stored
      function := session.watch.currentFunction }
  let outcome := TransferEvent.inspect decider scene session.watch.findings
  modifySession fun session =>
    { session with
      scopes := outcome.scopes
      watch := { session.watch with findings := outcome.findings } }
  match outcome.fault with
  | some fault => throw fault
  | none => pure ()

def coverage (executed count : Nat) : Except Fault Binary64 := do
  if count = 0 then
    throw .divisionByZero
  match (Binary64.ofInt executed).div? (Binary64.ofInt count) with
  | some share => return share.mul (Binary64.ofInt 100)
  | none => throw .divisionByZero

def showProgress : Exec Unit := do
  let session ← Exec.session
  if session.graph.blocks.isEmpty then
    throw .divisionByZero
  let percent ← lift (coverage session.visitedPcs.length session.graph.instructions.length)
  if Int.fmod (percent.truncate?.getD 0) 5 = 0 && !session.clockStarted then
    throw .unsetName

def perform (block : Int) (function : String) : Instruction → Exec Unit
  | .failing => pure ()
  | instruction => do
      inspect decider instruction
      showProgress
      execute decider block function instruction

def step (block : Int) (function line : String) : Exec Unit := do
  let { session, path } ← get
  if session.alarm = some session.executed then
    throw .timeLimit
  let entry : Step := { block := block, pc := path.pc, line := line, depth := path.stack.length, function := function }
  modifySession fun session =>
    { session with
      trace := entry :: session.trace
      executed := session.executed + 1
      visitedPcs := if session.visitedPcs.contains path.pc then session.visitedPcs else path.pc :: session.visitedPcs }
  perform decider block function (Instruction.ofLine line)

end Machine

end MintAudit
