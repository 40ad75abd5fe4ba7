import MintAudit.Layout.SlotMap
import MintAudit.Machine.Memory

namespace MintAudit

/-!
# What the detectors see

What the detectors conclude before an instruction is executed.
-/

/-! ## Transfer events -/

namespace TransferEvent

def signature : Int :=
  100389287136786176327247604509743168900146139575972864366142685224231313322991

def leafNames (fuel : Nat) (queue : List Term) : List String :=
  match fuel, queue with
  | 0, _ => []
  | _, [] => []
  | fuel + 1, term :: rest =>
    match term with
    | .symbol name _ => name :: leafNames fuel rest
    | .truth value => (if value then "true" else "false") :: leafNames fuel rest
    | .literal .. => leafNames fuel rest
    | term => leafNames fuel (rest ++ term.operands)

def equationNames (left right : Term) : List String :=
  leafNames (left.size + 1) [left] ++ leafNames (right.size + 1) [right]

def equations (fuel : Nat) (queue : List Term) : List (Term × Term) :=
  match fuel, queue with
  | 0, _ => []
  | _, [] => []
  | fuel + 1, term :: rest =>
    match term with
    | .binary .eq left right => (left, right) :: equations fuel rest
    | term => equations fuel (rest ++ term.operands)

def hasIndex : List Char → Bool
  | [] => false
  | '[' :: rest =>
    let word := rest.takeWhile Text.isWordCharacter
    (!word.isEmpty && (rest.dropWhile Text.isWordCharacter).head? == some ']') || hasIndex rest
  | _ :: rest => hasIndex rest

def comparedWithCaller (names : List String) : Except Fault (Option String) :=
  if names.contains "Is" then
    match names with
    | first :: rest =>
      if first ≠ "Is" then
        .ok (some first)
      else
        match rest with
        | second :: _ => .ok (some second)
        | [] => .error .outOfRange
    | [] => .ok none
  else
    .ok none

def notePrivileged (function : String) (finding : Finding) (equation : Term × Term) : Except Fault Finding := do
  match ← comparedWithCaller (equationNames equation.1 equation.2) with
  | some other =>
    if Text.startsWith other "Ia_store" && !hasIndex other.toList then
      return finding.note (function ++ ":" ++ other)
    else
      return finding
  | none => return finding

def foldKeeping (step : β → α → Except Fault β) : β → List α → β × Option Fault
  | state, [] => (state, none)
  | state, item :: rest =>
    match step state item with
    | .ok next => foldKeeping step next rest
    | .error fault => (state, some fault)

def allEquations (conditions : List Term) : List (Term × Term) :=
  conditions.flatMap fun condition => equations (condition.size + 1) [condition]

def isTransfer (function : String) : Bool :=
  Text.contains function "(address,address,uint256)" || Text.contains function "(address, address, uint256)"

def addressBits (word : Word) : Except Fault Term :=
  match word with
  | .term value =>
    match value.kind with
    | .bits width => if 160 ≤ width then .ok (.unary (.extract 159 0) value) else .error .illSorted
    | .condition => .error .illSorted
  | _ => .error .illSorted

def differentAddresses (sender owner : Word) : Except Fault Term := do
  let different : Term := .binary .ne (← addressBits sender) (← addressBits owner)
  return .binary .ne (.choice different (.literal Word.size 1) (.literal Word.size 0)) (.literal Word.size 0)

structure Scene where
  logsFourTopics : Bool
  stack : List Word
  scopes : Scopes
  sender : Word
  owner : Word
  stored : Bool
  function : String

structure Outcome where
  findings : Findings
  scopes : Scopes
  fault : Option Fault

def isEvent (scene : Scene) : Except Fault Bool :=
  if scene.logsFourTopics then
    match scene.stack[2]? with
    | some topic => topic.same (.integer signature)
    | none => .error .outOfRange
  else
    .ok false

def checkSender (decider : Decider) (scene : Scene) (findings : Findings) : Outcome :=
  if isTransfer scene.function then
    match differentAddresses scene.sender scene.owner with
    | .error fault => ⟨findings, scene.scopes, some fault⟩
    | .ok different =>
      let inside := scene.scopes.enter.assume different
      let findings :=
        if decider inside.assertions = .unsatisfiable then
          findings
        else
          { findings with unrestricted := findings.unrestricted.note scene.function }
      match inside.leave with
      | .ok scopes => ⟨findings, scopes, none⟩
      | .error fault => ⟨findings, inside, some fault⟩
  else
    ⟨findings, scene.scopes, none⟩

def inspect (decider : Decider) (scene : Scene) (findings : Findings) : Outcome :=
  match isEvent scene with
  | .error fault => ⟨findings, scene.scopes, some fault⟩
  | .ok false => ⟨findings, scene.scopes, none⟩
  | .ok true =>
    if !scene.stored then
      ⟨{ findings with emptyEvent := findings.emptyEvent.note (scene.function ++ ":standard1") }, scene.scopes, none⟩
    else
      let (privileged, fault) :=
        foldKeeping (notePrivileged scene.function) findings.privileged (allEquations scene.scopes.assertions)
      let findings := { findings with privileged := privileged }
      match fault with
      | some fault => ⟨findings, scene.scopes, some fault⟩
      | none => checkSender decider scene findings

end TransferEvent

/-! ## Callbacks into the receiver -/

namespace Callback

structure Start where
  line : Except Fault Int
  column : Except Fault Int

def Start.ofLocation (location : Location) : Start :=
  match location.first with
  | some first => ⟨.ok first.line, .ok first.column⟩
  | none => ⟨.error .wrongKind, .error .wrongKind⟩

def Start.ofJson (location : Json) : Start :=
  let number := fun (name : String) => do
    match ← location.follow ["begin", name] with
    | .integer value => return value
    | _ => throw Fault.wrongKind
  ⟨number "line", number "column"⟩

def Start.same (left right : Start) : Except Fault Bool := do
  if (← left.line) = (← right.line) then
    return (← left.column) = (← right.column)
  else
    return false

def changesChecked (checked : List String) (start : Start) : List (Start × List String) → Except Fault Bool
  | [] => .ok false
  | (other, changed) :: rest => do
      if ← other.same start then
        if checked.any fun text => changed.any fun name => Text.contains text name then
          return true
      changesChecked checked start rest

def memoryWord (address : Word) (memory : Table Key Word) : Except Fault Word :=
  let key? : Option Key :=
    match address with
    | .text value => some (.label value)
    | .narrow value => some (.number value)
    | .real value =>
      value.truncate?.bind fun whole =>
        if value.compareInt? whole == some .eq then some (.number whole) else none
    | address => address.concrete?.map .number
  match key?.bind fun key => Table.get? key memory with
  | some word => .ok word
  | none => .error .missingKey

def passesSelector (session : Session) (address : Word) (memory : Table Key Word) : Except Fault Bool := do
  if address.render = "mem_64" then
    return true
  else
    (← memoryWord address memory).same session.settings.shiftedReceiverSelector

def reenters (machine : Machine) : Except Fault Bool := do
  let path := machine.path
  let some address := path.stack[3]? | throw .outOfRange
  let some _ := path.stack[4]? | throw .outOfRange
  if ← passesSelector machine.session address path.memory then
    let some map := machine.session.source | throw .missingMember
    let some pc := path.gates.callback.pcs.head? | throw .outOfRange
    let location ← map.locationAt pc
    changesChecked path.gates.callback.variableNames (.ofLocation location)
      (map.safeCalls.map fun call => (.ofLocation call.1, call.2))
  else
    return false

end Callback

structure ProblemPcs where
  proxy : List Int := []
  burn : List Word := []
  reentrancy : List Int := []
  unlimited : List Int := []
  violation : List Int := []
  invalidApproval : List Int := []
  followsCallbacks : Bool := false
  deriving Repr, Inhabited

def ProblemPcs.members (problems : ProblemPcs) : List (String × List Word) :=
  let table : List (String × List Word) :=
    [("proxy_defect", problems.proxy.map .integer), ("burn_defect", problems.burn),
      ("reentrancy_defect", problems.reentrancy.map .integer),
      ("unlimited_minting_defect", problems.unlimited.map .integer),
      ("violation_defect", problems.violation.map .integer),
      ("invalid_approval_defect", problems.invalidApproval.map .integer)]
  table.filter fun entry => !entry.2.isEmpty

structure Observation where
  machine : Machine
  problems : ProblemPcs := {}
  deriving Inhabited

abbrev Observe := EStateM Fault Observation

namespace TokenCalls

structure Context where
  decider : Decider
  roles : SlotRoles
  function : String

def onMachine (action : Exec α) : Observe α := fun observation =>
  match action.run observation.machine with
  | .ok result machine => .ok result { observation with machine := machine }
  | .error fault machine => .error fault { observation with machine := machine }

def lift (result : Except Fault α) : Observe α :=
  match result with
  | .ok value => pure value
  | .error fault => throw fault

def path : Observe Path := return (← get).machine.path

def gates : Observe Gates := return (← path).gates

def modifyGates (change : Gates → Gates) : Observe Unit :=
  onMachine (Exec.modifyPath fun path => { path with gates := change path.gates })

def modifyProblems (change : ProblemPcs → ProblemPcs) : Observe Unit :=
  modify fun observation => { observation with problems := change observation.problems }

def operand (depth : Nat) : Observe Word := do
  match (← path).stack[depth]? with
  | some word => return word
  | none => throw .outOfRange

def isAt (positions : List Int) (word : Word) : Observe Bool :=
  lift (word.memberOf (positions.map .integer))

def conditionTerms : Observe (List Term) :=
  return (← path).conditions.filterMap Word.term?

def conditionNames : Observe (List String) :=
  return (← conditionTerms).flatMap Term.names

def asserted : Word → Except Fault Term
  | .truth value => .ok (.truth value)
  | .term value => if value.kind = .condition then .ok value else .error .illSorted
  | _ => .error .illSorted

def assertedPath : Observe (List Term) := do
  lift ((← path).conditions.mapM asserted)

def symbol (name : String) : Term :=
  .symbol name Word.size

def symbolsOf (word : Word) : Except Fault (List Word) :=
  match word with
  | .term value => .ok (value.symbols.map fun entry => .term (.symbol entry.1 entry.2))
  | _ => .error .notATerm

def mintSees (context : Context) (value : Word) : Observe Unit := do
  if (← gates).mint.trigger then
    if ← isAt context.roles.owners value then
      modifyGates fun gates => { gates with mint := { gates.mint with secondStored := true } }

def approveSees (context : Context) (value : Word) : Observe Unit := do
  let gate := (← gates).approve
  if gate.trigger then
    if ← lift (value.same gate.token) then
      modifyGates fun gates => { gates with approve := { gates.approve with firstStored := true } }
    else if ← isAt context.roles.owners value then
      modifyGates fun gates => { gates with approve := { gates.approve with ownerStored := true } }

def burnSees (context : Context) (value : Word) : Observe Unit := do
  let gate := (← gates).burn
  if gate.trigger then
    if ← lift (value.same gate.token) then
      modifyGates fun gates => { gates with burn := { gates.burn with firstStored := true } }
    else if ← isAt context.roles.owners value then
      modifyGates fun gates => { gates with burn := { gates.burn with secondStored := true } }

def operatorSees (context : Context) (value : Word) : Observe Unit := do
  let gate := (← gates).operator
  if gate.trigger then
    if Text.contains value.render Names.caller then
      modifyGates fun gates => { gates with operator := { gates.operator with firstStored := true } }
    else if ← isAt context.roles.approvals value then
      modifyGates fun gates => { gates with operator := { gates.operator with secondStored := true } }
    else if Text.contains value.render gate.operator.render then
      modifyGates fun gates => { gates with operator := { gates.operator with thirdStored := true } }

def writeMemory (context : Context) : Observe Unit := do
  let address ← operand 0
  let value ← operand 1
  if address.isConcrete then
    mintSees context value
    approveSees context value
    burnSees context value
    operatorSees context value

def setsProxy (function : String) : Bool :=
  let name := Text.upper function
  !Text.contains name "ACTIVE" && !Text.contains name "START" && Text.contains name "SETPROXY"

def storageWord (position : Word) (storage : Table Key Word) : Except Fault Word :=
  Callback.memoryWord position storage

def checkProxy (context : Context) (position value : Word) : Observe Unit := do
  if (← get).machine.session.source.isSome then
    if (← isAt context.roles.proxies position) && !context.function.isEmpty && setsProxy context.function then
      let old ← lift (storageWord position (← path).storage)
      let different ← lift (do (← old.differ value).toTerm)
      if context.decider [different] = .satisfiable then
        let pc := (← path).pc
        modifyProblems fun problems => { problems with proxy := problems.proxy ++ [pc] }

def mintFlaws (gate : MintGate) (names : List String) : List Term :=
  names.filterMap fun name =>
    if gate.recipient.render = name then
      some (.binary .eq (symbol name) (.literal Word.size 0))
    else if Renaming.isStorage name && Text.contains name gate.hash.render then
      some (.binary .ne (symbol name) (.literal Word.size 0))
    else
      none

def namesOwner : SlotEntry → Except Fault Bool
  | .named name => .ok (Text.contains (Text.lower name) "owner")
  | .typed .. => .error .missingMember

def checksOf (roles : SlotRoles) : Bool × Bool → List String → Except Fault (Bool × Bool)
  | checks, [] => .ok checks
  | (owner, supply), name :: rest => do
      if Renaming.isStorage name then
        let position ← Renaming.storagePosition name
        let variableName ← Renaming.storageVariable name
        let number? : Option Int := match position with
          | .number value => some value
          | .label _ => none
        let here ←
          if variableName.isEmpty then do
            let entries := (number?.bind fun number => Table.get? number roles.entries).getD []
            let named ← entries.mapM namesOwner
            pure (named.any id)
          else
            pure (Text.contains variableName "owner")
        let limits := number?.any fun number => roles.supplies.contains number
        checksOf roles (owner || here, supply || limits) rest
      else
        checksOf roles (owner, supply) rest

def endMint (context : Context) (position value : Word) : Observe Unit := do
  if ← lift ((← gates).mint.hash.same position) then
    let symbols ← lift (symbolsOf value)
    if ← lift ((← gates).mint.recipient.memberOf symbols) then
      modifyGates fun gates => { gates with mint := { gates.mint with valid := true, trigger := false } }
      let names ← conditionNames
      let conditions ← assertedPath
      let flaws := mintFlaws (← gates).mint names
      if context.decider (conditions ++ flaws) = .satisfiable then
        let pcs := (← gates).violation.mintPcs
        modifyProblems fun problems => { problems with violation := problems.violation ++ pcs }
      let (owner, supply) ← lift (checksOf context.roles (false, false) names)
      if !supply && owner && !(← gates).supply.check then
        let pcs := (← gates).supply.pcs
        modifyProblems fun problems => { problems with unlimited := problems.unlimited ++ pcs }

def refuted (context : Context) (op : BinaryOp) (conditions : List Term) (name : String) (recipient : Word) :
    Except Fault Bool := do
  let equation ← Word.equateTerm op (symbol name) recipient
  return context.decider (conditions ++ [equation]) ≠ .satisfiable

def approvalChecks (context : Context) (gate : ApproveGate) (conditions : List Term) :
    Bool × Bool → List String → Except Fault (Bool × Bool)
  | checks, [] => .ok checks
  | (receiver, caller), name :: rest => do
      if Renaming.isStorage name then
        if gate.ownerHash ≠ .absent && Text.contains name gate.ownerHash.render then
          let excluded ← refuted context .eq conditions name gate.recipient
          approvalChecks context gate conditions (receiver || excluded, caller) rest
        else
          approvalChecks context gate conditions (receiver, caller) rest
      else if name = Names.caller then
        let excluded ← refuted context .ne conditions name gate.recipient
        approvalChecks context gate conditions (receiver, caller || excluded) rest
      else
        approvalChecks context gate conditions (receiver, caller) rest

def reportInvalidApprovals : Observe Unit := do
  match (← gates).invalidApprovalPcs with
  | some pcs => modifyProblems fun problems => { problems with invalidApproval := problems.invalidApproval ++ pcs }
  | none => throw .missingKey

def endApproval (context : Context) (position value : Word) : Observe Unit := do
  if ← lift ((← gates).approve.hash.same position) then
    let symbols ← lift (symbolsOf value)
    if ← lift ((← gates).approve.recipient.memberOf symbols) then
      modifyGates fun gates => { gates with approve := { gates.approve with valid := true, trigger := false } }
      let gate := (← gates).approve
      let conditions ← assertedPath
      let (receiver, caller) ← lift (approvalChecks context gate conditions (false, false) (← conditionNames))
      if !(receiver && caller) then
        let pcs := (← gates).violation.approvePcs
        modifyProblems fun problems => { problems with violation := problems.violation ++ pcs }
      let minted := (← gates).mint.recipient
      if gate.recipient ≠ .absent && minted ≠ .absent then
        if ← lift (gate.recipient.same minted) then
          reportInvalidApprovals
      if minted.render = Names.contract then
        reportInvalidApprovals

def endBurn (position : Word) : Observe Unit := do
  let gate := (← gates).burn
  if gate.valid then
    if ← lift (gate.hash.same position) then
      if !(← conditionNames).contains Names.caller then
        modifyProblems fun problems => { problems with burn := problems.burn ++ [gate.pc] }

def writeStorage (context : Context) : Observe Unit := do
  let position ← operand 0
  let value ← operand 1
  checkProxy context position value
  endMint context position value
  endApproval context position value
  endBurn position

def push (name : String) : Observe Unit := do
  if (Instruction.numberAfter "PUSH" name).isNone then
    throw .wrongValue
  let machine := (← get).machine
  let some map := machine.session.source | throw .missingMember
  let pc := machine.path.pc
  if Text.startsWith (Text.strip (← lift (map.codeAt pc))) "_safeMint" then
    match Table.get? (pc - 4) machine.session.graph.instructions with
    | some line =>
      if Text.startsWith (← lift (map.codeAt (pc - 4))) "for" then
        let value ← lift (Instruction.operand line)
        modifyGates fun gates => { gates with callback := { gates.callback with key := .integer value } }
    | none => pure ()

def noteChecked (context : Context) (name : String) : Observe Unit := do
  if Renaming.isStorage name then
    let position ← lift (Renaming.storagePosition name)
    let variableName ← lift (Renaming.storageVariable name)
    match Table.get? position (← path).storage with
    | some stored =>
      let unchanged ← lift (do ((← (Word.term (symbol name)).equal stored)).toTerm)
      if context.decider [unchanged] ≠ .unsatisfiable then
        modifyGates fun gates =>
          { gates with callback := { gates.callback with variableNames := gates.callback.variableNames ++ [variableName] } }
    | none => pure ()

def beginCallback (context : Context) : Observe Unit := do
  let pc := (← path).pc
  modifyGates fun gates =>
    { gates with
      supply := { gates.supply with pcs := gates.supply.pcs ++ [pc] }
      callback := { gates.callback with pcs := gates.callback.pcs ++ [pc] } }
  modifyProblems fun problems =>
    if problems.followsCallbacks then { problems with reentrancy := problems.reentrancy ++ [pc] } else problems
  for name in ← conditionNames do
    noteChecked context name

def beginMint : Observe Unit := do
  modifyGates fun gates => { gates with mint := { gates.mint with trigger := true } }
  let recipient ← operand 2
  modifyGates fun gates => { gates with mint := { gates.mint with recipient := recipient } }
  let token ← operand 1
  let pc := (← path).pc
  modifyGates fun gates =>
    { gates with
      mint := { gates.mint with token := token, quantity := token }
      violation := { gates.violation with mintPcs := gates.violation.mintPcs ++ [pc] } }
  if (← conditionNames).any fun name => Text.contains name token.render then
    modifyGates fun gates => { gates with supply := { gates.supply with check := true } }

def noteApproval : Observe Unit := do
  let pc := (← path).pc
  match (← gates).invalidApprovalPcs with
  | some pcs => modifyGates fun gates => { gates with invalidApprovalPcs := some (pcs ++ [pc]) }
  | none => throw .missingKey

def beginApproval : Observe Unit := do
  modifyGates fun gates => { gates with approve := { gates.approve with trigger := true } }
  let recipient ← operand 2
  modifyGates fun gates => { gates with approve := { gates.approve with recipient := recipient } }
  let token ← operand 1
  let pc := (← path).pc
  modifyGates fun gates =>
    { gates with
      approve := { gates.approve with token := token }
      violation := { gates.violation with approvePcs := gates.violation.approvePcs ++ [pc] } }
  noteApproval

def beginOperator : Observe Unit := do
  modifyGates fun gates => { gates with operator := { gates.operator with trigger := true } }
  let operator ← operand 2
  modifyGates fun gates => { gates with operator := { gates.operator with operator := operator } }
  let approved ← operand 1
  let pc := (← path).pc
  modifyGates fun gates =>
    { gates with
      operator := { gates.operator with approved := approved }
      violation := { gates.violation with operatorPcs := gates.violation.operatorPcs ++ [pc] } }
  noteApproval

def beginBurn : Observe Unit := do
  modifyGates fun gates => { gates with burn := { gates.burn with trigger := true } }
  let token ← operand 1
  let pc := (← path).pc
  modifyGates fun gates => { gates with burn := { gates.burn with token := token, pc := .integer pc } }

def jump (context : Context) : Observe Unit := do
  match (← get).machine.session.source with
  | none => pure ()
  | some map =>
    let text ← lift (map.codeAt (← path).pc)
    let calls := Text.startsWith text
    if map.calls.contains text then
      if calls "_safeMint" || calls "safeTransferFrom" then
        beginCallback context
      if !context.function.isEmpty then
        if calls "_mint" || calls "_safeMint" then
          beginMint
        else if calls "approve" then
          beginApproval
        else if calls "setApprovalForAll" then
          beginOperator
        else if calls "_burn" then
          beginBurn

def callOut : Observe Unit := do
  let pcs := (← gates).callback.pcs
  if !pcs.isEmpty then
    if ← lift (Callback.reenters (← get).machine) then
      modifyProblems fun problems => { problems with reentrancy := pcs, followsCallbacks := true }

def observe (context : Context) (name : String) : Observe Unit := do
  onMachine (Gas.pay context.decider name)
  if name = "MSTORE" then
    writeMemory context
  else if name = "SSTORE" then
    writeStorage context
  else if Text.startsWith name "PUSH" then
    push name
  else if name = "JUMP" then
    jump context
  else if name = "CALL" then
    callOut

end TokenCalls

end MintAudit
