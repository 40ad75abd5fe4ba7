import MintAudit.Explore.Run
import MintAudit.Project.Inputs
import MintAudit.Workload.Words

namespace MintAudit

/-!
# Workloads on trees and on the machine

Instructions that are executed one by one on one machine, each on a stack of its own at the start of the code.
-/

/-! ## Walking syntax trees -/

namespace Workload.Trees

def object (members : List (String × Json)) : Json := .object members

def place : Json := .string "0:3:0"

def callee : Json := object [("name", .string "_safeMint"), ("src", .string "1:1:0")]

def call (index : Nat) : Json :=
  object [("nodeType", .string "FunctionCall"), ("id", .integer index), ("src", place), ("expression", callee)]

def minting : Json :=
  object [("nodeType", .string "FunctionDefinition"), ("body", object
    [("statements", .array [
      object [("nodeType", .string "ExpressionStatement"), ("expression", object
        [("nodeType", .string "FunctionCall"), ("expression", callee)])],
      object [("nodeType", .string "ExpressionStatement"), ("expression", object
        [("nodeType", .string "Assignment"), ("leftHandSide", object [("name", .string "x")])])]])])]

def contract (nodes : List Json) : Json :=
  object [("nodeType", .string "ContractDefinition"), ("name", .string "C"), ("nodes", .array nodes)]

def current (size : Nat) : Json := contract ((List.range size).map call ++ [minting])

def legacy (size : Nat) : Json :=
  object [("name", .string "SourceUnit"), ("children", .array ((List.range size).map fun (index : Nat) =>
    object [("name", .string "FunctionCall"), ("id", .integer index), ("src", place),
      ("attributes", object [("type", .string "call")])]))]

def mints (size : Nat) : Json := contract (List.replicate (max 1 (size / 50)) minting)

def walk (dialect : Dialect) (patterns : List Attributes) (tree : Json) : Recording Int :=
  Recording.items .walk .ofJson (.ok (Walk.outermost dialect patterns tree).nodes)

def currentCall : Attributes := [("nodeType", .string "FunctionCall")]

def legacyCall : Attributes := [("name", .string "FunctionCall")]

def run (size : Nat) : Trial :=
  Trial.ofTotal do
    let one ← walk .current [currentCall] (current size)
    let several ← walk .current [currentCall, [("nodeType", .string "EmitStatement")]] (current size)
    let changes ← Recording.items .safeMintChanges
      (fun entry => .list [.list [.ofJson entry.1, .list (entry.2.map Outcome.ofJson)]])
      (.ok (SafeMint.changes (mints size)).entries)
    Recording.note .fits (.ofExcept .flag (Walk.fits .current [currentCall] (call 0)))
    discard (Recording.items .names .ofJson (.ok (Walk.names (current size))))
    let oneLegacy ← walk .legacy [legacyCall] (legacy size)
    let severalLegacy ← walk .legacy [legacyCall, [("name", .string "EmitStatement")]] (legacy size)
    return one + several + changes + oneLegacy + severalLegacy

end Workload.Trees

/-! ## Finding owners and transfers -/

namespace Workload.Owners

open Trees

def contractName : String := "fake.sol:Fake"

def description (contract : Json) : Json :=
  object [("contractsByName", object [(contractName, contract)])]

def ownerOf : Json :=
  object [("nodeType", .string "FunctionDefinition"), ("name", .string "ownerOf"), ("body", object
    [("statements", .array [object [("nodeType", .string "Return"), ("expression", object
      [("name", .string "tokenOwner")])]])])]

def mint (index : Nat) : Json :=
  object [("nodeType", .string "FunctionDefinition"), ("name", .string ("mint" ++ toString index)),
    ("functionSelector", .string (Text.hexDigits 8 (0x1000 + index))), ("body", object
      [("statements", .array [object [("nodeType", .string "EmitStatement"), ("eventCall", object
        [("nodeType", .string "FunctionCall"), ("expression", object [("name", .string "Transfer")])])]])])]

def current (size : Nat) : Json :=
  description (object [("nodeType", .string "ContractDefinition"), ("name", .string "Fake"),
    ("nodes", .array (ownerOf :: (List.range size).map mint))])

def legacyNode (name : String) (attributes : List (String × Json)) (children : List Json) : Json :=
  object [("name", .string name), ("attributes", object attributes), ("children", .array children)]

def identifier (name : String) : Json := legacyNode "Identifier" [("value", .string name)] []

def ownerOfLegacy : Json :=
  legacyNode "FunctionDefinition" [("name", .string "ownerOf")]
    [legacyNode "Block" [] [legacyNode "Return" [] [identifier "tokenOwner"]]]

def burn (index : Nat) : Json :=
  legacyNode "FunctionDefinition" [("name", .string ("burn" ++ toString index))]
    [legacyNode "Block" [] [legacyNode "EmitStatement" []
      [legacyNode "FunctionCall" [("type", .string "tuple()")] [identifier "Transfer"]]]]

def legacy (size : Nat) : Json :=
  description (legacyNode "ContractDefinition" [("name", .string "Fake")]
    (ownerOfLegacy :: (List.range (max 1 (size / 2))).map burn))

def returned (action : Action) (dialect : Dialect) (content : Json) : Recording Outcome := do
  let outcome := Outcome.ofExcept (fun statement => (statement.map Outcome.text).getD .nothing)
    (Owner.returnStatement? dialect content)
  Recording.note action outcome
  return outcome

def emitters (action : Action) (dialect : Dialect) (content : Json) : Recording Int :=
  Recording.items action (fun entry => .list [.ofJson entry.1, .ofJson entry.2])
    (TransferFunctions.find dialect contractName content)

def run (size : Nat) : Trial :=
  Trial.ofRecording do
    let statement ← returned .returnStatement .current (current size)
    let functions ← emitters .transferFunctions .current (current size)
    let statementLegacy ← returned .returnStatementLegacy .legacy (legacy size)
    let functionsLegacy ← emitters .transferFunctionsLegacy .legacy (legacy size)
    let variableName := Outcome.ofExcept .ofJson (Owner.variableName (current size))
    Recording.note .ownerVariable variableName
    return .ok (.list [statement, .number functions, statementLegacy, .number functionsLegacy, variableName])

end Workload.Owners

/-! ## Source maps and layouts -/

namespace Workload.Maps

def object (members : List (String × Json)) : Json := .object members

def file : String := "<tmp>/fake.sol"

def contract : String := file ++ ":Fake"

def content : String := "pragma solidity ^0.8.16;\ncontract Fake \x7b\x7d\n"

def place : String := "5:3:0"

def stateVariables : List (String × String × Bool) :=
  [("_owner", "address", false), ("_approvals", "mapping(uint256 => address)", false), ("maxSupply", "uint256", false),
    ("proxyRegistry", "address", false), ("flag", "bool", false), ("name", "string", false), ("raw", "bytes", false),
    ("constId", "uint256", true), ("sig8", "bytes8", false), ("rec", "struct S", false), ("arr", "uint256[]", false),
    ("c_owner", "address", false), ("tokenCounter", "uint256", false), ("operator", "address", false)]

def firstId : Nat := 100

def declaration (index : Nat) (var : String × String × Bool) : Json :=
  object [("nodeType", .string "VariableDeclaration"), ("id", .integer (firstId + index)), ("name", .string var.1),
    ("constant", .bool var.2.2), ("mutability", .string (if var.2.2 then "immutable" else "mutable")),
    ("typeDescriptions", object [("typeString", .string var.2.1)]),
    ("typeName", object [("nodeType", .string "ElementaryTypeName")])]

def parameterList (parameters : List (String × String)) : Json :=
  object [("nodeType", .string "ParameterList"), ("parameters", .array (parameters.map fun parameter =>
    object [("nodeType", .string "VariableDeclaration"), ("name", .string parameter.1),
      ("typeName", object [("nodeType", .string parameter.2)])]))]

def function (id : Nat) (name : String) (parameters : List (String × String)) (statements : List Json) : Json :=
  object [("nodeType", .string "FunctionDefinition"), ("id", .integer id), ("name", .string name),
    ("parameters", parameterList parameters), ("returnParameters", parameterList []),
    ("body", object [("nodeType", .string "Block"), ("statements", .array statements)])]

def call (callee : Json) : Json :=
  object [("nodeType", .string "FunctionCall"), ("src", .string place), ("expression", callee)]

def transferFrom : Json :=
  function 50 "transferFrom"
    [("from", "ElementaryTypeName"), ("to", "ElementaryTypeName"), ("ids", "ArrayTypeName")]
    [object [("nodeType", .string "ExpressionStatement"), ("src", .string place), ("expression",
        call (object [("name", .string "_safeMint"), ("src", .string place)]))],
      object [("nodeType", .string "ExpressionStatement"), ("expression", object
        [("nodeType", .string "Assignment"), ("leftHandSide", object [("name", .string "x")]),
          ("rightHandSide", object [("name", .string "y")])])],
      object [("nodeType", .string "EmitStatement"), ("eventCall", call (object [("name", .string "Transfer")]))]]

def ownerOf : Json :=
  function 51 "ownerOf" [] [object [("nodeType", .string "Return"), ("expression", object [("name", .string "owner")])]]

def definition (size : Nat) : Json :=
  let declared := (stateVariables.take size).mapIdx declaration
  object [("nodeType", .string "ContractDefinition"), ("id", .integer 1), ("name", .string "Fake"),
    ("linearizedBaseContracts", .array [.integer 1]), ("nodes", .array (declared ++ [transferFrom, ownerOf]))]

def told (value : Json) : Json := object [("contracts", object [(contract, value)])]

def tree (definition : Json) : Json :=
  object [("sources", object [(file, object [("AST", definition)])])]

def instruction (name : String) : Json :=
  object [("name", .string name), ("begin", .integer 0), ("end", .integer 10)]

def code : Json :=
  let inner := object [(".code", .array [instruction "JUMPDEST"])]
  object [("asm", object [(".data", object [("0", object [(".code", .array [instruction "PUSH1", instruction "STOP"]),
    (".data", object [("0", inner)])])])])]

def compiler (definition : Json) (size : Nat) : Json :=
  let slots := (List.range (min size stateVariables.length)).map fun (index : Nat) =>
    object [("astId", .integer (firstId + index)), ("slot", .string (toString index))]
  object [("ast", tree definition),
    ("storage-layout", told (object [("storage-layout", object [("storage", .array slots)])])), ("asm", told code),
    ("hashes", told (object [("hashes", object [("f()", .string "aaaa")])]))]

def project (definition : Json) (size : Nat) : Project :=
  { workspace := Workspace.withFile file content { programs := [("solc", compiler definition size)] } }

def legacyNode (name : String) (attributes : List (String × Json)) (children : List Json) : Json :=
  object [("name", .string name), ("attributes", object attributes), ("children", .array children)]

def legacyPlaced (name : String) (attributes : List (String × Json)) (children : List Json) : Json :=
  object [("name", .string name), ("src", .string place), ("attributes", object attributes),
    ("children", .array children)]

def legacyParameter (name type : String) (parts : List Json) : Json :=
  legacyNode "VariableDeclaration" [("name", .string name)] [legacyNode type [] parts]

def legacyDefinition : Json :=
  object [("name", .string "ContractDefinition"), ("id", .integer 1),
    ("attributes", object [("name", .string "Fake"), ("linearizedBaseContracts", .array [.integer 1])]),
    ("children", .array [
      legacyNode "VariableDeclaration" [("name", .string "v0")] [],
      legacyNode "FunctionDefinition" [("name", .string "transferFrom")] [
        legacyNode "ParameterList" [] [legacyParameter "a" "ElementaryTypeName" [],
          legacyParameter "ids" "ArrayTypeName" [legacyNode "Literal" [("value", .string "3")] []]],
        legacyNode "Block" [] [legacyPlaced "FunctionCall" [] [legacyPlaced "MemberAccess"
          [("member_name", .string "call")] [legacyNode "Identifier" [("type", .string "contract Fake")] []]]]]])]

def parametersShown (table : Table Json (List DeclaredParameter)) : Outcome :=
  let one (parameter : DeclaredParameter) : Outcome :=
    .table ([("name", .ofJson parameter.name), ("type", .ofJson parameter.type)]
      ++ (parameter.size.map fun size => ("value", Outcome.number size)).toList)
  .pairs (table.map fun entry => (.ofJson entry.1, .list (entry.2.map one)))

def nodesShown (table : Table String (List Json)) : Outcome :=
  .table (table.map fun entry => (entry.1, .list (entry.2.map Outcome.ofJson)))

def locationShown (location : Location) : Outcome :=
  let point (place : Option LineColumn) : Outcome :=
    (place.map fun place =>
      Outcome.table [("line", .number place.line), ("column", .number place.column)]).getD .nothing
  .table [("begin", point location.first), ("end", point location.last)]

def calleesShown (pairs : List (String × Json)) : Outcome :=
  .list (pairs.map fun pair => .list [.text pair.1, .ofJson pair.2])

def askContracts (description : Description) : Recording Unit := do
  let contracts := description.contracts
  let note {α : Type} (action : Action) (write : α → Outcome) (result : Except Fault α) : Recording Unit :=
    Recording.note action (.ofExcept write result)
  let values (items : List Json) : Outcome := .list (items.map Outcome.ofJson)
  if contracts.dialect = .legacy then
    Recording.note .contracts (.table [
      ("contractsById", .pairs (contracts.byId.map fun entry => (.ofJson entry.1, .ofJson entry.2))),
      ("contractsByName", .table (contracts.byName.map fun entry => (entry.1, .ofJson entry.2))),
      ("sourcesByContract", .pairs (contracts.files.map fun entry => (.ofJson entry.1, .text entry.2)))])
  note .allStateVariables nodesShown contracts.allStateVariables
  note .allCalls nodesShown contracts.allCalls
  note .variableNames values (contracts.variableNames contract)
  note .callPlaces values (contracts.callPlaces contract)
  note .callees calleesShown (contracts.callees contract)
  note .parameters parametersShown (contracts.parameters contract)
  if contracts.dialect = .current then
    note .allStoragePositions (fun table => .table (table.map fun entry =>
        (entry.1, .pairs (entry.2.map fun slot => (.ofJson slot.1, .ofJson slot.2)))))
      (contracts.allStoragePositions description.layouts)
    note .safeMints (fun changes => .list (changes.map fun change =>
      .pairs [(.ofJson change.1, values change.2)])) (contracts.safeMints contract)
  Recording.note .contractPath (.text (Contracts.pathOf (Table.keys contracts.byName) "Fake"))
  Recording.note .contractPath (.text (Contracts.pathOf (Table.keys contracts.byName) "Missing"))

def placed (map : SourceMap) : SourceMap :=
  { map with places := [(0, ⟨none, none, some 5, some 15⟩)] }

def codeQuestions (map : SourceMap) : Recording Int := do
  let known ← Recording.text .codeAt (map.codeAt 0)
  let unknown ← Recording.text .codeAt (map.codeAt 99)
  return known + unknown

def lineQuestions (map : SourceMap) : Recording Unit := do
  discard (Recording.text .lineAt (map.lineAt 0))
  discard (Recording.text .lineAt (map.lineAt 99))
  discard (Recording.text .lineOfSource (map.source.lineOfSource place))

def variableQuestions (map : SourceMap) : Recording Unit :=
  ["_owner", "unknown", "1 +"].forM fun expression =>
    Recording.note .knownVariable (((map.knownVariable? expression).map Outcome.text).getD .nothing)

def askCurrent (map : SourceMap) : Recording Int := do
  let codes ← codeQuestions map
  discard (Recording.text .codeOfSource (map.source.ofSource place))
  lineQuestions map
  Recording.note .locationAt (.ofExcept locationShown (map.locationAt 0))
  variableQuestions map
  return codes

def searchBounds (size : Nat) : Recording Int := do
  let bounds := (List.range ((40 * size + 2) / 3)).map fun (index : Nat) => (3 * index : Int)
  let array := bounds.toArray
  Recording.total bounds fun bound => do
    let first ← Recording.number .lowerBound (SourceText.lowerBound bound array)
    let second ← Recording.number .lowerBound (SourceText.lowerBound bound array)
    return first + second

def askLayout (layout : SlotMap) : Recording Int := do
  let places := layout.placed.map fun entry =>
    (entry.1, (entry.2.map Outcome.number).getD .nothing)
  let details (entry : StateVariable × Outcome) : List (String × Outcome) :=
    [("type", .text entry.1.type), ("constant", .ofJson entry.1.constant), ("mutability", .ofJson entry.1.mutability)]
  let byId (last : StateVariable × Outcome → List (String × Outcome)) : Outcome :=
    .pairs (places.map fun entry =>
      (.ofJson entry.1.id, .table [(entry.1.name, .table (details entry ++ last entry))]))
  let entries := Packing.entries layout.placed
  let entryShown : SlotEntry → Outcome
    | .named name => .text name
    | .typed name type => .table [(name, .text type)]
  let types := SlotMap.typesOf (layout.placed.map Prod.fst)
  Recording.note .placeVariables (.list [byId fun entry => [("slot_id", entry.2)],
    .pairs (entries.map fun entry => (.number entry.1, .list (entry.2.map entryShown))),
    .table (types.map fun entry => (entry.1, .text entry.2))])
  Recording.note .stateVariables (byId fun _ => [])
  let roles := layout.roles
  let counts ← [(Action.ownerSlots, roles.owners), (.approvalSlots, roles.approvals), (.supplySlots, roles.supplies),
    (.proxySlots, roles.proxies)].mapM fun (action, slots) =>
      Recording.items action .number (.ok slots)
  return 2 * (layout.placed.length + entries.length + counts.foldl (· + ·) 0) + types.length

def askLegacy (map : SourceMap) (description : Description) (places : List Json) : Recording Int := do
  let codes ← codeQuestions map
  lineQuestions map
  discard (Recording.text .codeOfSource (map.source.ofSource place))
  Recording.note .locationAt (.ofExcept locationShown (map.locationAt 0))
  Recording.note .locationOfSource (.ofExcept locationShown (map.source.locationOfSource place))
  variableQuestions { map with «variables» := ["_owner"] }
  Recording.note .mapSelectors (.table (map.functions.map fun entry => (entry.1, .text entry.2)))
  Recording.note .mapVariables
    (.ofExcept (fun names => .list (names.map Outcome.ofJson)) (description.contracts.variableNames contract))
  Recording.note .mapCalls (.texts map.calls)
  Recording.note .mapCallees (calleesShown map.callees)
  let one (parameter : Parameter) : Outcome :=
    .table ([("name", .text parameter.name), ("type", .text parameter.type)]
      ++ (parameter.value.map fun size => ("value", Outcome.number size)).toList
      ++ [("position", .number parameter.position)])
  Recording.note .mapParameters (.table (map.parameters.map fun entry => (entry.1, .list (entry.2.map one))))
  let kept ← Recording.items .mapPlaces .ofJson (.ok places)
  return codes + kept

def again (act : InProject α) : Nat → InProject α
  | 0 => act
  | rounds + 1 => do
      discard act
      again act rounds

structure Loaded where
  map : SourceMap
  description : Description
  layout : Option SlotMap
  places : List Json
  deriving Inhabited

def load (dialect : Dialect) (definition : Json) (size round : Nat) : Except Fault Loaded :=
  let query : Query := { file := file }
  let act : InProject Loaded := do
    let map ← SourceMap.load dialect query contract ""
    let places ← again (SourceMap.growPlaces query.kind contract) round
    let catalog := (← get).catalog
    let some description := catalog.description | throw .missingMember
    return { map := placed map, description := description, layout := catalog.slots, places := places }
  match act (project definition size) with
  | .ok loaded _ => .ok loaded
  | .error fault _ => .error fault

def run (size round : Nat) : Trial :=
  Trial.ofRecording do
    match load .current (definition size) size round, load .legacy legacyDefinition size round with
    | .ok current, .ok legacy => do
        let layout ← match current.layout with
          | some layout => askLayout layout
          | none => pure 0
        let codes ← askCurrent current.map
        let bounds ← searchBounds size
        askContracts current.description
        askContracts legacy.description
        let kept ← askLegacy legacy.map legacy.description legacy.places
        return .ok (.number (layout + codes + bounds + kept))
    | .error fault, _ => return .error fault
    | _, .error fault => return .error fault

end Workload.Maps

/-! ## Workloads on the machine -/

attribute [local instance (high)] instPowNat

namespace Workload.Steps

abbrev Concrete := String × List Int

def least : Int := -2 ^ (255 : Nat)

def concrete : List Concrete :=
  [("STOP", []), ("INVALID", []), ("ASSERTFAIL", []), ("ADD", [3, 5]), ("MUL", [3, 5]), ("SUB", [7, 2]), ("DIV", [8, 2]),
    ("DIV", [8, 0]), ("SDIV", [8, 2]), ("SDIV", [8, 0]), ("SDIV", [least, -1]), ("SDIV", [least, 3]), ("MOD", [7, 2]),
    ("MOD", [7, 0]), ("SMOD", [7, 2]), ("SMOD", [-8, 3]), ("SMOD", [7, 0]), ("ADDMOD", [5, 5, 3]), ("ADDMOD", [5, 5, 0]),
    ("MULMOD", [5, 5, 3]), ("MULMOD", [5, 5, 0]), ("EXP", [2, 10]), ("SIGNEXTEND", [1, 255]), ("SIGNEXTEND", [0, 1]),
    ("SIGNEXTEND", [32, 1]), ("LT", [1, 2]), ("LT", [2, 1]), ("GT", [2, 1]), ("GT", [1, 2]), ("SLT", [1, 2]),
    ("SLT", [2, 1]), ("SGT", [2, 1]), ("SGT", [1, 2]), ("EQ", [1, 1]), ("EQ", [1, 2]), ("ISZERO", [0]), ("ISZERO", [5]),
    ("AND", [5, 3]), ("OR", [5, 3]), ("XOR", [5, 3]), ("NOT", [5]), ("BYTE", [0, 255]), ("BYTE", [32, 255]),
    ("CALLDATACOPY", [0, 0, 32]), ("RETURNDATACOPY", [0, 0, 32]), ("POP", [1]), ("SSTORE", [1, 42]), ("MSTORE", [0, 7]),
    ("MLOAD", [0]), ("MSTORE8", [0, 7]), ("SLOAD", [1]), ("PC", []), ("MSIZE", []), ("JUMPDEST", []), ("PUSH1 0x10", []),
    ("PUSH4 0x23b872dd", []), ("PUSH20 0x0102030405060708091011121314151617181920", []), ("DUP1", [1]), ("DUP2", [1, 2]),
    ("SWAP1", [1, 2]), ("SWAP2", [1, 2, 3]), ("LOG0", [0, 0]), ("LOG1", [0, 0, 1]), ("LOG4", [0, 0, 1, 2, 3, 4]),
    ("CALL", [0, 1, 0, 0, 0, 0, 0]), ("CALLCODE", [0, 1, 0, 0, 0, 0, 0]), ("DELEGATECALL", [0, 1, 0, 0, 0, 0]),
    ("STATICCALL", [0, 1, 0, 0, 0, 0]), ("RETURN", [0, 0]), ("REVERT", [0, 0]), ("SHL", [4, 3]), ("SHR", [4, 3]),
    ("SAR", [4, 3]), ("SELFBALANCE", []), ("CHAINID", []), ("BASEFEE", [])]

def surroundings : List Concrete :=
  [("ADDRESS", []), ("BALANCE", [1]), ("CALLER", []), ("ORIGIN", []), ("CALLVALUE", []), ("CALLDATALOAD", [4]),
    ("CALLDATASIZE", []), ("CODESIZE", []), ("RETURNDATASIZE", []), ("GASPRICE", []), ("EXTCODESIZE", [1]),
    ("EXTCODECOPY", [1, 0, 0, 0]), ("BLOCKHASH", [1]), ("COINBASE", []), ("TIMESTAMP", []), ("NUMBER", []),
    ("DIFFICULTY", []), ("GASLIMIT", []), ("SLOAD", [3]), ("GAS", []), ("CREATE", [0, 0, 0]), ("CREATE2", [0, 0, 0]),
    ("SELFDESTRUCT", [1]), ("KECCAK256", [0, 32])]

def arithmetic : List (String × Int × Int) :=
  [("ADD", 3, 5), ("MUL", 3, 5), ("SUB", 7, 2), ("DIV", 8, 2), ("SDIV", 8, 2)]

abbrev Stacked := String × List Word

def stacked (line : Concrete) : Stacked := (line.1, line.2.map .integer)

def symbolic : List Stacked :=
  ("STOP", []) :: arithmetic.flatMap fun (name, left, right) =>
    [(name, [.integer left, .integer right]), (name, [.symbol "X", .integer right]),
      (name, [.integer left, .symbol "Y"])]

def code : String := String.join (List.replicate 8 "60806040")

def listing : String := "6000\n00000: STOP\n"

def machine : Machine :=
  { session := { (Explore.prepare listing (Explore.freshSession {} none (some code) listing)).session with
      clockStarted := true }
    path := { Path.initial with bytes := Array.replicate 64 (.integer 0) } }

def step (decider : Decider) (machine : Machine) (line : Stacked) : Recording (Machine × Int) := do
  let machine := { machine with path := { machine.path with stack := line.2, pc := 0 } }
  let after := match (Machine.step decider 0 "f" line.1).run machine with
    | .ok _ machine => machine
    | .error _ machine => machine
  Recording.note .step (.list [.text line.1, .list (after.path.stack.map .word)])
  return (after, after.path.stack.length)

def steps (decider : Decider) (lines : List Stacked) (machine : Machine) : Recording (Machine × Int) :=
  lines.foldlM (fun state line => do
    let (machine, count) ← step decider state.1 line
    return (machine, state.2 + count)) (machine, 0)

def cycled (lines : List Stacked) (size : Nat) : List Stacked :=
  (List.range size).filterMap fun index => lines[index % lines.length]?

def run (decider : Decider) (size : Nat) : Trial :=
  Trial.ofTotal do
    Recording.note .copyState (.thing .state)
    let (machine, sum) ← steps decider (cycled (concrete.map stacked) size) machine
    let (_, more) ← steps decider (surroundings.map stacked) machine
    return sum + more

def defects : List DefectKind := [.riskyProxy, .reentrancy, .unlimitedMinting, .violation, .publicBurn]

def runSymbolic (decider : Decider) (size : Nat) : Trial :=
  Trial.ofTotal do
    Recording.note .copyState (.thing .state)
    let (_, sum) ← steps decider (cycled symbolic size) machine
    Recording.note .dynamicDefects (.list (defects.map fun kind => .thing (.defect kind)))
    return sum

end Workload.Steps

/-! ## Observing instructions -/

namespace Workload.Analysis

open Steps

def priced : List Concrete :=
  [("LOG2", [0, 32, 1, 2]), ("EXP", [2, 10]), ("EXP", [2, 0]), ("EXTCODECOPY", [1, 0, 64, 0]),
    ("CALLDATACOPY", [0, 0, 0, 64]), ("SUICIDE", [1, 2]), ("SUICIDE", [1, 3]), ("CALL", [0, 1, 5, 0, 0, 0, 0]),
    ("CALL", [0, 1, 0, 0, 0, 0, 0]), ("SHA3", [0, 32]), ("KECCAK256", [0, 32]), ("MSTORE", [0, 1])]

def storing : List Concrete :=
  [("SSTORE", [0, 1]), ("SSTORE", [1, 0]), ("SSTORE", [2, 0]), ("SSTORE", [3, 0]), ("CALL", [0, 1, 0, 0, 0, 0, 0]),
    ("JUMP", [0, 1])]

def roles : SlotRoles := { owners := [], approvals := [], supplies := [], proxies := [], entries := [] }

def observe (decider : Decider) (observation : Observation) (line : Concrete) : Recording (Observation × Int) := do
  let machine := observation.machine
  let start := { observation with machine := { machine with path := { machine.path with stack := line.2.map .integer } } }
  let after := match (TokenCalls.observe ⟨decider, roles, "f"⟩ line.1).run start with
    | .ok _ observation => observation
    | .error _ observation => observation
  let gas := after.machine.path.gas
  Recording.note .observe (.list [.text line.1, .numbers [gas.total, gas.memory]])
  return (after, gas.total)

def observeAll (decider : Decider) (lines : List Concrete) (observation : Observation) : Recording (Observation × Int) :=
  lines.foldlM (fun state line => do
    let (observation, gas) ← observe decider state.1 line
    return (observation, state.2 + gas)) (observation, 0)

def quietCall (machine : Machine) : Machine :=
  { machine with path := { machine.path with
      stack := [0, 1, 0, 0, 4].map Word.integer
      memory := [(.number 0, .integer 1)] } }

def beginsAt (line : Int) : Callback.Start := ⟨.ok line, .ok 0⟩

def run (decider : Decider) (size : Nat) : Trial :=
  Trial.ofTotal do
    Recording.note .freshGas (.table [("gas", .number 0), ("gas_mem", .number 0)])
    let lines := (List.range size).filterMap fun index => priced[index % priced.length]?
    let start := { machine with path := { machine.path with memory := [] } }
    let (observation, sum) ← observeAll decider lines { machine := start }
    let path := observation.machine.path
    let cells := [(Key.number 0, Word.integer 0), (Key.number 32, Word.integer 0)]
    let filled := { observation.machine with path := { path with memory := cells } }
    let (observation, _) ← observeAll decider (storing ++ priced.take 10) { observation with machine := filled }
    Recording.note .reenters (.ofExcept .flag (Callback.reenters (quietCall observation.machine)))
    let calls := [(beginsAt 1, ["x"])]
    Recording.note .changesChecked (.ofExcept .flag (Callback.changesChecked ["x"] (beginsAt 1) calls))
    Recording.note .changesChecked (.ofExcept .flag (Callback.changesChecked ["x"] (beginsAt 2) calls))
    Recording.note .chooseFile .nothing
    return sum

end Workload.Analysis

/-! ## Exploring a contract -/

namespace Workload.Exploration

def dispatch : List String :=
  ["PUSH1 0x80", "PUSH1 0x40", "MSTORE", "PUSH1 0x00", "CALLDATALOAD", "PUSH1 0xe0", "SHR", "PUSH4 0x23b872dd", "EQ",
    "PUSH2 0x001a", "JUMPI"]

def giveUp : List String := ["PUSH1 0x00", "PUSH1 0x00", "REVERT"]

def entry : List String :=
  ["JUMPDEST", "PUSH1 0x04", "CALLDATALOAD", "PUSH1 0x24", "CALLDATALOAD", "PUSH1 0x44", "CALLDATALOAD", "DUP3", "CALLER",
    "EQ", "ISZERO", "PUSH1 0x01", "AND", "ISZERO", "ISZERO", "ISZERO", "PUSH2 0x0037", "JUMPI"]

def work : List String :=
  ["PUSH1 0x02", "PUSH1 0x03", "ADD", "PUSH1 0x00", "MSTORE", "PUSH1 0x00", "MLOAD", "PUSH1 0x07", "PUSH1 0x01", "SSTORE",
    "PUSH1 0x01", "SLOAD", "ADD"]

def event : List String :=
  ["PUSH1 0x03", "PUSH1 0x02", "PUSH1 0x01",
    "PUSH32 0xddf252ad1be2c89b69c2b068fc378daa952ba7f163c4a11628f55a4df523b3ef", "PUSH1 0x20", "PUSH1 0x00", "LOG4", "POP",
    "POP", "POP", "STOP"]

def code (size : Nat) : List String :=
  let body := (List.replicate (max 1 (size / work.length)) work).flatten
  dispatch ++ giveUp ++ entry ++ giveUp ++ ["JUMPDEST"] ++ body ++ event

def width (line : String) : Nat :=
  match Instruction.ofLine line with
  | .push count _ => (count.getD 0).toNat + 1
  | _ => 1

def linesFrom (address : Nat) : List String → List String
  | [] => []
  | line :: rest => (Text.hexDigits 5 address ++ ": " ++ line) :: linesFrom (address + width line) rest

def listing (size : Nat) : String :=
  "\n".intercalate ("6080604052" :: linesFrom 0 (code size)) ++ "\n"

def source : SourceMap :=
  { source := SourceText.ofString "\n", functions := [("23b872dd", "transferFrom(address,address,uint256)")] }

def shown (result : Report × Int) : Outcome :=
  .list [.ofJson (.object result.1.members), .number result.2]

def run (decider : Decider) (size : Nat) : Trial :=
  let listing := listing size
  let analysis := Explore.analyze decider none listing (Explore.freshSession {} (some source) none listing)
  match analysis.outcome, analysis.result with
  | some outcome, some result =>
    let count := outcome.session.graph.instructions.length
    let reported := ((Json.object result.1.members).textAt "instructions" "")
    { calls := [⟨.analyze, shown result⟩]
      result := .ok (.list [.number count, .text reported])
      session := some { outcome.session with trace := [], executed := 0 } }
  | _, _ => { calls := [⟨.analyze, .nothing⟩], result := .error (analysis.fault.getD .wrongKind) }

end Workload.Exploration

/-! ## Writing reports -/

namespace Workload.Reports

def dynamic : List (Action × DefectKind) :=
  [(.addViolation, .violation), (.addReentrancy, .reentrancy), (.addRiskyProxy, .riskyProxy),
    (.addUnlimitedMinting, .unlimitedMinting), (.addPublicBurn, .publicBurn)]

def defect (size : Nat) (kind : DefectKind) : Defect :=
  let lines := (List.range size).map fun (index : Nat) => (index : Int)
  { kind := kind
    pcs := lines
    warnings := some (lines.map fun line => Defect.wording "fake.sol" kind.title ⟨line, 0⟩ "bad line\nmore") }

def empty : Report :=
  { analysis := some (dynamic.map fun entry => (entry.2.label, .notes [])), flags := some [] }

def shown (report : Report) : Outcome :=
  .table (report.members.filterMap fun member =>
    if member.1 == "analysis" || member.1 == "bool_defect" then some (member.1, .ofJson member.2) else none)

def addAll (source : Option SourceMap) (size : Nat) (report : Report) : Recording Report :=
  dynamic.foldlM (fun report (action, kind) => do
    match ← Recording.call action shown (report.addDefect source (defect size kind)) with
    | .ok report => return report
    | .error _ => return report) report

def written : List DefectKind := dynamic.map Prod.snd ++ [.ownerInconsistency]

def noted : List Json := ["f:x", "g:y", "h:z"].map fun note => .array [.string note]

def run (size : Nat) : Trial :=
  Trial.ofTotal do
    let report ← addAll (some {}) size empty
    discard (addAll none size report)
    let texts ← Recording.total written fun kind => Recording.text .defectText (defect size kind).text
    let notes ← Recording.total noted fun note => Recording.text .defectText (NotedKind.text note)
    let found ← Recording.flag .isDefective (defect size .violation).isDefective
    let foundNotes ← Recording.total noted fun note => Recording.flag .isDefective note.isTrue
    let warnings ← Recording.items .warnings .text (defect size .violation).getWarnings
    return texts + notes + found + foundNotes + warnings

end Workload.Reports

end MintAudit
