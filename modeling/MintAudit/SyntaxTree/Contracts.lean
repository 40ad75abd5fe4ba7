import MintAudit.Json.Basic

namespace MintAudit

/-!
# Syntax trees and their contracts

The contracts of all files of a compilation, by number and by name, and what the analysis asks of them: the variables of a
contract and of those it inherits from, its calls, and the parameters of its functions.
-/

/-! ## Dialects of syntax trees -/

inductive Dialect where
  | legacy
  | current
  deriving DecidableEq, Repr, Inhabited

namespace Dialect

def ofLow (low : Bool) : Dialect :=
  if low then .legacy else .current

def partsOf : Dialect → String
  | legacy => "children"
  | current => "nodes"

def kindOf : Dialect → String
  | legacy => "name"
  | current => "nodeType"

def isFunction (dialect : Dialect) (node : Json) : Except Fault Bool := do
  return (← node.member dialect.kindOf).isText "FunctionDefinition"

def functionName (dialect : Dialect) (node : Json) : Except Fault Json :=
  match dialect with
  | legacy => node.follow ["attributes", "name"]
  | current => node.member "name"

def statements (dialect : Dialect) (node : Json) : Except Fault Json :=
  match dialect with
  | legacy => node.member "children"
  | current => node.follow ["body", "statements"]

def firstChildValue (node : Json) : Except Fault Json := do
  (← (← node.member "children").item 0).follow ["attributes", "value"]

def returnedName? (dialect : Dialect) (node : Json) : Option String :=
  let found : Except Fault Json := do
    if !(← node.member dialect.kindOf).isText "Return" then
      throw .wrongKind
    match dialect with
    | legacy => firstChildValue node
    | current => node.follow ["expression", "name"]
  match found with
  | .ok (.string name) => some name
  | _ => none

def emitsTransfer (dialect : Dialect) (node : Json) : Bool :=
  let name : Except Fault Json :=
    match dialect with
    | legacy => do
        if !(← node.member "name").isText "EmitStatement" then
          throw .wrongKind
        firstChildValue (← (← node.member "children").item 0)
    | current => node.follow ["eventCall", "expression", "name"]
  match name with
  | .ok name => name.isText "Transfer"
  | .error _ => false

def calledName? (dialect : Dialect) (node : Json) : Option Json :=
  let name : Except Fault Json := do
    if !(← node.member dialect.kindOf).isText "FunctionCall" then
      throw .wrongKind
    match dialect with
    | legacy => firstChildValue node
    | current => node.follow ["expression", "name"]
  name.toOption

end Dialect

/-! ## Walks through syntax trees -/

abbrev Attributes := List (String × Json)

structure Gathered where
  nodes : List Json := []
  fault : Option Fault := none
  deriving Inhabited

namespace Walk

def hasMembers (attributes : Attributes) (node : Json) : Bool :=
  match node with
  | .object members =>
    attributes.all fun wanted =>
      match Table.get? wanted.1 members with
      | some value => value == wanted.2
      | none => false
  | _ => false

mutual

def hasDetails : Json → Json → Except Fault Bool
  | .object members, node => hasEveryDetail members node
  | _, _ => .ok true

def hasEveryDetail : List (String × Json) → Json → Except Fault Bool
  | [], _ => .ok true
  | (name, wanted) :: rest, node => do
      if !(← node.holds name) then
        return false
      let value ← node.member name
      let fits ← if name == "attributes" then hasDetails wanted value else pure (value == wanted)
      if fits then
        hasEveryDetail rest node
      else
        return false

end

def fitsLegacy : List Attributes → Json → Except Fault Bool
  | [], _ => .ok false
  | attributes :: rest, node => do
      if ← hasEveryDetail attributes node then
        return true
      else
        fitsLegacy rest node

def fits (dialect : Dialect) (patterns : List Attributes) (node : Json) : Except Fault Bool :=
  match dialect with
  | .current => .ok (patterns.any fun attributes => hasMembers attributes node)
  | .legacy => fitsLegacy patterns node

def currentParts : Json → List (Except Fault Json)
  | .object members =>
    members.flatMap fun entry =>
      match entry.2 with
      | .array items => items.map .ok
      | .object inner => [.ok (.object inner)]
      | _ => []
  | .array items => items.map fun key => (Json.array items).part key
  | _ => []

def children (node : Json) : Except Fault (List Json) := do
  if !(← node.holds "children") then
    return []
  let found ← node.member "children"
  if found.isTrue then
    found.elements
  else
    return []

def parts (dialect : Dialect) (node : Json) : List (Except Fault Json) :=
  match dialect with
  | .current => currentParts node
  | .legacy =>
    match children node with
    | .ok found => found.map .ok
    | .error fault => [.error fault]

def gatherParts (visit : Json → Gathered) : List (Except Fault Json) → Gathered
  | [] => {}
  | .error fault :: _ => { fault := some fault }
  | .ok part :: rest =>
    let here := visit part
    match here.fault with
    | some _ => here
    | none =>
      let more := gatherParts visit rest
      { more with nodes := here.nodes ++ more.nodes }

def gather (dialect : Dialect) (patterns : List Attributes) : Nat → Json → Gathered
  | 0, _ => {}
  | depth + 1, node =>
    match fits dialect patterns node with
    | .error fault => { fault := some fault }
    | .ok true => { nodes := [node] }
    | .ok false => gatherParts (gather dialect patterns depth) (parts dialect node)

def outermost (dialect : Dialect) (patterns : List Attributes) (node : Json) : Gathered :=
  gather dialect patterns (node.depth + 1) node

def find (dialect : Dialect) (patterns : List Attributes) (node : Json) : Except Fault (List Json) :=
  let gathered := outermost dialect patterns node
  match gathered.fault with
  | some fault => .error fault
  | none => .ok gathered.nodes

mutual

def names : Json → List Json
  | .object members => (Table.get? "name" members).toList ++ namesOfMembers members
  | .array items => namesOfItems items
  | _ => []

def namesOfItems : List Json → List Json
  | [] => []
  | node :: rest => names node ++ namesOfItems rest

def namesOfMembers : List (String × Json) → List Json
  | [] => []
  | (_, node) :: rest => names node ++ namesOfMembers rest

end

end Walk

/-! ## Searching syntax trees -/

namespace Search

def namedItems (items : List Json) : List Json → List Json
  | [] => []
  | key :: rest =>
    match key.integer? with
    | some position =>
      match Sequence.at? items position with
      | some value => value :: namedItems items rest
      | none => []
    | none => []

def values : Json → List Json
  | .object members => members.map Prod.snd
  | .array items => namedItems items items
  | _ => []

def parts (node : Json) : List Json :=
  (values node).flatMap fun value =>
    match value with
    | .object members => [.object members]
    | .array items => items
    | _ => []

def level (test : Json → Option α) : List Json → List Json → Option α × List Json
  | [], waiting => (none, waiting)
  | node :: rest, waiting =>
    match test node with
    | some found => (some found, rest ++ waiting)
    | none => level test rest (waiting ++ parts node)

def levels (test : Json → Option α) : Nat → List Json → Option α × List Json
  | 0, queue => (none, queue)
  | depth + 1, queue =>
    match queue with
    | [] => (none, [])
    | queue =>
      match level test queue [] with
      | (some found, waiting) => (some found, waiting)
      | (none, waiting) => levels test depth waiting

def first (test : Json → Option α) (queue : List Json) : Option α × List Json :=
  levels test (Json.depthOfItems queue + 1) queue

def levelUntil (stop : Json → Bool) : List Json → List Json → List Json × Bool × List Json
  | [], waiting => ([], false, waiting)
  | node :: rest, waiting =>
    if stop node then
      ([], true, waiting)
    else
      let (passed, stopped, waiting) := levelUntil stop rest (waiting ++ parts node)
      (node :: passed, stopped, waiting)

def levelsUntil (stop : Json → Bool) : Nat → List Json → List Json × Bool
  | 0, _ => ([], false)
  | depth + 1, queue =>
    match queue with
    | [] => ([], false)
    | queue =>
      let (passed, stopped, waiting) := levelUntil stop queue []
      if stopped then
        (passed, true)
      else
        let (more, stopped) := levelsUntil stop depth waiting
        (passed ++ more, stopped)

def before (stop : Json → Bool) (queue : List Json) : List Json × Bool :=
  levelsUntil stop (Json.depthOfItems queue + 1) queue

end Search

/-! ## Owners in syntax trees -/

namespace Owner

def contracts (content : Json) : Except Fault Json :=
  content.member "contractsByName"

structure Progress where
  found : Option String := none
  waiting : List Json := []

def searchFunctions (dialect : Dialect) (name : String) : List Json → Progress → Except Fault Progress
  | [], progress => .ok progress
  | node :: rest, progress => do
      let mut progress := progress
      if ← dialect.isFunction node then
        if (← dialect.functionName node).isText name then
          match dialect.statements node with
          | .error _ => return ← searchFunctions dialect name rest progress
          | .ok statements =>
            let queue := progress.waiting ++ (← statements.elements)
            let (found, waiting) := Search.first dialect.returnedName? queue
            progress :=
              { found := found.orElse fun _ => progress.found
                waiting := if found.isSome then waiting else [] }
      if progress.found.isSome then
        return progress
      searchFunctions dialect name rest progress

def searchContracts (dialect : Dialect) (name : String) (table : Json) (progress : Progress) :
    Except Fault Progress := do
  (← table.elements).foldlM (fun progress contract =>
      match (table.part contract).bind (·.member dialect.partsOf) with
      | .error _ => .ok progress
      | .ok nodes => do searchFunctions dialect name (← nodes.elements) progress)
    progress

def returnStatement? (dialect : Dialect) (content : Json) : Except Fault (Option String) := do
  let table ← contracts content
  let progress ← ["ownerOf", "_ownerOf"].foldlM
    (fun progress name => searchContracts dialect name table { progress with waiting := [] })
    ({} : Progress)
  return progress.found.map ("return " ++ ·)

structure Trail where
  found : Json := .null
  waiting : List Json := []

def declaredOwner? (member : String) (statement : Json) : Option Json :=
  let found : Except Fault Json := do
    let callee ← statement.follow ["initialValue", "expression", member]
    if !(callee.isText "ownerOf" || callee.isText "_ownerOf") then
      throw .wrongKind
    (← (← statement.member "declarations").item 0).member "name"
  found.toOption

def searchStatements : List Json → Trail → Except Fault Trail
  | [], trail => .ok trail
  | statement :: rest, trail => do
      let mut trail := trail
      if ← statement.holds "expression" then
        let expression ← statement.member "expression"
        if (← expression.member "nodeType").isText "FunctionCall" then
          match expression.follow ["expression", "name"] with
          | .ok name => trail := { trail with waiting := trail.waiting ++ [name] }
          | .error _ => return trail
      if ← statement.holds "assignments" then
        for member in ["name", "memberName"] do
          if let some name := declaredOwner? member statement then
            trail := { trail with found := name }
      searchStatements rest trail

def searchNodes (name : Json) : List Json → Trail → Except Fault Trail
  | [], trail => .ok trail
  | node :: rest, trail => do
      if ← Dialect.current.isFunction node then
        if (← node.member "name") == name then
          match Dialect.current.statements node with
          | .error _ => return trail
          | .ok statements => return ← searchNodes name rest (← searchStatements (← statements.elements) trail)
      searchNodes name rest trail

def followNames (table : Json) (fuel : Nat) (visited : List Json) (trail : Trail) : Except Fault Json :=
  match fuel with
  | 0 => .ok trail.found
  | fuel + 1 =>
    match trail.waiting with
    | [] => .ok trail.found
    | name :: rest => do
        let trail := { trail with waiting := rest }
        if visited.contains name then
          followNames table fuel visited trail
        else
          let trail ← (← table.elements).foldlM
            (fun trail contract => do
              let nodes ← (← table.part contract).member "nodes"
              searchNodes name (← nodes.elements) trail)
            trail
          if trail.found.isNull then
            followNames table fuel (name :: visited) trail
          else
            return trail.found

def variableName (content : Json) : Except Fault Json := do
  let table ← contracts content
  -- Every statement of a visited function may add one name to those that wait.
  followNames table (table.count * (table.count + 3) + 3) []
    { waiting := [.string "transferFrom", .string "safeTransferFrom"] }

end Owner

/-! ## Functions that emit transfers -/

namespace TransferFunctions

abbrev Functions := Table Json Json

def asKey (value : Json) : Except Fault Json :=
  match value with
  | .array _ => .error .wrongKind
  | .object _ => .error .wrongKind
  | value => .ok value

def collect (dialect : Dialect) (nodes : List Json) : Except Fault Functions :=
  nodes.foldlM
    (fun functions node => do
      if ← dialect.isFunction node then
        return Table.put (← asKey (← dialect.functionName node)) node functions
      else
        return functions)
    []

def ofContract (dialect : Dialect) (contract : String) (content : Json) : Except Fault Functions := do
  let table ← Owner.contracts content
  (← table.elements).foldlM
    (fun functions name => do
      if name.isText contract then
        let nodes ← (← table.part name).member dialect.partsOf
        let more ← collect dialect (← nodes.elements)
        return more.foldl (fun functions entry => Table.put entry.1 entry.2 functions) functions
      else
        return functions)
    []

/-- Whether a function emits a transfer itself, and which functions it calls before. -/
def scan (dialect : Dialect) (statements : List Json) : Bool × List Json :=
  let (passed, emits) := Search.before dialect.emitsTransfer statements
  (emits, passed.filterMap dialect.calledName?)

inductive Reach where
  | never
  | entered
  | known
  deriving DecidableEq, Repr, Inhabited

/-- Follow calls until a transfer is emitted or a function is reached of which that is known; each function is
entered once. -/
def reaches (dialect : Dialect) (functions : Functions) (emitting : List Json) (fuel : Nat) (visited queue : List Json) :
    Except Fault Reach :=
  match queue with
  | [] => .ok .never
  | name :: rest => do
      if visited.contains name then
        reaches dialect functions emitting fuel visited rest
      else if emitting.contains name then
        return .known
      else
        match Table.get? (← asKey name) functions with
        | none => reaches dialect functions emitting fuel (name :: visited) rest
        | some node =>
          match _fuelLeft : fuel with
          | 0 => return .never
          | remaining + 1 =>
            match dialect.statements node with
            | .error _ => reaches dialect functions emitting remaining (name :: visited) rest
            | .ok statements =>
              let (emits, called) := scan dialect (← statements.elements)
              if emits then
                return .entered
              else
                reaches dialect functions emitting remaining (name :: visited) (rest ++ called)
termination_by (fuel, queue.length)

def selector? (dialect : Dialect) (node : Json) : Option Json :=
  match dialect with
  | .legacy => some (.string "")
  | .current => node.member? "functionSelector"

def find (dialect : Dialect) (contract : String) (content : Json) : Except Fault (Table Json Json) := do
  let functions ← ofContract dialect contract content
  let found ← functions.foldlM
    (fun (found : Table Json Json × List Json) entry => do
      match selector? dialect entry.2 with
      | none => return found
      | some selector =>
        match ← reaches dialect functions found.2 functions.length [] [entry.1] with
        | .never => return found
        | .entered => return (Table.put entry.1 selector found.1, entry.1 :: found.2)
        | .known => return (Table.put entry.1 selector found.1, found.2))
    ([], [])
  return found.1

end TransferFunctions

/-! ## Assignments behind a safe mint -/

structure SafeMintChanges where
  entries : List (Json × List Json) := []
  fault : Option Fault := none
  deriving Inhabited

namespace SafeMint

def isAssignment (statement : Json) : Except Fault Bool :=
  match statement with
  | .object members =>
    if ((Table.get? "nodeType" members).map (Json.isText "ExpressionStatement")).getD false then
      match Table.get? "expression" members with
      | none => .ok false
      | some (.object parts) => .ok (((Table.get? "nodeType" parts).map (Json.isText "Assignment")).getD false)
      | some _ => .error .missingMember
    else
      .ok false
  | _ => .error .missingMember

def mintPlace? (statement : Json) : Except Fault (Option Json) := do
  let mints ← Walk.find .current [[("name", .string "_safeMint")]] statement
  let _ ← Walk.find .current [[("name", .string "safeTransferFrom")]] statement
  let places ← mints.mapM (Json.member "src")
  return places.head?

def inStatements (place : Option Json) : List Json → SafeMintChanges
  | [] => {}
  | statement :: rest =>
    match place with
    | some mint =>
      match isAssignment statement with
      | .error fault => { fault := some fault }
      | .ok false => inStatements place rest
      | .ok true =>
        -- A list or an object cannot stand for the place.
        if mint.isNested then
          { fault := some .wrongKind }
        else
          let more := inStatements place rest
          { more with entries := (mint, Walk.names statement) :: more.entries }
    | none =>
      match mintPlace? statement with
      | .error fault => { fault := some fault }
      | .ok found => inStatements found rest

def statementsOf (function : Json) : Except Fault (Option (List Json)) :=
  match function.member? "body" with
  | none => .ok none
  | some (.object body) =>
    match Table.get? "statements" body with
    | none => .ok none
    | some statements => some <$> statements.elements
  | some _ => .error .missingMember

def inFunction (function : Json) : SafeMintChanges :=
  match statementsOf function with
  | .error fault => { fault := some fault }
  | .ok none => {}
  | .ok (some statements) => inStatements none statements

def inFunctions (earlier : List (Json × List Json)) : List Json → SafeMintChanges
  | [] => { entries := earlier }
  | function :: rest =>
    let here := inFunction function
    match here.fault with
    | some fault => { entries := if earlier.isEmpty then [] else earlier ++ here.entries, fault := some fault }
    | none => inFunctions (earlier ++ here.entries) rest

def changes (tree : Json) : SafeMintChanges :=
  match Walk.find .current [[("nodeType", .string "FunctionDefinition")]] tree with
  | .error fault => { fault := some fault }
  | .ok functions => inFunctions [] functions

end SafeMint

/-! ## Contracts of a syntax tree -/

structure Contracts where
  dialect : Dialect := .current
  byId : Table Json Json := []
  files : Table Json String := []
  byName : Table String Json := []
  deriving Inhabited

structure DeclaredParameter where
  name : Json
  type : Json
  size : Option Int
  deriving Inhabited

namespace Contracts

def key (value : Json) : Except Fault Json :=
  match value with
  | .array _ => .error .wrongKind
  | .object _ => .error .wrongKind
  | value => .ok value

def namePath : Dialect → List String
  | .legacy => ["attributes", "name"]
  | .current => ["name"]

def ofKind (dialect : Dialect) (kind : String) (node : Json) : Except Fault (List Json) :=
  Walk.find dialect [[(dialect.kindOf, .string kind)]] node

def addFile (file : String) (tree : Json) (contracts : Contracts) : Except Fault Contracts := do
  (← ofKind contracts.dialect "ContractDefinition" tree).foldlM
    (fun contracts node => do
      let id ← key (← node.member "id")
      let name ← (← node.follow (namePath contracts.dialect)).text
      return { contracts with
        byId := Table.put id node contracts.byId
        files := Table.put id file contracts.files
        byName := Table.put (file ++ ":" ++ name) node contracts.byName })
    contracts

def ofSources (dialect : Dialect) (treeName : String) (sources : Json) : Except Fault Contracts := do
  (← sources.elements).foldlM
    (fun contracts file => do
      let tree ← (← sources.part file).member treeName
      contracts.addFile (← file.text) tree)
    { dialect := dialect }

def named (name : String) (contracts : Contracts) : Except Fault Json :=
  match Table.get? name contracts.byName with
  | some node => .ok node
  | none => .error .missingKey

def numbered (contracts : Contracts) (id : Json) : Except Fault Json := do
  match Table.get? (← key id) contracts.byId with
  | some node => return node
  | none => throw .missingKey

def lineage (id : Json) (contracts : Contracts) : Except Fault (List Json) := do
  let inherited := match contracts.dialect with
    | .legacy => ["attributes", "linearizedBaseContracts"]
    | .current => ["linearizedBaseContracts"]
  let ids ← (← (← contracts.numbered id).follow inherited).elements
  return (← ids.mapM contracts.numbered).reverse

def declaredIn (dialect : Dialect) (contract : Json) : Except Fault (List Json) := do
  if !(← contract.holds dialect.partsOf) then
    return []
  (← (← contract.member dialect.partsOf).elements).filterM fun part => do
    return (← part.member dialect.kindOf).isText "VariableDeclaration"

def stateVariables (name : String) (contracts : Contracts) : Except Fault (List Json) := do
  let node ← contracts.named name
  let lineage ← contracts.lineage (← node.member "id")
  return (← lineage.mapM (declaredIn contracts.dialect)).flatten

def everywhere (of : String → Except Fault α) (contracts : Contracts) : Except Fault (Table String α) :=
  contracts.byId.foldlM
    (fun table entry => do
      let name ← (← entry.2.follow (namePath contracts.dialect)).text
      let full := ((Table.get? entry.1 contracts.files).getD "") ++ ":" ++ name
      return Table.put full (← of full) table)
    []

def ofAll (name : String) (table : Except Fault (Table String α)) : Except Fault α := do
  match Table.get? name (← table) with
  | some found => return found
  | none => throw .missingKey

def allStateVariables (contracts : Contracts) : Except Fault (Table String (List Json)) :=
  contracts.everywhere fun name => contracts.stateVariables name

def variableNames (name : String) (contracts : Contracts) : Except Fault (List Json) := do
  (← ofAll name contracts.allStateVariables).mapM (Json.follow (namePath contracts.dialect))

def callsOf (name : String) (contracts : Contracts) : Except Fault (List Json) := do
  ofKind contracts.dialect "FunctionCall" (← contracts.named name)

def allCalls (contracts : Contracts) : Except Fault (Table String (List Json)) :=
  contracts.everywhere fun name => contracts.callsOf name

def callPlaces (name : String) (contracts : Contracts) : Except Fault (List Json) := do
  (← ofAll name contracts.allCalls).mapM (Json.member "src")

def pathOf (paths : List String) (contract : String) : String :=
  (paths.find? fun path => (Text.splitOnChar ':' path).getLast? == some contract).getD ""

def calleeOf (contracts : Contracts) (node : Json) : Except Fault (Option (String × Json)) := do
  if !(← node.holds "children") then
    return none
  let children ← node.member "children"
  if !children.isTrue then
    return none
  let type ← (← children.item 0).follow ["attributes", "type"]
  let .string type := type | throw .missingMember
  match Text.splitOnChar ' ' type with
  | "contract" :: rest =>
    let some contract := rest.head? | throw .outOfRange
    return some (pathOf (Table.keys contracts.byName) contract, ← node.member "src")
  | _ => return none

def callees (name : String) (contracts : Contracts) : Except Fault (List (String × Json)) := do
  let lowLevel (member : String) : Attributes := [("attributes", .object [("member_name", .string member)])]
  let patterns := ["delegatecall", "call", "callcode"].map lowLevel
  let nodes ← Walk.find contracts.dialect patterns (← contracts.named name)
  return (← nodes.mapM contracts.calleeOf).filterMap id

def wholeNumber : Json → Except Fault Int
  | .string text =>
    match Numeral.read? 10 text with
    | some value => .ok value
    | none => .error .wrongValue
  | value =>
    match value.integer? with
    | some value => .ok value
    | none => .error .wrongKind

def sizeOf (dialect : Dialect) (node : Json) : Except Fault Int := do
  match (← ofKind dialect "Literal" node).head? with
  | none => return 1
  | some literal =>
    wholeNumber (← literal.follow (match dialect with
      | .legacy => ["attributes", "value"]
      | .current => ["value"]))

def parameterOf (dialect : Dialect) (node : Json) : Except Fault DeclaredParameter := do
  let name ← node.follow (namePath dialect)
  let type ← match dialect with
    | .legacy => do (← (← node.member "children").item 0).member "name"
    | .current => node.follow ["typeName", "nodeType"]
  let size ← if type.isText "ArrayTypeName" then some <$> sizeOf dialect node else pure none
  return { name := name, type := type, size := size }

def parameters (name : String) (contracts : Contracts) : Except Fault (Table Json (List DeclaredParameter)) := do
  let dialect := contracts.dialect
  (← ofKind dialect "FunctionDefinition" (← contracts.named name)).foldlM
    (fun table function => do
      let name ← function.follow (namePath dialect)
      let some list := (← ofKind dialect "ParameterList" function).head? | throw .outOfRange
      (← ofKind dialect "VariableDeclaration" list).foldlM
        (fun table node => do
          let parameter ← parameterOf dialect node
          let name ← key name
          return Table.put name (((Table.get? name table).getD []) ++ [parameter]) table)
        table)
    []

def safeMints (name : String) (contracts : Contracts) : Except Fault (List (Json × List Json)) := do
  let changes := SafeMint.changes (← contracts.named name)
  match changes.fault with
  | some fault => throw fault
  | none => return changes.entries

end Contracts

def storagePositions (layouts : Json) (name : String) : Except Fault (Table Json Json) := do
  let storage ← layouts.follow [name, "storage-layout", "storage"]
  if !storage.isTrue then
    return []
  (← storage.elements).foldlM
    (fun table entry => do
      return Table.put (← Contracts.key (← entry.member "astId")) (← entry.member "slot") table)
    []

def Contracts.allStoragePositions (layouts : Json) (contracts : Contracts) :
    Except Fault (Table String (Table Json Json)) :=
  contracts.everywhere (storagePositions layouts)

/-! ## Written nodes -/

namespace Contracts

def isNode (members : List (String × Json)) : Bool :=
  ["nodeType", "src", "id", "attributes"].any fun name => Table.has name members

mutual

def nodeJson : Json → Json
  | .array items => .array (nodeItems items)
  | .object members =>
    if isNode members then
      .object [("node", .array (["id", "src", "name"].map fun name => (Table.get? name members).getD .null))]
    else
      .row (nodeMembers members)
  | value => value

def nodeItems : List Json → List Json
  | [] => []
  | item :: rest => nodeJson item :: nodeItems rest

def nodeMembers : List (String × Json) → List (String × Json)
  | [] => []
  | (name, value) :: rest => (name, nodeJson value) :: nodeMembers rest

end

def nodeTable (table : Table String (List Json)) : Json :=
  .row (table.map fun entry => (entry.1, .listOf nodeJson entry.2))

def parameterTable (table : Table Json (List DeclaredParameter)) : Json :=
  let one (parameter : DeclaredParameter) : Json :=
    .row ([("name", parameter.name), ("type", parameter.type)]
      ++ (parameter.size.map fun size => ("value", Json.integer size)).toList)
  .pairs (table.map fun entry => (entry.1, .listOf one entry.2))

def members (contracts : Contracts) : List (String × Json) :=
  let pair (left right : Json) : Json := .array [left, right]
  [("by_id", .listOf (fun entry => pair entry.1 (entry.2.given "name")) contracts.byId),
    ("by_name", .listOf (fun entry => pair (.string entry.1) (entry.2.given "id")) contracts.byName),
    ("sources", .listOf (fun entry => pair entry.1 (.string entry.2)) contracts.files)]

end Contracts

end MintAudit
