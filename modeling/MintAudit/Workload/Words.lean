import MintAudit.Report.Basic

namespace MintAudit

/-!
# Workloads

A workload exercises one part of the library on inputs that it makes itself; its size tells how many.
-/

namespace Workload

inductive Action where
  -- Opcodes
  | shape | price
  -- Blocks
  | addLine | setKind | setStop | setFallsTo | setJumpTarget | setBranch | start | stop | lines | fallsTo | jumpTarget
  | kind | branch | display
  -- Names
  | stackName | dataName | dataSizeName | memoryName | anyName | addressName | storageName | gasName | gasPriceName
  | contractName | callerName | originName | balanceName | codeName | codeSizeName
  -- Values
  | copyValue | roundUp | unsigned | signed | isConcrete | isSymbolic | areConcrete | isStorage | storagePosition
  | storageVariable | toSymbolic | copyStorage | mentions | mentionsAny | symbols | rename | decide | runProgram
  -- Syntax trees
  | walk | safeMintChanges | fits | names
  | returnStatement | returnStatementLegacy | transferFunctions | transferFunctionsLegacy | ownerVariable
  -- Machine
  | copyState | step | dynamicDefects
  | freshGas | observe | reenters | changesChecked | chooseFile
  | inspectTransfer | analyze
  -- Reports
  | addViolation | addReentrancy | addRiskyProxy | addUnlimitedMinting | addPublicBurn | defectText | isDefective
  | warnings
  -- Layouts
  | placeVariables | stateVariables | ownerSlots | approvalSlots | supplySlots | proxySlots
  -- Source maps
  | codeAt | codeOfSource | lineAt | lineOfSource | locationAt | locationOfSource | knownVariable | lowerBound
  -- Contracts
  | allStateVariables | allCalls | variableNames | callPlaces | callees | parameters | allStoragePositions | safeMints
  | contractPath | contracts
  -- Parts of a source map
  | mapSelectors | mapVariables | mapCalls | mapCallees | mapParameters | mapPlaces
  -- Inputs
  | loadInputs | inputFiles | clean | withoutHash | removeFile | readSource | sourceVersion
  -- Command line
  | compareVersions | isKnown | runAudit | hasDependencies | isJson | makeDirectories
  deriving DecidableEq, Repr, Inhabited

inductive Thing where
  | state
  | decision
  | sourceStub
  | slotStub
  | defect (kind : DefectKind)
  deriving DecidableEq, Repr, Inhabited

inductive Outcome where
  | word (value : Word)
  | list (items : List Outcome)
  | thing (value : Thing)
  | node (members : List (String × Json))

namespace Outcome

instance : Inhabited Outcome := ⟨word .absent⟩

def nothing : Outcome := word .absent

def flag (value : Bool) : Outcome := word (.truth value)

def number (value : Int) : Outcome := word (.integer value)

def text (value : String) : Outcome := word (.text value)

def texts (values : List String) : Outcome := list (values.map text)

def numbers (values : List Int) : Outcome := list (values.map number)

def pairs (entries : List (Outcome × Outcome)) : Outcome :=
  list (entries.map fun entry => list [entry.1, entry.2])

def table (entries : List (String × Outcome)) : Outcome :=
  pairs (entries.map fun entry => (text entry.1, entry.2))

mutual

def ofJson : Json → Outcome
  | .null => nothing
  | .bool value => flag value
  | .integer value => number value
  | .real value => word (.real value)
  | .string value => text value
  | .array items => list (ofItems items)
  | .object members => if Contracts.isNode members then node members else list (ofMembers members)

def ofItems : List Json → List Outcome
  | [] => []
  | item :: rest => ofJson item :: ofItems rest

def ofMembers : List (String × Json) → List Outcome
  | [] => []
  | (name, value) :: rest => list [text name, ofJson value] :: ofMembers rest

end

def ofExcept (write : α → Outcome) (result : Except Fault α) : Outcome :=
  match result with
  | .ok value => write value
  | .error _ => nothing

end Outcome

structure Call where
  action : Action
  outcome : Outcome

abbrev Recording := StateM (Array Call)

namespace Recording

def note (action : Action) (outcome : Outcome) : Recording Unit :=
  modify (·.push ⟨action, outcome⟩)

def call (action : Action) (write : α → Outcome) (result : Except Fault α) : Recording (Except Fault α) := do
  note action (.ofExcept write result)
  return result

def text (action : Action) (result : Except Fault String) : Recording Int := do
  note action (.ofExcept .text result)
  return match result with
    | .ok value => value.length
    | .error _ => 0

def items (action : Action) (write : α → Outcome) (result : Except Fault (List α)) : Recording Int := do
  note action (.ofExcept (fun values => .list (values.map write)) result)
  return match result with
    | .ok values => values.length
    | .error _ => 0

def flag (action : Action) (value : Bool) : Recording Int := do
  note action (.flag value)
  return if value then 1 else 0

def number (action : Action) (value : Int) : Recording Int := do
  note action (.number value)
  return value

def total (values : List α) (compute : α → Recording Int) : Recording Int :=
  values.foldlM (fun sum value => do return sum + (← compute value)) 0

end Recording

structure Trial where
  calls : List Call := []
  result : Except Fault Outcome := .ok .nothing
  session : Option Session := none

def Trial.ofRecording (recording : Recording (Except Fault Outcome)) : Trial :=
  let (result, calls) := recording.run #[]
  { calls := calls.toList, result := result }

def Trial.ofTotal (recording : Recording Int) : Trial :=
  ofRecording do return .ok (.number (← recording))

end Workload

/-! ## Asking the opcode table -/

namespace Workload.Opcodes

def family (start : String) (count : Nat) : List String :=
  (List.range count).map fun index => start ++ toString (index + 1)

def names : Array String :=
  (Table.keys Opcode.listed ++ family "PUSH" 32 ++ family "DUP" 16 ++ family "SWAP" 16).toArray

def shown (shape : Opcode.Shape) : Outcome :=
  .list [if shape.family then .text ("0x" ++ Text.hexDigits 1 shape.code) else .number shape.code,
    .number shape.removed, .number shape.added]

def ask (name : String) : Recording Int := do
  let shape ← Recording.call .shape shown (Opcode.shape name)
  let price ← Recording.number .price (Opcode.price name)
  return price + match shape with
    | .ok shape => shape.removed
    | .error _ => 0

def run (size : Nat) : Trial :=
  Trial.ofTotal do
    let sum ← Recording.total (List.range size) fun index => ask (names.getD (index % names.size) "")
    let unknown ← Recording.call .shape shown (Opcode.shape "NOT_AN_OPCODE")
    return sum + match unknown with
      | .ok _ => 0
      | .error _ => 1

end Workload.Opcodes

/-! ## Filling blocks and giving names -/

namespace Workload.Blocks

def address : String := "0xabababababababababababababababababababab"

def fill (index : Nat) : Recording Block := do
  let block : Block := { start := index, stop := index }
  let block := (block.addLine "PUSH1 0x1").addLine "STOP"
  Recording.note .addLine .nothing
  Recording.note .addLine .nothing
  let block := { block with kind := some .terminal, stop := index + 4, fallsTo := some (some (index + 5 : Nat)) }
  Recording.note .setKind .nothing
  Recording.note .setStop .nothing
  Recording.note .setFallsTo .nothing
  let block := (block.setJumpTarget (.integer (index + 6))).setJumpTarget (.integer (-1))
  Recording.note .setJumpTarget .nothing
  Recording.note .setJumpTarget .nothing
  let block := { block with branch := some (.truth true) }
  Recording.note .setBranch .nothing
  Recording.note .start (.number block.start)
  Recording.note .stop (.number block.stop)
  Recording.note .lines (.texts block.lines)
  Recording.note .fallsTo (.ofExcept (fun address => (address.map Outcome.number).getD .nothing) block.getFallsTo)
  Recording.note .jumpTarget (.number block.jumpTarget)
  Recording.note .kind (.ofExcept (fun kind => .text kind.text) block.getKind)
  Recording.note .branch (.ofExcept .word block.getBranch)
  return block

def position (index : Nat) : String := address ++ toString index

def give (action : Action) (fresh : Names → String × Names) (names : Names) : Recording Names := do
  let (name, names) := fresh names
  Recording.note action (.text name)
  return names

def nameAll (index : Nat) (names : Names) : Recording (String × Names) := do
  let names ← give .stackName Names.stackWord names
  let names ← give .dataName Names.dataWord names
  Recording.note .dataSizeName (.text Names.dataSize)
  Recording.note .memoryName (.text (Names.memoryWord (.text address)))
  let names ← give .anyName Names.anything names
  let names ← give .addressName Names.anyAddress names
  let stored := Names.storageWord (.text (position index)) "state_variable_name"
  Recording.note .storageName (.text stored)
  let names ← give .gasName Names.gasLeft names
  Recording.note .gasPriceName (.text Names.gasPrice)
  Recording.note .contractName (.text Names.contract)
  Recording.note .callerName (.text Names.caller)
  Recording.note .originName (.text Names.origin)
  let names ← give .balanceName Names.accountBalance names
  Recording.note .codeName
    (.text (Names.code (.text address) (.integer (index * 1000 : Nat)) (.integer (index * 2000 : Nat))))
  Recording.note .codeSizeName (.text (Names.codeSize (.text address)))
  return (stored, names)

def round (state : Names × Option (Block × String)) (index : Nat) : Recording (Names × Option (Block × String)) := do
  let block ← fill index
  let (stored, names) ← nameAll index state.1
  return (names, some (block, stored))

def run (size : Nat) : Trial :=
  Trial.ofRecording do
    match (← (List.range size).foldlM round ({}, none)).2 with
    | none => return .error .unsetLocal
    | some (block, stored) =>
      Recording.note .display .nothing
      return .ok (.number (block.start + stored.length))

end Workload.Blocks

/-! ## Asking about words -/

attribute [local instance (high)] instPowNat

namespace Workload.Words

def twice (ask : Recording Int) : Recording Int := do
  return (← ask) + (← ask)

def word (action : Action) (result : Except Fault Word) : Recording Int := do
  Recording.note action (.ofExcept .word result)
  return match result with
    | .ok value => value.concrete?.getD 0
    | .error _ => 0

def key (action : Action) (result : Except Fault Key) : Recording Int := do
  Recording.note action (.ofExcept (fun key => match key with
    | .number value => .number value
    | .label value => .text value) result)
  return match result with
    | .ok (.number value) => value
    | _ => 0

def storageName (position : String) : String := "Ia_store-" ++ position ++ "-x"

def numberQuestions (number : Nat) : Recording Int := do
  let value : Word := .integer number
  let name := storageName (toString number)
  let rounded ← twice (word .roundUp value.roundedUp)
  let negated ← word .unsigned (Word.unsigned (.integer (-number)))
  let same ← word .unsigned value.unsigned
  let large ← word .signed (Word.signed (.integer (2 ^ (255 : Nat) + number)))
  let small ← word .signed value.signed
  let concrete ← twice (Recording.flag .isConcrete value.isConcrete)
  let symbolic ← twice (Recording.flag .isSymbolic (!value.isConcrete))
  let all ← twice (Recording.flag .areConcrete ([value, value].all Word.isConcrete))
  let storage ← twice (Recording.flag .isStorage (Renaming.isStorage name))
  let position ← twice (key .storagePosition (Renaming.storagePosition name))
  let variableName ← Recording.text .storageVariable (Renaming.storageVariable name)
  return rounded + negated + same + large + small + concrete + symbolic + all + storage + position + variableName

def unknown : Word := .symbol "x"

def owner : Word := .symbol "Ia_store-1-_owner"

def sum (left right : Word) : Word :=
  match left.symbolic.term?, right.symbolic.term? with
  | some first, some second => .term (.binary .add first second)
  | _, _ => .absent

def both : Word := sum owner unknown

def nested (size : Nat) : Outcome :=
  let indices := (List.range size).map fun (index : Nat) => (index : Int)
  let item (index : Int) : String × Outcome :=
    ("k" ++ toString index, .list [.number index, .number (index + 1),
      .table [("x", .numbers [index, index, index]), ("y", .table [("z", .number index)])]])
  .table [("a", .table (indices.map item)), ("b", .table [("c", .numbers indices)]), ("e", .number 7)]

def renamed (path : List Word × Table Key Word) : Outcome :=
  .list [.list (path.1.map .word), .pairs (path.2.map fun entry =>
    (match entry.1 with
      | .number value => .number value
      | .label value => .text value, .word entry.2))]

def note (action : Action) (outcome : Outcome) : Recording Unit := do
  Recording.note action outcome
  Recording.note action outcome

def truth (action : Action) (result : Except Fault Bool) : Recording Int := do
  Recording.note action (.ofExcept .flag result)
  return match result with
    | .ok true => 1
    | _ => 0

def run (size : Nat) : Trial :=
  Trial.ofTotal do
    let numbers ← Recording.total (List.range size) numberQuestions
    discard (twice (key .storagePosition (Renaming.storagePosition (storageName "abc"))))
    note .areConcrete (.flag ([.integer 1, unknown].all Word.isConcrete))
    discard (twice do
      Recording.note .toSymbolic (.word (Word.integer 7).symbolic)
      word .toSymbolic (.ok unknown.symbolic))
    note .copyStorage (.pairs [(.number 0, .number 1)])
    note .isStorage (.flag (Renaming.isStorage "Ia_store-1-_owner"))
    note .copyValue (nested size)
    let mentions ← twice (truth .mentions (Word.mentions (.text "x") both))
    let mentionsAny ← twice do
      return (← truth .mentionsAny (both.mentionsAny [owner])) + (← truth .mentionsAny (unknown.mentionsAny [owner]))
    let symbols ← twice (Recording.items .symbols .word (.ok (Word.symbolsOfAll [both, both])))
    let storage : Table Key Word := [(.number 1, sum owner (.integer 1)), (.label "k", unknown)]
    note .rename (.ofExcept renamed (Renaming.renamePath [both, sum both (.integer 1)] storage))
    note .decide (.thing .decision)
    note .runProgram (.texts ["", ""])
    return numbers + mentions + mentionsAny + symbols

end Workload.Words

/-! ## Copying nested values -/

def Workload.Copies.innermost : List (String × Outcome) :=
  [("leaf", .numbers ((List.range 20).map fun (index : Nat) => (index : Int))), ("x", .number 1)]

def Workload.Copies.nested : Nat → List (String × Outcome)
  | 0 => innermost
  | depth + 1 =>
    [("child", .table (nested depth)), ("lst", .numbers ((List.range 4).map fun (step : Nat) => ((depth + step : Nat) : Int))),
      ("k" ++ toString depth, .number depth)]

def Workload.Copies.run (size : Nat) : Trial :=
  let value := nested size
  Trial.ofTotal do
    Recording.note .copyValue (.table value)
    Recording.note .copyValue (.table value)
    return value.length + size

/-! ## Inspecting transfer events -/

namespace Workload.Transfers

def callerIsOwner : Term :=
  .binary .eq (.symbol "Is" Word.size) (.symbol "Ia_store-1-_owner" Word.size)

def scene (index : Nat) : TransferEvent.Scene :=
  { logsFourTopics := true
    stack := [.integer 0, .integer 32, .integer TransferEvent.signature, .symbol "Id_1", .symbol "Id_2", .symbol "Id_3"]
    scopes := { base := [callerIsOwner] }
    sender := .symbol "Id_1"
    owner := .symbol "Ia_store-1-_owner"
    stored := true
    function := "f" ++ toString index ++ "()" }

def shown (findings : Findings) : Outcome :=
  .list ([findings.unrestricted, findings.privileged, findings.emptyEvent].map fun (finding : Finding) =>
    .list (.number finding.status :: finding.notes.map .text))

def run (decider : Decider) (size : Nat) : Trial :=
  Trial.ofTotal do
    let findings ← (List.range size).foldlM (fun (findings : Findings) index => do
      let findings := (TransferEvent.inspect decider (scene index) findings).findings
      Recording.note .inspectTransfer (shown findings)
      return findings) {}
    return findings.privileged.notes.length

end Workload.Transfers

end MintAudit
