import MintAudit.SourceMap.Basic

namespace MintAudit

/-!
# The machine

A `Path` is what belongs to one path and is copied where paths part: stack, memory, storage, the conditions assumed.
-/

/-! ## Gates -/

structure MintGate where
  trigger : Bool := false
  recipient : Word := .absent
  token : Word := .absent
  quantity : Word := .absent
  hash : Word := .absent
  firstStored : Bool := false
  secondStored : Bool := false
  valid : Bool := false
  deriving DecidableEq, Repr, Inhabited

structure ApproveGate where
  trigger : Bool := false
  recipient : Word := .absent
  token : Word := .absent
  ownerHash : Word := .absent
  hash : Word := .absent
  firstStored : Bool := false
  secondStored : Bool := false
  ownerStored : Bool := false
  valid : Bool := false
  deriving DecidableEq, Repr, Inhabited

structure TransferGate where
  trigger : Bool := false
  recipient : Word := .absent
  token : Word := .absent
  source : Word := .absent
  ownerStored : Bool := false
  ownerHash : Word := .absent
  secondStored : Bool := false
  deriving DecidableEq, Repr, Inhabited

structure OperatorGate where
  trigger : Bool := false
  operator : Word := .absent
  approved : Word := .absent
  firstStored : Bool := false
  secondStored : Bool := false
  thirdStored : Bool := false
  hash : Word := .absent
  valid : Bool := false
  deriving DecidableEq, Repr, Inhabited

structure BurnGate where
  trigger : Bool := false
  token : Word := .absent
  hash : Word := .absent
  firstStored : Bool := false
  secondStored : Bool := false
  loaded : Word := .absent
  valid : Bool := false
  pc : Word := .absent
  deriving DecidableEq, Repr, Inhabited

structure CallbackGate where
  pcs : List Int := []
  key : Word := .absent
  check : Bool := false
  variableNames : List String := []
  deriving DecidableEq, Repr, Inhabited

structure ViolationGate where
  mintPcs : List Int := []
  approvePcs : List Int := []
  operatorPcs : List Int := []
  deriving DecidableEq, Repr, Inhabited

structure SupplyGate where
  pcs : List Int := []
  check : Bool := false
  deriving DecidableEq, Repr, Inhabited

structure Gates where
  callback : CallbackGate := {}
  violation : ViolationGate := {}
  supply : SupplyGate := {}
  mint : MintGate := {}
  approve : ApproveGate := {}
  transfer : TransferGate := {}
  operator : OperatorGate := {}
  burn : BurnGate := {}
  /-- Where approvals were made that may be invalid; none before anyone asked for it. -/
  invalidApprovalPcs : Option (List Int) := none
  deriving DecidableEq, Repr, Inhabited

/-! ## Gates by name -/

inductive GateValue where
  | flag (value : Bool)
  | word (value : Word)
  | pcs (values : List Int)
  | names (values : List String)
  deriving DecidableEq, Repr, Inhabited

namespace GateValue

def isVoid : GateValue → Bool
  | flag value => !value
  | word value => value == .absent || value == .truth false
  | pcs values => values.isEmpty
  | names values => values.isEmpty

def asFlag : GateValue → Bool
  | flag value => value
  | value => !value.isVoid

def asWord : GateValue → Word
  | flag value => .truth value
  | word value => value
  | _ => .absent

def asPcs : GateValue → List Int
  | pcs values => values
  | _ => []

def asNames : GateValue → List String
  | names values => values
  | _ => []

end GateValue

def MintGate.fields (gate : MintGate) : List (String × GateValue) :=
  [("trigger", .flag gate.trigger), ("to", .word gate.recipient), ("token_id", .word gate.token),
    ("quantity", .word gate.quantity), ("hash", .word gate.hash), ("MSTORE_1", .flag gate.firstStored),
    ("MSTORE_2", .flag gate.secondStored), ("valid", .flag gate.valid)]

def MintGate.assign (name : String) (value : GateValue) (gate : MintGate) : MintGate :=
  match name with
  | "trigger" => { gate with trigger := value.asFlag }
  | "to" => { gate with recipient := value.asWord }
  | "token_id" => { gate with token := value.asWord }
  | "quantity" => { gate with quantity := value.asWord }
  | "hash" => { gate with hash := value.asWord }
  | "MSTORE_1" => { gate with firstStored := value.asFlag }
  | "MSTORE_2" => { gate with secondStored := value.asFlag }
  | "valid" => { gate with valid := value.asFlag }
  | _ => gate

def ApproveGate.fields (gate : ApproveGate) : List (String × GateValue) :=
  [("trigger", .flag gate.trigger), ("to", .word gate.recipient), ("token_id", .word gate.token),
    ("owner_hash", .word gate.ownerHash), ("hash", .word gate.hash), ("MSTORE_1", .flag gate.firstStored),
    ("MSTORE_2", .flag gate.secondStored), ("MSTORE_owner", .flag gate.ownerStored), ("valid", .flag gate.valid)]

def ApproveGate.assign (name : String) (value : GateValue) (gate : ApproveGate) : ApproveGate :=
  match name with
  | "trigger" => { gate with trigger := value.asFlag }
  | "to" => { gate with recipient := value.asWord }
  | "token_id" => { gate with token := value.asWord }
  | "owner_hash" => { gate with ownerHash := value.asWord }
  | "hash" => { gate with hash := value.asWord }
  | "MSTORE_1" => { gate with firstStored := value.asFlag }
  | "MSTORE_2" => { gate with secondStored := value.asFlag }
  | "MSTORE_owner" => { gate with ownerStored := value.asFlag }
  | "valid" => { gate with valid := value.asFlag }
  | _ => gate

def TransferGate.fields (gate : TransferGate) : List (String × GateValue) :=
  [("trigger", .flag gate.trigger), ("to", .word gate.recipient), ("token_id", .word gate.token),
    ("from", .word gate.source), ("MSTORE_owner", .flag gate.ownerStored), ("owner_hash", .word gate.ownerHash),
    ("MSTORE_2", .flag gate.secondStored)]

def TransferGate.assign (name : String) (value : GateValue) (gate : TransferGate) : TransferGate :=
  match name with
  | "trigger" => { gate with trigger := value.asFlag }
  | "to" => { gate with recipient := value.asWord }
  | "token_id" => { gate with token := value.asWord }
  | "from" => { gate with source := value.asWord }
  | "MSTORE_owner" => { gate with ownerStored := value.asFlag }
  | "owner_hash" => { gate with ownerHash := value.asWord }
  | "MSTORE_2" => { gate with secondStored := value.asFlag }
  | _ => gate

def OperatorGate.fields (gate : OperatorGate) : List (String × GateValue) :=
  [("trigger", .flag gate.trigger), ("operator", .word gate.operator), ("approved", .word gate.approved),
    ("MSTORE_1", .flag gate.firstStored), ("MSTORE_2", .flag gate.secondStored),
    ("MSTORE_3", .flag gate.thirdStored), ("hash", .word gate.hash), ("valid", .flag gate.valid)]

def OperatorGate.assign (name : String) (value : GateValue) (gate : OperatorGate) : OperatorGate :=
  match name with
  | "trigger" => { gate with trigger := value.asFlag }
  | "operator" => { gate with operator := value.asWord }
  | "approved" => { gate with approved := value.asWord }
  | "MSTORE_1" => { gate with firstStored := value.asFlag }
  | "MSTORE_2" => { gate with secondStored := value.asFlag }
  | "MSTORE_3" => { gate with thirdStored := value.asFlag }
  | "hash" => { gate with hash := value.asWord }
  | "valid" => { gate with valid := value.asFlag }
  | _ => gate

def BurnGate.fields (gate : BurnGate) : List (String × GateValue) :=
  [("trigger", .flag gate.trigger), ("token_id", .word gate.token), ("hash", .word gate.hash),
    ("MSTORE_1", .flag gate.firstStored), ("MSTORE_2", .flag gate.secondStored), ("sload", .word gate.loaded),
    ("valid", .flag gate.valid), ("pc", .word gate.pc)]

def BurnGate.assign (name : String) (value : GateValue) (gate : BurnGate) : BurnGate :=
  match name with
  | "trigger" => { gate with trigger := value.asFlag }
  | "token_id" => { gate with token := value.asWord }
  | "hash" => { gate with hash := value.asWord }
  | "MSTORE_1" => { gate with firstStored := value.asFlag }
  | "MSTORE_2" => { gate with secondStored := value.asFlag }
  | "sload" => { gate with loaded := value.asWord }
  | "valid" => { gate with valid := value.asFlag }
  | "pc" => { gate with pc := value.asWord }
  | _ => gate

def Gates.fields (gates : Gates) : List (String × List (String × GateValue)) :=
  [("mint", gates.mint.fields), ("approve", gates.approve.fields), ("transfer", gates.transfer.fields),
    ("setApprovalForAll", gates.operator.fields), ("burn", gates.burn.fields),
    ("ERC721_reentrancy",
      [("pc", .pcs gates.callback.pcs), ("key", .word gates.callback.key), ("check", .flag gates.callback.check),
        ("var", .names gates.callback.variableNames)]),
    ("standard_violation",
      [("mint_pc", .pcs gates.violation.mintPcs), ("approve_pc", .pcs gates.violation.approvePcs),
        ("setApprovalForAll_pc", .pcs gates.violation.operatorPcs)]),
    ("unlimited_minting", [("pc", .pcs gates.supply.pcs), ("check", .flag gates.supply.check)]),
    ("invalid_approval", [("pc", .pcs (gates.invalidApprovalPcs.getD []))])]

def Gates.assign (gate name : String) (value : GateValue) (gates : Gates) : Gates :=
  match gate, name with
  | "mint", name => { gates with mint := gates.mint.assign name value }
  | "approve", name => { gates with approve := gates.approve.assign name value }
  | "transfer", name => { gates with transfer := gates.transfer.assign name value }
  | "setApprovalForAll", name => { gates with operator := gates.operator.assign name value }
  | "burn", name => { gates with burn := gates.burn.assign name value }
  | "ERC721_reentrancy", "pc" => { gates with callback := { gates.callback with pcs := value.asPcs } }
  | "ERC721_reentrancy", "key" => { gates with callback := { gates.callback with key := value.asWord } }
  | "ERC721_reentrancy", "check" => { gates with callback := { gates.callback with check := value.asFlag } }
  | "ERC721_reentrancy", "var" => { gates with callback := { gates.callback with variableNames := value.asNames } }
  | "standard_violation", "mint_pc" => { gates with violation := { gates.violation with mintPcs := value.asPcs } }
  | "standard_violation", "approve_pc" => { gates with violation := { gates.violation with approvePcs := value.asPcs } }
  | "standard_violation", "setApprovalForAll_pc" =>
    { gates with violation := { gates.violation with operatorPcs := value.asPcs } }
  | "unlimited_minting", "pc" => { gates with supply := { gates.supply with pcs := value.asPcs } }
  | "unlimited_minting", "check" => { gates with supply := { gates.supply with check := value.asFlag } }
  | "invalid_approval", "pc" => { gates with invalidApprovalPcs := some value.asPcs }
  | _, _ => gates

/-! ## Names of symbols -/

structure Names where
  stack : Nat := 0
  data : Nat := 0
  other : Nat := 0
  deriving DecidableEq, Repr, Inhabited

namespace Names

def stackWord (names : Names) : String × Names :=
  ("s" ++ toString (names.stack + 1), { names with stack := names.stack + 1 })

def dataWord (names : Names) : String × Names :=
  ("Id_" ++ toString (names.data + 1), { names with data := names.data + 1 })

def numbered (start : String) (names : Names) : String × Names :=
  (start ++ toString (names.other + 1), { names with other := names.other + 1 })

def anything (names : Names) : String × Names := numbered "some_var_" names

def anyAddress (names : Names) : String × Names := numbered "some_address_" names

def gasLeft (names : Names) : String × Names := numbered "gas_" names

def accountBalance (names : Names) : String × Names := numbered "balance_" names

def dataSize : String := "Id_size"

def memoryWord (address : Word) : String := "mem_" ++ address.render

def storageWord (position : Word) (variableName : String) : String :=
  "Ia_store-" ++ position.render ++ "-" ++ variableName

def gasPrice : String := "Ip"

def contract : String := "Ia"

def caller : String := "Is"

def origin : String := "Io"

def code (address position count : Word) : String :=
  "code_" ++ address.render ++ "_" ++ position.render ++ "_" ++ count.render

def codeSize (address : Word) : String := "code_size_" ++ address.render

end Names

/-! ## Assertions in scopes -/

inductive Verdict where
  | satisfiable
  | unsatisfiable
  | undecided
  deriving DecidableEq, Repr, Inhabited

abbrev Decider := List Term → Verdict

def Decider.Sound (decider : Decider) : Prop :=
  ∀ conditions,
    (decider conditions = .satisfiable → ∃ assignment, ∀ condition ∈ conditions, Term.Holds assignment condition) ∧
    (decider conditions = .unsatisfiable → ¬ ∃ assignment, ∀ condition ∈ conditions, Term.Holds assignment condition)

def Decider.Complete (decider : Decider) : Prop :=
  ∀ conditions, decider conditions ≠ .undecided

/-- The asserted conditions: those outside every scope, and those of the open scopes, innermost first. -/
structure Scopes where
  base : List Term := []
  inner : List (List Term) := []
  deriving DecidableEq, Repr, Inhabited

namespace Scopes

def assertions (scopes : Scopes) : List Term :=
  scopes.base ++ scopes.inner.reverse.flatten

def enter (scopes : Scopes) : Scopes :=
  { scopes with inner := [] :: scopes.inner }

def assume (condition : Term) (scopes : Scopes) : Scopes :=
  match scopes.inner with
  | [] => { scopes with base := scopes.base ++ [condition] }
  | scope :: outer => { scopes with inner := (scope ++ [condition]) :: outer }

def leave (scopes : Scopes) : Except Fault Scopes :=
  match scopes.inner with
  | [] => .error .illSorted
  | _ :: outer => .ok { scopes with inner := outer }

theorem leave_assume_enter (condition : Term) (scopes : Scopes) :
    (scopes.enter.assume condition).leave = .ok scopes := rfl

theorem assertions_enter (scopes : Scopes) : scopes.enter.assertions = scopes.assertions := by
  simp [assertions, enter]

theorem assertions_assume (condition : Term) (scopes : Scopes) :
    (scopes.assume condition).assertions = scopes.assertions ++ [condition] := by
  cases scopes with
  | mk base inner => cases inner <;> simp [assertions, assume]

end Scopes

/-! ## Settings -/

structure Settings where
  reportMode : Int := 0
  printMode : Int := 0
  debugMode : Int := 0
  timeout : Int := 1000
  /-- One for a run that ends in a comparison with an expected result, two or three to refuse unknown
  instructions, three to push constants of the term language. -/
  unitTest : Int := 0
  globalTimeout : Int := 600
  globalTimeoutTest : Int := 2
  printPaths : Int := 0
  storeResult : Int := 1
  depthLimit : Int := 500
  gasLimit : Int := 400000000
  loopLimit : Int := 200
  generateTestCases : Int := 0
  parallel : Int := 0
  compilerSwitch : Int := 0
  compilerVersion : Option String := none
  isLowVersion : Bool := false
  targetContracts : Option (List String) := none
  targetFunction : Option String := none
  crawlDirectory : String := "./test/"
  source : Option String := none
  contractAddress : String := ""
  contractCount : Int := 0
  storageVariableCount : Int := 0
  publicFunctionCount : Int := 0
  receiverSelector : Int := 353073666
  shiftedReceiverSelector : Word := .absent
  deriving Repr, Inhabited

def Settings.assign (name : String) (value : Json) (settings : Settings) : Settings :=
  let number := value.integer?.getD 0
  let text := value.string?
  match name with
  | "REPORT_MODE" => { settings with reportMode := number }
  | "PRINT_MODE" => { settings with printMode := number }
  | "DEBUG_MODE" => { settings with debugMode := number }
  | "TIMEOUT" => { settings with timeout := number }
  | "UNIT_TEST" => { settings with unitTest := number }
  | "GLOBAL_TIMEOUT" => { settings with globalTimeout := number }
  | "GLOBAL_TIMEOUT_TEST" => { settings with globalTimeoutTest := number }
  | "PRINT_PATHS" => { settings with printPaths := number }
  | "STORE_RESULT" => { settings with storeResult := number }
  | "DEPTH_LIMIT" => { settings with depthLimit := number }
  | "GAS_LIMIT" => { settings with gasLimit := number }
  | "LOOP_LIMIT" => { settings with loopLimit := number }
  | "GENERATE_TEST_CASES" => { settings with generateTestCases := number }
  | "PARALLEL" => { settings with parallel := number }
  | "SOLC_SWITCH" => { settings with compilerSwitch := number }
  | "SOLC_VERSION" => { settings with compilerVersion := text }
  | "IS_LOW_VERSION" => { settings with isLowVersion := value.isTrue }
  | "TARGET_CONTRACTS" => { settings with targetContracts := value.array?.map fun names => names.filterMap Json.string? }
  | "TARGET_FUNCTION" => { settings with targetFunction := text }
  | "CRAWL_DIR" => { settings with crawlDirectory := text.getD "" }
  | "SOURCE" => { settings with source := text }
  | "CONTRACT_ADDRESS" => { settings with contractAddress := text.getD "" }
  | "CONTRACT_COUNT" => { settings with contractCount := number }
  | "STORAGE_VAR_COUNT" => { settings with storageVariableCount := number }
  | "PUB_FUN_COUNT" => { settings with publicFunctionCount := number }
  | "ONERC721RECEIVED_SELECTOR_SHL" =>
    { settings with shiftedReceiverSelector := (Word.ofJson value).toOption.getD .absent }
  | _ => settings

def Settings.ofJson (value : Json) : Settings :=
  (value.object?.getD []).foldl (fun settings entry => settings.assign entry.1 entry.2) {}

def Settings.members (settings : Settings) : List (String × Json) :=
  let optional := fun (text : Option String) => (text.map Json.string).getD .null
  [("REPORT_MODE", .integer settings.reportMode), ("DEBUG_MODE", .integer settings.debugMode),
    ("TIMEOUT", .integer settings.timeout), ("GLOBAL_TIMEOUT", .integer settings.globalTimeout),
    ("PRINT_PATHS", .integer settings.printPaths), ("STORE_RESULT", .integer settings.storeResult),
    ("DEPTH_LIMIT", .integer settings.depthLimit), ("GAS_LIMIT", .integer settings.gasLimit),
    ("LOOP_LIMIT", .integer settings.loopLimit), ("GENERATE_TEST_CASES", .integer settings.generateTestCases),
    ("PARALLEL", .integer settings.parallel), ("SOLC_SWITCH", .integer settings.compilerSwitch),
    ("SOLC_VERSION", optional settings.compilerVersion), ("IS_LOW_VERSION", .bool settings.isLowVersion),
    ("TARGET_CONTRACTS", (settings.targetContracts.map fun names => Json.array (names.map .string)).getD .null),
    ("TARGET_FUNCTION", optional settings.targetFunction), ("SOURCE", optional settings.source),
    ("CONTRACT_ADDRESS", .string settings.contractAddress), ("CONTRACT_COUNT", .integer settings.contractCount),
    ("STORAGE_VAR_COUNT", .integer settings.storageVariableCount),
    ("PUB_FUN_COUNT", .integer settings.publicFunctionCount)]

/-! ## The state of the machine -/

structure GasUse where
  total : Int := 0
  memory : Int := 0
  deriving DecidableEq, Repr, Inhabited

structure Path where
  stack : List Word := []
  calls : List Int := []
  bytes : Array Word := #[]
  visited : List Int := []
  memory : Table Key Word := []
  hashes : Table String Word := []
  gas : GasUse := {}
  pc : Int := 0
  balances : Table String Word := []
  storage : Table Key Word := []
  touched : Word := .integer 0
  gates : Gates := {}
  conditions : List Word := []
  known : List String := []
  deriving Repr, Inhabited

def Path.environment : List String :=
  ["Is", "Ia", "Iv", "Ip", "Io", "IH_c", "IH_i", "IH_d", "IH_l", "IH_cid", "IH_b", "IH_f", "IH_s"]

def Path.deposit : Term := .symbol "Iv" Word.size

def Path.initial : Path :=
  let callerBalance : Term := .symbol "init_Is" Word.size
  let contractBalance : Term := .symbol "init_Ia" Word.size
  let none : Term := .literal Word.size 0
  { known := environment
    conditions :=
      [.term (.binary .sge deposit none), .term (.binary .sge callerBalance deposit),
        .term (.binary .sge contractBalance none)]
    balances :=
      [("Is", .term (.binary .sub callerBalance deposit)), ("Ia", .term (.binary .add contractBalance deposit))] }

/-- Whether a detector found something, and in which functions: the status is one exactly if there are notes, and no
note is there twice. -/
structure Finding where
  status : Int := 0
  notes : List String := []
  found : status = 1 ↔ notes ≠ [] := by decide
  distinct : notes.Nodup := by exact List.nodup_nil
  deriving DecidableEq, Repr

namespace Finding

def nothing : Finding := {}

instance : Inhabited Finding := ⟨nothing⟩

def note (text : String) (finding : Finding) : Finding where
  status := 1
  notes := if finding.notes.contains text then finding.notes else finding.notes ++ [text]
  found := by
    by_cases present : text ∈ finding.notes
    · simp [present, List.ne_nil_of_mem present]
    · simp [present]
  distinct := by
    by_cases present : text ∈ finding.notes
    · simpa [present] using finding.distinct
    · simpa [present, List.nodup_append, finding.distinct] using fun other member => ne_of_mem_of_not_mem member present

def keeping (finding : Finding) (kept : List String) (fewer : kept.Sublist finding.notes) : Finding where
  status := if kept.isEmpty then 0 else finding.status
  notes := kept
  found := by
    cases kept with
    | nil => simp
    | cons note rest => simpa using finding.found.mpr (List.ne_nil_of_mem (fewer.subset List.mem_cons_self))
  distinct := finding.distinct.sublist fewer

end Finding

structure Findings where
  unrestricted : Finding := .nothing
  privileged : Finding := .nothing
  emptyEvent : Finding := .nothing
  deriving DecidableEq, Repr, Inhabited

structure Watch where
  findings : Findings := {}
  previousFunction : String := ""
  currentFunction : String := "f()"
  stored : Bool := false
  comparesOwner : Bool := false
  pausable : Bool := false
  returnOwner : String := "return owner"
  loads : Int := 0
  source : Word := .absent
  target : Word := .absent
  token : Word := .absent
  owner : Word := .absent
  deriving Repr, Inhabited

structure Step where
  block : Int
  pc : Int
  line : String
  depth : Nat
  function : String
  deriving DecidableEq, Repr, Inhabited

structure Session where
  settings : Settings := {}
  graph : Graph := {}
  scopes : Scopes := {}
  asksMemorySize : Bool := false
  source : Option SourceMap := none
  functionStarts : Table Int String := []
  visitedPcs : List Int := []
  takenEdges : Table (Int × Int) Int := []
  callsAffect : Table Int Bool := []
  names : Names := {}
  watch : Watch := {}
  code : Option String := none
  finishedPaths : Nat := 0
  trace : List Step := []
  executed : Nat := 0
  alarm : Option Nat := none
  clockStarted : Bool := true
  expectedStatus : Option Int := none
  deriving Inhabited

/-! ## Computations of the machine -/

structure Machine where
  session : Session
  path : Path
  deriving Inhabited

/-- A computation that may stop with a fault; the machine stays as the fault left it. -/
abbrev Exec := EStateM Fault Machine

namespace Exec

def lift (result : Except Fault α) : Exec α :=
  match result with
  | .ok value => pure value
  | .error fault => throw fault

def modifySession (change : Session → Session) : Exec Unit :=
  modify fun machine => { machine with session := change machine.session }

def modifyPath (change : Path → Path) : Exec Unit :=
  modify fun machine => { machine with path := change machine.path }

def session : Exec Session := return (← get).session

def path : Exec Path := return (← get).path

def need (count : Nat) : Exec Unit := do
  if (← path).stack.length < count then
    throw .stackUnderflow

def pop : Exec Word := do
  match (← path).stack with
  | [] => throw .outOfRange
  | word :: rest =>
    modifyPath fun path => { path with stack := rest }
    return word

def drop (count : Nat) : Exec Unit := do
  for _ in [0:count] do
    discard pop

def push (word : Word) : Exec Unit :=
  modifyPath fun path => { path with stack := word :: path.stack }

def advance (count : Int) : Exec Unit :=
  modifyPath fun path => { path with pc := path.pc + count }

def enterScope : Exec Unit :=
  modifySession fun session => { session with scopes := session.scopes.enter }

def assume (condition : Term) : Exec Unit :=
  modifySession fun session => { session with scopes := session.scopes.assume condition }

def assumeFlag (flag : Flag) : Exec Unit := do
  assume (← lift flag.toTerm)

def assumeNot (flag : Flag) : Exec Unit := do
  assume (← lift flag.opposite)

def leaveScope : Exec Unit := do
  let scopes ← lift (← session).scopes.leave
  modifySession fun session => { session with scopes := scopes }

def feasible (decider : Decider) : Exec Bool := do
  match decider (← session).scopes.assertions with
  | .satisfiable => return true
  | .unsatisfiable => return false
  | .undecided =>
    leaveScope
    throw .undecided

def freshName (take : Names → String × Names) : Exec String := do
  let (name, names) := take (← session).names
  modifySession fun session => { session with names := names }
  return name

def register (name : String) : Exec Unit :=
  modifyPath fun path =>
    { path with known := if path.known.contains name then path.known else path.known ++ [name] }

def symbolNamed (name : String) : Exec Word := do
  register name
  return Word.symbol name

def freshSymbol (take : Names → String × Names) : Exec Word :=
  return Word.symbol (← freshName take)

end Exec

end MintAudit
