import MintAudit.Report.Basic

namespace MintAudit

/-!
# Explorations

The functions that emit transfers are explored one after another, then the findings are settled: what a later write to
storage disproves is taken back, and what could not be judged is marked.
-/

/-! ## Preparing an exploration -/

namespace Explore

inductive Stage where
  | start
  | format
  | collect
  | blocks
  | edges
  | signatures
  deriving DecidableEq, Repr, Inhabited

def Stage.text : Stage → String
  | start => "init"
  | format => "format"
  | collect => "collect"
  | blocks => "blocks"
  | edges => "edges"
  | signatures => "sigs"

structure Preparation where
  session : Session
  formatted : Option String := none
  failure : Option (Stage × Fault) := none

def freshSession (settings : Settings) (source : Option SourceMap) (code : Option String) (listing : String) : Session :=
  { settings := settings
    source := source
    code := code
    asksMemorySize := Text.contains (Listing.readText listing) "MSIZE" }

def withCollected (collected : Listing.Collected) (session : Session) : Session :=
  { session with
    graph := Graph.ofCollected collected
    source := session.source.map fun map =>
      { map with places := collected.places.foldl (fun places entry => Table.put entry.1 entry.2 places) map.places } }

def readListing (formatted : String) (session : Session) : Preparation :=
  let guide := session.source.map (·.guide)
  let (collected, fault) := Listing.collect guide formatted
  let session := withCollected collected session
  match fault with
  | some fault => { session := session, formatted := some formatted, failure := some (.collect, fault) }
  | none =>
    match session.graph.addBlocks with
    | .error fault => { session := session, formatted := some formatted, failure := some (.blocks, fault) }
    | .ok graph =>
      let (graph, fault) := graph.addFallEdges
      { session := { session with graph := graph }, formatted := some formatted
        failure := fault.map fun fault => (.edges, fault) }

def prepare (listing : String) (session : Session) : Preparation :=
  match Listing.format listing with
  | .error fault => { session := session, failure := some (.format, fault) }
  | .ok formatted => readListing formatted session

def findFunctions (preparation : Preparation) : Preparation :=
  match preparation.failure, preparation.session.source with
  | none, some _ =>
    match preparation.session.graph.functionStarts with
    | .ok starts => { preparation with session := { preparation.session with functionStarts := starts } }
    | .error fault => { preparation with failure := some (.signatures, fault) }
  | _, _ => preparation

/-! ## Exploring paths -/

open Exec

inductive Ending where
  | explored
  | noBlock
  | bounded
  deriving DecidableEq, Repr, Inhabited

def noteFunction (function : String) : Exec Unit :=
  modifySession fun session =>
    if function = session.watch.previousFunction then
      session
    else
      { session with
        watch := { session.watch with loads := 0, previousFunction := function, stored := false } }

def closes (text : List Char) : Bool :=
  let line := if text.getLast? == some '\n' then text.dropLast else text
  line.getLast? == some ')' && !line.contains '\n'

def signatureName (signature : String) : String :=
  let name := signature.toList.takeWhile Text.isWordCharacter
  match signature.toList.dropWhile Text.isWordCharacter with
  | '(' :: rest => if !name.isEmpty && closes rest then String.ofList name else signature
  | _ => signature

def enterFunction (block : Int) (function : String) : Exec String := do
  let session ← Exec.session
  match session.source with
  | none => return function
  | some map =>
    match Table.get? block session.functionStarts with
    | none => return function
    | some selector =>
      match Table.get? selector map.functions with
      | none => throw .missingKey
      | some signature =>
        modifySession fun session =>
          { session with watch := { session.watch with currentFunction := signature } }
        return signatureName signature

def edgeCount (session : Session) (edge : Int × Int) : Int :=
  (Table.get? edge session.takenEdges).getD 0

def countEdge (edge : Int × Int) (change : Int) : Exec Unit :=
  modifySession fun session =>
    { session with takenEdges := Table.put edge (edgeCount session edge + change) session.takenEdges }

def ownerTexts : List String := ["prevOwnership.addr", "return packed"]

def comparisonTexts : List String :=
  ["result := or(eq(msgSender, owner), eq(msgSender, approvedAddress))",
    "result := or(eq(msgSender, from), eq(msgSender, approvedAddress))"]

def pauseText : String := "require(!paused(), \"ERC721Pausable: token transfer while paused\")"

def noteOwner (text : String) : Exec Unit := do
  if text = (← Exec.session).watch.returnOwner || ownerTexts.contains text then
    match (← Exec.path).stack with
    | [] => throw .outOfRange
    | top :: _ => modifySession fun session => { session with watch := { session.watch with owner := top } }
  else if comparisonTexts.contains text then
    modifySession fun session => { session with watch := { session.watch with comparesOwner := true } }

def noteSource (text : String) : Exec Unit := do
  if text = pauseText then
    modifySession fun session => { session with watch := { session.watch with pausable := true } }
  noteOwner text

def currentText : Exec String := do
  match (← Exec.session).source with
  | none => throw .missingMember
  | some map => lift (map.codeAt (← Exec.path).pc)

def executeLine (decider : Decider) (block : Int) (function line : String) : Exec Unit := do
  let text ← currentText
  Machine.step decider block function (Text.strip line)
  noteSource text

inductive Approach where
  | stopped (ending : Ending)
  | ready (current : Block) (function : String)

def approach (block previous : Int) (function : String) : Exec Approach := do
  noteFunction function
  if block < 0 then
    return .stopped .noBlock
  let function ← enterFunction block function
  countEdge (previous, block) 1
  let session ← Exec.session
  if edgeCount session (previous, block) > session.settings.loopLimit then
    return .stopped .bounded
  if (← Exec.path).gas.total > session.settings.gasLimit then
    return .stopped .bounded
  match session.graph.block block with
  | .error _ => return .stopped .noBlock
  | .ok current => return .ready current function

inductive Arrival where
  | stopped (ending : Ending)
  | atEnd (kind : JumpKind) (function : String)

def runThrough (decider : Decider) (block : Int) (current : Block) (function : String) : Exec Arrival := do
  current.lines.forM (executeLine decider block function)
  modifyPath fun path => { path with visited := path.visited ++ [block] }
  match Table.get? block (← Exec.session).graph.kinds with
  | some kind => return .atEnd kind function
  | none => throw .missingKey

def arrive (decider : Decider) (block previous : Int) (function : String) : Exec Arrival := do
  match ← approach block previous function with
  | .stopped ending => return .stopped ending
  | .ready current function => runThrough decider block current function

def finishPath : Exec Unit := do
  modifySession fun session => { session with finishedPaths := session.finishedPaths + 1 }
  let session ← Exec.session
  if session.settings.unitTest ≠ 0 then
    match session.expectedStatus with
    | some status => throw (.leave (some status))
    | none => throw .missingFile

def onCopy (change : Path → Path) (computation : Exec α) : Exec α := fun machine =>
  match computation { machine with path := change machine.path } with
  | .ok value after => .ok value { after with path := machine.path }
  | .error fault after => .error fault { after with path := machine.path }

/-- Run a computation and pass over its faults, except those that end the run. -/
def attempt (computation : Exec Unit) : Exec Unit :=
  tryCatch computation fun fault =>
    match fault with
    | .timeLimit => throw .timeLimit
    | .leave code => throw (.leave code)
    | _ => pure ()

def currentBlock (block : Int) : Exec Block := do
  lift ((← Exec.session).graph.block block)

def jumpTarget (block : Int) : Exec Int :=
  return (← currentBlock block).jumpTarget

def jumpAddress (block : Int) : Exec Int := do
  let address ← jumpTarget block
  if (← Exec.session).source.isSome then
    discard currentText
  return address

def nextBlock (block : Int) : Exec Int := do
  match ← lift (← currentBlock block).getFallsTo with
  | some address => return address
  | none => throw .wrongKind

def conditionOf (word : Word) : Except Fault Term :=
  match word with
  | .truth value => .ok (.truth value)
  | .term value => if value.kind = .condition then .ok value else .error .illSorted
  | _ => .error .illSorted

def asWord (condition : Term) : Word :=
  match condition with
  | .truth value => .truth value
  | condition => .term condition

def enterSide (decider : Decider) (condition : Term) (target : Exec Int) (follow : Int → Exec Unit) : Exec Unit := do
  if decider (← Exec.session).scopes.assertions ≠ .unsatisfiable then
    let address ← target
    onCopy (fun path => { path with pc := address, conditions := path.conditions ++ [asWord condition] })
      (follow address)

def followSide (decider : Decider) (condition : Except Fault Term) (target : Exec Int)
    (follow : Int → Exec Unit) : Exec Unit := do
  enterScope
  let condition ← lift condition
  assume condition
  attempt (enterSide decider condition target follow)
  leaveScope

def followOn (address : Int) (follow : Int → Exec Unit) : Exec Unit :=
  onCopy (fun path => { path with pc := address }) (follow address)

def branchCondition (block : Int) : Exec (Except Fault Term) :=
  return conditionOf (← lift (← currentBlock block).getBranch)

def leaveBlock (decider : Decider) (block previous : Int) (follow : Int → Exec Unit) : JumpKind → Exec Unit
  | .terminal => finishPath
  | .unconditional => do followOn (← jumpAddress block) follow
  | .fallsTo => do followOn (← nextBlock block) follow
  | .conditional => do
      let condition ← branchCondition block
      followSide decider condition (jumpTarget block) follow
      followSide decider (condition.map (.unary .negation)) (nextBlock block) follow
      countEdge (previous, block) (-1)
  | .other _ => do
      countEdge (previous, block) (-1)
      throw .unknownJumpKind

/-- Explore the paths from a block that was reached over an edge; `remaining` more blocks may follow it. -/
def explore (decider : Decider) : Nat → Int → Int → String → Exec Ending
  | 0, block, previous, function => do
      match ← arrive decider block previous function with
      | .stopped ending => return ending
      | .atEnd _ _ =>
        finishPath
        return .explored
  | remaining + 1, block, previous, function => do
      match ← arrive decider block previous function with
      | .stopped ending => return ending
      | .atEnd kind function =>
        let follow := fun address => discard (explore decider remaining address block function)
        leaveBlock decider block previous follow kind
        return .explored

def remainingDepth (settings : Settings) (depth : Int) : Nat :=
  (settings.depthLimit - depth).toNat

end Explore

/-! ## Exploring a contract -/

namespace Explore

open Exec

def transferSelector : String := "23b872dd"

def usualReturn : String := "return owner"

def returnStatement (dialect : Dialect) (description : Option String) : String :=
  let found : Except Fault (Option String) := do
    let some text := description | throw .missingFile
    Owner.returnStatement? dialect (← Json.read text)
  match found with
  | .ok (some statement) => statement
  | _ => usualReturn

def blockOf? (starts : Table Int String) (selector : String) : Option Int :=
  (starts.find? fun entry => entry.2 == selector).map Prod.fst

def blocksNamed (starts : Table Int String) (functions : Table String String) (name : String) : List Int :=
  functions.filterMap fun entry => if Text.contains entry.2 name then blockOf? starts entry.1 else none

def blocksOfNames (starts : Table Int String) (functions : Table String String) : List Json → List Int
  | [] => []
  | name :: rest =>
    match name with
    | .string name => blocksNamed starts functions name ++ blocksOfNames starts functions rest
    | _ => if functions.isEmpty then blocksOfNames starts functions rest else []

def transferBlocks (dialect : Dialect) (description : Option String) (map : SourceMap) (starts : Table Int String) :
    List Int :=
  let found : Except Fault (Table Json Json) := do
    let some text := description | throw .missingFile
    TransferFunctions.find dialect map.contract (← Json.read text)
  let blocks := match found with
    | .ok functions => blocksOfNames starts map.functions (Table.keys functions)
    | .error _ => []
  match blockOf? starts transferSelector with
  | some block => if blocks.contains block then blocks else block :: blocks
  | none => blocks

def startBlocks (description : Option String) : Exec (List Int) := do
  let session ← Exec.session
  match session.source with
  | none => return []
  | some map =>
    let starts ← lift session.graph.functionStarts
    modifySession fun session => { session with functionStarts := starts }
    match session.settings.targetFunction with
    | some selector =>
      if selector.isEmpty then
        return transferBlocks (Dialect.ofLow session.settings.isLowVersion) description map starts
      match blockOf? starts selector with
      | some block => return [block]
      | none => throw .wrongValue
    | none => return transferBlocks (Dialect.ofLow session.settings.isLowVersion) description map starts

def noteDetail (note : String) : Except Fault String :=
  match (Text.splitOnChar ':' note)[1]? with
  | some detail => .ok detail
  | none => .error .outOfRange

def emptyEventIndex? (index : Nat) : List String → Except Fault (Option Nat)
  | [] => .ok none
  | note :: rest => do
      if (← noteDetail note) = "standard1" then
        return some index
      else
        emptyEventIndex? (index + 1) rest

def retract (before : Nat) (finding : Finding) : Except Fault Finding := do
  if before < finding.notes.length then
    match ← emptyEventIndex? before (finding.notes.drop before) with
    | some index => return finding.keeping (finding.notes.eraseIdx index) (List.eraseIdx_sublist _ _)
    | none => return finding
  else
    return finding

def exploreFrom (decider : Decider) (block : Int) : Exec Unit := do
  let session ← Exec.session
  let before := session.watch.findings.emptyEvent.notes.length
  discard (explore decider (remainingDepth session.settings 0) block 0 "fallback")
  let watch := (← Exec.session).watch
  if watch.stored then
    let finding ← lift (retract before watch.findings.emptyEvent)
    modifySession fun session =>
      { session with
        watch := { session.watch with findings := { session.watch.findings with emptyEvent := finding } } }

def settle (hasStart : Bool) (watch : Watch) : Findings :=
  if !hasStart then
    { unrestricted := { status := -1 }, privileged := { status := -1 }, emptyEvent := { status := -1 } }
  else if watch.owner = .absent then
    { watch.findings with unrestricted := { status := -2 }, privileged := { status := -2 } }
  else if watch.comparesOwner then
    { watch.findings with privileged := .nothing }
  else
    watch.findings

/-- Drop the notes about the owner of a contract that can be paused, counting through the notes as they are dropped. -/
def dropOwnerNotes (pausable : Bool) : Nat → Nat → List String → List String × Option Fault
  | 0, _, notes => (notes, none)
  | rounds + 1, index, notes =>
    match notes[index]? with
    | none => (notes, some .outOfRange)
    | some note =>
      match noteDetail note with
      | .error fault => (notes, some fault)
      | .ok detail =>
        if pausable && (Text.splitOnChar '-' detail).getLast? == some "_owner" then
          dropOwnerNotes pausable rounds (index + 1) (notes.eraseIdx index)
        else
          dropOwnerNotes pausable rounds (index + 1) notes

theorem dropOwnerNotes_sublist (pausable : Bool) (rounds index : Nat) (notes : List String) :
    (dropOwnerNotes pausable rounds index notes).1.Sublist notes := by
  fun_induction dropOwnerNotes pausable rounds index notes with
  | case1 => exact .refl _
  | case2 => exact .refl _
  | case3 => exact .refl _
  | case4 _ _ _ _ _ _ _ _ ih => exact ih.trans (List.eraseIdx_sublist _ _)
  | case5 _ _ _ _ _ _ _ _ ih => exact ih

def settlePausable : Exec Unit := do
  let session ← Exec.session
  match session.source with
  | none => throw .missingMember
  | some map =>
    let finding := session.watch.findings.privileged
    if Text.contains map.source.content "ERC721Pausable" && !finding.notes.isEmpty then
      let dropped := dropOwnerNotes session.watch.pausable finding.notes.length 0 finding.notes
      -- A fault leaves notes behind, so that the status stays as it is.
      let privileged := finding.keeping dropped.1 (dropOwnerNotes_sublist _ _ _ _)
      modifySession fun session =>
        { session with watch := { session.watch with findings := { session.watch.findings with privileged } } }
      match dropped.2 with
      | some fault => throw fault
      | none => pure ()

def exploreAll (decider : Decider) (description : Option String) : Exec Unit := do
  let blocks ← startBlocks description
  blocks.forM (exploreFrom decider)
  modifySession fun session =>
    { session with watch := { session.watch with findings := settle (!blocks.isEmpty) session.watch } }
  settlePausable

def initialWatch (settings : Settings) (description : Option String) : Watch :=
  { currentFunction := ""
    returnOwner := returnStatement (Dialect.ofLow settings.isLowVersion) description }

structure Outcome where
  session : Session
  formatted : Option String
  begun : Bool
  report : Report
  timedOut : Bool := false
  fault : Option Fault := none

def buildAndExplore (decider : Decider) (description : Option String) (listing : String) (session : Session) : Outcome :=
  let preparation := prepare listing session
  let report := Report.fresh session.source.isSome
  match preparation.failure with
  | some (_, fault) =>
    { session := preparation.session, formatted := preparation.formatted, begun := false, report := report
      fault := some fault }
  | none =>
    let session := { preparation.session with watch := initialWatch preparation.session.settings description }
    match (exploreAll decider description).run { session := session, path := Path.initial } with
    | .ok _ machine =>
      match report.addFindings machine.session.watch.findings with
      | .ok report =>
        { session := machine.session, formatted := preparation.formatted, begun := true, report := report }
      | .error fault =>
        { session := machine.session, formatted := preparation.formatted, begun := true, report := report
          fault := some fault }
    | .error .timeLimit machine =>
      { session := machine.session, formatted := preparation.formatted, begun := true, report := report
        timedOut := true }
    | .error fault machine =>
      { session := machine.session, formatted := preparation.formatted, begun := true, report := report
        fault := some fault }

structure Analysis where
  outcome : Option Outcome := none
  result : Option (Report × Int) := none
  fault : Option Fault := none

/-- Analyze a listing. A run that is a test has no clock and ends with a code when the time is up; any other run needs a
source and closes its report. -/
def analyze (decider : Decider) (description : Option String) (listing : String) (session : Session) : Analysis :=
  if session.settings.unitTest ≠ 0 then
    let settings := { session.settings with globalTimeout := session.settings.globalTimeoutTest }
    let outcome :=
      buildAndExplore decider description listing { session with settings := settings, clockStarted := false }
    { outcome := some outcome, fault := if outcome.timedOut then some (.leave (some 104)) else outcome.fault }
  else if session.source.isNone then
    { fault := some .missingMember }
  else
    let outcome := buildAndExplore decider description listing session
    match outcome.fault with
    | some fault => { outcome := some outcome, fault := some fault }
    | none =>
      let closed :=
        outcome.report.close outcome.session.settings outcome.session.visitedPcs.length
          outcome.session.graph.instructions.length
      let outcome := { outcome with report := closed.report }
      match closed.fault, closed.summary with
      | none, some summary => { outcome := some outcome, result := some (closed.report, summary.code) }
      | fault, _ => { outcome := some outcome, fault := fault }

end Explore

end MintAudit
