import MintAudit.Explore.Run

namespace MintAudit

/-!
# Written paths and explorations

What an exploration or a single path starts from, as a JSON object, and what it ends with.
-/

/-! ## Written paths -/

def GateValue.ofJson (value : Json) : Except Fault GateValue :=
  match value with
  | .bool truth => .ok (.flag truth)
  | .array (.string name :: rest) => .ok (.names (name :: rest.filterMap Json.string?))
  | .array items => .ok (.pcs (items.filterMap Json.integer?))
  | value => GateValue.word <$> Word.ofJson value

def Path.assign (path : Path) (part : String × Json) : Except Fault Path := do
  match part.1 with
  | "pc" => return { path with pc := part.2.integer?.getD 0 }
  | "miu_i" => return { path with touched := ← Word.ofJson part.2 }
  | "Ia" =>
    let entries ← Word.tableOf part.2.entries
    return { path with storage := entries.foldl (fun table entry => Table.put entry.1 entry.2 table) path.storage }
  | "balance" =>
    let entries ← (part.2.object?.getD []).mapM fun entry => do return (entry.1, ← Word.ofJson entry.2)
    return { path with balances := entries.foldl (fun table entry => Table.put entry.1 entry.2 table) path.balances }
  | gate =>
    let gates ← (part.2.object?.getD []).foldlM
      (fun (gates : Gates) entry => do return gates.assign gate entry.1 (← GateValue.ofJson entry.2)) path.gates
    return { path with gates := gates }

def Path.assignAll (path : Path) (parts : Json) : Except Fault Path :=
  (parts.object?.getD []).foldlM assign path

def Gates.toJson (write : Word → Json) (gates : Gates) : Json :=
  let one : GateValue → Json
    | .flag value => write (.truth value)
    | .word value => write value
    | .pcs values => .listOf (fun pc => write (.integer pc)) values
    | .names values => .listOf .string values
  .object (gates.fields.filterMap fun gate =>
    let kept := gate.2.filter fun field => !field.2.isVoid
    if kept.isEmpty then none else some (gate.1, .object (kept.map fun field => (field.1, one field.2))))

def Findings.toJson (findings : Findings) : Json :=
  .listOf (fun (finding : Finding) => .array (.integer finding.status :: finding.notes.map .string))
    [findings.unrestricted, findings.privileged, findings.emptyEvent]

def Graph.edgesJson (graph : Graph) : Json :=
  .listOf (fun entry => .array [.integer entry.1, .listOf .integer entry.2]) graph.edges

def Json.ascending (addresses : List Int) : Json :=
  .listOf .integer (addresses.mergeSort (· ≤ ·))

def Json.sorted (texts : List String) : Json :=
  .listOf .string (texts.mergeSort (· ≤ ·))

def Word.shownBranch : Word → Word
  | .narrow value => .truth (value ≠ 0)
  | word => word

def Machine.members (write : Word → Json) (block : Int) (machine : Machine) : List (String × Json) :=
  let session := machine.session
  let path := machine.path
  let watch := session.watch
  let number (value : Nat) : Json := .integer value
  let last := (session.graph.block block).toOption
  [("balance", .listOf (fun entry => .array [.string entry.1, write entry.2]) path.balances),
    ("path", .listOf write path.conditions), ("vars", .sorted path.known),
    ("sha3", .listOf write (Table.values path.hashes)), ("calls", .listOf .integer path.calls),
    ("calls_affect", .listOf (fun entry => .array [.integer entry.1, .bool entry.2]) session.callsAffect),
    ("assertions", number session.scopes.assertions.length), ("test_results", watch.findings.toJson),
    ("visited_pcs", .ascending session.visitedPcs), ("edges", session.graph.edgesJson),
    ("jump_target", (last.map fun block => Json.integer block.jumpTarget).getD .null),
    ("branch", ((last.bind (·.branch)).map fun branch => write branch.shownBranch).getD .null), ("sstore_mark", .bool watch.stored),
    ("count", .integer watch.loads), ("from", write watch.source), ("to", write watch.target),
    ("token_id", write watch.token), ("memory_len", number path.bytes.size),
    ("gen", .listOf number [session.names.stack, session.names.data, session.names.other]),
    ("shl_selector", write session.settings.shiftedReceiverSelector), ("tracked", path.gates.toJson write)]

/-! ## Written starts and ends -/

namespace Explore

def listingOf (value : Json) : String :=
  value.textAt "disasm" "6000\n00000: STOP\n"

def sessionOf (value : Json) : Session :=
  let name := value.textAt "rename_disasm" "p.evm.disasm"
  let files := [("p.evm", value.textAt "bytecode" "60806040526001\n"), (name, listingOf value)]
  let session := freshSession (Settings.ofJson (value.given "params")) ((value.given? "src").map SourceMap.ofJson)
    (Table.get? (Text.slice name 0 (-7)) files) (listingOf value)
  { session with
    alarm := (value.numberAt? "alarm_before").map Int.toNat
    expectedStatus := value.numberAt? "unit_test_status" }

def tableAt (value : Json) (name : String) : Except Fault (List (Key × Word)) :=
  Word.tableOf ((value.itemsAt name).map fun pair => (pair.nth 0, pair.nth 1))

def machineOf (value : Json) : Except Fault Machine := do
  let preparation := findFunctions (prepare (listingOf value) (sessionOf value))
  match preparation.failure with
  | some (_, fault) => throw fault
  | none =>
    let watch : Watch :=
      { stored := value.flagAt "sstore_mark"
        returnOwner := value.textAt "return_owner" "return owner"
        currentFunction := value.textAt "current_func" "f()"
        source := ← Word.ofMember value "from"
        target := ← Word.ofMember value "to"
        token := ← Word.ofMember value "token_id"
        owner := ← Word.ofMember value "owner" }
    let path := { Path.initial with
      stack := ← Word.listOfJson (value.itemsAt "stack")
      storage := Table.ofEntries (← tableAt value "storage") }
    return {
      session := { preparation.session with watch := watch }
      path := ← path.assignAll (value.given "state") }

def sessionMembers (write : Word → Json) (limit : Int) (begun started timedOut : Bool) (session : Session) :
    List (String × Json) :=
  let entry (step : Step) : Json :=
    .array [.integer step.block, .string (toString step.pc), .string step.line, .integer step.depth, .string step.function]
  let watch := session.watch
  [("trace", .listOf entry (session.trace.reverse.take limit.toNat)), ("executed", .integer session.executed),
    ("visited_pcs", .ascending session.visitedPcs), ("edges", session.graph.edgesJson),
    ("visited_edges", .listOf (fun (edge : (Int × Int) × Int) => .listOf .integer [edge.1.1, edge.1.2, edge.2])
      session.takenEdges)]
    ++ (if started then
        [("total_no_of_paths", .integer session.finishedPaths), ("g_timeout", .bool timedOut)]
      else [])
    ++ (if begun then
        [("test_results", watch.findings.toJson), ("return_owner", .string watch.returnOwner),
          ("count", .integer watch.loads), ("sstore_mark", .bool watch.stored),
          ("ERC721A_load_type", .bool watch.comparesOwner), ("ERC721Pausable_trait", .bool watch.pausable),
          ("_from", write watch.source), ("_to", write watch.target), ("_tokenId", write watch.token),
          ("owner", write watch.owner)]
      else [])

def blockJson (block : Block) : Json :=
  .object [("start", .integer block.start), ("end", .integer block.stop),
    ("type", .string ((block.kind.map (·.text)).getD "")), ("instructions", .listOf .string block.lines),
    ("falls_to", ((block.fallsTo.getD none).map Json.integer).getD .null), ("jump_target", .integer block.jumpTarget)]

def preparationMembers (preparation : Preparation) : List (String × Json) :=
  let session := preparation.session
  let graph := session.graph
  let byAddress {α : Type} (value : α → Json) (entries : Table Int α) : Json :=
    .listOf (fun entry => .array [.integer entry.1, value entry.2]) entries
  let number (value : Option Int) : Json := (value.map Json.integer).getD .null
  (match preparation.formatted with
    | some text => [("msize", .bool session.asksMemorySize), ("formatted", .string text)]
    | none => [])
    ++ [("instructions", byAddress .string graph.instructions), ("ends", byAddress .integer graph.ends),
      ("jump_type", byAddress (fun (kind : JumpKind) => .string kind.text) graph.kinds),
      ("edges", graph.edgesJson), ("blocks", .listOf (fun entry => blockJson entry.2) graph.blocks)]
    ++ (match session.source with
      | some map =>
        [("positions", .listOf (fun (entry : Int × Place) =>
            .listOf number [some entry.1, entry.2.first, entry.2.last]) map.places)]
          ++ (if preparation.failure.isNone then [("sigs", byAddress .string session.functionStarts)] else [])
      | none => [])

end Explore

end MintAudit
