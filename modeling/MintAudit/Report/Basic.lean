import MintAudit.Machine.Step

namespace MintAudit

/-!
# Defects and reports

The outcome of an analysis: how much of the code was executed, what was found, and facts about the contract.
-/

/-! ## Defects -/

inductive DefectKind where
  | ownerInconsistency
  | violation
  | reentrancy
  | riskyProxy
  | unlimitedMinting
  | publicBurn
  deriving DecidableEq, Repr, Inhabited

def DefectKind.title : DefectKind → String
  | ownerInconsistency => "Owner Inconsistency Defect"
  | violation => "ERC721 Standard Violation Defect"
  | reentrancy => "ERC721 Reentrancy Defect"
  | riskyProxy => "Risky Mutable Proxy Defect"
  | unlimitedMinting => "Unlimited Minting Defect"
  | publicBurn => "Public Burn Defect"

def DefectKind.label : DefectKind → String
  | ownerInconsistency => "owner_inconsistency"
  | violation => "violation"
  | reentrancy => "reentrancy"
  | riskyProxy => "proxy"
  | unlimitedMinting => "unlimited_minting"
  | publicBurn => "burn"

def DefectKind.key (kind : DefectKind) : String :=
  kind.label ++ "_defect"

structure Defect where
  kind : DefectKind
  pcs : List Int
  warnings : Option (List String)
  deriving Repr, Inhabited

namespace Defect

def withText (map : SourceMap) (pcs : List Int) : Except Fault (List Int) :=
  pcs.filterM fun pc => do return !(← map.codeAt pc).isEmpty

def firstOfPlaces (map : SourceMap) (pcs : List Int) : Except Fault (List Int) := do
  let places ← pcs.foldlM (fun (seen : Table Place Int) pc =>
      match Table.get? pc map.places with
      | some place => .ok (if Table.has place seen then seen else Table.put place pc seen)
      | none => .error .missingKey)
    []
  return Table.values places

def leadingBlanks (line : String) : String :=
  String.ofList (line.toList.takeWhile fun character =>
    character == '[' || character == ' ' || character == '\t' || character == ']')

def wording (file title : String) (start : LineColumn) (text : String) : String :=
  let line := (Text.splitOnChar '\n' text).headD ""
  let header :=
    file ++ ":" ++ toString (start.line + 1) ++ ":" ++ toString (start.column + 1) ++ ": Warning: " ++ title ++ ".\n"
  let spanning :=
    if text.toList.contains '\n' then "\n" ++ leadingBlanks line ++ "^\nSpanning multiple lines." else ""
  header ++ line ++ spanning

def warning (map : SourceMap) (title : String) (pc : Int) : Except Fault String := do
  let text ← map.lineAt pc
  let location ← map.locationAt pc
  let file := (← Pattern.ofText map.rootPath).erase map.file
  let some first := location.first | throw .wrongKind
  return wording file title first text

def ofPcs (source : Option SourceMap) (kind : DefectKind) (pcs : List Int) : Except Fault Defect :=
  match source with
  | none => .ok { kind := kind, pcs := pcs, warnings := none }
  | some map => do
      let pcs ← firstOfPlaces map (← withText map pcs)
      return { kind := kind, pcs := pcs, warnings := some (← pcs.mapM (warning map kind.title)) }

def isDefective (defect : Defect) : Bool :=
  !defect.pcs.isEmpty

def getWarnings (defect : Defect) : Except Fault (List String) :=
  match defect.warnings with
  | some warnings => .ok warnings
  | none => .error .missingMember

def stacked (texts : List String) : String :=
  Text.dropFront (· == '\n') (String.join (texts.map ("\n" ++ ·)))

def text (defect : Defect) : Except Fault String := do
  return stacked (← defect.getWarnings)

def dynamicTexts (source : Option SourceMap) (pcs : Table String (List Int)) : Except Fault (List String) := do
  let build := fun kind =>
    match Table.get? (DefectKind.key kind) pcs with
    | some found => ofPcs source kind found
    | none => .error .missingKey
  let burn ← build .publicBurn
  let minting ← build .unlimitedMinting
  let proxy ← build .riskyProxy
  let reentrancy ← build .reentrancy
  let violation ← build .violation
  [proxy, reentrancy, minting, violation, burn].mapM text

end Defect

inductive NotedKind where
  | privilegedAddress
  | unrestrictedFrom
  | emptyTransferEvent
  deriving DecidableEq, Repr, Inhabited

def NotedKind.title : NotedKind → String
  | privilegedAddress => "Privileged Address Defect"
  | unrestrictedFrom => "Unrestricted 'from' Defect"
  | emptyTransferEvent => " Empty Transfer Event Defect"

def NotedKind.label : NotedKind → String
  | privilegedAddress => "privileged_address"
  | unrestrictedFrom => "unrestricted_from_and_owner_inconsistency"
  | emptyTransferEvent => "empty_transfer_event"

def NotedKind.text (notes : Json) : Except Fault String := do
  return Defect.stacked (← (← notes.elements).mapM Json.text)

/-! ## Reports -/

/-- What a report says about one problem: its notes, or only whether it was found. -/
inductive Entry where
  | notes (texts : List String)
  | found (value : Bool)
  | other (value : Json)
  deriving Inhabited

def Entry.toJson : Entry → Json
  | notes texts => .array (texts.map .string)
  | found value => .bool value
  | other value => value

structure ContractFacts where
  address : String
  contractCount : Int
  storageVariableCount : Int
  publicFunctionCount : Int
  deriving DecidableEq, Repr, Inhabited

structure Report where
  coverage : Option String := none
  instructionCount : Option String := none
  analysis : Option (Table String Entry) := none
  flags : Option (Table String Bool) := none
  facts : Option ContractFacts := none
  deriving Inhabited

namespace Report

def problems : List NotedKind := [.privilegedAddress, .unrestrictedFrom, .emptyTransferEvent]

def fresh (hasSource : Bool) : Report :=
  { coverage := some ""
    instructionCount := some ""
    analysis := if hasSource then some (problems.map fun kind => (kind.label, .notes [])) else none
    flags := some (problems.map fun kind => (kind.label, false)) }

def addFinding (kind : NotedKind) (finding : Finding) (report : Report) : Except Fault Report := do
  if finding.status ≠ 1 then
    return report
  let report := { report with flags := report.flags.map (Table.put kind.label true) }
  match report.analysis with
  | some analysis => return { report with analysis := some (Table.put kind.label (.notes finding.notes) analysis) }
  | none => if finding.notes.isEmpty then return report else throw .missingKey

def addFindings (findings : Findings) (report : Report) : Except Fault Report := do
  let report ← report.addFinding .unrestrictedFrom findings.unrestricted
  let report ← report.addFinding .privilegedAddress findings.privileged
  report.addFinding .emptyTransferEvent findings.emptyEvent

def entry (kind : NotedKind) (report : Report) : Except Fault Json :=
  match report.analysis.bind (Table.get? kind.label) with
  | some entry => .ok entry.toJson
  | none => .error .missingKey

structure Summary where
  entries : List Json

def Summary.code (summary : Summary) : Int :=
  if summary.entries.any Json.isTrue then 1 else 0

def summarize (report : Report) : Except Fault Summary := do
  let entries ← problems.mapM report.entry
  discard (entries.mapM NotedKind.text)
  return ⟨entries⟩

structure Closed where
  report : Report
  summary : Option Summary := none
  fault : Option Fault := none

def close (settings : Settings) (executed count : Nat) (report : Report) : Closed :=
  match Machine.coverage executed count with
  | .error _ => { report := { report with coverage := some "0/0" }, fault := some .unsetLocal }
  | .ok share =>
    let report := { report with coverage := some share.tenths, instructionCount := some (toString count) }
    match problems.mapM report.entry with
    | .error fault => { report := report, fault := some fault }
    | .ok entries =>
      match report.summarize with
      | .error fault => { report := report, summary := some ⟨entries⟩, fault := some fault }
      | .ok summary =>
        let facts : ContractFacts :=
          { address := settings.contractAddress
            contractCount := settings.contractCount
            storageVariableCount := settings.storageVariableCount
            publicFunctionCount := settings.publicFunctionCount }
        { report := { report with facts := some facts }, summary := some summary }

def fileName (listingFile : String) : String :=
  (Text.splitOn ".evm.disasm" listingFile).headD "" ++ ".json"

def members (report : Report) : List (String × Json) :=
  let optional := fun (name : String) (value : Option Json) => (value.map fun value => (name, value)).toList
  optional "evm_code_coverage" (report.coverage.map .string)
    ++ optional "instructions" (report.instructionCount.map .string)
    ++ optional "analysis"
      (report.analysis.map fun table => .object (table.map fun entry => (entry.1, entry.2.toJson)))
    ++ optional "bool_defect" (report.flags.map fun table => .object (table.map fun entry => (entry.1, .bool entry.2)))
    ++ (match report.facts with
      | some facts =>
        [("address", .string facts.address), ("contract_count", .integer facts.contractCount),
          ("storage_var_count", .integer facts.storageVariableCount),
          ("pub_fun_count", .integer facts.publicFunctionCount)]
      | none => [])

def addDefect (source : Option SourceMap) (defect : Defect) (report : Report) : Except Fault Report := do
  let entry ← if source.isSome then Entry.notes <$> defect.getWarnings else pure (Entry.found defect.isDefective)
  return { report with
    analysis := report.analysis.map (Table.put defect.kind.label entry)
    flags := report.flags.map (Table.put defect.kind.label defect.isDefective) }

end Report

end MintAudit
