import MintAudit.Compiler.Query
import MintAudit.Layout.SlotMap
import MintAudit.Machine.State

namespace MintAudit

/-!
# Projects and their inputs

What is to be analyzed: bare code, a source, or the compiler's own input or output.
-/

/-! ## Projects -/

structure Catalog where
  layoutFile : String := ""
  mapFile : String := ""
  places : Json := .object []
  description : Option Description := none
  slots : Option SlotMap := none
  selectors : Json := .object []
  compiled : List (String × String) := []
  sources : Table String SourceText := []
  deriving Inhabited

structure Project where
  workspace : Workspace := {}
  settings : Settings := {}
  catalog : Catalog := {}
  deriving Inhabited

abbrev InProject := EStateM Fault Project

namespace InProject

def work (act : Work α) : InProject α := fun project =>
  match act project.workspace with
  | .ok value workspace => .ok value { project with workspace := workspace }
  | .error fault workspace => .error fault { project with workspace := workspace }

def ofExcept (result : Except Fault α) : InProject α :=
  match result with
  | .ok value => pure value
  | .error fault => throw fault

def learn (change : Catalog → Catalog) : InProject Unit :=
  modify fun project => { project with catalog := change project.catalog }

def adjust (change : Settings → Settings) : InProject Unit :=
  modify fun project => { project with settings := change project.settings }

end InProject

def SlotMap.load (query : Query) (contract : String) : InProject (Option SlotMap) := do
  if !(← get).catalog.layoutFile.isEmpty then
    return none
  InProject.learn fun catalog => { catalog with layoutFile := query.file }
  let description ← InProject.work (Description.load .current query)
  some <$> InProject.ofExcept (SlotMap.ofContract description.contracts description.layouts contract)

/-! ## Compiled source maps -/

namespace SourceMap

def nestedPlaces : Nat → Json → List Json
  | 0, _ => [.null]
  | levels + 1, code =>
    match code.follow [".data", "0"] with
    | .error _ => [.null]
    | .ok inner =>
      match (inner.member ".code").bind Json.elements with
      | .error _ => [.null]
      | .ok places => .null :: places ++ nestedPlaces levels inner

def placesPath (kind contract : String) : Except Fault (List String) :=
  if kind == "solidity" then
    .ok [contract, "asm", ".data", "0"]
  else
    match Text.splitOnChar ':' contract with
    | [file, name] => .ok [file, name, "evm", "legacyAssembly", ".data", "0"]
    | _ => .error .wrongValue

def keptPlaces (kind contract : String) (catalog : Catalog) : Except Fault Json := do
  catalog.places.follow ((← placesPath kind contract) ++ [".code"])

def growPlaces (kind contract : String) : InProject (List Json) := do
  let path ← InProject.ofExcept (placesPath kind contract)
  let known := (← get).catalog.places
  let code ← InProject.ofExcept (known.follow path)
  match ← InProject.ofExcept (code.member ".code") with
  | .array places =>
    let grown := places ++ nestedPlaces code.depth code
    InProject.learn fun catalog =>
      { catalog with places := known.replaceAt (.array grown) (path ++ [".code"]) }
    return grown
  | _ => return []

def prepare (dialect : Dialect) (query : Query) (contract : String) : InProject Unit := do
  if !(← get).catalog.mapFile.isEmpty then
    return
  InProject.learn fun catalog => { catalog with mapFile := query.file }
  let places ← InProject.work do
    if query.kind == "solidity" then
      query.ask dialect "asm" "contracts"
    else if dialect = .legacy && query.kind == "standard json" then
      Query.recorded "contracts"
    else
      throw (Query.unknownKind dialect)
  InProject.learn fun catalog => { catalog with places := places }
  let description ← InProject.work (Description.load dialect query)
  InProject.learn fun catalog => { catalog with description := some description }
  if dialect = .current then
    let slots ← SlotMap.load { query with kind := "solidity" } contract
    InProject.learn fun catalog => { catalog with slots := slots }
  let selectors ← InProject.work (query.ask dialect "hashes" "contracts")
  InProject.learn fun catalog => { catalog with selectors := selectors }

def sourceOf (file : String) : InProject SourceText := do
  match Table.get? file (← get).catalog.sources with
  | some source => return source
  | none =>
    let source := SourceText.ofString (← InProject.work (Work.readFile file))
    InProject.learn fun catalog => { catalog with sources := Table.put file source catalog.sources }
    return source

def writtenPlace (src : Json) : Except Fault String :=
  match src with
  | .string text => .ok text
  | _ => .error .missingMember

def placeParameters (position : Int) : List DeclaredParameter → List Parameter
  | [] => []
  | declared :: rest =>
    { name := declared.name.string?.getD ""
      type := declared.type.string?.getD ""
      position := position
      value := declared.size } :: placeParameters (position + declared.size.getD 1) rest

def functionsOf (selectors : Json) (contract : String) : Except Fault (Table String String) := do
  let .object members ← selectors.follow [contract, "hashes"] | throw .missingMember
  return Table.ofEntries (members.map fun entry => (entry.2.string?.getD "", entry.1))

def safeCallsOf (source : SourceText) (changes : List (Json × List Json)) :
    Except Fault (List (Location × List String)) :=
  changes.mapM fun change => do
    return (← source.locationOfSource (← writtenPlace change.1), change.2.filterMap Json.string?)

def load (dialect : Dialect) (query : Query) (contract rootPath : String) : InProject SourceMap := do
  prepare dialect query contract
  let file := (Text.splitOnChar ':' contract).headD ""
  let source ← sourceOf file
  let places ← growPlaces query.kind contract
  let some description := (← get).catalog.description | throw .missingMember
  let contracts := description.contracts
  let names ← InProject.ofExcept (contracts.variableNames contract)
  let safeCalls ← match dialect with
    | .legacy => pure []
    | .current => do
        InProject.adjust fun settings => { settings with storageVariableCount := names.length }
        InProject.ofExcept do safeCallsOf source (← contracts.safeMints contract)
  let calls ← InProject.ofExcept do
    (← contracts.callPlaces contract).mapM fun src => do source.ofSource (← writtenPlace src)
  let callees ← InProject.ofExcept (contracts.callees contract)
  let parameters ← InProject.ofExcept (contracts.parameters contract)
  let functions ← InProject.ofExcept (functionsOf (← get).catalog.selectors contract)
  if dialect = .current then
    InProject.adjust fun settings => { settings with publicFunctionCount := functions.length }
  return {
    contract := contract
    rootPath := rootPath
    source := source
    guide := places.map placeOf
    «variables» := names.map fun name => name.string?.getD ""
    calls := calls
    callees := callees
    parameters := parameters.map fun entry => (entry.1.string?.getD "", placeParameters 0 entry.2)
    functions := functions
    safeCalls := safeCalls }

end SourceMap

/-! ## Inputs of an analysis -/

inductive InputKind where
  | code
  | source
  | compilerInput
  | compilerOutput
  deriving DecidableEq, Repr, Inhabited

structure Inputs where
  dialect : Dialect := .current
  kind : InputKind := .source
  source : String
  keepsFiles : Bool := false
  rootPath : String := ""
  allowPaths : String := ""
  remap : Remap := .text ""
  deriving DecidableEq, Repr, Inhabited

structure Subject where
  contract : String
  source : String
  file : String
  name : String
  map : SourceMap
  slots : Option SlotMap

structure Input where
  listing : String
  subject : Option Subject

def InputKind.ofNumber? (dialect : Dialect) (number : Int) : Option InputKind :=
  match dialect, number with
  | _, 1 => some source
  | .legacy, 0 => some code
  | .legacy, 2 => some compilerInput
  | .legacy, 3 => some compilerOutput
  | _, _ => none

def InputKind.settings : Dialect → InputKind → List (String × Bool)
  | _, code => [("source", true), ("evm", false)]
  | .current, _ =>
    [("source", true), ("evm", false), ("root_path", false), ("compiled_contracts", false),
      ("compilation_err", false), ("allow_paths", false), ("remap", false)]
  | .legacy, source =>
    [("source", true), ("evm", false), ("root_path", false), ("compiled_contracts", false),
      ("compilation_err", false), ("remap", false), ("allow_paths", false)]
  | .legacy, compilerInput =>
    [("source", true), ("evm", false), ("root_path", false), ("allow_paths", true), ("compiled_contracts", false)]
  | .legacy, compilerOutput => [("source", true), ("evm", false), ("root_path", false), ("compiled_contracts", false)]

namespace Inputs

def isMissing (members : Json) (setting : String × Bool) : Bool :=
  match members.member? setting.1 with
  | some value => value.isNull
  | none => setting.2

def ofJson (dialect : Dialect) (number : Int) (members : Json) : Except Fault Inputs := do
  let some kind := InputKind.ofNumber? dialect number | throw .unsetLocal
  match (kind.settings dialect).find? (isMissing members) with
  | some setting => throw (.missingSetting setting.1)
  | none =>
    return {
      dialect := dialect
      kind := kind
      source := members.textAt "source" ""
      keepsFiles := (members.given "evm").isTrue
      rootPath := members.textAt "root_path" ""
      allowPaths := members.textAt "allow_paths" ""
      remap := Remap.ofJson (members.given "remap") }

def compiledIn (members : Json) : List (String × String) :=
  (members.itemsAt "compiled_contracts").map fun pair =>
    ((pair.nth 0).string?.getD "", (pair.nth 1).string?.getD "")

def withoutHash (code : String) : Except Fault String := do
  return (← Pattern.ofText "a165627a7a72305820\\S\x7b64\x7d0029$").erase code

def codeFile (contract : String) : String :=
  contract ++ ".evm"

def listingFile (contract : String) : String :=
  contract ++ ".evm.disasm"

def logFile (contract : String) : String :=
  contract ++ ".evm.disasm.log"

def compile (target : String) (options : List String) (remap : Option Remap) : Work (List (String × String)) := do
  Work.note (["crytic", target, " ".intercalate options] ++ (remap.map Remap.argument).toList)
  let workspace ← get
  if workspace.rejected then
    throw .sourceRejected
  return workspace.compiled.map fun contract => (contract.file ++ ":" ++ contract.name, contract.code)

def allowOption (inputs : Inputs) : List String :=
  if inputs.allowPaths.isEmpty then [] else ["--allow-paths " ++ inputs.allowPaths]

def compileSource (inputs : Inputs) : InProject (List (String × String)) := do
  let settings := (← get).settings
  let target := settings.source.getD ""
  InProject.work do
    match settings.compilerVersion with
    | some version => if !version.isEmpty then Compiler.useIfPossible version
    | none => pure ()
    if settings.compilerSwitch ≠ 0 then
      Compiler.useFor target
    match ← Work.attempt (compile target inputs.allowOption (some inputs.remap)) with
    | .ok contracts => return contracts
    | .error .sourceRejected => throw (.leave (some 1))
    | .error fault => throw fault

def libraryOption (number : Nat) (library : String) : String :=
  "--libraries " ++ library ++ ":0x" ++ Text.hexDigits 40 (number + 1)

def compileLinked (inputs : Inputs) (libraries : List String) : InProject (List (String × String)) := do
  let options := (List.range libraries.length).zipWith libraryOption libraries
  let found ← InProject.work (match inputs.dialect with
    | .current => compile inputs.source options none
    | .legacy =>
      if inputs.kind = .source then
        compile inputs.source (options ++ inputs.allowOption) (some inputs.remap)
      else
        throw .missingMember)
  if (← get).settings.source ≠ some inputs.source then
    throw .missingKey
  return found

def compiledContracts (output : Json) : Except Fault (List (String × String)) := do
  let files ← (← output.member "sources").elements
  let lists ← files.mapM fun file => do
    let contracts ← (← output.member "contracts").part file
    (← contracts.elements).mapM fun name => do
      let code ← (← contracts.part name).follow ["evm", "deployedBytecode", "object"]
      return ((← file.text) ++ ":" ++ (← name.text), ← code.text)
  return lists.flatten

def readOutput (file : String) : Work (List (String × String)) := do
  let text ← Work.readLines file
  Work.ofExcept do compiledContracts (← Json.read text)

def compileInput (inputs : Inputs) : Work (List (String × String)) := do
  let _ ← Work.run ("cat " ++ inputs.source)
  let _ ← Work.run ("solc --allow-paths " ++ inputs.allowPaths ++ " --standard-json")
  Work.writeFile "standard_json_output" ""
  throw .wrongKind

def contracts (inputs : Inputs) : InProject (List (String × String)) := do
  let known := (← get).catalog.compiled
  if inputs.kind = .code then
    throw .missingMember
  if !known.isEmpty then
    return known
  let found ← match inputs.kind with
    | .compilerInput => InProject.work inputs.compileInput
    | .compilerOutput => InProject.work (readOutput inputs.source)
    | _ => inputs.compileSource
  InProject.learn fun catalog => { catalog with compiled := found }
  return found

def writeListing (contract code : String) : Work Unit := do
  Work.writeFile (codeFile contract) (← Work.ofExcept (withoutHash code))
  match ← Work.attempt (Work.output ["evm", "disasm", codeFile contract]) with
  | .ok listing => Work.writeFile (listingFile contract) listing
  | .error _ => throw (.leave none)

def query (inputs : Inputs) : Query :=
  match inputs.kind with
  | .source => { file := inputs.source, remap := inputs.remap, allowPaths := inputs.allowPaths }
  | _ => { file := inputs.source, kind := "standard json" }

def subject? (inputs : Inputs) (targets : Option (List String)) (contract : String) : InProject (Option Input) := do
  let [file, name] := Text.splitOnChar ':' contract | throw .wrongValue
  if targets.any fun names => !names.contains name then
    return none
  let pattern ← InProject.ofExcept (Pattern.ofText inputs.rootPath)
  let rootPath := match inputs.dialect with
    | .current => ""
    | .legacy => inputs.rootPath
  let map ← SourceMap.load inputs.dialect inputs.query contract rootPath
  let slots := (← get).catalog.slots
  return some {
    listing := listingFile contract
    subject := some {
      contract := contract
      source := inputs.source
      file := pattern.erase file
      name := name
      map := map
      slots := slots } }

def load (inputs : Inputs) (targets : Option (List String)) : InProject (List Input) := do
  if inputs.kind = .code then
    InProject.work do writeListing inputs.source (← Work.readLines inputs.source)
    return [{ listing := listingFile inputs.source, subject := none }]
  let contracts ← inputs.contracts
  if inputs.dialect = .current then
    InProject.adjust fun settings => { settings with contractCount := contracts.length }
  InProject.work (contracts.forM fun contract => writeListing contract.1 contract.2)
  let found ← contracts.mapM fun contract => inputs.subject? targets contract.1
  let loaded := found.filterMap id
  if targets.isSome && loaded.isEmpty then
    throw .targetsNotFound
  return loaded

def removeFiles (inputs : Inputs) (contract : String) : Work Unit := do
  if !inputs.keepsFiles then
    Work.removeFile (codeFile contract)
    Work.removeFile (listingFile contract)
  Work.removeFile (logFile contract)

def clean (inputs : Inputs) : InProject Unit := do
  let contracts := (← get).catalog.compiled
  InProject.work
    (if inputs.kind = .code then
      inputs.removeFiles inputs.source
    else
      contracts.forM fun contract => inputs.removeFiles contract.1)

end Inputs

end MintAudit
