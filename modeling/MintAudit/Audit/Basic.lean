import MintAudit.Explore.Run
import MintAudit.Project.Inputs

namespace MintAudit

/-!
# Audits

An audit reads its options, gets hold of the source, asks the compiler for all contracts in it and analyzes them one
after another.
-/

/-! ## Command line options -/

inductive OptionKind where
  | text
  | number
  | texts
  | flag
  | notice
  deriving DecidableEq, Repr, Inhabited

structure OptionRule where
  key : String
  names : List String
  kind : OptionKind
  default : Option String := none
  deriving DecidableEq, Repr, Inhabited

inductive OptionValue where
  | text (value : String)
  | number (value : Int)
  | texts (values : List String)
  | flag
  deriving DecidableEq, Repr, Inhabited

structure OptionRules where
  rules : List OptionRule
  choice : List String := []
  deriving DecidableEq, Repr, Inhabited

namespace OptionRules

structure Named where
  rule : Option OptionRule
  name : String
  attached : Option String
  deriving DecidableEq, Repr, Inhabited

def mistake : Fault :=
  .leave (some 2)

def find? (rules : OptionRules) (name : String) : Option OptionRule :=
  rules.rules.find? fun rule => rule.names.contains name

def allNames (rules : OptionRules) : List (String × OptionRule) :=
  rules.rules.flatMap fun rule => rule.names.map fun name => (name, rule)

def cutAtEquals (text : String) : Option (String × String) :=
  let characters := text.toList
  let front := characters.takeWhile (· ≠ '=')
  if front.length = characters.length then none
  else some (String.ofList front, String.ofList (characters.drop (front.length + 1)))

def isLong (name : String) : Bool :=
  Text.startsWith name "--"

def candidates (rules : OptionRules) (argument : String) : List Named :=
  if isLong argument then
    let (front, attached) := match cutAtEquals argument with
      | some (front, value) => (front, some value)
      | none => (argument, none)
    rules.allNames.filterMap fun entry =>
      if Text.startsWith entry.1 front then some ⟨some entry.2, entry.1, attached⟩ else none
  else
    rules.allNames.filterMap fun entry =>
      if entry.1 == Text.slice argument 0 2 then
        some ⟨some entry.2, entry.1, some (String.ofList (argument.toList.drop 2))⟩
      else if Text.startsWith entry.1 argument then some ⟨some entry.2, entry.1, none⟩
      else none

def isNegativeNumber (argument : String) : Bool :=
  match argument.toList with
  | '-' :: rest =>
    let digits := rest.takeWhile fun c => (Numeral.decimalDigit? c).isSome
    match rest.drop digits.length with
    | [] => !digits.isEmpty
    | '.' :: fraction => !fraction.isEmpty && fraction.all fun c => (Numeral.decimalDigit? c).isSome
    | _ => false
  | _ => false

def named? (rules : OptionRules) (argument : String) : Except Fault (Option Named) :=
  if !Text.startsWith argument "-" then
    .ok none
  else
    match rules.find? argument with
    | some rule => .ok (some ⟨some rule, argument, none⟩)
    | none =>
      if argument == "-" then
        .ok none
      else
        match (cutAtEquals argument).bind fun cut => (rules.find? cut.1).map fun rule => (rule, cut) with
        | some (rule, cut) => .ok (some ⟨some rule, cut.1, some cut.2⟩)
        | none =>
          match rules.candidates argument with
          | [only] => .ok (some only)
          | _ :: _ :: _ => .error mistake
          | [] =>
            if isNegativeNumber argument || argument.contains ' ' then .ok none
            else .ok (some ⟨none, argument, none⟩)

inductive Argument where
  | value (text : String)
  | separator
  | option (named : Named)
  deriving DecidableEq, Repr, Inhabited

def classify (rules : OptionRules) : List String → Except Fault (List Argument)
  | [] => .ok []
  | argument :: rest =>
    if argument == "--" then
      .ok (.separator :: rest.map .value)
    else do
      let first := match ← rules.named? argument with
        | some named => Argument.option named
        | none => .value argument
      return first :: (← rules.classify rest)

structure Found where
  values : Table String OptionValue := []
  given : List String := []
  extra : Bool := false
  deriving Inhabited

def take (rules : OptionRules) (rule : OptionRule) (texts : List String) (found : Found) : Except Fault Found := do
  let value ← match rule.kind with
    | .text => pure (OptionValue.text (texts.headD ""))
    | .texts => pure (.texts texts)
    | .flag => pure .flag
    | .notice => pure .flag
    | .number =>
      match Numeral.read? 10 (texts.headD "") with
      | some number => pure (.number number)
      | none => throw mistake
  let counts := decide (rule.kind ≠ .text) || rule.default ≠ some (texts.headD "")
  if counts && rules.choice.contains rule.key
      && rules.choice.any fun other => other ≠ rule.key && found.given.contains other then
    throw mistake
  if rule.kind = .notice then
    throw (.leave (some 0))
  return { found with
    values := Table.put rule.key value found.values
    given := if counts then rule.key :: found.given else found.given }

def takesNothing (kind : OptionKind) : Bool :=
  kind == .flag || kind == .notice

def unfold (rules : OptionRules) (rule : OptionRule) (name : String) :
    List Char → Except Fault (List (OptionRule × List String) × Option OptionRule)
  | [] => if takesNothing rule.kind then .error mistake else .ok ([(rule, [""])], none)
  | character :: rest =>
    if !takesNothing rule.kind then
      .ok ([(rule, [String.ofList (character :: rest)])], none)
    else if isLong name then
      .error mistake
    else
      let next := "-" ++ String.singleton character
      match rules.find? next with
      | none => .error mistake
      | some other =>
        if rest.isEmpty then
          .ok ([(rule, [])], some other)
        else do
          let (options, last) ← rules.unfold other next rest
          return ((rule, []) :: options, last)

def leadingValues : List Argument → List String
  | .value text :: rest => text :: leadingValues rest
  | _ => []

def valuesFor (rule : OptionRule) (rest : List Argument) : Except Fault (List String) :=
  match rule.kind, leadingValues rest with
  | .flag, _ => .ok []
  | .notice, _ => .ok []
  | _, [] => .error mistake
  | .texts, values => .ok values
  | _, value :: _ => .ok [value]

def takeAll (rules : OptionRules) : Nat → List Argument → Found → Except Fault Found
  | 0, _, found => .ok found
  | _ + 1, [], found => .ok found
  | fuel + 1, .option ⟨some rule, name, attached⟩ :: rest, found => do
      let (options, last) ← match attached with
        | some text => rules.unfold rule name text.toList
        | none => pure ([], some rule)
      let behind ← match last with
        | some rule => do pure (some (rule, ← valuesFor rule rest))
        | none => pure none
      let found ← (options ++ behind.toList).foldlM (fun found entry => rules.take entry.1 entry.2 found) found
      rules.takeAll fuel (rest.drop ((behind.map fun entry => entry.2.length).getD 0)) found
  | fuel + 1, _ :: rest, found => rules.takeAll fuel rest { found with extra := true }

def parse (rules : OptionRules) (arguments : List String) : Except Fault (Table String OptionValue) := do
  let classified ← rules.classify arguments
  let found ← rules.takeAll (classified.length + 1) classified {}
  if !rules.choice.isEmpty && !(rules.choice.any fun key => found.given.contains key) then
    throw mistake
  if found.extra then
    throw mistake
  return found.values

end OptionRules

namespace Options

def text? (key : String) (values : Table String OptionValue) : Option String :=
  match Table.get? key values with
  | some (.text value) => some value
  | _ => none

def nonempty? (key : String) (values : Table String OptionValue) : Option String :=
  (text? key values).filter fun value => !value.isEmpty

def nonzero? (key : String) (values : Table String OptionValue) : Option Int :=
  match Table.get? key values with
  | some (.number value) => if value = 0 then none else some value
  | _ => none

def texts? (key : String) (values : Table String OptionValue) : Option (List String) :=
  match Table.get? key values with
  | some (.texts values) => some values
  | _ => none

def has (key : String) (values : Table String OptionValue) : Bool :=
  Table.has key values

end Options

/-! ## Options of an audit -/

def Audit.options : OptionRules :=
  { rules := [
      { key := "help", names := ["-h", "--help"], kind := .notice },
      { key := "source", names := ["-s", "--source"], kind := .text, default := some "" },
      { key := "contract_address", names := ["-caddress", "--contract-address"], kind := .text },
      { key := "allow_paths", names := ["-ap", "--allow-paths"], kind := .text },
      { key := "remap", names := ["-rmp", "--remap"], kind := .texts },
      { key := "target_contracts", names := ["-cnames", "--target-contracts"], kind := .texts },
      { key := "target_fselector", names := ["-fselector", "--target-fselector"], kind := .text },
      { key := "version", names := ["--version"], kind := .notice },
      { key := "timeout", names := ["-t", "--timeout"], kind := .number },
      { key := "gas_limit", names := ["-gl", "--gaslimit"], kind := .number },
      { key := "loop_limit", names := ["-ll", "--looplimit"], kind := .number },
      { key := "depth_limit", names := ["-dl", "--depthlimit"], kind := .number },
      { key := "global_timeout", names := ["-glt", "--global-timeout"], kind := .number },
      { key := "address", names := ["-addr", "--address"], kind := .text },
      { key := "solc_version", names := ["-sv", "--solc-version"], kind := .text },
      { key := "evm", names := ["-e", "--evm"], kind := .flag },
      { key := "json", names := ["-j", "--json"], kind := .flag },
      { key := "paths", names := ["-p", "--paths"], kind := .flag },
      { key := "debug", names := ["-db", "--debug"], kind := .flag },
      { key := "report", names := ["-r", "--report"], kind := .flag },
      { key := "verbose", names := ["-v", "--verbose"], kind := .flag },
      { key := "parallel", names := ["-pl", "--parallel"], kind := .flag },
      { key := "compilation_error", names := ["-ce", "--compilation-error"], kind := .flag },
      { key := "generate_test_cases", names := ["-gtc", "--generate-test-cases"], kind := .flag },
      { key := "solc_switch", names := ["-as", "--automated-solc-version-switch"], kind := .flag }]
    choice := ["source", "contract_address"] }

def Audit.withModes (values : Table String OptionValue) (settings : Settings) : Settings :=
  let number (key : String) : Int := if Options.has key values then 1 else 0
  { settings with
    timeout := (Options.nonzero? "timeout" values).getD settings.timeout
    printPaths := number "paths"
    reportMode := number "report"
    storeResult := number "json"
    debugMode := number "debug"
    generateTestCases := number "generate_test_cases"
    parallel := number "parallel"
    compilerSwitch := number "solc_switch"
    compilerVersion := (Options.nonempty? "solc_version" values).or settings.compilerVersion
    contractAddress := (Options.nonempty? "address" values).getD settings.contractAddress
    targetContracts := Options.texts? "target_contracts" values
    targetFunction := Options.text? "target_fselector" values }

def Audit.withLimits (values : Table String OptionValue) (settings : Settings) : Settings :=
  { settings with
    depthLimit := (Options.nonzero? "depth_limit" values).getD settings.depthLimit
    gasLimit := (Options.nonzero? "gas_limit" values).getD settings.gasLimit
    loopLimit := (Options.nonzero? "loop_limit" values).getD settings.loopLimit
    globalTimeout := (Options.nonzero? "global_timeout" values).getD settings.globalTimeout }

def Audit.inputs (dialect : Dialect) (source : String) (values : Table String OptionValue) : Inputs :=
  { dialect := dialect
    source := source
    keepsFiles := Options.has "evm" values
    allowPaths := (Options.text? "allow_paths" values).getD ""
    remap := ((Options.texts? "remap" values).map Remap.list).getD (.text "") }

/-! ## Downloading sources -/

namespace Download

/-- The part of a path that is there and the steps behind it that are not; nothing if no part of it ever is. -/
def missingSteps (isThere : String → Bool) (steps : List String) : Nat → String → Option (String × List String)
  | 0, _ => none
  | fuel + 1, path =>
    if isThere path then
      some (path, steps)
    else
      let (front, step) := PathName.splitLast path
      if front == path then none else missingSteps isThere (step :: steps) fuel front

/-- Make the directories of a path that are not there. A path of which no part is there is looked for without end. -/
def makeDirectories (path : String) : Work Unit := do
  let workspace ← get
  match missingSteps (fun path => workspace.isDirectory path) [] (path.length + 1) path with
  | none => throw .timeLimit
  | some (front, steps) =>
    let _ ← steps.foldlM
      (fun path step => do
        let next := PathName.join path step
        Work.makeDirectory next
        return next)
      front

def isJson (value : Json) : Except Fault Bool := do
  let text ← value.text
  return (Json.read text).isOk

def addressOf (contract : String) : String :=
  "https://api.etherscan.io/api?module=contract&action=getsourcecode&address=" ++ contract

def request (address : String) : Work Json := do
  modify fun workspace =>
    { workspace with
      requests := workspace.requests ++ [(address, ["Accept", "Accept-Language", "Connection", "User-Agent"])] }
  Work.ask (·.response)

def writeContent (path : String) (content : Except Fault Json) : Work Unit := do
  Work.writeFile path ""
  Work.writeFile path (← Work.ofExcept (content.bind Json.text))

def writeFiles (nested : Bool) (directory : String) (files : Json) : Work Unit := do
  for name in ← Work.ofExcept files.elements do
    let path := directory ++ "/" ++ (← Work.ofExcept name.text)
    if nested then
      makeDirectories (PathName.splitLast path).1
    writeContent path do (← files.part name).member "content"

def writeSource (directory contract : String) (source : Json) : Work Unit := do
  if ← Work.ofExcept (isJson source) then
    let text ← Work.ofExcept source.text
    writeFiles false directory (← Work.ofExcept (Json.read text))
  else
    let text ← Work.ofExcept source.text
    match text.toList with
    | '\x7b' :: '\x7b' :: _ =>
      let inner ← Work.ofExcept (Json.read (Text.slice text 1 (-1)))
      writeFiles true directory (← Work.ofExcept (inner.member "sources"))
    | _ :: _ :: _ => Work.writeFile (directory ++ "/" ++ contract ++ ".sol") text
    | _ => throw .outOfRange

def contract (root contract : Option String) : Work Unit := do
  let some contract := contract | throw .wrongKind
  let answer ← request (addressOf contract)
  if ← Work.ofExcept (answer.holds "result") then
    let source ← Work.ofExcept do (← (← answer.member "result").item 0).member "SourceCode"
    let some root := root | throw .wrongKind
    makeDirectories (root ++ contract)
    writeSource (root ++ contract) contract source

def options : OptionRules :=
  { rules := [
      { key := "help", names := ["-h", "--help"], kind := .notice },
      { key := "dir", names := ["--dir"], kind := .text },
      { key := "caddress", names := ["--caddress"], kind := .text }] }

def run (arguments : List String) : Work Unit := do
  let values ← Work.ofExcept (options.parse arguments)
  contract (Options.text? "dir" values) (Options.text? "caddress" values)

end Download

structure AuditRun where
  listing : String
  file : String
  name : String
  report : Report
  code : Int
  hasSlots : Bool

abbrev Reports := Table String (Table String Report)

def Reports.find? (file name : String) (reports : Reports) : Option Report :=
  (Table.get? file reports).bind (Table.get? name)

def Reports.keep (file name : String) (report : Report) (reports : Reports) : Reports :=
  Table.put file (Table.put name report ((Table.get? file reports).getD [])) reports

structure Tally where
  reports : Reports := []
  code : Int := 0

def Tally.add (tally : Tally) (run : AuditRun) : Tally where
  reports := tally.reports.keep run.file run.name run.report
  code := if run.code = 1 then 1 else tally.code

structure Audit where
  project : Project := {}
  runs : List AuditRun := []
  session : Session := {}
  begun : Bool := false
  started : Bool := false
  timedOut : Bool := false

abbrev Auditing := EStateM Fault Audit

namespace Audit

def inProject (act : InProject α) : Auditing α := fun audit =>
  match act audit.project with
  | .ok value project => .ok value { audit with project := project }
  | .error fault project => .error fault { audit with project := project }

def work (act : Work α) : Auditing α :=
  inProject (InProject.work act)

def downloadedFile (directory contract : String) : String :=
  PathName.join (PathName.join directory contract) contract ++ ".sol"

def findSource (values : Table String OptionValue) : Auditing (Option String) := do
  match Options.nonempty? "source" values, Options.nonempty? "contract_address" values with
  | some source, _ => return some source
  | none, none => return none
  | none, some contract =>
    let directory := (← get).project.settings.crawlDirectory
    let file := downloadedFile directory contract
    let workspace := (← get).project.workspace
    if !workspace.isFile file && !workspace.isDirectory file then
      work (Download.contract (some directory) (some contract))
    return some file

def contractsObject (contracts : Contracts) : Json :=
  let keyText (id : Json) : String := match id with
    | .string text => text
    | id => id.render
  .object [
    ("contractsById", .object (contracts.byId.map fun entry => (keyText entry.1, entry.2))),
    ("contractsByName", .object contracts.byName),
    ("sourcesByContract", .object (contracts.files.map fun entry => (keyText entry.1, .string entry.2)))]

def mark (wanted : Bool) (file : String) : Auditing Unit :=
  if wanted then work (Work.writeFile file "") else pure ()

def sessionFor (input : Input) (subject : Subject) (listing : String) (audit : Audit) : Session :=
  let code := (audit.project.workspace.content (Text.slice input.listing 0 (-7))).toOption
  { Explore.freshSession audit.project.settings (some subject.map) code listing with
    watch := audit.session.watch
    trace := audit.session.trace
    executed := audit.session.executed
    alarm := audit.session.alarm }

def remember (outcome : Option Explore.Outcome) (audit : Audit) : Audit :=
  match outcome with
  | none => audit
  | some outcome =>
    { audit with
      project := { audit.project with settings := outcome.session.settings }
      session := outcome.session
      begun := audit.begun || outcome.begun
      started := true
      timedOut := outcome.timedOut }

def conclude (input : Input) (subject : Subject) (settings : Settings) (analysis : Explore.Analysis) :
    Auditing AuditRun := do
  mark (analysis.outcome.isSome && settings.reportMode ≠ 0) (input.listing ++ ".report")
  modify (remember analysis.outcome)
  match analysis.fault, analysis.result with
  | some fault, _ => throw fault
  | none, none => throw .wrongKind
  | none, some (report, code) =>
    mark (settings.storeResult ≠ 0) (Report.fileName input.listing)
    let run : AuditRun :=
      { listing := input.listing, file := subject.file, name := subject.name, report := report, code := code
        hasSlots := subject.slots.isSome }
    modify fun audit => { audit with runs := audit.runs ++ [run] }
    return run

def analyze (decider : Decider) (input : Input) : Auditing AuditRun := do
  let some subject := input.subject | throw .missingMember
  let some description := (← get).project.catalog.description | throw .missingMember
  let text := (contractsObject description.contracts).render
  work (Work.writeFile "temp.json" text)
  let listing ← work (Work.readFile input.listing)
  let session := sessionFor input subject listing (← get)
  conclude input subject session.settings (Explore.analyze decider (some text) listing session)

def analyzeNext (decider : Decider) (tally : Tally) (input : Input) : Auditing Tally := do
  return tally.add (← analyze decider input)

def analyzeEach (decider : Decider) (inputs : List Input) : Auditing Tally :=
  inputs.foldlM (analyzeNext decider) {}

def isEarly (version : String) : Bool :=
  Text.startsWith version "0.4" || Text.startsWith version "0.5"

def analyzeAll (decider : Decider) (source : String) (values : Table String OptionValue) : Auditing Int := do
  let some target := (← get).project.settings.source | throw .wrongKind
  let version ← work do Work.ofExcept (Version.ofSource (← Work.readLines target))
  let dialect := Dialect.ofLow (isEarly version)
  if isEarly version then
    inProject (InProject.adjust fun settings => { settings with isLowVersion := true })
  let inputs := inputs dialect source values
  let loaded ← inProject (inputs.load (← get).project.settings.targetContracts)
  let tally ← analyzeEach decider loaded
  inProject inputs.clean
  return tally.code

def run (decider : Decider) (deciderVersion : String) (arguments : List String) : Auditing Unit := do
  let values ← work (Work.ofExcept (options.parse arguments))
  inProject (InProject.adjust (withModes values))
  let source ← findSource values
  inProject (InProject.adjust fun settings =>
    withLimits values { settings with source := source.or settings.source })
  if ← work (Compiler.hasDependencies deciderVersion) then
    throw (.leave (some (← analyzeAll decider (source.getD "") values)))

end Audit

end MintAudit
