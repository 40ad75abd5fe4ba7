import MintAudit.Audit.Basic
import MintAudit.Workload.Steps

namespace MintAudit

/-!
# All workloads

The two workloads that need the whole audit, loading inputs and using the command line, and the choice among all of
them. A workload does one kind of work over and over, at a given size, and records what each call of it gave.
-/

/-! ## Loading inputs -/

namespace Workload.Inputs

def object (members : List (String × Json)) : Json := .object members

def file (index : Nat) : String := "<tmp>/c" ++ toString index ++ ".sol"

def name (index : Nat) : String := "C" ++ toString index

def full (index : Nat) : String := file index ++ ":" ++ name index

def definition (dialect : Dialect) (index : Nat) : Json :=
  let facts := [("name", .string (name index)), ("linearizedBaseContracts", .array [.integer index])]
  match dialect with
  | .current =>
    object ([("nodeType", .string "ContractDefinition"), ("id", .integer index), ("nodes", .array [])] ++ facts)
  | .legacy =>
    object [("name", .string "ContractDefinition"), ("id", .integer index), ("attributes", object facts),
      ("children", .array [])]

def told (size : Nat) (member : String) (keyOf : Nat → String) (about : Nat → Json) : Json :=
  object [(member, object ((List.range size).map fun index => (keyOf index, about index)))]

def compiler (dialect : Dialect) (size : Nat) : Json :=
  object [
    ("ast", told size "sources" file fun index => object [("AST", definition dialect index)]),
    ("storage-layout", told size "contracts" full fun _ =>
      object [("storage-layout", object [("storage", .array [])])]),
    ("asm", told size "contracts" full fun _ =>
      object [("asm", object [(".data", object [("0", object [(".code", .array [])])])])]),
    ("hashes", told size "contracts" full fun _ => object [("hashes", object [])])]

def project (dialect : Dialect) (size : Nat) : Project :=
  let workspace : Workspace :=
    { programs := [("solc", compiler dialect size), ("evm", object [])]
      compiled := (List.range size).map fun index => ⟨file index, name index, "6001"⟩ }
  { workspace := (List.range size).foldl (fun workspace index => workspace.withFile (file index) "\n") workspace
    settings := { source := some "<tmp>/c.sol" } }

def inputs (dialect : Dialect) : MintAudit.Inputs := { dialect := dialect, source := "<tmp>/c.sol" }

def shown (input : Input) : Outcome :=
  match input.subject with
  | none => .table [("disasm_file", .text input.listing)]
  | some subject =>
    .table [("contract", .text subject.contract), ("source_map", .thing .sourceStub), ("source", .text subject.source),
      ("c_source", .text subject.file), ("c_name", .text subject.name), ("disasm_file", .text input.listing),
      ("slot_map", .thing .slotStub)]

def load (size : Nat) (dialect : Dialect) : Recording Int :=
  Recording.items .loadInputs shown (match (inputs dialect).load none (project dialect size) with
    | .ok found _ => .ok found
    | .error fault _ => .error fault)

def files (contract : String) : Recording Int := do
  let names := [("evm", MintAudit.Inputs.codeFile contract), ("disasm", MintAudit.Inputs.listingFile contract),
    ("log", MintAudit.Inputs.logFile contract)]
  Recording.note .inputFiles (.table (names.map fun entry => (entry.1, .text entry.2)))
  return names.length

def hashed : String :=
  String.join (List.replicate 6 ("a165627a7a72305820" ++ String.join (List.replicate 32 "ab") ++ "0029"))

def strip (index : Nat) : Recording Int := do
  let stripped := MintAudit.Inputs.withoutHash hashed
  let first ← Recording.text .withoutHash stripped
  let second ← Recording.text .withoutHash stripped
  let contract := "c" ++ toString index
  let named ← files contract
  let namedAgain ← files contract
  Recording.note .removeFile .nothing
  Recording.note .removeFile .nothing
  return first + second + named + namedAgain

def source : String := "pragma solidity ^0.8.16;\ncontract C\x7b\x7d\n"

def run (size : Nat) : Trial :=
  Trial.ofTotal do
    let loaded ← Recording.total [.current, .legacy] (load size)
    let named ← files "x"
    let stripped ← Recording.total (List.range (300 * size)) strip
    Recording.note .clean .nothing
    Recording.note .clean .nothing
    Recording.note .clean .nothing
    Recording.note .readSource (.text source)
    let version ← Recording.text .sourceVersion (Version.ofSource source)
    let missing ← Recording.text .sourceVersion (Version.ofSource "contract C\x7b\x7d")
    return loaded + named + stripped + version + missing

end Workload.Inputs

/-! ## Using the command line -/

namespace Workload.CommandLine

def file : String := "<tmp>/c.sol"

def workspace : Workspace :=
  Workspace.withFile file "pragma solidity ^0.8.16;\ncontract C\x7b\x7d\n"
    { programs := [("echo", .object []), ("solc", .object [("--version", .string "Version: 0.8.16")]),
        ("evm", .object [("--version", .string "evm version 1.10.21")])] }

def inWorkspace (act : Work α) : Except Fault α :=
  match act workspace with
  | .ok value _ => .ok value
  | .error fault _ => .error fault

def compare (left right : String) : Recording Outcome := do
  let outcome := Outcome.ofExcept (fun order => .number (Version.sign order)) (Version.order left right)
  Recording.note .compareVersions outcome
  return outcome

def known (program : String) : Recording Outcome := do
  let outcome := Outcome.ofExcept .flag (inWorkspace (Work.isKnown program))
  Recording.note .isKnown outcome
  return outcome

def json (text : String) : Recording Outcome := do
  let outcome := Outcome.ofExcept .flag (Download.isJson (.string text))
  Recording.note .isJson outcome
  return outcome

def audit (decider : Decider) : Recording (List Outcome) := do
  let start : Audit := { project := { workspace := workspace } }
  let arguments := ["-s", file, "-dl", "20", "-ll", "10"]
  let after := match Audit.run decider "4.8.15" arguments start with
    | .ok _ audit => audit
    | .error _ audit => audit
  Recording.note .runAudit .nothing
  return [.number after.project.settings.depthLimit, .number after.project.settings.loopLimit]

def run (decider : Decider) (size : Nat) : Trial :=
  Trial.ofRecording do
    let versions ← [("1.0.0", "1.0"), ("1.2.0", "1.10"), ("2.0", "1.9.9")].mapM fun pair => compare pair.1 pair.2
    let programs ← ["echo", "definitely_no_such_cmd_xyz"].mapM known
    let audits ← (List.replicate size ()).mapM fun _ => audit decider
    Recording.note .hasDependencies (.ofExcept .flag (inWorkspace (Compiler.hasDependencies "4.8.15")))
    let texts ← ["\x7b\"a\": 1\x7d", "not json"].mapM json
    Recording.note .makeDirectories (.ofExcept (fun _ => .nothing) (inWorkspace (Download.makeDirectories "<tmp>/d")))
    return .ok (.list (versions ++ programs ++ audits.flatten ++ texts))

end Workload.CommandLine

inductive Workload.Kind where
  | opcodes
  | blocks
  | copies
  | words
  | trees
  | owners
  | steps
  | symbolicSteps
  | analysis
  | transfers
  | exploration
  | reports
  | maps
  | inputs
  | commandLine
  deriving DecidableEq, Repr, Inhabited

def Workload.run (decider : Decider) (kind : Kind) (size round : Nat) : Trial :=
  match kind with
  | .opcodes => Opcodes.run size
  | .blocks => Blocks.run size
  | .copies => Copies.run size
  | .words => Words.run size
  | .trees => Trees.run size
  | .owners => Owners.run size
  | .steps => Steps.run decider size
  | .symbolicSteps => Steps.runSymbolic decider size
  | .analysis => Analysis.run decider size
  | .transfers => Transfers.run decider size
  | .exploration => Exploration.run decider size
  | .reports => Reports.run size
  | .maps => Maps.run size round
  | .inputs => Inputs.run size
  | .commandLine => CommandLine.run decider size

end MintAudit
