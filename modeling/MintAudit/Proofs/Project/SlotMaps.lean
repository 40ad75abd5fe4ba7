import MintAudit.Project.Inputs
import MintAudit.Proofs.Table

namespace MintAudit

/-!
# Layouts of loaded contracts

The compiler is asked for a layout of storage once, when the first contract is loaded.
-/

/-! ## Programs answer the same -/

open Effect

def Workspace.respond (programs : Table String Json) (program : String) (arguments : List String) :
    Except Fault Workspace.Run :=
  if program == "cat" then
    .ok { output := "", failed := false }
  else
    match Table.get? program programs with
    | none => .error .missingFile
    | some .null => .error .missingFile
    | some table => .ok (answer table arguments)

namespace Work

abbrev KeepsPrograms (work : Work α) : Prop :=
  Preserves Workspace.programs work

theorem ofExcept_keeps (result : Except Fault α) : KeepsPrograms (ofExcept result) := by
  cases result with
  | ok value => exact .pure value
  | error fault => exact .throw fault

theorem attempt_keeps {work : Work α} (keeps : KeepsPrograms work) : KeepsPrograms (attempt work) := by
  refine ⟨fun before => ?_⟩
  have same := keeps.same before
  unfold attempt
  cases run : work before with
  | ok value after => rw [run] at same; exact same
  | error fault after => rw [run] at same; exact same

variable (command : List String)

theorem note_keeps : KeepsPrograms (note command) :=
  .modify fun _ => rfl

theorem readFile_keeps (path : String) : KeepsPrograms (readFile path) :=
  .bind .get fun _ => ofExcept_keeps _

theorem readLines_keeps (path : String) : KeepsPrograms (readLines path) :=
  .bind (readFile_keeps path) fun _ => .pure _

theorem writeFile_keeps (path text : String) : KeepsPrograms (writeFile path text) := by
  refine ⟨fun before => ?_⟩
  unfold writeFile
  rw [get_bind_apply]
  cases before.locate path with
  | error fault => rfl
  | ok found =>
    rw [ofExcept, pure_bind]
    split <;> rfl

theorem start_cons (program : String) (arguments : List String) :
    start (program :: arguments) = (do
      note (program :: arguments)
      ofExcept (Workspace.respond (← get).programs program arguments)) := by
  unfold start Workspace.respond
  refine bind_congr fun _ => ?_
  split
  · rfl
  · refine bind_congr fun workspace => ?_
    cases Table.get? program workspace.programs with
    | none => rfl
    | some table => cases table <;> rfl

theorem start_keeps : KeepsPrograms (start command) := by
  cases command with
  | nil => exact .throw _
  | cons program arguments =>
    rw [start_cons]
    exact .bind (note_keeps _) fun _ => .bind .get fun _ => ofExcept_keeps _

theorem output_keeps : KeepsPrograms (output command) :=
  .bind (start_keeps command) fun _ => .pure _

theorem outputOrFail_keeps : KeepsPrograms (outputOrFail command) :=
  .bind (start_keeps command) fun _ => .ite (.throw_bind _ _) (.pure _)

theorem run_keeps (line : String) : KeepsPrograms (run line) :=
  .bind (ofExcept_keeps _) fun _ => output_keeps _

structure AsksPrograms (work : Work α) : Prop where
  same : ∀ {one other : Workspace}, one.programs = other.programs → outcome (work one) = outcome (work other)

namespace AsksPrograms

theorem pure (value : α) : AsksPrograms (pure value : Work α) :=
  ⟨fun _ => rfl⟩

theorem throw (fault : Fault) : AsksPrograms (throw fault : Work α) :=
  ⟨fun _ => rfl⟩

theorem ofExcept (result : Except Fault α) : AsksPrograms (Work.ofExcept result) := by
  cases result with
  | ok value => exact .pure value
  | error fault => exact .throw fault

theorem ofPrograms (of : Table String Json → Except Fault α) :
    AsksPrograms (do Work.ofExcept (of (← get).programs)) := by
  refine ⟨fun {one other} same => ?_⟩
  rw [get_bind_apply, get_bind_apply, same]
  cases of other.programs <;> rfl

theorem bind {work : Work α} {next : α → Work β} (keeps : KeepsPrograms work) (asks : AsksPrograms work)
    (later : ∀ value, AsksPrograms (next value)) :
    AsksPrograms (work >>= next) := by
  refine ⟨fun {one other} same => ?_⟩
  have ends := asks.same same
  have stays := (keeps.same one).trans (same.trans (keeps.same other).symm)
  rw [bind_apply, bind_apply]
  cases first : work one with
  | ok value between =>
    cases second : work other with
    | ok found after =>
      rw [first, second] at ends stays
      obtain rfl : value = found := Except.ok.inj ends
      exact (later value).same stays
    | error fault after =>
      rw [first, second] at ends
      cases ends
  | error fault between =>
    cases second : work other with
    | ok found after =>
      rw [first, second] at ends
      cases ends
    | error found after =>
      rw [first, second] at ends
      obtain rfl : fault = found := Except.error.inj ends
      rfl

end AsksPrograms

theorem start_asks : AsksPrograms (start command) := by
  cases command with
  | nil => exact .throw _
  | cons program arguments =>
    rw [start_cons]
    exact .bind (note_keeps _) ⟨fun _ => rfl⟩ fun _ => .ofPrograms fun programs =>
      Workspace.respond programs program arguments

theorem run_asks (line : String) : AsksPrograms (run line) :=
  .bind (ofExcept_keeps _) (.ofExcept _) fun _ => .bind (start_keeps _) (start_asks _) fun _ => .pure _

end Work

namespace Query

variable (dialect : Dialect) (description member : String) (query : Query)

theorem ask_keeps : Work.KeepsPrograms (query.ask dialect description member) :=
  .bind (Work.run_keeps _) fun _ => .bind (Work.ofExcept_keeps _) fun _ => Work.ofExcept_keeps _

theorem ask_asks : Work.AsksPrograms (query.ask dialect description member) :=
  .bind (Work.run_keeps _) (Work.run_asks _) fun _ =>
    .bind (Work.ofExcept_keeps _) (.ofExcept _) fun _ => .ofExcept _

end Query

namespace Description

variable (query : Query)

theorem load_current :
    load .current query =
      if query.kind == "solidity" then do
        let sources ← query.ask .current "ast" "sources"
        let layouts ← query.ask .current "storage-layout" "contracts"
        let contracts ← Work.ofExcept (Contracts.ofSources .current (treeName query.kind) sources)
        return { sources := sources, layouts := layouts, contracts := contracts }
      else
        throw (Query.unknownKind .current) := rfl

theorem load_keeps : Work.KeepsPrograms (load .current query) := by
  rw [load_current]
  exact .ite (.bind (query.ask_keeps _ _ _) fun _ => .bind (query.ask_keeps _ _ _) fun _ =>
      .bind (Work.ofExcept_keeps _) fun _ => .pure _)
    (.throw _)

theorem load_asks : Work.AsksPrograms (load .current query) := by
  rw [load_current]
  split
  · exact .bind (query.ask_keeps _ _ _) (query.ask_asks _ _ _) fun _ =>
      .bind (query.ask_keeps _ _ _) (query.ask_asks _ _ _) fun _ =>
        .bind (Work.ofExcept_keeps _) (.ofExcept _) fun _ => .pure _
  · exact .throw _

end Description

open Work

open Effect

def Workspace.slotMap (workspace : Workspace) (query : Query) (contract : String) : Except Fault SlotMap := do
  let description ← outcome (Description.load .current { query with kind := "solidity" } workspace)
  SlotMap.ofContract description.contracts description.layouts contract

theorem Workspace.slotMap_congr {one other : Workspace} (same : one.programs = other.programs) (query : Query)
    (contract : String) :
    one.slotMap query contract = other.slotMap query contract := by
  unfold slotMap
  rw [(Description.load_asks _).same same]

variable {map : SlotMap} {contract : String} {query : Query}

theorem SlotMap.contract_of_ofContract {contracts : Contracts} {layouts : Json} {name : String}
    (found : SlotMap.ofContract contracts layouts name = .ok map) :
    map.contract = name := by
  obtain ⟨nodes, -, found⟩ := of_except_bind_ok found
  obtain ⟨declared, -, found⟩ := of_except_bind_ok found
  obtain ⟨told, -, found⟩ := of_except_bind_ok found
  cases found
  rfl

theorem Workspace.contract_of_slotMap {workspace : Workspace} (found : workspace.slotMap query contract = .ok map) :
    map.contract = contract := by
  obtain ⟨description, -, found⟩ := of_except_bind_ok found
  exact SlotMap.contract_of_ofContract found

structure LayoutMemory where
  programs : Table String Json
  mapFile : String
  layoutFile : String
  slots : Option SlotMap

def Project.layoutMemory (project : Project) : LayoutMemory :=
  { programs := project.workspace.programs
    mapFile := project.catalog.mapFile
    layoutFile := project.catalog.layoutFile
    slots := project.catalog.slots }

def Catalog.IsFresh (catalog : Catalog) : Prop :=
  catalog.mapFile = "" ∧ catalog.layoutFile = ""

namespace InProject

abbrev KeepsLayouts (act : InProject α) : Prop :=
  Preserves Project.layoutMemory act

theorem work_apply (act : Work α) (project : Project) :
    work act project =
      match act project.workspace with
      | .ok value workspace => .ok value { project with workspace := workspace }
      | .error fault workspace => .error fault { project with workspace := workspace } := rfl

theorem work_keeps {act : Work α} (keeps : Work.KeepsPrograms act) : KeepsLayouts (work act) := by
  refine ⟨fun project => ?_⟩
  have same := keeps.same project.workspace
  rw [work_apply]
  cases run : act project.workspace with
  | ok value workspace =>
    rw [run] at same
    exact congrArg (fun programs => { project.layoutMemory with programs := programs }) same
  | error fault workspace =>
    rw [run] at same
    exact congrArg (fun programs => { project.layoutMemory with programs := programs }) same

theorem of_work_ok {act : Work α} {before after : Project} {value : α} (run : work act before = .ok value after) :
    ∃ workspace, act before.workspace = .ok value workspace ∧ after = { before with workspace := workspace } := by
  rw [work_apply] at run
  cases ran : act before.workspace with
  | ok found workspace =>
    rw [ran] at run
    cases run
    exact ⟨workspace, rfl, rfl⟩
  | error fault workspace =>
    rw [ran] at run
    cases run

theorem ofExcept_keeps (result : Except Fault α) : KeepsLayouts (ofExcept result) := by
  cases result with
  | ok value => exact .pure value
  | error fault => exact .throw fault

theorem of_ofExcept_ok {result : Except Fault α} {before after : Project} {value : α}
    (run : ofExcept result before = .ok value after) :
    result = .ok value ∧ after = before := by
  cases result with
  | ok found =>
    cases run
    exact ⟨rfl, rfl⟩
  | error fault => cases run

theorem adjust_keeps (change : Settings → Settings) : KeepsLayouts (adjust change) :=
  .modify fun _ => rfl

end InProject

open InProject

theorem SlotMap.load_fresh {before after : Project} {slots : Option SlotMap} (fresh : before.catalog.layoutFile = "")
    (loads : SlotMap.load { query with kind := "solidity" } contract before = .ok slots after) :
    ∃ map,
      slots = some map ∧ before.workspace.slotMap query contract = .ok map ∧
        after.layoutMemory = { before.layoutMemory with layoutFile := query.file } := by
  unfold SlotMap.load at loads
  rw [get_bind_apply, if_neg (by simp [fresh])] at loads
  obtain ⟨_, noted, notes, asks⟩ := of_bind_ok loads
  cases notes
  obtain ⟨description, described, describes, maps⟩ := of_bind_ok asks
  have kept := (work_keeps (Description.load_keeps _)).of_ok describes
  obtain ⟨workspace, told, -⟩ := of_work_ok describes
  rw [map_eq_pure_bind] at maps
  obtain ⟨map, final, ends, returns⟩ := of_bind_ok maps
  obtain ⟨computes, same⟩ := of_ofExcept_ok ends
  cases returns
  rw [← same] at kept
  refine ⟨map, rfl, ?_, kept⟩
  have answered :
      outcome (Description.load .current { query with kind := "solidity" } before.workspace) = .ok description :=
    congrArg outcome told
  unfold Workspace.slotMap
  rw [answered]
  exact computes

namespace SourceMap

theorem sourceOf_keeps (file : String) : KeepsLayouts (sourceOf file) := by
  refine .bind .get fun project => ?_
  split
  · exact .pure _
  · exact .bind (work_keeps (readFile_keeps file)) fun _ => .bind (.modify fun _ => rfl) fun _ => .pure _

theorem growPlaces_keeps (kind contract : String) : KeepsLayouts (growPlaces kind contract) := by
  refine .bind (ofExcept_keeps _) fun path => .bind .get fun project =>
    .bind (ofExcept_keeps _) fun code => .bind (ofExcept_keeps _) fun places => ?_
  split
  · exact .bind (.modify fun _ => rfl) fun _ => .pure _
  · exact .pure _

variable {query : Query} {contract : String}

theorem prepare_asked {dialect : Dialect} {project : Project} (asked : project.catalog.mapFile ≠ "") :
    prepare dialect query contract project = .ok () project := by
  unfold prepare
  rw [get_bind_apply, if_pos (by simpa using asked)]
  rfl

def inquire (query : Query) : InProject Unit := do
  let places ← work (
    if query.kind == "solidity" then query.ask .current "asm" "contracts" else throw (Query.unknownKind .current))
  learn fun catalog => { catalog with places := places }
  let description ← work (Description.load .current query)
  learn fun catalog => { catalog with description := some description }

def inquireSelectors (query : Query) : InProject Unit := do
  let selectors ← work (query.ask .current "hashes" "contracts")
  learn fun catalog => { catalog with selectors := selectors }

theorem inquire_keeps (query : Query) : KeepsLayouts (inquire query) := by
  have asks : Work.KeepsPrograms (
      if query.kind == "solidity" then query.ask .current "asm" "contracts" else throw (Query.unknownKind .current)) :=
    .ite (query.ask_keeps _ _ _) (.throw _)
  exact .bind (work_keeps asks) fun _ => .bind (.modify fun _ => rfl) fun _ =>
    .bind (work_keeps (Description.load_keeps query)) fun _ => .modify fun _ => rfl

theorem inquireSelectors_keeps (query : Query) : KeepsLayouts (inquireSelectors query) :=
  .bind (work_keeps (query.ask_keeps _ _ _)) fun _ => .modify fun _ => rfl

theorem prepare_unasked {project : Project} (unasked : project.catalog.mapFile = "") :
    prepare .current query contract project =
      (do
        inquire query
        let slots ← SlotMap.load { query with kind := "solidity" } contract
        learn fun catalog => { catalog with slots := slots }
        inquireSelectors query) { project with catalog := { project.catalog with mapFile := query.file } } := by
  unfold prepare
  rw [get_bind_apply, if_neg (by simp [unasked])]
  simp only [inquire, bind_assoc]
  rfl

theorem prepare_fresh {before after : Project} (fresh : before.catalog.IsFresh)
    (prepares : prepare .current query contract before = .ok () after) :
    ∃ map,
      before.workspace.slotMap query contract = .ok map ∧
        after.layoutMemory =
          { programs := before.workspace.programs, mapFile := query.file, layoutFile := query.file, slots := some map } := by
  rw [prepare_unasked fresh.1] at prepares
  obtain ⟨_, described, inquires, asks⟩ := of_bind_ok prepares
  obtain ⟨slots, asked, loads, notes⟩ := of_bind_ok asks
  obtain ⟨_, noted, learns, selects⟩ := of_bind_ok notes
  cases learns
  have kept := (inquire_keeps query).of_ok inquires
  have unasked : described.catalog.layoutFile = "" := (congrArg LayoutMemory.layoutFile kept).trans fresh.2
  obtain ⟨map, rfl, computes, memory⟩ := SlotMap.load_fresh unasked loads
  have samePrograms : described.workspace.programs = before.workspace.programs := congrArg LayoutMemory.programs kept
  refine ⟨map, (Workspace.slotMap_congr samePrograms query contract).symm.trans computes, ?_⟩
  calc
    after.layoutMemory = { asked.layoutMemory with slots := some map } := (inquireSelectors_keeps query).of_ok selects
    _ = { described.layoutMemory with layoutFile := query.file, slots := some map } := by rw [memory]
    _ = _ := by rw [kept]; rfl

theorem load_prepares {contract rootPath : String} {before after : Project} {map : SourceMap}
    (loads : load .current query contract rootPath before = .ok map after) :
    ∃ between, prepare .current query contract before = .ok () between ∧ after.layoutMemory = between.layoutMemory := by
  obtain ⟨_, between, prepares, rest⟩ := of_bind_ok loads
  refine ⟨between, prepares, Preserves.of_ok ?_ rest⟩
  refine .bind (sourceOf_keeps _) fun source => .bind (growPlaces_keeps _ _) fun places => .bind .get fun project => ?_
  cases project.catalog.description with
  | none => exact .throw _
  | some description =>
    exact .bind (ofExcept_keeps _) fun names => .bind (adjust_keeps _) fun _ =>
      .bind (ofExcept_keeps _) fun safeCalls => .bind (ofExcept_keeps _) fun calls =>
        .bind (ofExcept_keeps _) fun callees => .bind (ofExcept_keeps _) fun parameters =>
          .bind .get fun _ => .bind (ofExcept_keeps _) fun functions => .bind (adjust_keeps _) fun _ => .pure _

end SourceMap

theorem Compiler.use_keeps (version : String) : Work.KeepsPrograms (use version) :=
  .bind (outputOrFail_keeps _) fun _ => .pure _

theorem Compiler.useIfPossible_keeps (version : String) : Work.KeepsPrograms (useIfPossible version) := by
  refine .bind (attempt_keeps (use_keeps version)) fun result => ?_
  split
  · exact .pure _
  · exact .pure _
  · exact .throw _

theorem Compiler.useFor_keeps (path : String) : Work.KeepsPrograms (useFor path) := by
  refine .bind (readLines_keeps path) fun _ => .bind (ofExcept_keeps _) fun version =>
    .bind (outputOrFail_keeps _) fun installed => ?_
  exact .ite (.bind (outputOrFail_keeps _) fun _ => use_keeps version) (use_keeps version)

namespace Inputs

variable (inputs : Inputs)

theorem compile_keeps (target : String) (options : List String) (remap : Option Remap) :
    Work.KeepsPrograms (compile target options remap) :=
  .bind (note_keeps _) fun _ => .bind .get fun _ => .ite (.throw_bind _ _) (.pure _)

theorem readOutput_keeps (file : String) : Work.KeepsPrograms (readOutput file) :=
  .bind (readLines_keeps file) fun _ => ofExcept_keeps _

theorem compileInput_keeps : Work.KeepsPrograms inputs.compileInput :=
  .bind (run_keeps _) fun _ => .bind (run_keeps _) fun _ =>
    .bind (writeFile_keeps _ _) fun _ => .throw _

theorem writeListing_keeps (contract code : String) : Work.KeepsPrograms (writeListing contract code) := by
  refine .bind (ofExcept_keeps _) fun _ => .bind (writeFile_keeps _ _) fun _ =>
    .bind (attempt_keeps (output_keeps _)) fun result => ?_
  cases result with
  | ok listing => exact writeFile_keeps _ _
  | error fault => exact .throw _

theorem writeListings_keeps (contracts : List (String × String)) :
    Work.KeepsPrograms (contracts.forM fun contract => writeListing contract.1 contract.2) := by
  apply Preserves.forM
  intro contract
  exact writeListing_keeps contract.1 contract.2

def compileOrLeave (target : String) : Work (List (String × String)) := do
  match ← Work.attempt (compile target inputs.allowOption (some inputs.remap)) with
  | .ok contracts => return contracts
  | .error .sourceRejected => throw (.leave (some 1))
  | .error fault => throw fault

theorem compileOrLeave_keeps (target : String) : Work.KeepsPrograms (inputs.compileOrLeave target) := by
  refine .bind (attempt_keeps (compile_keeps _ _ _)) fun result => ?_
  split
  · exact .pure _
  · exact .throw _
  · exact .throw _

theorem compileSource_keeps : KeepsLayouts inputs.compileSource := by
  refine .bind .get fun project => work_keeps ?_
  have compiles := inputs.compileOrLeave_keeps (project.settings.source.getD "")
  have switches : Work.KeepsPrograms (
      if project.settings.compilerSwitch ≠ 0 then do
        Compiler.useFor (project.settings.source.getD "")
        inputs.compileOrLeave (project.settings.source.getD "")
      else
        inputs.compileOrLeave (project.settings.source.getD "")) :=
    .ite (.bind (Compiler.useFor_keeps _) fun _ => compiles) compiles
  cases project.settings.compilerVersion with
  | none => exact switches
  | some version => exact .ite (.bind (Compiler.useIfPossible_keeps version) fun _ => switches) switches

theorem contracts_keeps : KeepsLayouts inputs.contracts := by
  refine .bind .get fun project => .ite (.throw_bind _ _) (.ite (.pure _) ?_)
  cases inputs.kind with
  | compilerInput => exact .bind (work_keeps inputs.compileInput_keeps) fun _ => .bind (.modify fun _ => rfl) fun _ => .pure _
  | compilerOutput => exact .bind (work_keeps (readOutput_keeps _)) fun _ => .bind (.modify fun _ => rfl) fun _ => .pure _
  | code => exact .bind inputs.compileSource_keeps fun _ => .bind (.modify fun _ => rfl) fun _ => .pure _
  | source => exact .bind inputs.compileSource_keeps fun _ => .bind (.modify fun _ => rfl) fun _ => .pure _

theorem of_subject?_ok (current : inputs.dialect = .current) {targets : Option (List String)} {contract : String}
    {before after : Project} {found : Option Input} (run : inputs.subject? targets contract before = .ok found after) :
    (found = none ∧ after = before) ∨
      ∃ input subject between,
        found = some input ∧ input.subject = some subject ∧ subject.contract = contract ∧
          SourceMap.prepare .current inputs.query contract before = .ok () between ∧
            subject.slots = between.catalog.slots ∧ after.layoutMemory = between.layoutMemory := by
  unfold subject? at run
  generalize Text.splitOnChar ':' contract = parts at run
  match parts, run with
  | [], run => cases run
  | [_], run => cases run
  | _ :: _ :: _ :: _, run => cases run
  | [file, name], run =>
    dsimp only at run
    split at run
    · cases run
      exact .inl ⟨rfl, rfl⟩
    · obtain ⟨pattern, read, reads, compiles⟩ := of_bind_ok run
      obtain ⟨-, rfl⟩ := of_ofExcept_ok reads
      obtain ⟨map, mapped, maps, returns⟩ := of_bind_ok compiles
      rw [get_bind_apply] at returns
      cases returns
      rw [current] at maps
      obtain ⟨between, prepares, kept⟩ := SourceMap.load_prepares maps
      exact .inr ⟨_, _, between, rfl, rfl, rfl, prepares, congrArg LayoutMemory.slots kept, kept⟩

theorem query_file : inputs.query.file = inputs.source := by
  unfold query
  split <;> rfl

def subjectsOf (loaded : List Input) : List Subject :=
  loaded.filterMap Input.subject

theorem subjectsOf_cons {input : Input} {subject : Subject} (holds : input.subject = some subject)
    (loaded : List Input) :
    subjectsOf (input :: loaded) = subject :: subjectsOf loaded :=
  List.filterMap_cons_some holds

variable {inputs} {targets : Option (List String)} {contracts : List (String × String)} {before after : Project}
  {found : List (Option Input)}

theorem slots_of_asked (current : inputs.dialect = .current) (asked : before.catalog.mapFile ≠ "")
    (run : (contracts.mapM fun contract => inputs.subject? targets contract.1) before = .ok found after) :
    ∀ subject ∈ subjectsOf (found.filterMap id), subject.slots = before.catalog.slots := by
  induction contracts generalizing before found with
  | nil =>
    cases run
    exact fun _ member => nomatch member
  | cons contract rest ih =>
    rw [List.mapM_cons] at run
    obtain ⟨head, between, loads, others⟩ := of_bind_ok run
    obtain ⟨tail, last, loadsTail, returns⟩ := of_bind_ok others
    cases returns
    obtain ⟨rfl, rfl⟩ | ⟨input, subject, prepared, rfl, holds, -, prepares, slots, kept⟩ :=
      inputs.of_subject?_ok current loads
    · have others := ih asked loadsTail
      exact others
    · rw [SourceMap.prepare_asked asked] at prepares
      cases prepares
      have askedStill : between.catalog.mapFile ≠ "" := fun empty =>
        asked ((congrArg LayoutMemory.mapFile kept).symm.trans empty)
      have sameSlots : between.catalog.slots = before.catalog.slots := congrArg LayoutMemory.slots kept
      change ∀ other ∈ subjectsOf (input :: tail.filterMap id), _
      rw [subjectsOf_cons holds]
      intro other member
      cases member with
      | head => exact slots
      | tail _ later => exact (ih askedStill loadsTail other later).trans sameSlots

/-- The contract whose layout a contract is loaded with, by the first contract that is loaded. -/
def layoutOwner (inputs : Inputs) (first subject : Subject) : String :=
  if inputs.source = "" then subject.contract else first.contract

theorem layoutOwner_self (subject : Subject) : inputs.layoutOwner subject subject = subject.contract := by
  unfold layoutOwner
  split <;> rfl

theorem layoutOwner_unnamed (unnamed : inputs.source = "") (first subject : Subject) :
    inputs.layoutOwner first subject = subject.contract :=
  if_pos unnamed

theorem layoutOwner_named (named : inputs.source ≠ "") (first subject : Subject) :
    inputs.layoutOwner first subject = first.contract :=
  if_neg named

theorem slots_of_fresh (current : inputs.dialect = .current) (fresh : before.catalog.IsFresh)
    (run : (contracts.mapM fun contract => inputs.subject? targets contract.1) before = .ok found after) :
    ∀ subject ∈ subjectsOf (found.filterMap id), ∃ map,
      subject.slots = some map ∧
        before.workspace.slotMap inputs.query
          (inputs.layoutOwner ((subjectsOf (found.filterMap id)).headD subject) subject) = .ok map := by
  induction contracts generalizing before found with
  | nil =>
    cases run
    exact fun _ member => nomatch member
  | cons contract rest ih =>
    rw [List.mapM_cons] at run
    obtain ⟨head, between, loads, others⟩ := of_bind_ok run
    obtain ⟨tail, last, loadsTail, returns⟩ := of_bind_ok others
    cases returns
    obtain ⟨rfl, rfl⟩ | ⟨input, subject, prepared, rfl, holds, names, prepares, slots, kept⟩ :=
      inputs.of_subject?_ok current loads
    · have settled := ih fresh loadsTail
      exact settled
    · obtain ⟨map, computes, memory⟩ := SourceMap.prepare_fresh fresh prepares
      have known : prepared.catalog.slots = some map := congrArg LayoutMemory.slots memory
      rw [← names] at computes
      rw [memory, query_file] at kept
      change ∀ other ∈ subjectsOf (input :: tail.filterMap id), ∃ map,
        other.slots = some map ∧
          before.workspace.slotMap inputs.query
            (inputs.layoutOwner ((subjectsOf (input :: tail.filterMap id)).headD other) other) = .ok map
      rw [subjectsOf_cons holds]
      intro other member
      rw [List.headD_cons]
      cases member with
      | head => exact ⟨map, slots.trans known, by rw [layoutOwner_self]; exact computes⟩
      | tail _ later =>
        by_cases unnamed : inputs.source = ""
        · -- Nothing is noted of a source without a name, and the next contract is the first one again.
          have freshStill : between.catalog.IsFresh :=
            ⟨(congrArg LayoutMemory.mapFile kept).trans unnamed, (congrArg LayoutMemory.layoutFile kept).trans unnamed⟩
          have samePrograms : between.workspace.programs = before.workspace.programs :=
            congrArg LayoutMemory.programs kept
          obtain ⟨own, carries, computesOwn⟩ := ih freshStill loadsTail other later
          rw [layoutOwner_unnamed unnamed, Workspace.slotMap_congr samePrograms] at computesOwn
          exact ⟨own, carries, by rw [layoutOwner_unnamed unnamed]; exact computesOwn⟩
        · have asked : between.catalog.mapFile ≠ "" := fun empty =>
            unnamed ((congrArg LayoutMemory.mapFile kept).symm.trans empty)
          have carries := slots_of_asked current asked loadsTail other later
          have knownStill : between.catalog.slots = some map := congrArg LayoutMemory.slots kept
          exact ⟨map, carries.trans knownStill, by rw [layoutOwner_named unnamed]; exact computes⟩

theorem load_contracts (current : inputs.dialect = .current) {loaded : List Input}
    (run : inputs.load targets before = .ok loaded after) :
    subjectsOf loaded = [] ∨
      ∃ (contracts : List (String × String)) (found : List (Option Input)) (listed last : Project),
        listed.layoutMemory = before.layoutMemory ∧
          (contracts.mapM fun contract => inputs.subject? targets contract.1) listed = .ok found last ∧
            loaded = found.filterMap id := by
  unfold load at run
  by_cases bare : inputs.kind = .code
  · rw [if_pos bare] at run
    obtain ⟨_, listed, -, returns⟩ := of_bind_ok run
    cases returns
    exact .inl rfl
  · rw [if_neg bare] at run
    obtain ⟨contracts, compiled, compiles, counts⟩ := of_bind_ok run
    dsimp only at counts
    rw [if_pos current] at counts
    obtain ⟨_, counted, adjusts, lists⟩ := of_bind_ok counts
    obtain ⟨_, listed, writes, loads⟩ := of_bind_ok lists
    obtain ⟨found, last, runs, returns⟩ := of_bind_ok loads
    have kept : listed.layoutMemory = before.layoutMemory :=
      calc
        listed.layoutMemory = counted.layoutMemory := (work_keeps (writeListings_keeps contracts)).of_ok writes
        _ = compiled.layoutMemory := (adjust_keeps _).of_ok adjusts
        _ = before.layoutMemory := inputs.contracts_keeps.of_ok compiles
    refine .inr ⟨contracts, found, listed, last, kept, runs, ?_⟩
    split at returns
    · cases returns
    · cases returns
      rfl

/-- Every contract of a project is loaded with the layout of the first one. That is its own layout for the first contract
only, unless the source has no name. -/
theorem layout_of_first_contract (inputs : Inputs) (current : inputs.dialect = .current)
    (targets : Option (List String)) {before after : Project} (fresh : before.catalog.IsFresh) {loaded : List Input}
    (loads : inputs.load targets before = .ok loaded after) {first : Subject}
    (leads : (subjectsOf loaded).head? = some first) {subject : Subject} (member : subject ∈ subjectsOf loaded) :
    ∃ map,
      subject.slots = some map ∧
        before.workspace.slotMap inputs.query (inputs.layoutOwner first subject) = .ok map ∧
          (map.contract = subject.contract ↔ inputs.source = "" ∨ subject.contract = first.contract) := by
  obtain empty | ⟨contracts, found, listed, last, kept, runs, rfl⟩ := load_contracts current loads
  · rw [empty] at member
    cases member
  · have freshStill : listed.catalog.IsFresh :=
      ⟨(congrArg LayoutMemory.mapFile kept).trans fresh.1, (congrArg LayoutMemory.layoutFile kept).trans fresh.2⟩
    have samePrograms : listed.workspace.programs = before.workspace.programs := congrArg LayoutMemory.programs kept
    obtain ⟨map, carries, computes⟩ := slots_of_fresh current freshStill runs subject member
    rw [List.headD_eq_head?_getD, leads, Option.getD_some, Workspace.slotMap_congr samePrograms] at computes
    refine ⟨map, carries, computes, ?_⟩
    rw [Workspace.contract_of_slotMap computes]
    by_cases unnamed : inputs.source = ""
    · simp [layoutOwner_unnamed unnamed, unnamed]
    · simp [layoutOwner_named unnamed, unnamed, eq_comm]

def bareContract (id : Int) (name : String) : Json :=
  .object [("id", .integer id), ("name", .string name), ("nodeType", .string "ContractDefinition"),
    ("linearizedBaseContracts", .array [.integer id])]

def ofPair (part : Json) : Json :=
  .object [("contracts", .object [("a:C", part), ("a:D", part)])]

def pairCompiler : Json :=
  .object [
    ("ast", .object [("sources", .object [("a", .object [("AST",
      .object [("nodes", .array [bareContract 1 "C", bareContract 2 "D"])])])])]),
    ("asm", ofPair (.object [("asm", .object [(".data", .object [("0", .object [(".code", .array [])])])])])),
    ("storage-layout", ofPair (.object [("storage-layout", .object [("storage", .null)])])),
    ("hashes", ofPair (.object [("hashes", .object [])]))]

def pairProject : Project :=
  { workspace :=
      { files := [("a", "")]
        programs := [("solc", pairCompiler), ("evm", .object [])]
        compiled := [⟨"a", "C", ""⟩, ⟨"a", "D", ""⟩] }
    settings := { source := some "a" } }

def pairInputs : Inputs := { source := "a" }

set_option maxRecDepth 100000 in
theorem layout_of_first_contract_pair :
    pairInputs.dialect = .current ∧ pairProject.catalog.IsFresh ∧
      ∃ loaded after first second map,
        pairInputs.load none pairProject = .ok loaded after ∧ subjectsOf loaded = [first, second] ∧
          first.contract = "a:C" ∧ second.contract = "a:D" ∧ second.slots = some map ∧
            pairProject.workspace.slotMap pairInputs.query "a:C" = .ok map ∧ map.contract ≠ second.contract := by
  have fresh : pairProject.catalog.IsFresh := ⟨rfl, rfl⟩
  refine ⟨rfl, fresh, ?_⟩
  obtain ⟨loaded, after, run, names⟩ := exists_of_seen (show
    seen (fun loaded _ => (subjectsOf loaded).map Subject.contract) (pairInputs.load none pairProject) =
      some ["a:C", "a:D"] by decide +kernel)
  obtain ⟨first, others, subjects, isFirst, names⟩ := List.map_eq_cons_iff.mp names
  obtain ⟨second, others, rest, isSecond, names⟩ := List.map_eq_cons_iff.mp names
  rw [List.map_eq_nil_iff.mp names] at rest
  rw [rest] at subjects
  have leads : (subjectsOf loaded).head? = some first := by rw [subjects]; rfl
  have member : second ∈ subjectsOf loaded := by rw [subjects]; exact .tail _ (.head _)
  obtain ⟨map, carries, computes, own⟩ := layout_of_first_contract pairInputs rfl none fresh run leads member
  have owner : pairInputs.layoutOwner first second = "a:C" := (layoutOwner_named (by decide) _ _).trans isFirst
  rw [owner] at computes
  refine ⟨loaded, after, first, second, map, run, subjects, isFirst, isSecond, carries, computes, ?_⟩
  rw [Ne, own, isFirst, isSecond]
  decide

end Inputs

end MintAudit
