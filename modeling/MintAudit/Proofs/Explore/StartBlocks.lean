import MintAudit.Proofs.Explore.Smooth
import MintAudit.Proofs.Number.Numeral
import MintAudit.Proofs.SyntaxTree.TransferReachability

namespace MintAudit

/-!
# Where exploration starts

The functions that emit transfers are looked for by name, and a name is taken to be that of every function in whose
signature it occurs.
-/

/-! ## One function after another -/

open Exec

def Exec.KeepsPath (computation : Exec α) : Prop :=
  ∀ machine, (computation.after machine).path = machine.path

theorem Exec.KeepsPath.bind {computation : Exec α} {next : α → Exec β} (first : KeepsPath computation)
    (second : ∀ value, KeepsPath (next value)) :
    KeepsPath (computation >>= next) := by
  intro machine
  have kept := first machine
  cases run : computation machine with
  | ok value between =>
    rw [after_of_ok run] at kept
    rw [after_bind_of_ok run, second value between, kept]
  | error fault between =>
    rw [after_of_error run] at kept
    rw [after_bind_of_error run, kept]

theorem Exec.Reads.keepsPath {computation : Exec α} (reads : Reads computation) : KeepsPath computation := by
  intro machine
  rw [reads machine]

theorem Exec.modifySession_keepsPath (change : Session → Session) : KeepsPath (modifySession change) :=
  fun _ => rfl

namespace Explore

variable {decider : Decider}

theorem onCopy_keepsPath (change : Path → Path) (computation : Exec α) : KeepsPath (onCopy change computation) := by
  intro machine
  rw [onCopy_after]

theorem attempt_keepsPath {computation : Exec Unit} (keeps : KeepsPath computation) :
    KeepsPath (attempt computation) := by
  intro machine
  rcases attempt_eq computation machine with run | ⟨fault, run⟩
  · rw [after_of_ok run, keeps machine]
  · rw [after_of_error run, keeps machine]

theorem followSide_keepsPath (condition : Except Fault Term) {target : Exec Int} (reads : Reads target)
    (follow : Int → Exec Unit) :
    KeepsPath (followSide decider condition target follow) := by
  have left : KeepsPath leaveScope :=
    session_reads.keepsPath.bind fun _ => (lift_reads _).keepsPath.bind fun _ => modifySession_keepsPath _
  unfold followSide
  refine (modifySession_keepsPath _).bind fun _ => (lift_reads _).keepsPath.bind fun condition => ?_
  refine (modifySession_keepsPath _).bind fun _ => ?_
  refine (attempt_keepsPath ?_).bind fun _ => left
  unfold enterSide
  refine session_reads.keepsPath.bind fun session => ?_
  split
  · exact reads.keepsPath.bind fun address => onCopy_keepsPath _ _
  · exact (pure_reads _).keepsPath

theorem finishPath_keepsPath : KeepsPath finishPath := by
  unfold finishPath
  refine (modifySession_keepsPath _).bind fun _ => session_reads.keepsPath.bind fun session => ?_
  split
  · split
    · exact (throw_reads _).keepsPath
    · exact (throw_reads _).keepsPath
  · exact (pure_reads _).keepsPath

theorem leaveBlock_keepsPath (block previous : Int) (follow : Int → Exec Unit) (kind : JumpKind) :
    KeepsPath (leaveBlock decider block previous follow kind) := by
  cases kind with
  | terminal => exact finishPath_keepsPath
  | unconditional => exact (jumpAddress_reads block).keepsPath.bind fun _ => onCopy_keepsPath _ _
  | fallsTo => exact (nextBlock_reads block).keepsPath.bind fun _ => onCopy_keepsPath _ _
  | conditional =>
    refine (branchCondition_reads block).keepsPath.bind fun condition => ?_
    refine (followSide_keepsPath condition (jumpTarget_reads block) follow).bind fun _ => ?_
    refine (followSide_keepsPath _ (nextBlock_reads block) follow).bind fun _ => ?_
    exact modifySession_keepsPath _
  | other name => exact (modifySession_keepsPath _).bind fun _ => (throw_reads _).keepsPath

theorem Visit.explored_path (visit : Visit) : (visit.explored decider).path = (visit.reached decider).path := by
  unfold reached
  cases run : visit.arrival decider with
  | error fault machine => rw [explored_of_error run, after_of_error run]
  | ok arrival machine =>
    rw [after_of_ok run]
    cases arrival with
    | stopped ending => rw [explored_of_stopped run]
    | atEnd kind function =>
      cases remaining : visit.remaining with
      | zero => rw [explored_of_bound remaining run, finishPath_keepsPath machine]
      | succ more => rw [explored_of_exit (exit?_of_atEnd remaining run), leaveBlock_keepsPath]

def beginning (block : Int) (machine : Machine) : Visit where
  remaining := remainingDepth machine.session.settings 0
  block := block
  previous := 0
  function := "fallback"
  machine := machine

variable (decider) in
def beginnings : List Int → Machine → List Visit
  | [], _ => []
  | block :: rest, machine =>
    beginning block machine ::
      match exploreFrom decider block machine with
      | .ok _ next => beginnings rest next
      | .error _ _ => []

theorem exploreFrom_eq_ok {block : Int} {machine next : Machine}
    (run : exploreFrom decider block machine = .ok () next) :
    let explored := (beginning block machine).explored decider
    let found := explored.session.watch.findings.emptyEvent
    ∃ finding,
      next = rewatched { explored.session.watch with findings :=
        { explored.session.watch.findings with emptyEvent := finding } } explored ∧
      (if explored.session.watch.stored then
        retract machine.session.watch.findings.emptyEvent.notes.length found
      else
        .ok found) = .ok finding := by
  unfold exploreFrom at run
  rw [bind_ok (session_apply machine)] at run
  obtain ⟨_, explored, came, settled⟩ := of_bind_ok run
  have left : (beginning block machine).explored decider = explored := by
    obtain ⟨_, _, ran, same⟩ := of_bind_ok came
    cases same
    exact after_of_ok ran
  rw [left]
  rw [bind_ok (session_apply explored)] at settled
  dsimp only at settled ⊢
  split at settled
  · next stored =>
    obtain ⟨finding, between, lifted, noted⟩ := of_bind_ok settled
    rw [if_pos stored]
    cases retracted : retract machine.session.watch.findings.emptyEvent.notes.length
        explored.session.watch.findings.emptyEvent with
    | error fault =>
      rw [retracted] at lifted
      cases lifted
    | ok kept =>
      rw [retracted] at lifted
      cases lifted
      cases noted
      exact ⟨finding, rfl, rfl⟩
  · next unstored =>
    rw [if_neg unstored]
    cases settled
    exact ⟨_, rfl, rfl⟩

variable (decider) in
/-- How an exploration finds what the one before it left, which came to its end. -/
structure Passed (earlier later : Visit) : Prop where
  runs : exploreFrom decider earlier.block earlier.machine = .ok () later.machine
  path : later.machine.path = (earlier.reached decider).path
  scopes : later.machine.session.scopes.Above earlier.machine.session.scopes
  closed : earlier.machine.session.settings.unitTest = 0 → (∀ visit ∈ earlier.tour decider, visit.Smooth decider) →
    later.machine.session.scopes.Extends earlier.machine.session.scopes

theorem passed_of_exploreFrom {block : Int} {machine next : Machine}
    (run : exploreFrom decider block machine = .ok () next) (following : Int) :
    Passed decider (beginning block machine) (beginning following next) := by
  obtain ⟨finding, same, _⟩ := exploreFrom_eq_ok run
  have path : next.path = ((beginning block machine).explored decider).path := by rw [same]; rfl
  have scopes : next.session.scopes = ((beginning block machine).explored decider).session.scopes := by rw [same]; rfl
  refine ⟨run, path.trans (Visit.explored_path _), ?_, fun untested smooth => ?_⟩
  · have roams := explore_roaming decider (remainingDepth machine.session.settings 0) block 0 "fallback" machine
      machine.speaks_unrestricted (Nat.zero_le _)
    exact scopes ▸ roams.above
  · obtain ⟨ending, explored, ran, asserts⟩ := Visit.returns untested smooth
    rw [Visit.explored, after_of_ok ran] at scopes
    exact scopes ▸ asserts

variable (decider) in
/-- Exploring the blocks one after another ends as the last of the visits does, and only a fault keeps one from beginning. -/
structure Explores (blocks : List Int) (machine : Machine) (visits : List Visit) : Prop where
  ends : blocks.forM (exploreFrom decider) machine =
    visits.getLast?.elim (.ok () machine) fun last => exploreFrom decider last.block last.machine
  begun : visits.map Visit.block <+: blocks
  all : ∀ after, blocks.forM (exploreFrom decider) machine = .ok () after → visits.map Visit.block = blocks

theorem forM_exploreFrom (blocks : List Int) (machine : Machine) :
    Explores decider blocks machine (beginnings decider blocks machine) := by
  induction blocks generalizing machine with
  | nil => exact ⟨rfl, List.prefix_rfl, fun _ _ => rfl⟩
  | cons block rest ih =>
    rw [beginnings]
    cases run : exploreFrom decider block machine with
    | error fault next =>
      have whole : (block :: rest).forM (exploreFrom decider) machine = .error fault next := bind_error run
      refine ⟨whole.trans run.symm, List.cons_prefix_cons.mpr ⟨rfl, List.nil_prefix⟩, fun after runs => ?_⟩
      cases whole.symm.trans runs
    | ok value next =>
      have whole : (block :: rest).forM (exploreFrom decider) machine = rest.forM (exploreFrom decider) next := bind_ok run
      obtain ⟨ends, begun, all⟩ := ih next
      refine ⟨(whole.trans ends).trans ?_, List.cons_prefix_cons.mpr ⟨rfl, begun⟩,
        fun after runs => congrArg (block :: ·) (all after (whole.symm.trans runs))⟩
      cases rest with
      | nil => exact run.symm
      | cons following more =>
        dsimp only
        rw [beginnings, List.getLast?_cons_cons, List.getLast?_cons]
        rfl

theorem isChain_beginnings (blocks : List Int) (machine : Machine) :
    (beginnings decider blocks machine).IsChain (Passed decider) := by
  induction blocks generalizing machine with
  | nil => exact .nil
  | cons block rest ih =>
    rw [beginnings]
    cases run : exploreFrom decider block machine with
    | error fault next => exact .singleton _
    | ok value next =>
      cases rest with
      | nil => exact .singleton _
      | cons following more => exact .cons_cons (passed_of_exploreFrom run following) (ih next)

/-- The first function is explored from the machine as it is given. Every later one finds the path as the first block of
the function before it left it. What was asserted then is asserted still; if nothing failed, no scope was left open. All
blocks are explored so, up to the first that fails. -/
theorem beginnings_passed (blocks : List Int) (machine : Machine) :
    (∀ first ∈ (beginnings decider blocks machine).head?, first.machine = machine) ∧
      (beginnings decider blocks machine).IsChain (Passed decider) ∧
      Explores decider blocks machine (beginnings decider blocks machine) := by
  refine ⟨fun first same => ?_, isChain_beginnings blocks machine, forM_exploreFrom blocks machine⟩
  cases blocks with
  | nil => cases same
  | cons block rest =>
    cases same
    rfl

theorem beginnings_passed_branchOnDeposit :
    (∀ first ∈ (beginnings .permissive [1, 2] branchOnDeposit).head?, first.machine = branchOnDeposit) ∧
      (beginnings .permissive [1, 2] branchOnDeposit).IsChain (Passed .permissive) ∧
      (beginnings .permissive [1, 2] branchOnDeposit).map Visit.block = [1, 2] := by
  obtain ⟨first, chain, explores⟩ := @beginnings_passed .permissive [1, 2] branchOnDeposit
  have returns : ([1, 2].forM (exploreFrom .permissive)).returns branchOnDeposit = true := by decide +kernel
  obtain ⟨_, runs⟩ := ok_of_returns returns
  exact ⟨first, chain, explores.all _ runs⟩

end Explore

/-! ## The blocks that exploration starts from -/

open TransferFunctions Table

theorem Graph.nodup_functionStartsFrom {state : Dispatch} {lines : List (Int × String)}
    {starts found : Table Int String} (distinct : (keys starts).Nodup)
    (read : functionStartsFrom state lines starts = .ok found) :
    (keys found).Nodup := by
  fun_induction functionStartsFrom state lines starts with
  | case1 =>
    cases read
    exact distinct
  | case3 | case8 | case9 => cases read
  | case7 _ _ _ starts selector _ _ _ address _ ih =>
    exact ih (nodup_keys_put distinct address selector) read
  | case2 _ _ _ _ _ _ _ ih => exact ih distinct read
  | case4 _ _ _ _ _ ih => exact ih distinct read
  | case5 _ _ _ _ _ _ ih => exact ih distinct read
  | case6 _ _ _ _ _ _ ih => exact ih distinct read
  | case10 _ _ _ _ _ _ ih => exact ih distinct read

theorem Graph.nodup_functionStarts {graph : Graph} {starts : Table Int String}
    (read : graph.functionStarts = .ok starts) :
    (keys starts).Nodup :=
  nodup_functionStartsFrom (show (keys []).Nodup from List.nodup_nil) read

namespace Explore

def leadingTexts : List Json → List String
  | .string text :: rest => text :: leadingTexts rest
  | _ => []

/-- The names by which functions that emit transfers are looked for: those of the description in a file up to one that
is no text, and none if the description cannot be read. -/
def targets (dialect : Dialect) (description : Option String) (contract : String) : List String :=
  match description.map fun text => Json.read text >>= TransferFunctions.find dialect contract with
  | some (.ok functions) => leadingTexts (Table.keys functions)
  | _ => []

theorem targets_of_read {dialect : Dialect} {text contract : String} {content : Json} {functions : Table Json Json}
    (read : Json.read text = .ok content) (found : find dialect contract content = .ok functions) :
    targets dialect (some text) contract = leadingTexts (keys functions) := by
  have both : (Json.read text >>= find dialect contract) = .ok functions := by
    rw [read]
    exact found
  simp only [targets, Option.map_some, both]

def occurrences (functions : Table String String) (names : List String) (selector : String) : Nat :=
  match Table.get? selector functions with
  | some signature => names.countP fun name => name.toList <:+: signature.toList
  | none => 0

theorem occurrences_cons (functions : Table String String) (name : String) (names : List String) (selector : String) :
    occurrences functions (name :: names) selector =
      occurrences functions [name] selector + occurrences functions names selector := by
  unfold occurrences
  cases get? selector functions with
  | none => rfl
  | some signature => rw [← List.countP_append, List.singleton_append]

theorem occurrences_pos_iff (functions : Table String String) (names : List String) (selector : String) :
    0 < occurrences functions names selector ↔
      ∃ signature, get? selector functions = some signature ∧ ∃ name ∈ names, name.toList <:+: signature.toList := by
  unfold occurrences
  cases get? selector functions with
  | none => simp
  | some signature => simp [List.countP_pos_iff]

section Dispatcher

variable {starts : Table Int String} {functions : Table String String} {selector other : String} {block : Int}

theorem mem_of_blockOf? (start : blockOf? starts selector = some block) : (block, selector) ∈ starts := by
  obtain ⟨entry, first, rfl⟩ := Option.map_eq_some_iff.mp start
  have same : entry.2 = selector := by simpa using List.find?_some first
  subst same
  exact List.mem_of_find?_eq_some first

theorem blockOf?_inj (distinct : (keys starts).Nodup) (start : blockOf? starts selector = some block)
    (otherStart : blockOf? starts other = some block) :
    other = selector := by
  have here := get?_of_mem distinct (mem_of_blockOf? start)
  have there := get?_of_mem distinct (mem_of_blockOf? otherStart)
  exact Option.some.inj (there.symm.trans here)

theorem blocksNamed_cons (signature : String) (rest : Table String String) (name : String) :
    blocksNamed starts ((selector, signature) :: rest) name =
      (if Text.contains signature name then (blockOf? starts selector).toList else []) ++
        blocksNamed starts rest name := by
  unfold blocksNamed
  rw [List.filterMap_cons]
  split
  · next missing =>
    split at missing <;> simp_all
  · next found =>
    split at found <;> simp_all

theorem count_blocksNamed (distinct : (keys starts).Nodup) (once : (keys functions).Nodup)
    (start : blockOf? starts selector = some block) (name : String) :
    (blocksNamed starts functions name).count block = occurrences functions [name] selector := by
  induction functions with
  | nil => rfl
  | cons entry rest ih =>
    obtain ⟨present, signature⟩ := entry
    obtain ⟨new, restOnce⟩ := List.nodup_cons.mp once
    rw [blocksNamed_cons, List.count_append, ih restOnce]
    unfold occurrences
    by_cases same : present = selector
    · subst same
      have missing : get? present rest = none := (get?_eq_none_iff present rest).mpr new
      simp only [get?, missing, start, BEq.rfl, if_true, Option.toList_some, Nat.add_zero]
      by_cases occurs : Text.contains signature name
      · simp [occurs, (Text.contains_iff signature name).mp occurs]
      · simp [occurs, mt (Text.contains_iff signature name).mpr occurs]
    · have elsewhere : block ∉ (blockOf? starts present).toList := by
        intro member
        exact same (blockOf?_inj distinct start (Option.mem_toList.mp member))
      have none : (if Text.contains signature name then (blockOf? starts present).toList else []).count block = 0 := by
        split
        · exact List.count_eq_zero.mpr elsewhere
        · rfl
      rw [none, Nat.zero_add, get?, if_neg (by simpa using same)]

theorem blocksOfNames_eq (starts : Table Int String) (functions : Table String String) (names : List Json) :
    blocksOfNames starts functions names = (leadingTexts names).flatMap (blocksNamed starts functions) := by
  fun_induction blocksOfNames starts functions names with
  | case1 => rfl
  | case2 name rest ih => rw [ih, leadingTexts, List.flatMap_cons]
  | case3 name rest empty _ ih =>
    have nothing : functions = [] := by simpa using empty
    subst nothing
    have none : ∀ names : List String, names.flatMap (blocksNamed starts []) = [] := by simp [blocksNamed]
    rw [ih, none, none]
  | case4 name rest _ noText =>
    rw [leadingTexts]
    · rfl
    · simpa using noText

theorem count_flatMap_blocksNamed (distinct : (keys starts).Nodup) (once : (keys functions).Nodup)
    (start : blockOf? starts selector = some block) (names : List String) :
    (names.flatMap (blocksNamed starts functions)).count block = occurrences functions names selector := by
  induction names with
  | nil =>
    unfold occurrences
    split <;> rfl
  | cons name names ih =>
    rw [List.flatMap_cons, List.count_append, ih, count_blocksNamed distinct once start, ← occurrences_cons]

theorem exists_blockOf?_of_mem {names : List String} (member : block ∈ names.flatMap (blocksNamed starts functions)) :
    ∃ selector, blockOf? starts selector = some block := by
  obtain ⟨name, _, named⟩ := List.mem_flatMap.mp member
  obtain ⟨entry, _, found⟩ := List.mem_filterMap.mp named
  split at found
  · exact ⟨entry.1, found⟩
  · cases found

end Dispatcher

def withTransfer (starts : Table Int String) (blocks : List Int) : List Int :=
  match blockOf? starts transferSelector with
  | some block => if block ∈ blocks then blocks else block :: blocks
  | none => blocks

theorem transferBlocks_eq (dialect : Dialect) (description : Option String) (map : SourceMap)
    (starts : Table Int String) :
    transferBlocks dialect description map starts =
      withTransfer starts ((targets dialect description map.contract).flatMap (blocksNamed starts map.functions)) := by
  have joined : ∀ blocks : List Int,
      (match blockOf? starts transferSelector with
        | some block => if blocks.contains block then blocks else block :: blocks
        | none => blocks) = withTransfer starts blocks := by
    intro blocks
    unfold withTransfer
    simp only [List.contains_iff_mem]
  unfold transferBlocks targets
  cases description with
  | none => exact joined []
  | some text =>
    dsimp only [Option.map_some]
    cases Json.read text >>= find dialect map.contract with
    | error fault => exact joined []
    | ok functions =>
      rw [← blocksOfNames_eq]
      exact joined _

section Joined

variable {starts : Table Int String} {selector : String} {block : Int} {blocks : List Int}

theorem count_withTransfer (distinct : (keys starts).Nodup) (start : blockOf? starts selector = some block) :
    (withTransfer starts blocks).count block =
      max (blocks.count block) (if selector = transferSelector then 1 else 0) := by
  unfold withTransfer
  cases usual : blockOf? starts transferSelector with
  | none =>
    have different : selector ≠ transferSelector := by
      rintro rfl
      rw [usual] at start
      cases start
    simp [different]
  | some first =>
    by_cases same : selector = transferSelector
    · subst same
      obtain rfl : first = block := Option.some.inj (usual.symm.trans start)
      by_cases present : first ∈ blocks
      · have positive := List.count_pos_iff.mpr present
        simp only [present, if_true]
        omega
      · simp [present, List.count_eq_zero.mpr present]
    · have elsewhere : first ≠ block := by
        rintro rfl
        exact same (blockOf?_inj distinct usual start)
      by_cases present : first ∈ blocks <;> simp [present, same, elsewhere]

theorem exists_blockOf?_of_mem_withTransfer
    (known : ∀ block ∈ blocks, ∃ selector, blockOf? starts selector = some block)
    (member : block ∈ withTransfer starts blocks) :
    ∃ selector, blockOf? starts selector = some block := by
  unfold withTransfer at member
  cases usual : blockOf? starts transferSelector with
  | none =>
    rw [usual] at member
    exact known block member
  | some first =>
    simp only [usual] at member
    split at member
    · exact known block member
    · rcases List.mem_cons.mp member with rfl | later
      · exact ⟨transferSelector, usual⟩
      · exact known block later

end Joined

theorem startBlocks_of_untargeted {machine : Machine} {map : SourceMap} {starts : Table Int String}
    (description : Option String) (source : machine.session.source = some map)
    (untargeted : ∀ selector ∈ machine.session.settings.targetFunction, selector = "")
    (dispatcher : machine.session.graph.functionStarts = .ok starts) :
    startBlocks description machine =
      .ok (transferBlocks (Dialect.ofLow machine.session.settings.isLowVersion) description map starts)
        { machine with session := { machine.session with functionStarts := starts } } := by
  unfold startBlocks
  rw [bind_ok (session_apply machine)]
  conv_lhs => simp only [source, dispatcher]
  rw [bind_ok (lift_ok _ _), bind_ok (modifySession_apply _ _)]
  cases asked : machine.session.settings.targetFunction with
  | none => rfl
  | some selector =>
    obtain rfl : selector = "" := untargeted selector asked
    rfl

/-- Every function is started from as often as target names occur in its signature, and the usual transfer function once
at least. -/
theorem startBlocks_counted {machine : Machine} {map : SourceMap} {starts : Table Int String}
    (description : Option String) (source : machine.session.source = some map)
    (untargeted : ∀ selector ∈ machine.session.settings.targetFunction, selector = "")
    (dispatcher : machine.session.graph.functionStarts = .ok starts) (once : (Table.keys map.functions).Nodup) :
    let names := targets (Dialect.ofLow machine.session.settings.isLowVersion) description map.contract
    ∃ blocks,
      startBlocks description machine =
        .ok blocks { machine with session := { machine.session with functionStarts := starts } } ∧
      (∀ block ∈ blocks, ∃ selector, blockOf? starts selector = some block) ∧
      (∀ selector block, blockOf? starts selector = some block →
        blocks.count block =
            max (occurrences map.functions names selector) (if selector = transferSelector then 1 else 0) ∧
          (block ∈ blocks ↔ selector = transferSelector ∨
            ∃ signature, Table.get? selector map.functions = some signature ∧
              ∃ name ∈ names, name.toList <:+: signature.toList)) ∧
      (blocks.Nodup ↔
        ∀ selector block, blockOf? starts selector = some block → occurrences map.functions names selector ≤ 1) := by
  intro names
  have distinct := Graph.nodup_functionStarts dispatcher
  have counted : ∀ selector block, blockOf? starts selector = some block →
      (withTransfer starts (names.flatMap (blocksNamed starts map.functions))).count block =
        max (occurrences map.functions names selector) (if selector = transferSelector then 1 else 0) := by
    intro selector block start
    rw [count_withTransfer distinct start, count_flatMap_blocksNamed distinct once start]
  have known : ∀ block ∈ withTransfer starts (names.flatMap (blocksNamed starts map.functions)),
      ∃ selector, blockOf? starts selector = some block :=
    fun block => exists_blockOf?_of_mem_withTransfer fun block => exists_blockOf?_of_mem
  refine ⟨_, startBlocks_of_untargeted description source untargeted dispatcher, ?_⟩
  rw [transferBlocks_eq]
  refine ⟨known, fun selector block start => ⟨counted selector block start, ?_⟩, ?_⟩
  · rw [← List.count_pos_iff, counted selector block start, ← occurrences_pos_iff]
    by_cases usual : selector = transferSelector
    · simp [usual]
    · simp [usual]
  · rw [List.nodup_iff_count_le_one]
    refine ⟨fun single selector block start => ?_, fun single block => ?_⟩
    · exact (le_max_left _ _).trans (counted selector block start ▸ single block)
    · by_cases member : block ∈ withTransfer starts (names.flatMap (blocksNamed starts map.functions))
      · obtain ⟨selector, start⟩ := known block member
        rw [counted selector block start]
        refine max_le (single selector block start) ?_
        split <;> omega
      · exact (List.count_eq_zero.mpr member).trans_le (Nat.zero_le 1)

def mintDescription : String :=
  String.join
    ["\x7b\"contractsByName\": \x7b\"a.sol:C\": ", "\x7b\"nodes\": [\x7b\"nodeType\": ", "\"FunctionDefinition\", ",
      "\"name\": \"mint\", ", "\"functionSelector\": \"40c10f19\", ", "\"body\": \x7b\"statements\": ",
      "[\x7b\"nodeType\": \"EmitStatement\", ", "\"eventCall\": \x7b\"expression\": ", "\x7b\"name\": \"Transfer\"\x7d\x7d",
      "\x7d]\x7d\x7d]\x7d\x7d\x7d"]

theorem targets_mintDescription : targets .current (some mintDescription) "a.sol:C" = ["mint"] := by
  have read : Json.read mintDescription = .ok (description [mintNode (.array [transferNode])]) := by
    simp only [Json.read, Json.read?, mintDescription, String.toList_join]
    cbv
  have found : find .current "a.sol:C"
      (description [mintNode (.array [transferNode])]) = .ok [(.string "mint", .string "40c10f19")] := by
    rw [find_single, reaches]
    rfl
  exact targets_of_read read found

def mintWithFee : Machine where
  session :=
    { graph :=
        { instructions :=
            [(0, "PUSH4 0x40c10f19"), (5, "EQ"), (6, "PUSH2 0x0015"), (9, "JUMPI"), (10, "PUSH4 0xa0712d68"), (15, "EQ"),
              (16, "PUSH2 0x0019"), (19, "JUMPI"), (20, "STOP"), (21, "JUMPDEST"), (22, "STOP"), (23, "STOP"),
              (24, "STOP"), (25, "JUMPDEST"), (26, "STOP")] }
      source :=
        some { functions := [("40c10f19", "mint(address,uint256)"), ("a0712d68", "mintFee(uint256)")] } }
  path := {}

theorem startBlocks_counted_fee :
    targets .current (some mintDescription) "a.sol:C" = ["mint"] ∧
      ∃ blocks after, startBlocks (some mintDescription) mintWithFee = .ok blocks after ∧
        blocks.count 21 = 1 ∧ blocks.count 25 = 1 ∧ blocks.Nodup := by
  have dispatcher : mintWithFee.session.graph.functionStarts = .ok [(21, "40c10f19"), (25, "a0712d68")] := by
    decide +kernel
  obtain ⟨blocks, returns, _, counted, single⟩ :=
    startBlocks_counted (some mintDescription) (show mintWithFee.session.source = some _ from rfl)
      (by decide) dispatcher (by decide)
  have names : targets (Dialect.ofLow mintWithFee.session.settings.isLowVersion) (some mintDescription) "a.sol:C" =
      ["mint"] := targets_mintDescription
  rw [names] at counted single
  refine ⟨targets_mintDescription, blocks, _, returns, ?_, ?_, ?_⟩
  · exact (counted "40c10f19" 21 (by decide +kernel)).1.trans (by decide +kernel)
  · exact (counted "a0712d68" 25 (by decide +kernel)).1.trans (by decide +kernel)
  · refine single.mpr fun selector block _ => ?_
    unfold occurrences
    split
    · exact List.countP_le_length
    · exact Nat.zero_le 1

end Explore

end MintAudit
