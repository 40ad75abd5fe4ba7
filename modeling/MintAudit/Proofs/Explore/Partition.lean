import MintAudit.Proofs.Explore.Smooth

namespace MintAudit

/-!
# The leaves part the assignments

Where no value is moved, the assertions at the end of a block are those at its start.
-/

open Exec List

namespace Exec

def Level (computation : Exec α) : Prop :=
  ∀ before value after, computation before = .ok value after →
    after.session.scopes = before.session.scopes ∧ after.path.conditions = before.path.conditions

variable {computation : Exec α}

theorem Level.bind {next : α → Exec β} (first : Level computation) (second : ∀ value, Level (next value)) :
    Level (computation >>= next) := by
  intro before value after run
  obtain ⟨found, between, ran, rest⟩ := of_bind_ok run
  obtain ⟨scopes, conditions⟩ := first before found between ran
  obtain ⟨scopesLater, conditionsLater⟩ := second found between value after rest
  exact ⟨scopesLater.trans scopes, conditionsLater.trans conditions⟩

theorem Orderly.level {distance : Int} {gives : Nat → α → Prop}
    (orderly : ∀ given, Orderly Vocabulary.unrestricted.frame 0 distance given computation gives) :
    Level computation := by
  intro before value after run
  have result := orderly _ before before.session.scopes rfl before.speaks_unrestricted ⟨[], rfl, rfl⟩
  rw [run] at result
  exact ⟨result.2.1, result.2.2.1⟩

theorem Steady.level {holds : Nat → α → Prop}
    (steady : ∀ given, Steady Vocabulary.unrestricted.frame given computation (holds given)) :
    Level computation :=
  Orderly.level fun given => (steady given).tidy

theorem Reads.level (reads : Reads computation) : Level computation := by
  intro before value after run
  have same := reads before
  rw [after_of_ok run] at same
  rw [same]
  exact ⟨rfl, rfl⟩

end Exec

namespace Explore

variable {decider : Decider}

variable (block : Int) (function : String)

theorem perform_level {instruction : Instruction} (still : ¬ instruction.MovesValue) :
    Level (Machine.perform decider block function instruction) :=
  Orderly.level fun _ => Machine.perform_tidy decider block function still fun part _ => Vocabulary.unrestricted.blind part

theorem executeLine_level {line : String} (still : ¬ (Instruction.ofLine (Text.strip line)).MovesValue) :
    Level (executeLine decider block function line) := by
  have step : Level (Machine.step decider block function (Text.strip line)) := by
    intro before value after run
    rw [Machine.step_eq] at run
    split at run
    · cases run
    · have performed := perform_level block function still _ value after run
      exact performed
  unfold executeLine
  refine currentText_reads.level.bind fun text => step.bind fun _ => ?_
  exact Steady.level fun given => noteSource_steady (Vocabulary.unrestricted.blind .owner) given text

theorem executeLines_level (lines : List String) {before after : Machine}
    (still : ∀ moment ∈ moments decider block function lines before, ¬ moment.instruction.MovesValue)
    (run : lines.forM (executeLine decider block function) before = .ok () after) :
    after.session.scopes = before.session.scopes ∧ after.path.conditions = before.path.conditions := by
  induction lines generalizing before with
  | nil =>
    cases run
    exact ⟨rfl, rfl⟩
  | cons line rest ih =>
    rw [moments] at still
    obtain ⟨first, later⟩ := forall_mem_cons.mp still
    obtain ⟨value, between, ran, followed⟩ := of_bind_ok run
    rw [ran] at later
    obtain ⟨scopes, conditions⟩ := executeLine_level block function first before _ between ran
    obtain ⟨scopesLater, conditionsLater⟩ := ih later followed
    exact ⟨scopesLater.trans scopes, conditionsLater.trans conditions⟩

theorem executeLines_of_runs (lines : List String) {machine : Machine}
    (runs : ∀ moment ∈ moments decider block function lines machine, ∃ next, moment.run decider = .ok () next) :
    ∃ after, lines.forM (executeLine decider block function) machine = .ok () after := by
  induction lines generalizing machine with
  | nil => exact ⟨machine, rfl⟩
  | cons line rest ih =>
    rw [moments] at runs
    obtain ⟨⟨next, ran⟩, later⟩ := forall_mem_cons.mp runs
    unfold Moment.run at ran
    rw [ran] at later
    obtain ⟨after, run⟩ := ih later
    exact ⟨after, (bind_ok ran).trans run⟩

namespace Visit

variable (decider) in
/-- The block of the call is there and is executed to its end, no value is moved, and it is known how a path goes on. -/
structure Regular (visit : Visit) : Prop where
  present : 0 ≤ visit.block ∧ ∃ current, visit.machine.session.graph.block visit.block = .ok current
  named : ∀ map ∈ visit.machine.session.source,
    ∀ selector ∈ Table.get? visit.block visit.machine.session.functionStarts,
      ∃ signature, Table.get? selector map.functions = some signature
  fewEdges : edgeCount visit.machine.session (visit.previous, visit.block) < visit.machine.session.settings.loopLimit
  runs : ∀ moment ∈ visit.moments decider, ∃ next, moment.run decider = .ok () next
  still : ∀ moment ∈ visit.moments decider, ¬ moment.instruction.MovesValue
  kind : ∃ kind, Table.get? visit.block visit.machine.session.graph.kinds = some kind
  leads : ∀ exit, visit.exit? decider = some exit → exit.Leads

end Visit

theorem admission_eq_ready {block previous : Int} {function : String} {machine : Machine} {current : Block}
    (few : edgeCount machine.session (previous, block) ≤ machine.session.settings.loopLimit)
    (fueled : machine.path.gas.total ≤ machine.session.settings.gasLimit)
    (found : machine.session.graph.block block = .ok current) :
    admission block previous function machine = .ready current function := by
  unfold admission
  rw [if_neg (not_or.mpr ⟨few.not_gt, fueled.not_gt⟩), found]

namespace Visit

variable {visit : Visit}

theorem Regular.counts (regular : visit.Regular decider) : visit.counts := by
  refine Bool.and_eq_true_iff.mpr ⟨decide_eq_true regular.present.1, ?_⟩
  unfold Exec.returns enterFunction
  rw [bind_ok (session_apply visit.machine)]
  cases source : visit.machine.session.source with
  | none => rfl
  | some map =>
    dsimp only
    cases start : Table.get? visit.block visit.machine.session.functionStarts with
    | none => rfl
    | some selector =>
      obtain ⟨signature, found⟩ := regular.named map source selector start
      dsimp only
      rw [found]
      rfl

theorem Regular.approaches (regular : visit.Regular decider)
    (fueled : visit.machine.path.gas.total ≤ visit.machine.session.settings.gasLimit) :
    ∃ current function machine,
      approach visit.block visit.previous visit.function visit.machine = .ok (.ready current function) machine ∧
        machine.session.graph = visit.machine.session.graph := by
  obtain ⟨_, current, found⟩ := regular.present
  have few := regular.fewEdges
  have grown := edgeCount_counting visit.edge visit.edge 1 visit.machine.session
  rw [if_pos rfl] at grown
  refine ⟨current, visit.name, _, (approach_of_counts regular.counts).trans (congrArg (EStateM.Result.ok · _) ?_), rfl⟩
  refine admission_eq_ready ?_ fueled found
  show edgeCount (visit.machine.session.counting visit.edge 1) visit.edge ≤ _
  rw [grown]
  exact few

theorem Regular.arrives (regular : visit.Regular decider)
    (fueled : visit.machine.path.gas.total ≤ visit.machine.session.settings.gasLimit) :
    ∃ kind function machine, visit.arrival decider = .ok (.atEnd kind function) machine := by
  obtain ⟨current, function, ready, approached, graph⟩ := regular.approaches fueled
  have runs := regular.runs
  unfold moments at runs
  rw [approached] at runs
  obtain ⟨after, ran⟩ := executeLines_of_runs visit.block function current.lines runs
  have roams := (executeLines_following decider visit.block function current.lines).roaming 0 ready
    ready.speaks_unrestricted (Nat.zero_le _)
  rw [after_of_ok ran] at roams
  obtain ⟨kind, known⟩ := regular.kind
  let visited : Machine := { after with path := { after.path with visited := after.path.visited ++ [visit.block] } }
  have knownStill : Table.get? visit.block visited.session.graph.kinds = some kind := by
    have kinds : after.session.graph.kinds = ready.session.graph.kinds := congrArg Standing.kinds roams.lasting
    rw [← known, ← graph, ← kinds]
  refine ⟨kind, function, visited, ?_⟩
  unfold arrival arrive
  rw [bind_ok approached]
  have noting : modifyPath (fun path => { path with visited := path.visited ++ [visit.block] }) after =
      .ok () visited := rfl
  refine (bind_ok ran).trans ((bind_ok noting).trans ((bind_ok (session_apply visited)).trans ?_))
  rw [knownStill]
  rfl

theorem Regular.level (regular : visit.Regular decider) {kind : JumpKind} {function : String} {machine : Machine}
    (reached : visit.arrival decider = .ok (.atEnd kind function) machine) :
    machine.session.scopes = visit.machine.session.scopes ∧
      machine.path.conditions = visit.machine.path.conditions := by
  have still := regular.still
  unfold moments at still
  obtain ⟨current, ready, done, approached, ran, rfl⟩ := of_atEnd reached
  rw [approached] at still
  obtain ⟨scopes, conditions⟩ := executeLines_level visit.block function current.lines still ran
  have before : ready.session.scopes = visit.machine.session.scopes ∧
      ready.path.conditions = visit.machine.path.conditions := by
    have same := visit.approach_after
    rw [after_of_ok approached] at same
    rw [same]
    unfold entered
    split <;> exact ⟨rfl, rfl⟩
  exact ⟨scopes.trans before.1, conditions.trans before.2⟩

theorem Regular.smooth (regular : visit.Regular decider)
    (fueled : visit.machine.path.gas.total ≤ visit.machine.session.settings.gasLimit) :
    visit.Smooth decider := by
  obtain ⟨kind, function, machine, reached⟩ := regular.arrives fueled
  exact ⟨⟨_, machine, reached⟩, regular.leads⟩

/-- The assignment goes the way of the branches that led to the call. -/
def Follows (assignment : Assignment) (visit : Visit) : Prop :=
  ∀ condition ∈ visit.taken, condition.Holds assignment

instance (assignment : Assignment) (visit : Visit) : Decidable (visit.Follows assignment) :=
  inferInstanceAs (Decidable (∀ condition ∈ visit.taken, _))

end Visit

structure Recalls (initial : List Word) (taken : List Term) (machine : Machine) : Prop where
  asserted : machine.session.scopes.assertions = taken
  assumed : machine.path.conditions = initial ++ taken.map asWord

namespace Exit

variable {exit : Exit} {initial : List Word}

theorem side_recalls {condition : Term} {target : Exec Int} {machine : Machine}
    (recalls : Recalls initial exit.taken machine) {next : Visit}
    (entered : exit.side decider condition target machine = some next) :
    Recalls initial next.taken next.machine := by
  obtain ⟨_, address, rfl⟩ := of_side entered
  constructor
  · exact (assertions_aside condition machine).trans (congrArg (· ++ [condition]) recalls.asserted)
  · show machine.path.conditions ++ [asWord condition] = initial ++ (exit.taken ++ [condition]).map asWord
    rw [recalls.assumed, map_append, List.append_assoc]
    rfl

theorem successors_recalls (sound : decider.Sound) (complete : decider.Complete)
    (recalls : Recalls initial exit.taken exit.machine) {next : Visit} (member : next ∈ exit.successors decider) :
    Recalls initial next.taken next.machine := by
  obtain ⟨address, rfl⟩ | ⟨condition, tested, jumped | fallen⟩ := of_mem_successors member
  · have taken : exit.taken ++ [] = exit.taken := append_nil _
    exact ⟨recalls.asserted.trans taken.symm, recalls.assumed.trans (by rw [← taken]; rfl)⟩
  · exact side_recalls recalls jumped
  · obtain ⟨machine, _, _, path, scopes, side⟩ :=
      fall_restored sound complete exit.machine.speaks_unrestricted tested fallen
    refine side_recalls ⟨?_, ?_⟩ side
    · rw [scopes]
      exact recalls.asserted
    · rw [path]
      exact recalls.assumed

end Exit

def Parts (decider : Decider) (assignment : Assignment) (visit : Visit) : Prop :=
  (visit.leaves decider).countP (fun leaf => leaf.Follows assignment) = if visit.Follows assignment then 1 else 0

namespace Exit

variable {exit : Exit} {assignment : Assignment}

theorem countP_side (sound : decider.Sound) {condition : Term} {target : Exec Int} {machine : Machine}
    (asserted : machine.session.scopes.assertions = exit.taken) {address : Int}
    (run : target (aside condition machine) = .ok address (aside condition machine))
    (parts : ∀ next ∈ (exit.side decider condition target machine).toList, Parts decider assignment next) :
    ((exit.side decider condition target machine).toList.flatMap (Visit.leaves decider)).countP
        (fun leaf => leaf.Follows assignment) =
      if ∀ known ∈ exit.taken ++ [condition], known.Holds assignment then 1 else 0 := by
  by_cases pruned : decider (aside condition machine).session.scopes.assertions = .unsatisfiable
  · have none : exit.side decider condition target machine = none := by
      unfold side
      rw [sideEntry_of_unsatisfiable pruned]
      rfl
    rw [none, if_neg]
    · rfl
    · intro holds
      refine (sound _).2 pruned ⟨assignment, ?_⟩
      rwa [assertions_aside, asserted]
  · rw [side_of_ok pruned run] at parts ⊢
    rw [Option.toList_some, flatMap_singleton]
    exact parts _ (Option.mem_toList.mpr rfl)

theorem countP_onward {target : Exec Int} {address : Int} (run : target exit.machine = .ok address exit.machine)
    (parts : ∀ next ∈ (exit.onward target).toList, Parts decider assignment next) :
    ((exit.onward target).toList.flatMap (Visit.leaves decider)).countP (fun leaf => leaf.Follows assignment) =
      if ∀ known ∈ exit.taken, known.Holds assignment then 1 else 0 := by
  rw [onward_of_ok run] at parts ⊢
  have counted := parts _ (Option.mem_toList.mpr rfl)
  simpa [Parts, Visit.Follows, visit] using counted

theorem sides_add (taken : List Term) (condition : Term) (assignment : Assignment) :
    ((if ∀ known ∈ taken ++ [condition], known.Holds assignment then 1 else 0) +
      if ∀ known ∈ taken ++ [.unary .negation condition], known.Holds assignment then 1 else 0) =
      if ∀ known ∈ taken, known.Holds assignment then 1 else 0 := by
  simp only [forall_mem_append, forall_mem_singleton, Term.holds_negation]
  by_cases all : ∀ known ∈ taken, known.Holds assignment
  · by_cases holds : condition.Holds assignment
    · simp [holds]
    · simp [holds]
  · simp [all]

theorem countP_successors (sound : decider.Sound) (asserted : exit.machine.session.scopes.assertions = exit.taken)
    (leads : exit.Leads) (proceeds : exit.kind ≠ .terminal)
    (returns : ∀ next ∈ exit.successors decider, next.Returns decider)
    (parts : ∀ next ∈ exit.successors decider, Parts decider assignment next) :
    ((exit.successors decider).flatMap (Visit.leaves decider)).countP (fun leaf => leaf.Follows assignment) =
      if ∀ known ∈ exit.taken, known.Holds assignment then 1 else 0 := by
  unfold Leads at leads
  unfold successors at returns parts ⊢
  cases kind : exit.kind with
  | terminal => exact (proceeds kind).elim
  | unconditional =>
    rw [kind] at leads parts
    obtain ⟨address, run⟩ := leads
    exact countP_onward run parts
  | fallsTo =>
    rw [kind] at leads parts
    obtain ⟨address, run⟩ := leads
    exact countP_onward run parts
  | conditional =>
    rw [kind] at leads returns parts
    obtain ⟨⟨condition, tested⟩, address, follows⟩ := leads
    rw [tested] at returns parts ⊢
    obtain ⟨jumpReturns, _⟩ := forall_mem_append.mp returns
    obtain ⟨jumpParts, fallParts⟩ := forall_mem_append.mp parts
    obtain ⟨target, run⟩ := jumpTarget_of_condition? tested
    obtain ⟨between, returned, same⟩ := restored_of_returns tested jumpReturns
    have roams := (of_jumped exit.machine.speaks_unrestricted tested returned).1
    have followsStill := nextBlock_aside (nextBlock_of_lasting roams.lasting follows) (.unary .negation condition)
    have side := fall_of_jumped returned
    rw [side] at fallParts
    dsimp only
    rw [side, flatMap_append, countP_append, ← sides_add exit.taken condition assignment]
    exact congrArg₂ (· + ·) (countP_side sound asserted run jumpParts)
      (countP_side sound (same ▸ asserted) followsStill fallParts)
  | other name =>
    rw [kind] at leads
    exact leads.elim

end Exit

namespace Visit

variable {visit : Visit} {initial : List Word}

theorem successors_recalls (sound : decider.Sound) (complete : decider.Complete) (regular : visit.Regular decider)
    (recalls : Recalls initial visit.taken visit.machine) {next : Visit} (member : next ∈ visit.successors decider) :
    Recalls initial next.taken next.machine := by
  obtain ⟨exit, found, later⟩ := exists_exit member
  obtain ⟨_, reached, _, taken⟩ := exit?_eq_some found
  obtain ⟨scopes, conditions⟩ := regular.level reached
  refine Exit.successors_recalls sound complete ⟨?_, ?_⟩ later
  · rw [scopes, taken]
    exact recalls.asserted
  · rw [conditions, taken]
    exact recalls.assumed

theorem tour_lasting (start : Visit) :
    ∀ visit ∈ start.tour decider,
      visit.machine.session.lasting = start.machine.session.lasting ∧
        visit.machine.path.gas = start.machine.path.gas := by
  refine forall_tour (fun visit kept next member => ?_) ⟨rfl, rfl⟩
  obtain ⟨lasting, gas⟩ := successors_lasting member
  exact ⟨lasting.trans kept.1, gas.trans kept.2⟩

theorem returns_of_regular (untested : visit.machine.session.settings.unitTest = 0)
    (fueled : visit.machine.path.gas.total ≤ visit.machine.session.settings.gasLimit)
    (regular : ∀ next ∈ visit.tour decider, next.Regular decider) :
    visit.Returns decider := by
  refine returns untested fun next member => ?_
  obtain ⟨lasting, gas⟩ := tour_lasting visit next member
  refine (regular next member).smooth ?_
  have limit : next.machine.session.settings.gasLimit = visit.machine.session.settings.gasLimit :=
    congrArg Standing.gasLimit lasting
  rwa [gas, limit]

theorem parts (sound : decider.Sound) (complete : decider.Complete)
    (recalls : Recalls initial visit.taken visit.machine) (untested : visit.machine.session.settings.unitTest = 0)
    (fueled : visit.machine.path.gas.total ≤ visit.machine.session.settings.gasLimit)
    (regular : ∀ next ∈ visit.tour decider, next.Regular decider) (assignment : Assignment) :
    Parts decider assignment visit := by
  induction visit using Visit.induction decider with
  | step visit ih =>
    rw [tour_eq] at regular
    obtain ⟨own, behind⟩ := forall_mem_cons.mp regular
    have regularBehind : ∀ next ∈ visit.successors decider, ∀ later ∈ next.tour decider, later.Regular decider :=
      fun next member later inside => behind later (mem_flatMap.mpr ⟨next, member, inside⟩)
    have passes : ∀ next ∈ visit.successors decider, next.machine.session.settings.unitTest = 0 ∧
        next.machine.path.gas.total ≤ next.machine.session.settings.gasLimit := by
      intro next member
      obtain ⟨lasting, gas⟩ := successors_lasting member
      have limit : next.machine.session.settings.gasLimit = visit.machine.session.settings.gasLimit :=
        congrArg Standing.gasLimit lasting
      refine ⟨(congrArg Standing.unitTest lasting).trans untested, ?_⟩
      rwa [gas, limit]
    have returns : ∀ next ∈ visit.successors decider, next.Returns decider := fun next member =>
      returns_of_regular (passes next member).1 (passes next member).2 (regularBehind next member)
    have parts : ∀ next ∈ visit.successors decider, Parts decider assignment next := fun next member =>
      ih next member (successors_recalls sound complete own recalls member) (passes next member).1
        (passes next member).2 (regularBehind next member)
    obtain ⟨kind, function, machine, reached⟩ := own.arrives fueled
    unfold Parts
    rw [leaves_eq, countP_append]
    cases remaining : visit.remaining with
    | zero => simp [successors_of_bound remaining, isLeaf, reached, remaining]
    | succ more =>
      have found := exit?_of_atEnd remaining reached
      rw [successors_of_exit found] at returns parts ⊢
      by_cases terminal : kind = .terminal
      · simp [isLeaf, reached, terminal, Exit.successors]
      · have asserted := (congrArg Scopes.assertions (own.level reached).1).trans recalls.asserted
        rw [Exit.countP_successors sound asserted (own.leads _ found) terminal returns parts]
        have noLeaf : visit.isLeaf decider = false := by simp [isLeaf, reached, remaining, terminal]
        rw [noLeaf, if_neg Bool.false_ne_true, countP_nil, Nat.zero_add]
        rfl

end Visit

/-- Every assignment of the symbols follows exactly one of the paths that end, if every block that is come to is
regular: it is there, it is executed to its end without moving value, and it is known how a path goes on. -/
theorem leaves_partition (sound : decider.Sound) (complete : decider.Complete) (start : Visit)
    (untaken : start.taken = []) (unasserted : start.machine.session.scopes = {})
    (untested : start.machine.session.settings.unitTest = 0)
    (fueled : start.machine.path.gas.total ≤ start.machine.session.settings.gasLimit)
    (regular : ∀ visit ∈ start.tour decider, visit.Regular decider) :
    (∀ assignment, (start.leaves decider).countP (fun leaf => leaf.Follows assignment) = 1) ∧
      (∀ leaf ∈ start.leaves decider,
        leaf.machine.path.conditions = start.machine.path.conditions ++ leaf.taken.map asWord) ∧
      start.Returns decider ∧
      (start.explored decider).session.finishedPaths =
        start.machine.session.finishedPaths + (start.leaves decider).length := by
  have recalls : Recalls start.machine.path.conditions start.taken start.machine := by
    rw [untaken]
    refine ⟨?_, (append_nil _).symm⟩
    rw [unasserted]
    rfl
  refine ⟨fun assignment => ?_, fun leaf member => ?_, ?_, ?_⟩
  · have follows : start.Follows assignment := by
      rw [Visit.Follows, untaken]
      exact forall_mem_nil _
    exact (Visit.parts sound complete recalls untested fueled regular assignment).trans (if_pos follows)
  · have everywhere : ∀ visit ∈ start.tour decider,
        (∀ later ∈ visit.tour decider, later.Regular decider) ∧
          Recalls start.machine.path.conditions visit.taken visit.machine := by
      refine Visit.forall_tour (fun visit kept next made => ?_) ⟨regular, recalls⟩
      obtain ⟨own, behind⟩ := forall_mem_cons.mp (Visit.tour_eq visit ▸ kept.1)
      refine ⟨fun later inside => behind later (mem_flatMap.mpr ⟨next, made, inside⟩), ?_⟩
      exact Visit.successors_recalls sound complete own kept.2 made
    exact (everywhere leaf (mem_filter.mp member).1).2.assumed
  · exact Visit.returns_of_regular untested fueled regular
  · exact start.recorded.finished

def branchOnDepositBetween : Machine :=
  { branchOnDepositEnd.machine with
    session :=
      { branchOnDepositEnd.machine.session with
        visitedPcs := [2, 0]
        takenEdges := [((0, 0), 1), ((0, 2), 1)]
        finishedPaths := 1
        trace :=
          { block := 2, pc := 2, line := "STOP", depth := 0, function := "f()" } ::
            branchOnDepositEnd.machine.session.trace
        executed := 2 } }

theorem branchOnDeposit_jumped : branchOnDepositEnd.jumped .exact depositSent = .ok () branchOnDepositBetween := by
  have possible : Decider.exact (aside depositSent branchOnDepositEnd.machine).session.scopes.assertions ≠
      .unsatisfiable := by
    rw [Decider.exact_sound.possible_iff Decider.exact_complete]
    exact ⟨fun _ _ => 1, forall_mem_singleton.mpr (by decide)⟩
  have entered : enterSide .exact depositSent (jumpTarget 0) (branchOnDepositEnd.follow .exact)
      (aside depositSent branchOnDepositEnd.machine) = .ok () _ :=
    (enterSide_of_satisfiable possible _).trans rfl
  unfold Exit.jumped
  rw [followSide_of_ok]
  exact (bind_ok (attempt_of_ok entered)).trans rfl

theorem branchOnDeposit_regular : ∀ visit ∈ branchOnDepositStart.tour .exact, visit.Regular .exact := by
  have found : branchOnDepositStart.exit? .exact = some branchOnDepositEnd := rfl
  have unnamed : ∀ map ∈ branchOnDeposit.session.source,
      ∀ selector ∈ (none : Option String), ∃ signature, Table.get? selector map.functions = some signature := by
    intro map _ selector absent
    cases absent
  have start : branchOnDepositStart.Regular .exact := by
    refine ⟨⟨by decide, _, rfl⟩, unnamed, by decide, ?_, ?_, ⟨_, rfl⟩, fun exit same => ?_⟩
    · exact forall_mem_singleton.mpr ⟨_, rfl⟩
    · exact forall_mem_singleton.mpr (by rintro (same | same | same) <;> cases same)
    · obtain rfl : branchOnDepositEnd = exit := Option.some.inj same
      exact ⟨⟨_, rfl⟩, _, rfl⟩
  -- Both sides stop at once, and there is no block behind them.
  have jump : (branchOnDepositEnd.visit [depositSent] 2
      (entering 2 depositSent (aside depositSent branchOnDepositEnd.machine))).Regular .exact := by
    refine ⟨⟨by decide, _, rfl⟩, unnamed, by decide, ?_, ?_, ⟨_, rfl⟩, fun exit same => ?_⟩
    · exact forall_mem_singleton.mpr ⟨_, rfl⟩
    · exact forall_mem_singleton.mpr (by rintro (same | same | same) <;> cases same)
    · cases same
  have fall : (branchOnDepositEnd.visit [.unary .negation depositSent] 1
      (entering 1 (.unary .negation depositSent)
        (aside (.unary .negation depositSent) branchOnDepositBetween))).Regular .exact := by
    refine ⟨⟨by decide, _, rfl⟩, unnamed, by decide, ?_, ?_, ⟨_, rfl⟩, fun exit same => ?_⟩
    · exact forall_mem_singleton.mpr ⟨_, rfl⟩
    · exact forall_mem_singleton.mpr (by rintro (same | same | same) <;> cases same)
    · cases same
  intro visit member
  rw [Visit.tour_eq, Visit.successors_of_exit found] at member
  rcases mem_cons.mp member with rfl | later
  · exact start
  · obtain ⟨next, made, inside⟩ := mem_flatMap.mp later
    rw [Visit.tour_eq, Visit.successors_of_bound (Exit.remaining_of_mem_successors made)] at inside
    obtain rfl := mem_singleton.mp inside
    rcases mem_append.mp made with jumped | fallen
    · obtain rfl := Exit.side_eq_some rfl (Option.mem_toList.mp jumped)
      exact jump
    · obtain ⟨machine, returned, side⟩ := Exit.fall_eq_some (Option.mem_toList.mp fallen)
      rw [branchOnDeposit_jumped] at returned
      cases returned
      obtain rfl := Exit.side_eq_some rfl side
      exact fall

theorem leaves_partition_branchOnDeposit :
    (∀ assignment, (branchOnDepositStart.leaves .exact).countP (fun leaf => leaf.Follows assignment) = 1) ∧
      (∀ leaf ∈ branchOnDepositStart.leaves .exact,
        leaf.machine.path.conditions = branchOnDeposit.path.conditions ++ leaf.taken.map asWord) ∧
      branchOnDepositStart.Returns .exact ∧
      (branchOnDepositStart.explored .exact).session.finishedPaths = 0 + (branchOnDepositStart.leaves .exact).length :=
  leaves_partition Decider.exact_sound Decider.exact_complete branchOnDepositStart rfl rfl rfl (by decide)
    branchOnDeposit_regular

end Explore

end MintAudit
