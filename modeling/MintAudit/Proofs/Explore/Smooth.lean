import MintAudit.Proofs.Explore.Succession

namespace MintAudit

/-!
# Branches and what comes behind them

If no block fails behind a call, the call comes back and leaves no scope open.
-/

/-! ## Both sides of a branch -/

open Exec

@[simp] theorem Term.holds_negation (assignment : Assignment) (condition : Term) :
    Term.Holds assignment (.unary .negation condition) ↔ ¬ Term.Holds assignment condition := by
  simp [Term.Holds, Term.eval, UnaryOp.apply]

theorem Decider.Sound.possible_iff {decider : Decider} (sound : decider.Sound) (complete : decider.Complete)
    (conditions : List Term) :
    decider conditions ≠ .unsatisfiable ↔ Satisfiable conditions := by
  constructor
  · intro possible
    cases verdict : decider conditions with
    | satisfiable => exact (sound conditions).1 verdict
    | unsatisfiable => exact (possible verdict).elim
    | undecided => exact (complete conditions verdict).elim
  · intro satisfiable pruned
    exact (sound conditions).2 pruned satisfiable

open Classical in
noncomputable def Decider.exact : Decider := fun conditions =>
  if Satisfiable conditions then .satisfiable else .unsatisfiable

theorem Decider.exact_sound : Decider.exact.Sound := by
  intro conditions
  unfold Decider.exact
  constructor
  · intro answered
    split at answered
    · assumption
    · cases answered
  · intro answered
    split at answered
    · cases answered
    · assumption

theorem Decider.exact_complete : Decider.exact.Complete := by
  intro conditions undecided
  unfold Decider.exact at undecided
  split at undecided
  · cases undecided
  · cases undecided

theorem not_satisfiable_negation {conditions : List Term} {condition : Term} (member : condition ∈ conditions) :
    ¬ Satisfiable (conditions ++ [.unary .negation condition]) := by
  rintro ⟨assignment, holds⟩
  obtain ⟨before, last⟩ := List.forall_mem_append.mp holds
  exact (Term.holds_negation assignment condition).mp (last _ (List.mem_singleton.mpr rfl)) (before condition member)

theorem Path.initial_speaks (vocabulary : Vocabulary) (given : Nat) : Path.initial.Speaks vocabulary given := by
  have plain : ∀ name ∈ ["Iv", "init_Is", "init_Ia"], vocabulary.Admits given name := by
    intro name member
    refine vocabulary.admits_of_head ?_ given
    simp only [List.mem_cons, List.not_mem_nil, or_false] at member
    rcases member with rfl | rfl | rfl <;> decide
  have deposit := plain "Iv" (by simp)
  have caller := plain "init_Is" (by simp)
  have contract := plain "init_Ia" (by simp)
  constructor
  case balances => simp [Path.initial, Path.deposit, Word.Only, Term.Only, deposit, caller, contract]
  case conditions => simp [Path.initial, Path.deposit, Word.Only, Term.Only, deposit, caller, contract]
  case touched => trivial
  all_goals exact List.forall_mem_nil _

theorem Machine.speaks_of_unbranched {vocabulary : Vocabulary} {machine : Machine}
    (path : machine.path.Speaks vocabulary machine.session.names.other)
    (unbranched : ∀ entry ∈ machine.session.graph.blocks, entry.2.branch = none)
    (parameters : ∀ map ∈ machine.session.source, ∀ entry ∈ map.parameters, ∀ parameter ∈ entry.2,
      vocabulary.Admits 0 parameter.name) :
    machine.Speaks vocabulary := by
  refine ⟨path, ?_, parameters⟩
  intro entry member branch present
  rw [unbranched entry member] at present
  cases present

namespace Machine.InStep

variable {branches : Nat} {machine : Machine}

theorem enterScope (inStep : machine.InStep branches) :
    (machine.rescoped machine.session.scopes.enter).InStep (branches + 1) where
  initial := inStep.initial
  same := by
    rw [Machine.rescoped, Scopes.assertions_enter]
    exact inStep.same
  scopes := congrArg (· + 1) inStep.scopes
  feasible := by
    rw [Machine.rescoped, Scopes.assertions_enter]
    exact inStep.feasible

theorem entering (inStep : machine.InStep branches) {condition : Term} (kind : condition.kind = .condition)
    (feasible : Satisfiable (machine.session.scopes.assertions ++ [condition])) (address : Int) :
    (Explore.entering address condition (Explore.aside condition machine)).InStep (branches + 1) := by
  refine inStep.enterScope.assume (Explore.conditionOf_asWord kind) ?_ rfl rfl
  rw [Machine.rescoped, Scopes.assertions_enter]
  exact feasible

end Machine.InStep

namespace Explore

variable {decider : Decider} {vocabulary : Vocabulary}

theorem branchCondition_kind {block : Int} {machine next : Machine} {condition : Term}
    (found : branchCondition block machine = .ok (.ok condition) next) :
    condition.kind = .condition := by
  simp only [branchCondition, bind_apply] at found
  split at found
  · split at found
    · next word _ _ =>
      cases tested : conditionOf word with
      | ok value =>
        rw [tested] at found
        cases found
        exact conditionOf_kind tested
      | error fault =>
        rw [tested] at found
        cases found
    · cases found
  · cases found

namespace Exit

variable {exit : Exit}

variable {condition : Term} {machine : Machine}

theorem condition?_eq_some (tested : exit.condition? = some condition) :
    branchCondition exit.block exit.machine = .ok (.ok condition) exit.machine := by
  unfold condition? at tested
  rcases (branchCondition_reads exit.block).eq exit.machine with ⟨value, found⟩ | ⟨fault, failed⟩
  · rw [found] at tested ⊢
    cases value with
    | ok found =>
      cases tested
      rfl
    | error fault => cases tested
  · rw [failed] at tested
    cases tested

theorem of_condition? (speaks : exit.machine.Speaks vocabulary) (tested : exit.condition? = some condition) :
    condition.kind = .condition ∧ condition.Only (vocabulary.Admits exit.machine.session.names.other) :=
  ⟨branchCondition_kind (condition?_eq_some tested), branchCondition_gives speaks (condition?_eq_some tested)⟩

theorem side_eq_some {target : Exec Int} {address : Int}
    (run : target (aside condition machine) = .ok address (aside condition machine)) {next : Visit}
    (entered : exit.side decider condition target machine = some next) :
    next = exit.visit [condition] address (entering address condition (aside condition machine)) := by
  rw [side_of_ok (of_side entered).1 run] at entered
  exact (Option.some.inj entered).symm

theorem follow_roaming (given : Nat) (address : Int) : Roaming vocabulary given (exit.follow decider address) :=
  (explore_roaming decider exit.remaining address exit.block exit.function).bind fun _ => (pure_reads _).roaming given

theorem of_jumped (speaks : exit.machine.Speaks vocabulary) (tested : exit.condition? = some condition)
    (returned : exit.jumped decider condition = .ok () machine) :
    exit.machine.Roams vocabulary machine ∧ machine.path = exit.machine.path ∧
      (machine.session.scopes = exit.machine.session.scopes ∨ condition ∈ machine.session.scopes.assertions) := by
  have only := (of_condition? speaks tested).2
  have gives : Gives (Term.Only (vocabulary.Admits exit.machine.session.names.other)) (.ok condition) := only
  have reads := jumpTarget_reads exit.block
  have roaming : ∀ address, Roaming vocabulary exit.machine.session.names.other (exit.follow decider address) :=
    follow_roaming _
  have roams : exit.machine.Roams vocabulary
      ((followSide decider (.ok condition) (jumpTarget exit.block) (exit.follow decider)).after exit.machine) :=
    followSide_roaming reads roaming gives exit.machine speaks le_rfl
  have samePath : ((enterSide decider condition (jumpTarget exit.block) (exit.follow decider)).after
      (aside condition exit.machine)).path = exit.machine.path :=
    (enterSide_roams reads roaming (aside_speaks speaks condition) le_rfl only).2
  obtain ⟨left, _, _, same, outcome⟩ := followSide_outcome reads roaming speaks le_rfl only
  unfold jumped at returned
  rw [after_of_ok returned] at roams
  rw [returned] at outcome
  rcases outcome with ⟨⟨⟩⟩ | ⟨fault, ⟨⟩⟩
  exact ⟨roams, samePath, same⟩

end Exit

structure Visit.OnCourse (vocabulary : Vocabulary) (visit : Visit) : Prop where
  speaks : visit.machine.Speaks vocabulary
  inStep : visit.machine.InStep visit.taken.length

namespace Exit

variable {exit : Exit}

structure OnCourse (vocabulary : Vocabulary) (exit : Exit) : Prop where
  speaks : exit.machine.Speaks vocabulary
  inStep : exit.machine.InStep exit.taken.length

variable {next : Visit} {condition : Term}

theorem side_onCourse (sound : decider.Sound) (complete : decider.Complete) (kind : condition.kind = .condition)
    {machine : Machine} (speaks : machine.Speaks vocabulary) (inStep : machine.InStep exit.taken.length)
    (only : condition.Only (vocabulary.Admits machine.session.names.other)) {target : Exec Int}
    (entered : exit.side decider condition target machine = some next) :
    next.OnCourse vocabulary := by
  obtain ⟨possible, address, rfl⟩ := of_side entered
  rw [assertions_aside, sound.possible_iff complete] at possible
  refine ⟨entering_speaks (aside_speaks speaks condition) only address, ?_⟩
  simpa [visit] using inStep.entering kind possible address

theorem fall_restored (sound : decider.Sound) (complete : decider.Complete) (speaks : exit.machine.Speaks vocabulary)
    (tested : exit.condition? = some condition) (entered : exit.fall decider condition = some next) :
    ∃ machine, exit.jumped decider condition = .ok () machine ∧
      exit.machine.Roams vocabulary machine ∧ machine.path = exit.machine.path ∧
      machine.session.scopes = exit.machine.session.scopes ∧
      exit.side decider (.unary .negation condition) (nextBlock exit.block) machine = some next := by
  obtain ⟨machine, returned, side⟩ := fall_eq_some entered
  obtain ⟨roams, path, same⟩ := of_jumped speaks tested returned
  refine ⟨machine, returned, roams, path, same.resolve_right fun asserted => ?_, side⟩
  -- The condition of the first side would contradict that of the second.
  have possible := (of_side side).1
  rw [assertions_aside, sound.possible_iff complete] at possible
  exact not_satisfiable_negation asserted possible

theorem fall_onCourse (sound : decider.Sound) (complete : decider.Complete) (onCourse : exit.OnCourse vocabulary)
    (tested : exit.condition? = some condition) (entered : exit.fall decider condition = some next) :
    next.OnCourse vocabulary := by
  obtain ⟨machine, _, roams, path, scopes, side⟩ := fall_restored sound complete onCourse.speaks tested entered
  obtain ⟨_, only⟩ := of_condition? onCourse.speaks tested
  refine side_onCourse sound complete rfl roams.speaks ?_ ?_ side
  · exact onCourse.inStep.transfer scopes (congrArg Path.conditions path)
  · exact only.mono fun _ => vocabulary.grows roams.given

theorem successors_onCourse (sound : decider.Sound) (complete : decider.Complete) (onCourse : exit.OnCourse vocabulary)
    (member : next ∈ exit.successors decider) :
    next.OnCourse vocabulary := by
  obtain ⟨address, rfl⟩ | ⟨condition, tested, jumped | fallen⟩ := of_mem_successors member
  · obtain ⟨⟨path, session⟩, inStep⟩ := onCourse
    have taken : exit.taken ++ [] = exit.taken := List.append_nil _
    exact ⟨⟨{ path with }, session⟩, congrArg List.length taken ▸ inStep.transfer rfl rfl⟩
  · obtain ⟨kind, only⟩ := of_condition? onCourse.speaks tested
    exact side_onCourse sound complete kind onCourse.speaks onCourse.inStep only jumped
  · exact fall_onCourse sound complete onCourse tested fallen

end Exit

theorem Visit.successors_onCourse (sound : decider.Sound) (complete : decider.Complete) (strict : vocabulary.Strict)
    {visit : Visit} (onCourse : visit.OnCourse vocabulary) {next : Visit} (member : next ∈ visit.successors decider) :
    next.OnCourse vocabulary := by
  obtain ⟨exit, found, later⟩ := exists_exit member
  obtain ⟨_, reached, _, taken⟩ := exit?_eq_some found
  have result := arrive_following decider visit.block visit.previous visit.function visit.machine onCourse.speaks
  unfold arrival at reached
  rw [reached] at result
  obtain ⟨roams, _, keeps⟩ := result
  refine Exit.successors_onCourse sound complete ⟨roams.speaks, ?_⟩ later
  rw [taken]
  exact keeps sound strict _ onCourse.inStep

theorem moments_inStep (sound : decider.Sound) (strict : vocabulary.Strict) {branches : Nat} (block : Int)
    (function : String) (lines : List String) {machine : Machine} (speaks : machine.Speaks vocabulary)
    (inStep : machine.InStep branches) :
    ∀ moment ∈ moments decider block function lines machine, moment.machine.InStep branches := by
  induction lines generalizing machine with
  | nil =>
    intro moment member
    cases member
  | cons line rest ih =>
    intro moment member
    rcases List.mem_cons.mp member with rfl | later
    · exact inStep
    · have result := executeLine_following decider block function line machine speaks
      cases run : executeLine decider block function line machine with
      | ok value next =>
        rw [run] at result later
        obtain ⟨roams, _, keeps⟩ := result
        exact ih roams.speaks (keeps sound strict branches inStep) moment later
      | error fault next =>
        rw [run] at later
        cases later

theorem Visit.moments_inStep (sound : decider.Sound) (strict : vocabulary.Strict) {visit : Visit}
    (onCourse : visit.OnCourse vocabulary) :
    ∀ moment ∈ visit.moments decider, moment.machine.InStep visit.taken.length := by
  have result := approach_following decider visit.block visit.previous visit.function visit.machine onCourse.speaks
  unfold moments
  split
  · next current function machine approached =>
    rw [approached] at result
    obtain ⟨roams, _, keeps⟩ := result
    exact Explore.moments_inStep sound strict visit.block function current.lines roams.speaks
      (keeps sound strict _ onCourse.inStep)
  · intro moment member
    cases member

/-- At every block that an exploration comes to and before every instruction that it executes, assertions and path are in
step: the assertions are the conditions of the path behind those it began with, one scope is open for each branch that
was taken, and the assertions can hold together. What the exploration records is what was executed there. -/
theorem tour_inStep (sound : decider.Sound) (complete : decider.Complete) (start : Visit) (untaken : start.taken = [])
    (unasserted : start.machine.session.scopes = {}) (begins : start.machine.path.conditions = Path.initial.conditions)
    (speaks : start.machine.Speaks .givenOut) :
    (∀ visit ∈ start.tour decider,
      visit.machine.InStep visit.taken.length ∧
        ∀ moment ∈ visit.moments decider, moment.machine.InStep visit.taken.length) ∧
      start.machine.Records (start.steps decider) (start.leaves decider).length (start.explored decider) := by
  have first : start.OnCourse .givenOut := by
    refine ⟨speaks, ?_⟩
    rw [untaken]
    refine ⟨?_, ?_, ?_, ?_⟩
    · rw [begins]
      rfl
    · rw [begins, unasserted]
      rfl
    · rw [unasserted]
      rfl
    · rw [unasserted]
      exact ⟨fun _ _ => 0, List.forall_mem_nil _⟩
  have everywhere : ∀ visit ∈ start.tour decider, visit.OnCourse .givenOut :=
    Visit.forall_tour
      (fun _ onCourse _ => Visit.successors_onCourse sound complete Vocabulary.givenOut_strict onCourse) first
  refine ⟨fun visit member => ⟨(everywhere visit member).inStep, ?_⟩, start.recorded⟩
  exact Visit.moments_inStep sound Vocabulary.givenOut_strict (everywhere visit member)

def branchOnDeposit : Machine where
  session :=
    { graph :=
        { instructions := [(0, "JUMPI "), (1, "STOP "), (2, "STOP ")]
          ends := [(0, 0), (1, 1), (2, 2)]
          kinds := [(0, .conditional), (1, .terminal), (2, .terminal)]
          blocks :=
            [(0, { start := 0, stop := 0, lines := ["JUMPI "], kind := some .conditional, fallsTo := some (some 1) }),
              (1, { start := 1, stop := 1, lines := ["STOP "], kind := some .terminal }),
              (2, { start := 2, stop := 2, lines := ["STOP "], kind := some .terminal })]
          edges := [(0, [1]), (1, []), (2, [])] }
      source := some {} }
  path := { Path.initial with stack := [.integer 2, .term Path.deposit] }

def branchOnDepositStart : Visit where
  remaining := 1
  block := 0
  previous := 0
  function := "f()"
  machine := branchOnDeposit

theorem branchOnDeposit_speaks (vocabulary : Vocabulary) : branchOnDeposit.Speaks vocabulary := by
  have initial := Path.initial_speaks vocabulary 0
  have deposit : vocabulary.Admits 0 "Iv" := vocabulary.admits_of_head (by decide) 0
  refine Machine.speaks_of_unbranched { initial with stack := ?_ } ?_ ?_
  · exact List.forall_mem_cons.mpr ⟨trivial, List.forall_mem_singleton.mpr deposit⟩
  · intro entry member
    simp only [branchOnDeposit, List.mem_cons, List.not_mem_nil, or_false] at member
    rcases member with rfl | rfl | rfl <;> rfl
  · intro map found entry member
    cases found
    cases member

theorem tour_inStep_branchOnDeposit :
    (∀ visit ∈ branchOnDepositStart.tour .exact,
      visit.machine.InStep visit.taken.length ∧
        ∀ moment ∈ visit.moments .exact, moment.machine.InStep visit.taken.length) ∧
      branchOnDeposit.Records (branchOnDepositStart.steps .exact) (branchOnDepositStart.leaves .exact).length
        (branchOnDepositStart.explored .exact) :=
  tour_inStep Decider.exact_sound Decider.exact_complete branchOnDepositStart rfl rfl rfl (branchOnDeposit_speaks _)

end Explore

/-! ## Explorations that come back -/

namespace Explore

variable {decider : Decider}

theorem nextBlock_eq_ok (block address : Int) (machine : Machine) :
    nextBlock block machine = .ok address machine ↔
      ∃ lines, Table.get? block machine.session.graph.layout = some (lines, some (some address)) := by
  simp only [nextBlock, currentBlock, bind_apply, session_apply, Graph.block, Graph.layout, Table.get?_map]
  cases Table.get? block machine.session.graph.blocks with
  | none => simp [lift_error]
  | some current =>
    simp only [lift_ok, Block.getFallsTo, Block.known, Block.layout, Option.map_some]
    cases current.fallsTo with
    | none => simp [lift_error]
    | some next =>
      cases next with
      | none => simp [lift_ok]
      | some found => simp [lift_ok, pure_apply]

theorem nextBlock_of_lasting {before after : Machine} (lasting : after.session.lasting = before.session.lasting)
    {block address : Int} (found : nextBlock block before = .ok address before) :
    nextBlock block after = .ok address after := by
  rw [nextBlock_eq_ok] at found ⊢
  rwa [show after.session.graph.layout = before.session.graph.layout from congrArg Standing.layout lasting]

theorem nextBlock_aside {machine : Machine} {block address : Int}
    (found : nextBlock block machine = .ok address machine) (condition : Term) :
    nextBlock block (aside condition machine) = .ok address (aside condition machine) := by
  have lasting : (aside condition machine).session.lasting = machine.session.lasting := rfl
  exact nextBlock_of_lasting lasting found

theorem finishPath_of_untested {machine : Machine} (untested : machine.session.settings.unitTest = 0) :
    finishPath machine =
      .ok () { machine with
        session := { machine.session with finishedPaths := machine.session.finishedPaths + 1 } } := by
  simp [finishPath, bind_apply, session_apply, modifySession_apply, untested, pure_apply]

namespace Exit

/-- It is known how a path goes on from the end of the block. -/
def Leads (exit : Exit) : Prop :=
  match exit.kind with
  | .terminal => True
  | .unconditional => ∃ address, jumpAddress exit.block exit.machine = .ok address exit.machine
  | .fallsTo => ∃ address, nextBlock exit.block exit.machine = .ok address exit.machine
  | .conditional => (∃ condition, exit.condition? = some condition) ∧
      ∃ address, nextBlock exit.block exit.machine = .ok address exit.machine
  | .other _ => False

variable (decider) in
/-- The side on which the branch is taken came back and left no scope open. -/
def Restored (exit : Exit) (condition : Term) : Prop :=
  ∃ machine, exit.jumped decider condition = .ok () machine ∧ machine.session.scopes = exit.machine.session.scopes

end Exit

namespace Visit

variable (decider) in
/-- Nothing fails in the block of the call and on the way out of it. -/
structure Smooth (visit : Visit) : Prop where
  arrives : ∃ arrival machine, visit.arrival decider = .ok arrival machine
  leads : ∀ exit, visit.exit? decider = some exit → exit.Leads

variable (decider) in
/-- The call comes back and leaves no scope open. -/
def Returns (visit : Visit) : Prop :=
  ∃ ending machine,
    explore decider visit.remaining visit.block visit.previous visit.function visit.machine = .ok ending machine ∧
      machine.session.scopes.Extends visit.machine.session.scopes

end Visit

namespace Exit

variable {exit : Exit}

variable {target : Exec Int} {condition : Term}

variable {next : Visit} {machine : Machine} {address : Int}

theorem side_lasting (entered : exit.side decider condition target machine = some next) :
    next.machine.session.lasting = machine.session.lasting ∧ next.machine.path.gas = machine.path.gas := by
  obtain ⟨_, address, rfl⟩ := of_side entered
  exact ⟨rfl, rfl⟩

theorem successors_lasting (member : next ∈ exit.successors decider) :
    next.machine.session.lasting = exit.machine.session.lasting ∧ next.machine.path.gas = exit.machine.path.gas := by
  obtain ⟨address, rfl⟩ | ⟨condition, tested, jumped | fallen⟩ := of_mem_successors member
  · exact ⟨rfl, rfl⟩
  · exact side_lasting jumped
  · obtain ⟨machine, returned, entered⟩ := fall_eq_some fallen
    have roams := (of_jumped exit.machine.speaks_unrestricted tested returned).1
    obtain ⟨lasting, gas⟩ := side_lasting entered
    exact ⟨lasting.trans roams.lasting, gas.trans roams.gas⟩

theorem side_returns (run : target (aside condition machine) = .ok address (aside condition machine))
    (returns : ∀ next ∈ (exit.side decider condition target machine).toList, next.Returns decider) :
    ∃ after, followSide decider (.ok condition) target (exit.follow decider) machine = .ok () after ∧
      after.session.scopes = machine.session.scopes := by
  have inside : ∃ between,
      enterSide decider condition target (exit.follow decider) (aside condition machine) = .ok () between ∧
        between.session.scopes.Extends (aside condition machine).session.scopes := by
    by_cases pruned : decider (aside condition machine).session.scopes.assertions = .unsatisfiable
    · exact ⟨_, enterSide_of_unsatisfiable pruned _, .refl _⟩
    · rw [side_of_ok pruned run] at returns
      obtain ⟨ending, between, explored, asserts⟩ := returns _ (Option.mem_toList.mpr rfl)
      refine ⟨{ between with path := machine.path }, ?_, asserts⟩
      rw [enterSide_of_satisfiable pruned, bind_ok run]
      have followed : exit.follow decider address (entering address condition (aside condition machine)) =
          .ok () between :=
        bind_ok explored
      exact onCopy_of_ok followed
  obtain ⟨between, ran, asserts⟩ := inside
  refine ⟨between.rescoped machine.session.scopes, ?_, rfl⟩
  rw [followSide_of_ok, bind_ok (attempt_of_ok ran)]
  exact leaveScope_eq asserts.leave_side

theorem followOn_returns (run : target exit.machine = .ok address exit.machine)
    (returns : ∀ next ∈ (exit.onward target).toList, next.Returns decider) :
    ∃ after, (target >>= fun address => followOn address (exit.follow decider)) exit.machine = .ok () after ∧
      after.session.scopes.Extends exit.machine.session.scopes := by
  rw [onward_of_ok run] at returns
  obtain ⟨ending, between, explored, asserts⟩ := returns _ (Option.mem_toList.mpr rfl)
  have followed : exit.follow decider address
      { exit.machine with path := { exit.machine.path with pc := address } } = .ok () between :=
    bind_ok explored
  exact ⟨{ between with path := exit.machine.path }, (bind_ok run).trans (onCopy_of_ok followed), asserts⟩

theorem jumpTarget_of_condition? (tested : exit.condition? = some condition) :
    ∃ address, jumpTarget exit.block (aside condition exit.machine) = .ok address (aside condition exit.machine) := by
  simp only [condition?, branchCondition, currentBlock, bind_apply, session_apply, Graph.block] at tested
  have same : Table.get? exit.block (aside condition exit.machine).session.graph.blocks =
      Table.get? exit.block exit.machine.session.graph.blocks := rfl
  simp only [jumpTarget, currentBlock, bind_apply, session_apply, Graph.block, same]
  cases present : Table.get? exit.block exit.machine.session.graph.blocks with
  | none =>
    rw [present] at tested
    cases tested
  | some current => exact ⟨current.jumpTarget, rfl⟩

theorem restored_of_returns (tested : exit.condition? = some condition)
    (returns : ∀ next ∈ (exit.jump decider condition).toList, next.Returns decider) :
    exit.Restored decider condition := by
  obtain ⟨address, run⟩ := jumpTarget_of_condition? tested
  exact side_returns run returns

theorem leaveBlock_returns (leads : exit.Leads) (untested : exit.machine.session.settings.unitTest = 0)
    (returns : ∀ next ∈ exit.successors decider, next.Returns decider) (previous : Int) :
    ∃ after, leaveBlock decider exit.block previous (exit.follow decider) exit.kind exit.machine = .ok () after ∧
      after.session.scopes.Extends exit.machine.session.scopes := by
  unfold Leads at leads
  unfold successors at returns
  cases kind : exit.kind with
  | terminal => exact ⟨_, finishPath_of_untested untested, .refl _⟩
  | unconditional =>
    rw [kind] at leads returns
    obtain ⟨address, run⟩ := leads
    exact followOn_returns run returns
  | fallsTo =>
    rw [kind] at leads returns
    obtain ⟨address, run⟩ := leads
    exact followOn_returns run returns
  | conditional =>
    rw [kind] at leads returns
    obtain ⟨⟨condition, tested⟩, address, follows⟩ := leads
    rw [tested] at returns
    obtain ⟨jumpReturns, fallReturns⟩ := List.forall_mem_append.mp returns
    obtain ⟨between, returned, same⟩ := restored_of_returns tested jumpReturns
    have roams := (of_jumped exit.machine.speaks_unrestricted tested returned).1
    rw [fall_of_jumped returned] at fallReturns
    have followsStill := nextBlock_of_lasting roams.lasting follows
    obtain ⟨after, fallen, sameAgain⟩ := side_returns (nextBlock_aside followsStill _) fallReturns
    refine ⟨_, (bind_ok (condition?_eq_some tested)).trans ((bind_ok returned).trans (bind_ok fallen)), ?_⟩
    have scopes : after.session.scopes = exit.machine.session.scopes := sameAgain.trans same
    exact scopes ▸ .refl _
  | other name =>
    rw [kind] at leads
    exact leads.elim

end Exit

theorem Visit.successors_lasting {visit next : Visit} (member : next ∈ visit.successors decider) :
    next.machine.session.lasting = visit.machine.session.lasting ∧ next.machine.path.gas = visit.machine.path.gas := by
  obtain ⟨exit, found, later⟩ := exists_exit member
  have roams := (arrive_following decider visit.block visit.previous visit.function).roaming 0 visit.machine
    visit.machine.speaks_unrestricted (Nat.zero_le _)
  rw [after_of_ok (exit?_eq_some found).2.1] at roams
  obtain ⟨lasting, gas⟩ := Exit.successors_lasting later
  exact ⟨lasting.trans roams.lasting, gas.trans roams.gas⟩

theorem Visit.returns {visit : Visit} (untested : visit.machine.session.settings.unitTest = 0)
    (smooth : ∀ next ∈ visit.tour decider, next.Smooth decider) :
    visit.Returns decider := by
  induction visit using Visit.induction decider with
  | step visit ih =>
    rw [tour_eq] at smooth
    obtain ⟨own, behind⟩ := List.forall_mem_cons.mp smooth
    have returns : ∀ next ∈ visit.successors decider, next.Returns decider := by
      intro next member
      have lasting := (successors_lasting member).1
      refine ih next member ?_ fun later inside => ?_
      · exact (congrArg Standing.unitTest lasting).trans untested
      · exact behind later (List.mem_flatMap.mpr ⟨next, member, inside⟩)
    obtain ⟨arrival, machine, reached⟩ := own.arrives
    have result := arrive_following decider visit.block visit.previous visit.function visit.machine
      visit.machine.speaks_unrestricted
    have reachedIn := reached
    unfold Visit.arrival at reachedIn
    rw [reachedIn] at result
    obtain ⟨roams, asserts, _⟩ := result
    have untestedStill : machine.session.settings.unitTest = 0 :=
      (congrArg Standing.unitTest roams.lasting).trans untested
    unfold Returns
    cases arrival with
    | stopped ending =>
      refine ⟨ending, machine, ?_, asserts⟩
      cases visit.remaining <;> exact bind_ok reached
    | atEnd kind function =>
      cases remaining : visit.remaining with
      | zero =>
        refine ⟨.explored, _, (bind_ok reached).trans (bind_ok (finishPath_of_untested untestedStill)), ?_⟩
        exact asserts
      | succ more =>
        have found := exit?_of_atEnd remaining reached
        rw [successors_of_exit found] at returns
        obtain ⟨after, left, assertsMore⟩ := Exit.leaveBlock_returns (own.leads _ found)
          untestedStill returns visit.previous
        exact ⟨.explored, after, (bind_ok reached).trans (bind_ok left), assertsMore.trans asserts⟩

namespace Exit

variable {exit : Exit}

theorem fall_eq_of_restored (sound : decider.Sound) (complete : decider.Complete) {condition : Term} {machine : Machine}
    (returned : exit.jumped decider condition = .ok () machine)
    (same : machine.session.scopes = exit.machine.session.scopes) {address : Int}
    (follows : nextBlock exit.block machine = .ok address machine) :
    (exit.fall decider condition).isSome ↔
      Satisfiable (exit.machine.session.scopes.assertions ++ [.unary .negation condition]) := by
  rw [fall_of_jumped returned, Exit.side, Option.isSome_map, ← sound.possible_iff complete, ← same, ← assertions_aside]
  constructor
  · intro entered
    obtain ⟨⟨address, entry⟩, found⟩ := Option.isSome_iff_exists.mp entered
    exact (of_sideEntry found).1
  · intro possible
    rw [sideEntry_of_ok possible (nextBlock_aside follows _)]
    rfl

end Exit

/-- At the end of a conditional block at which the next block is known: the second side is entered exactly if the
negated condition can hold and the first side came back without leaving a scope open. It is then entered with the
assertions at the end of the block and the negated condition, nothing else. The first side comes back in this way if
nothing fails on it. -/
theorem fall_entered_iff (sound : decider.Sound) (complete : decider.Complete) (exit : Exit) {condition : Term}
    (tested : exit.condition? = some condition) {address : Int}
    (follows : nextBlock exit.block exit.machine = .ok address exit.machine) :
    ((exit.fall decider condition).isSome ↔
      Satisfiable (exit.machine.session.scopes.assertions ++ [.unary .negation condition]) ∧
        exit.Restored decider condition) ∧
      (∀ next ∈ exit.fall decider condition, next.block = address ∧
        next.machine.session.scopes.assertions =
          exit.machine.session.scopes.assertions ++ [.unary .negation condition]) ∧
      (exit.machine.session.settings.unitTest = 0 →
        (∀ jump ∈ exit.jump decider condition, ∀ visit ∈ jump.tour decider, visit.Smooth decider) →
        exit.Restored decider condition) := by
  have speaks := exit.machine.speaks_unrestricted
  have followsAfter : ∀ machine, exit.jumped decider condition = .ok () machine →
      nextBlock exit.block machine = .ok address machine := fun machine returned =>
    nextBlock_of_lasting (Exit.of_jumped speaks tested returned).1.lasting follows
  refine ⟨⟨fun entered => ?_, fun ⟨satisfiable, machine, returned, same⟩ => ?_⟩, fun next entered => ?_,
    fun untested smooth => ?_⟩
  · obtain ⟨next, found⟩ := Option.isSome_iff_exists.mp entered
    obtain ⟨machine, returned, _, _, same, _⟩ := Exit.fall_restored sound complete speaks tested found
    have possible := Exit.fall_eq_of_restored sound complete returned same (followsAfter machine returned)
    exact ⟨possible.mp entered, machine, returned, same⟩
  · exact (Exit.fall_eq_of_restored sound complete returned same (followsAfter machine returned)).mpr satisfiable
  · obtain ⟨machine, returned, _, _, same, side⟩ := Exit.fall_restored sound complete speaks tested entered
    obtain rfl := Exit.side_eq_some (nextBlock_aside (followsAfter machine returned) _) side
    refine ⟨rfl, ?_⟩
    rw [← same]
    exact assertions_aside _ machine
  · refine Exit.restored_of_returns tested fun next member => ?_
    have entered := Option.mem_toList.mp member
    have lasting := (Exit.side_lasting entered).1
    exact Visit.returns ((congrArg Standing.unitTest lasting).trans untested) (smooth next entered)

def depositSent : Term := .binary .ne Path.deposit (.literal Word.size 0)

def branchOnDepositEnd : Exit where
  remaining := 0
  block := 0
  kind := .conditional
  function := "f()"
  machine :=
    { session :=
        { branchOnDeposit.session with
          graph :=
            { branchOnDeposit.session.graph with
              blocks := branchOnDeposit.session.graph.blocks.set 0
                (0,
                  { start := 0, stop := 0, lines := ["JUMPI "], kind := some .conditional, fallsTo := some (some 1)
                    jumpTarget := 2, branch := some (.term depositSent) })
              edges := [(0, [1, 2]), (1, []), (2, [])] }
          visitedPcs := [0]
          takenEdges := [((0, 0), 1)]
          watch := { previousFunction := "f()" }
          trace := [{ block := 0, pc := 0, line := "JUMPI", depth := 2, function := "f()" }]
          executed := 1 }
      path := { Path.initial with visited := [0] } }
  taken := []

theorem fall_entered_iff_branchOnDeposit :
    ((branchOnDepositEnd.fall .exact depositSent).isSome ↔
      Satisfiable [.unary .negation depositSent] ∧ branchOnDepositEnd.Restored .exact depositSent) ∧
      (∀ next ∈ branchOnDepositEnd.fall .exact depositSent,
        next.block = 1 ∧ next.machine.session.scopes.assertions = [.unary .negation depositSent]) ∧
      (branchOnDepositEnd.machine.session.settings.unitTest = 0 →
        (∀ jump ∈ branchOnDepositEnd.jump .exact depositSent, ∀ visit ∈ jump.tour .exact, visit.Smooth .exact) →
        branchOnDepositEnd.Restored .exact depositSent) :=
  fall_entered_iff Decider.exact_sound Decider.exact_complete branchOnDepositEnd rfl rfl

end Explore

end MintAudit
