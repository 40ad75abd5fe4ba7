import MintAudit.Proofs.Explore.Sides

namespace MintAudit

/-!
# Tours

The tour of an exploration lists its calls in the order in which they are made: each call with the machine that it
finds and the conditions of the branches that led to it.
-/

open Exec

namespace Explore

/-- A call of the exploration, with the conditions of the branches that led to it. -/
structure Visit where
  remaining : Nat
  block : Int
  previous : Int
  function : String
  machine : Machine
  taken : List Term := []

/-- The end of a block from which a path may go on. -/
structure Exit where
  remaining : Nat
  block : Int
  kind : JumpKind
  function : String
  machine : Machine
  taken : List Term

variable (decider : Decider)

namespace Exit

def visit (exit : Exit) (taken : List Term) (address : Int) (machine : Machine) : Visit where
  remaining := exit.remaining
  block := address
  previous := exit.block
  function := exit.function
  machine := machine
  taken := exit.taken ++ taken

def follow (exit : Exit) (address : Int) : Exec Unit :=
  discard (explore decider exit.remaining address exit.block exit.function)

def onward (exit : Exit) (target : Exec Int) : Option Visit :=
  match target exit.machine with
  | .ok address _ => some (exit.visit [] address { exit.machine with path := { exit.machine.path with pc := address } })
  | .error _ _ => none

def side (exit : Exit) (condition : Term) (target : Exec Int) (machine : Machine) : Option Visit :=
  (sideEntry decider condition target (aside condition machine)).map fun entry =>
    exit.visit [condition] entry.1 entry.2

def condition? (exit : Exit) : Option Term :=
  match branchCondition exit.block exit.machine with
  | .ok (.ok condition) _ => some condition
  | _ => none

def jump (exit : Exit) (condition : Term) : Option Visit :=
  exit.side decider condition (jumpTarget exit.block) exit.machine

def jumped (exit : Exit) (condition : Term) : EStateM.Result Fault Machine Unit :=
  followSide decider (.ok condition) (jumpTarget exit.block) (exit.follow decider) exit.machine

def fall (exit : Exit) (condition : Term) : Option Visit :=
  match exit.jumped decider condition with
  | .ok _ machine => exit.side decider (.unary .negation condition) (nextBlock exit.block) machine
  | .error _ _ => none

def successors (exit : Exit) : List Visit :=
  match exit.kind with
  | .unconditional => (exit.onward (jumpAddress exit.block)).toList
  | .fallsTo => (exit.onward (nextBlock exit.block)).toList
  | .conditional =>
    match exit.condition? with
    | some condition => (exit.jump decider condition).toList ++ (exit.fall decider condition).toList
    | none => []
  | _ => []

end Exit

namespace Visit

def arrival (visit : Visit) : EStateM.Result Fault Machine Arrival :=
  arrive decider visit.block visit.previous visit.function visit.machine

/-- The machine at the end of the block of the call, or where the call gave it up. -/
def reached (visit : Visit) : Machine :=
  (arrive decider visit.block visit.previous visit.function).after visit.machine

def explored (visit : Visit) : Machine :=
  (explore decider visit.remaining visit.block visit.previous visit.function).after visit.machine

def exit? (visit : Visit) : Option Exit :=
  match visit.remaining, visit.arrival decider with
  | remaining + 1, .ok (.atEnd kind function) machine => some { visit with remaining, kind, function, machine }
  | _, _ => none

def isLeaf (visit : Visit) : Bool :=
  match visit.arrival decider with
  | .ok (.atEnd kind _) _ => visit.remaining == 0 || kind == .terminal
  | _ => false

def successors (visit : Visit) : List Visit :=
  match visit.exit? decider with
  | some exit => exit.successors decider
  | none => []

end Visit

variable {decider}

namespace Exit

variable {next : Visit} {exit : Exit} {condition : Term} {target : Exec Int} {machine : Machine} {address : Int}

theorem onward_of_ok (run : target exit.machine = .ok address exit.machine) :
    exit.onward target =
      some (exit.visit [] address { exit.machine with path := { exit.machine.path with pc := address } }) := by
  simp only [onward, run]

theorem side_of_ok (possible : decider (aside condition machine).session.scopes.assertions ≠ .unsatisfiable)
    (run : target (aside condition machine) = .ok address (aside condition machine)) :
    exit.side decider condition target machine =
      some (exit.visit [condition] address (entering address condition (aside condition machine))) := by
  unfold side
  rw [sideEntry_of_ok possible run]
  rfl

theorem of_side (entered : exit.side decider condition target machine = some next) :
    decider (aside condition machine).session.scopes.assertions ≠ .unsatisfiable ∧
      ∃ address, next = exit.visit [condition] address (entering address condition (aside condition machine)) := by
  obtain ⟨⟨address, entry⟩, found, rfl⟩ := Option.map_eq_some_iff.mp entered
  obtain ⟨possible, rfl⟩ := of_sideEntry found
  exact ⟨possible, address, rfl⟩

theorem fall_of_jumped (returned : exit.jumped decider condition = .ok () machine) :
    exit.fall decider condition = exit.side decider (.unary .negation condition) (nextBlock exit.block) machine := by
  simp only [fall, returned]

theorem fall_eq_some (entered : exit.fall decider condition = some next) :
    ∃ machine, exit.jumped decider condition = .ok () machine ∧
      exit.side decider (.unary .negation condition) (nextBlock exit.block) machine = some next := by
  unfold fall at entered
  split at entered
  · next machine returned =>
    exact ⟨machine, returned, entered⟩
  · cases entered

theorem of_mem_successors (member : next ∈ exit.successors decider) :
    (∃ address, next = exit.visit [] address { exit.machine with path := { exit.machine.path with pc := address } }) ∨
      ∃ condition, exit.condition? = some condition ∧
        (exit.jump decider condition = some next ∨ exit.fall decider condition = some next) := by
  have onward : ∀ target, next ∈ (exit.onward target).toList → ∃ address,
      next = exit.visit [] address { exit.machine with path := { exit.machine.path with pc := address } } := by
    intro target member
    unfold onward at member
    split at member
    · exact ⟨_, List.mem_singleton.mp member⟩
    · cases member
  unfold successors at member
  split at member
  · exact .inl (onward _ member)
  · exact .inl (onward _ member)
  · split at member
    · next condition tested =>
      exact .inr ⟨condition, tested, (List.mem_append.mp member).imp Option.mem_toList.mp Option.mem_toList.mp⟩
    · cases member
  · cases member

theorem exists_of_mem_successors (member : next ∈ exit.successors decider) :
    ∃ taken address machine, next = exit.visit taken address machine ∧ machine.path.pc = address := by
  obtain ⟨address, rfl⟩ | ⟨condition, _, jumped | fallen⟩ := of_mem_successors member
  · exact ⟨_, _, _, rfl, rfl⟩
  · obtain ⟨_, address, rfl⟩ := of_side jumped
    exact ⟨_, _, _, rfl, rfl⟩
  · obtain ⟨machine, _, entered⟩ := fall_eq_some fallen
    obtain ⟨_, address, rfl⟩ := of_side entered
    exact ⟨_, _, _, rfl, rfl⟩

theorem remaining_of_mem_successors (member : next ∈ exit.successors decider) : next.remaining = exit.remaining := by
  obtain ⟨_, _, _, rfl, _⟩ := exists_of_mem_successors member
  rfl

end Exit

namespace Visit

variable {visit : Visit} {machine : Machine}

variable {exit : Exit} {function : String} {kind : JumpKind}

theorem exit?_eq_some (found : visit.exit? decider = some exit) :
    visit.remaining = exit.remaining + 1 ∧ visit.arrival decider = .ok (.atEnd exit.kind exit.function) exit.machine ∧
      exit.block = visit.block ∧ exit.taken = visit.taken := by
  unfold exit? at found
  split at found
  · next remaining kind function machine more reached =>
    cases found
    exact ⟨more, reached, rfl, rfl⟩
  · cases found

theorem exit?_of_atEnd {more : Nat} (remaining : visit.remaining = more + 1)
    (reached : visit.arrival decider = .ok (.atEnd kind function) machine) :
    visit.exit? decider = some { visit with remaining := more, kind, function, machine } := by
  simp only [exit?, remaining, reached]

theorem successors_of_exit (found : visit.exit? decider = some exit) :
    visit.successors decider = exit.successors decider := by
  simp only [successors, found]

theorem successors_of_bound (last : visit.remaining = 0) : visit.successors decider = [] := by
  simp [successors, exit?, last]

theorem explored_of_error {fault : Fault} (failed : visit.arrival decider = .error fault machine) :
    visit.explored decider = machine := by
  unfold explored
  cases remaining : visit.remaining <;> exact after_bind_of_error failed

theorem explored_of_stopped {ending : Ending} (stopped : visit.arrival decider = .ok (.stopped ending) machine) :
    visit.explored decider = machine := by
  unfold explored
  cases remaining : visit.remaining <;> exact after_bind_of_ok stopped

theorem explored_of_bound (last : visit.remaining = 0)
    (reached : visit.arrival decider = .ok (.atEnd kind function) machine) :
    visit.explored decider = finishPath.after machine := by
  unfold explored
  rw [last]
  exact (after_bind_of_ok reached).trans (after_bind_pure _ _ _)

theorem explored_of_exit (found : visit.exit? decider = some exit) :
    visit.explored decider =
      (leaveBlock decider visit.block visit.previous (exit.follow decider) exit.kind).after exit.machine := by
  obtain ⟨more, reached, block, _⟩ := exit?_eq_some found
  unfold explored Exit.follow
  rw [more, block]
  exact (after_bind_of_ok reached).trans (after_bind_pure _ _ _)

theorem exists_exit {next : Visit} (made : next ∈ visit.successors decider) :
    ∃ exit, visit.exit? decider = some exit ∧ next ∈ exit.successors decider := by
  unfold successors at made
  split at made
  · next exit found =>
    exact ⟨exit, found, made⟩
  · cases made

theorem remaining_of_mem_successors {visit next : Visit} (made : next ∈ visit.successors decider) :
    next.remaining < visit.remaining := by
  obtain ⟨exit, found, member⟩ := exists_exit made
  have less := Exit.remaining_of_mem_successors member
  have more := (exit?_eq_some found).1
  omega

variable (decider) in
/-- All calls from this one on, in the order in which they are made. -/
def tour (visit : Visit) : List Visit :=
  visit :: (visit.successors decider).attach.flatMap fun next => next.1.tour
termination_by visit.remaining
decreasing_by exact remaining_of_mem_successors next.2

variable (decider) in
def leaves (visit : Visit) : List Visit :=
  (visit.tour decider).filter (isLeaf decider)

theorem tour_eq (visit : Visit) : visit.tour decider = visit :: (visit.successors decider).flatMap (tour decider) := by
  rw [tour, List.flatMap_subtype (fun _ _ => rfl), List.unattach_attach]

theorem leaves_eq (visit : Visit) :
    visit.leaves decider =
      (if visit.isLeaf decider then [visit] else []) ++ (visit.successors decider).flatMap (leaves decider) := by
  unfold leaves
  rw [tour_eq, List.filter_cons, List.filter_flatMap]
  split
  · rfl
  · rfl

theorem induction (decider : Decider) {motive : Visit → Prop}
    (step : ∀ visit, (∀ next ∈ visit.successors decider, motive next) → motive visit) (visit : Visit) :
    motive visit := by
  induction visit using tour.induct decider with
  | case1 visit ih => exact step visit fun next made => ih ⟨next, made⟩

theorem forall_tour {holds : Visit → Prop} (step : ∀ visit, holds visit → ∀ next ∈ visit.successors decider, holds next)
    {start : Visit} (initially : holds start) :
    ∀ visit ∈ start.tour decider, holds visit := by
  induction start using induction decider with
  | step start ih =>
    intro visit member
    rw [tour_eq] at member
    rcases List.mem_cons.mp member with rfl | later
    · exact initially
    · obtain ⟨next, made, inside⟩ := List.mem_flatMap.mp later
      exact ih next made (step start initially next made) visit inside

end Visit

end Explore

/-! ## What an exploration records -/

/-- Between two machines these steps were recorded, the earliest first, and so many paths ended. -/
structure Machine.Records (steps : List Step) (paths : Nat) (before after : Machine) : Prop where
  finished : after.session.finishedPaths = before.session.finishedPaths + paths
  trace : after.session.trace = steps.reverse ++ before.session.trace

namespace Explore

section Moments

variable (decider : Decider)

structure Moment where
  block : Int
  function : String
  line : String
  machine : Machine

def Moment.instruction (moment : Moment) : Instruction :=
  Instruction.ofLine (Text.strip moment.line)

def Moment.run (moment : Moment) : EStateM.Result Fault Machine Unit :=
  executeLine decider moment.block moment.function moment.line moment.machine

/-- What is recorded of the instruction, if its source text is found and the time is not over. -/
def Moment.step? (moment : Moment) : Option Step :=
  match currentText moment.machine with
  | .ok _ _ =>
    if moment.machine.session.alarm = some moment.machine.session.executed then
      none
    else
      some
        { block := moment.block
          pc := moment.machine.path.pc
          line := Text.strip moment.line
          depth := moment.machine.path.stack.length
          function := moment.function }
  | .error _ _ => none

def moments (block : Int) (function : String) : List String → Machine → List Moment
  | [], _ => []
  | line :: rest, machine =>
    { block, function, line, machine } ::
      match executeLine decider block function line machine with
      | .ok _ next => moments block function rest next
      | .error _ _ => []

def Visit.moments (visit : Visit) : List Moment :=
  match approach visit.block visit.previous visit.function visit.machine with
  | .ok (.ready current function) machine => Explore.moments decider visit.block function current.lines machine
  | _ => []

def Visit.ownSteps (visit : Visit) : List Step :=
  (visit.moments decider).filterMap Moment.step?

def Visit.steps (visit : Visit) : List Step :=
  (visit.tour decider).flatMap (ownSteps decider)

structure Linking (linked : List Moment → Machine → Machine → Prop) : Prop where
  refl : ∀ machine, linked [] machine machine
  trans : ∀ {first second : List Moment} {before between after : Machine},
    linked first before between → linked second between after → linked (first ++ second) before after
  line : ∀ moment : Moment, linked [moment] moment.machine
    ((executeLine decider moment.block moment.function moment.line).after moment.machine)
  ending : ∀ (block : Int) (function : String) (machine : Machine),
    linked [] machine ((comeToEnd block function).after machine)

end Moments

variable {decider : Decider}

theorem executeLine_eq (moment : Moment) :
    (moment.step? = none ∧ ∃ fault, moment.run decider = .error fault moment.machine) ∨
      ∃ text, currentText moment.machine = .ok text moment.machine ∧
        moment.machine.session.alarm ≠ some moment.machine.session.executed ∧
        moment.step? = some
          { block := moment.block
            pc := moment.machine.path.pc
            line := Text.strip moment.line
            depth := moment.machine.path.stack.length
            function := moment.function } ∧
        moment.run decider =
          (Machine.perform decider moment.block moment.function moment.instruction >>= fun _ => noteSource text)
            (moment.machine.counted moment.block moment.function (Text.strip moment.line)) := by
  have stepped := Machine.step_eq decider moment.block moment.function (Text.strip moment.line) moment.machine
  unfold Moment.run executeLine Moment.step? Moment.instruction
  rcases currentText_reads.eq moment.machine with ⟨text, found⟩ | ⟨fault, failed⟩
  · rw [bind_ok found, found]
    dsimp only
    by_cases timeUp : moment.machine.session.alarm = some moment.machine.session.executed
    · rw [if_pos timeUp] at stepped
      exact .inl ⟨if_pos timeUp, _, bind_error stepped⟩
    · rw [if_neg timeUp] at stepped
      refine .inr ⟨text, rfl, timeUp, if_neg timeUp, ?_⟩
      rw [bind_apply, bind_apply, stepped]
  · exact .inl ⟨by rw [failed], fault, bind_error failed⟩

theorem Moment.after_eq {moment : Moment} {computation : Exec Unit} {machine : Machine}
    (run : moment.run decider = computation machine) :
    (executeLine decider moment.block moment.function moment.line).after moment.machine = computation.after machine := by
  unfold after
  rw [← run]
  rfl

namespace Linking

variable {linked : List Moment → Machine → Machine → Prop} (linking : Linking decider linked)

include linking

theorem lines (block : Int) (function : String) (lines : List String) (machine : Machine) :
    linked (moments decider block function lines machine) machine
      ((lines.forM (executeLine decider block function)).after machine) := by
  induction lines generalizing machine with
  | nil => exact linking.refl machine
  | cons line rest ih =>
    have first := linking.line { block, function, line, machine }
    rw [moments]
    show linked _ machine ((executeLine decider block function line >>= fun _ =>
        rest.forM (executeLine decider block function)).after machine)
    cases run : executeLine decider block function line machine with
    | ok value next =>
      rw [after_of_ok run] at first
      rw [after_bind_of_ok run]
      exact linking.trans first (ih next)
    | error fault next =>
      rw [after_of_error run] at first
      rw [after_bind_of_error run]
      exact first

theorem before {block : Int} {function : String} {lines : List String} {machine : Machine} {done rest : List Moment}
    {moment : Moment} (position : moments decider block function lines machine = done ++ moment :: rest) :
    linked done machine moment.machine := by
  induction lines generalizing machine done with
  | nil => simp [moments] at position
  | cons line remaining ih =>
    rw [moments] at position
    cases done with
    | nil =>
      cases position
      exact linking.refl machine
    | cons first others =>
      injection position with same below
      subst same
      have established := linking.line { block, function, line, machine }
      cases run : executeLine decider block function line machine with
      | error fault next =>
        rw [run] at below
        simp at below
      | ok value next =>
        rw [run] at below
        rw [after_of_ok run] at established
        exact linking.trans established (ih below)

theorem reached (visit : Visit) :
    linked (visit.moments decider) ((approach visit.block visit.previous visit.function).after visit.machine)
      (visit.reached decider) := by
  unfold Visit.moments Visit.reached arrive
  cases run : approach visit.block visit.previous visit.function visit.machine with
  | error fault machine =>
    rw [after_of_error run, after_bind_of_error run]
    exact linking.refl machine
  | ok approached machine =>
    rw [after_of_ok run, after_bind_of_ok run]
    cases approached with
    | stopped ending => exact linking.refl machine
    | ready current function =>
      have lines := linking.lines visit.block function current.lines machine
      dsimp only
      rw [runThrough_eq]
      cases executed : current.lines.forM (executeLine decider visit.block function) machine with
      | error fault next =>
        rw [after_of_error executed] at lines
        rw [after_bind_of_error executed]
        exact lines
      | ok value next =>
        rw [after_of_ok executed] at lines
        rw [after_bind_of_ok executed]
        have ended := linking.trans lines (linking.ending visit.block function next)
        rwa [List.append_nil] at ended

theorem within {visit : Visit} {done rest : List Moment} {moment : Moment}
    (position : visit.moments decider = done ++ moment :: rest) :
    linked done ((approach visit.block visit.previous visit.function).after visit.machine) moment.machine := by
  unfold Visit.moments at position
  split at position
  · next current function machine ready =>
    rw [after_of_ok ready]
    exact linking.before position
  · simp at position

end Linking

end Explore

end MintAudit
