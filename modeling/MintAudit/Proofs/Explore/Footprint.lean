import MintAudit.Proofs.Explore.Tour

namespace MintAudit

/-!
# What a block leaves behind

On the way to the end of its block a call notes its function, counts the edge that it came over, records its lines,
marks their addresses as visited and remembers the call data that is loaded.
-/

open Environment

open Exec
open Holdings (Blind)

structure Sighting where
  function : String
  loads : Int
  sender : Word

def Sighting.call (function : String) (sighting : Sighting) : Sighting :=
  if function = sighting.function then sighting else { sighting with function, loads := 0 }

def Sighting.load (word : Word) (sighting : Sighting) : Sighting :=
  { sighting with
    loads := sighting.loads + 1
    sender := if sighting.loads = 0 then word else sighting.sender }

def Watch.sighting (watch : Watch) : Sighting where
  function := watch.previousFunction
  loads := watch.loads
  sender := watch.source

def Sighting.frame : Frame Sighting :=
  .unrestricted fun _ watch => watch.sighting

theorem Sighting.blind {part : Holdings.Part} (other : part ≠ .loads) : Blind frame.shown part := by
  cases part <;> first | exact (other rfl).elim | simp [Blind, frame, Frame.unrestricted, Watch.sighting]

theorem Environment.sighting_countLoad (word : Word) (watch : Watch) :
    (countLoad word watch).sighting = watch.sighting.load word := by
  have first : watch.loads + 1 = 1 ↔ watch.loads = 0 := by omega
  by_cases none : watch.loads = 0
  · simp [countLoad, Watch.sighting, Sighting.load, none]
  · simp only [countLoad, Watch.sighting, Sighting.load, first, none, ↓reduceIte]
    split
    · rfl
    · split <;> rfl

/-- Between two machines these steps were recorded and these words of the call data were loaded, the earliest first;
nothing else changed of what outlasts an exploration. -/
structure Machine.Marks (steps : List Step) (loads : List Word) (before after : Machine) : Prop where
  lasting : after.session.lasting = before.session.lasting
  takenEdges : after.session.takenEdges = before.session.takenEdges
  finishedPaths : after.session.finishedPaths = before.session.finishedPaths
  trace : after.session.trace = steps.reverse ++ before.session.trace
  visitedPcs : ∀ pc, pc ∈ after.session.visitedPcs ↔ pc ∈ before.session.visitedPcs ∨ pc ∈ steps.map Step.pc
  sighting : after.session.watch.sighting =
    loads.foldl (fun sighting word => sighting.load word) before.session.watch.sighting

namespace Machine.Marks

variable {before between after : Machine} {steps later : List Step} {loads more : List Word}

theorem of_abides (abides : before.Abides Sighting.frame after) : before.Marks [] [] after where
  lasting := by
    unfold Session.lasting
    rw [abides.standing]
  takenEdges := congrArg Standing.takenEdges abides.standing
  finishedPaths := congrArg Standing.finishedPaths abides.standing
  trace := congrArg Standing.trace abides.standing
  visitedPcs pc := by simp [abides.visitedPcs]
  sighting := abides.shows

theorem refl (machine : Machine) : machine.Marks [] [] machine :=
  of_abides (.refl machine.speaks_unrestricted)

theorem trans (first : before.Marks steps loads between) (second : between.Marks later more after) :
    before.Marks (steps ++ later) (loads ++ more) after where
  lasting := second.lasting.trans first.lasting
  takenEdges := second.takenEdges.trans first.takenEdges
  finishedPaths := second.finishedPaths.trans first.finishedPaths
  trace := by rw [second.trace, first.trace, List.reverse_append, List.append_assoc]
  visitedPcs pc := by rw [second.visitedPcs, first.visitedPcs, List.map_append, List.mem_append, or_assoc]
  sighting := by rw [second.sighting, first.sighting, List.foldl_append]

theorem then_abides (first : before.Marks steps loads between) (second : between.Abides Sighting.frame after) :
    before.Marks steps loads after := by
  simpa using first.trans (of_abides second)

end Machine.Marks

def Instruction.loaded? (after : Machine) : Instruction → Option Word
  | .plain .calldataload => after.path.stack.head?
  | _ => none

namespace Machine

variable (decider : Decider) (block : Int) (function : String)

theorem head?_of_takeData {before after : Machine} {word : Word} (run : takeData function before = .ok word after) :
    after.path.stack.head? = some word := by
  have put : ∀ {name : String} {between : Machine},
      (symbolNamed name >>= fun word => push word >>= fun _ => pure word) between = .ok word after →
        after.path.stack.head? = some word := by
    intro name between run
    cases run
    rfl
  obtain ⟨_, _, _, run⟩ := of_bind_ok run
  obtain ⟨_, _, _, run⟩ := of_bind_ok run
  obtain ⟨position, _, _, run⟩ := of_bind_ok run
  obtain ⟨expected, _, _, run⟩ := of_bind_ok run
  cases expected with
  | none =>
    obtain ⟨name, _, _, run⟩ := of_bind_ok run
    exact put run
  | some found =>
    obtain ⟨name, _, _, run⟩ := of_bind_ok run
    exact put run

theorem loadData_marks (before : Machine) :
    match loadData function before with
    | .ok _ after => before.Marks [] (Instruction.loaded? after (.plain .calldataload)).toList after
    | .error _ after => before.Marks [] [] after := by
  have taken : before.Abides Sighting.frame ((takeData function).after before) :=
    (takeData_tidy function).abides before.speaks_unrestricted
  rw [loadData_eq, bind_apply]
  cases run : takeData function before with
  | error fault between =>
    rw [after_of_error run] at taken
    exact .of_abides taken
  | ok word between =>
    rw [after_of_ok run] at taken
    have counted : between.Marks [] [word] { between with session :=
        { between.session with watch := countLoad word between.session.watch } } :=
      ⟨rfl, rfl, rfl, rfl, fun pc => by simp, sighting_countLoad word between.session.watch⟩
    have marked := (Marks.of_abides taken).trans counted
    unfold Instruction.loaded?
    dsimp only [modifySession_apply]
    rw [head?_of_takeData function run]
    exact marked

theorem loads_of_mem_changed {instruction : Instruction} (changes : .loads ∈ instruction.changed) :
    instruction = .plain .calldataload := by
  cases instruction with
  | plain opcode =>
    change .loads ∈ opcode.changed at changes
    unfold Opcode.changed at changes
    split at changes <;> simp_all
  | _ => cases changes

theorem perform_pc {instruction : Instruction} {before after : Machine}
    (run : perform decider block function instruction before = .ok () after) :
    after.path.pc = before.path.pc + instruction.stride :=
  Assuming.moved (perform_assuming decider block function fun part _ => Vocabulary.unrestricted.blind part)
    before.speaks_unrestricted run

theorem perform_marks (instruction : Instruction) (before : Machine) :
    match perform decider block function instruction before with
    | .ok _ after => before.Marks [] (instruction.loaded? after).toList after
    | .error _ after => before.Marks [] [] after := by
  by_cases load : instruction = .plain .calldataload
  · subst load
    let shown : Exec Unit := inspect decider (.plain .calldataload) >>= fun _ => showProgress
    have steady : Steady Sighting.frame before.session.names.other shown fun _ => True :=
      (inspect_steady decider (Sighting.blind nofun) _).bind fun _ _ => showProgress_steady
    have prepared := steady.abides before.speaks_unrestricted
    have parted : perform decider block function (.plain .calldataload) = shown >>= fun _ => loadData function := by
      unfold shown
      rw [bind_assoc]
      rfl
    rw [parted, bind_apply]
    cases run : shown before with
    | error fault between =>
      rw [after_of_error run] at prepared
      exact .of_abides prepared
    | ok value between =>
      rw [after_of_ok run] at prepared
      have loaded := loadData_marks function between
      dsimp only
      cases load : loadData function between with
      | ok value after =>
        rw [load] at loaded
        exact (Marks.of_abides prepared).trans loaded
      | error fault after =>
        rw [load] at loaded
        exact (Marks.of_abides prepared).trans loaded
  · have abides : before.Abides Sighting.frame ((perform decider block function instruction).after before) := by
      refine Assuming.abides (perform_assuming decider block function ?_) before.speaks_unrestricted
      intro part member
      refine Sighting.blind ?_
      rintro rfl
      exact load (loads_of_mem_changed (by simpa using member))
    cases run : perform decider block function instruction before with
    | error fault after =>
      rw [after_of_error run] at abides
      exact .of_abides abides
    | ok value after =>
      rw [after_of_ok run] at abides
      have unloaded : instruction.loaded? after = none := by
        unfold Instruction.loaded?
        split
        · exact (load rfl).elim
        · rfl
      dsimp only
      rw [unloaded]
      exact .of_abides abides

theorem counted_marks (line : String) (machine : Machine) :
    machine.Marks
      [{ block, pc := machine.path.pc, line, depth := machine.path.stack.length, function }] []
      (machine.counted block function line) where
  lasting := rfl
  takenEdges := rfl
  finishedPaths := rfl
  trace := rfl
  visitedPcs pc := by
    unfold counted
    dsimp only
    split
    · next present =>
      rw [List.map_singleton, List.mem_singleton, or_iff_left_of_imp]
      rintro rfl
      exact List.contains_iff_mem.mp present
    · rw [List.map_singleton, List.mem_cons, List.mem_singleton, or_comm]
  sighting := rfl

end Machine

namespace Explore

section Loads

variable (decider : Decider)

def Moment.loaded? (moment : Moment) : Option Word :=
  match currentText moment.machine with
  | .ok _ _ =>
    match Machine.step decider moment.block moment.function (Text.strip moment.line) moment.machine with
    | .ok _ after => moment.instruction.loaded? after
    | .error _ _ => none
  | .error _ _ => none

def Visit.loads (visit : Visit) : List Word :=
  (visit.moments decider).filterMap (Moment.loaded? decider)

end Loads

variable {decider : Decider}

variable (decider) in
theorem executeLine_marks (moment : Moment) :
    moment.machine.Marks moment.step?.toList (moment.loaded? decider).toList
      ((executeLine decider moment.block moment.function moment.line).after moment.machine) := by
  have stepped := Machine.step_eq decider moment.block moment.function (Text.strip moment.line) moment.machine
  rcases executeLine_eq moment with ⟨unrecorded, fault, failed⟩ | ⟨text, found, timeLeft, step, run⟩
  · have unloaded : moment.loaded? decider = none := by
      unfold Moment.run executeLine at failed
      unfold Moment.step? at unrecorded
      unfold Moment.loaded?
      rcases currentText_reads.eq moment.machine with ⟨text, found⟩ | ⟨fault, failed⟩
      · rw [found] at unrecorded ⊢
        dsimp only at unrecorded ⊢
        split at unrecorded
        · next timeUp =>
          rw [stepped, if_pos timeUp]
        · cases unrecorded
      · rw [failed]
    rw [unrecorded, unloaded, after_of_error failed]
    exact .refl moment.machine
  · rw [if_neg timeLeft] at stepped
    rw [step, Moment.after_eq run]
    unfold Moment.loaded? Moment.instruction
    rw [found, stepped]
    dsimp only
    have counted := Machine.counted_marks moment.block moment.function (Text.strip moment.line) moment.machine
    generalize moment.machine.counted moment.block moment.function (Text.strip moment.line) = machine at counted ⊢
    generalize Instruction.ofLine (Text.strip moment.line) = instruction
    have performed := Machine.perform_marks decider moment.block moment.function instruction machine
    cases ended : Machine.perform decider moment.block moment.function instruction machine with
    | error fault next =>
      rw [ended] at performed
      rw [after_bind_of_error ended]
      exact counted.trans performed
    | ok value next =>
      rw [ended] at performed
      rw [after_bind_of_ok ended]
      exact (counted.trans performed).then_abides
        ((noteSource_steady (Sighting.blind nofun) _ text).abides next.speaks_unrestricted)

theorem executeLine_pc {block : Int} {function line : String} {machine next : Machine}
    (run : executeLine decider block function line machine = .ok () next) :
    next.path.pc = machine.path.pc + (Instruction.ofLine (Text.strip line)).stride := by
  rcases executeLine_eq { block, function, line, machine } with ⟨_, fault, failed⟩ | ⟨text, _, _, _, same⟩
  · rw [Moment.run, run] at failed
    cases failed
  · rw [Moment.run, run, Moment.instruction] at same
    generalize Instruction.ofLine (Text.strip line) = instruction at same ⊢
    obtain ⟨_, between, performed, noted⟩ := of_bind_ok same.symm
    have steady := noteSource_steady (Vocabulary.unrestricted.blind .owner) between.session.names.other text
    rw [steady.moved between.speaks_unrestricted noted, add_zero]
    show _ = (machine.counted block function (Text.strip line)).path.pc + _
    exact Machine.perform_pc decider block function performed

variable (decider)

theorem marks_linking :
    Linking decider fun moments before after =>
      before.Marks (moments.filterMap Moment.step?) (moments.filterMap (Moment.loaded? decider)) after where
  refl := .refl
  trans first second := by
    simp only [List.filterMap_append]
    exact first.trans second
  line moment := by
    simp only [List.filterMap_eq_flatMap_toList, List.flatMap_singleton]
    exact executeLine_marks decider moment
  ending block function machine := .of_abides ((comeToEnd_steady _ block function).abides machine.speaks_unrestricted)

end Explore

def Watch.call (function : String) (watch : Watch) : Watch :=
  if function = watch.previousFunction then
    watch
  else
    { watch with loads := 0, previousFunction := function, stored := false }

theorem Watch.sighting_call (function : String) (watch : Watch) :
    (watch.call function).sighting = watch.sighting.call function := by
  unfold call Sighting.call
  by_cases same : function = watch.previousFunction
  · rw [if_pos same]
    exact (if_pos same).symm
  · rw [if_neg same]
    exact (if_neg same).symm

def Session.counting (edge : Int × Int) (change : Int) (session : Session) : Session :=
  { session with takenEdges := Table.put edge (Explore.edgeCount session edge + change) session.takenEdges }

def Session.signatureAt? (session : Session) (block : Int) : Option String :=
  session.source.bind fun map =>
    (Table.get? block session.functionStarts).bind fun selector => Table.get? selector map.functions

def Exec.returns (computation : Exec α) (before : Machine) : Bool :=
  match computation before with
  | .ok _ _ => true
  | .error _ _ => false

namespace Exec

variable {computation : Exec α} {before machine : Machine}

theorem returns_of_ok {value : α} (run : computation before = .ok value machine) :
    computation.returns before = true := by
  unfold returns
  rw [run]

theorem returns_of_error {fault : Fault} (run : computation before = .error fault machine) :
    computation.returns before = false := by
  unfold returns
  rw [run]

theorem ok_of_returns (runs : computation.returns before = true) :
    ∃ value, computation before = .ok value (after computation before) := by
  cases run : computation before with
  | ok value machine => exact ⟨value, by rw [after_of_ok run]⟩
  | error fault machine => simp [returns_of_error run] at runs

theorem returns_bind_of_ok {next : α → Exec β} {value : α} (run : computation before = .ok value machine) :
    (computation >>= next).returns before = (next value).returns machine := by
  unfold returns
  rw [bind_ok run]

theorem returns_bind_of_error {next : α → Exec β} {fault : Fault} (run : computation before = .error fault machine) :
    (computation >>= next).returns before = false :=
  returns_of_error (bind_error run)

theorem returns_bind_pure (computation : Exec α) (view : α → β) (before : Machine) :
    (computation >>= fun value => pure (view value)).returns before = computation.returns before := by
  cases run : computation before with
  | ok value machine => rw [returns_bind_of_ok run, returns_of_ok run]; rfl
  | error fault machine => rw [returns_bind_of_error run, returns_of_error run]

end Exec

namespace Explore

theorem edgeCount_counting (edge other : Int × Int) (change : Int) (session : Session) :
    edgeCount (session.counting edge change) other = edgeCount session other + if other = edge then change else 0 := by
  unfold edgeCount Session.counting
  by_cases same : other = edge
  · subst same
    simp [Table.get?_put_self, edgeCount]
  · simp [Table.get?_put_of_ne same, same]

def admission (block previous : Int) (function : String) (machine : Machine) : Approach :=
  if edgeCount machine.session (previous, block) > machine.session.settings.loopLimit ∨
      machine.path.gas.total > machine.session.settings.gasLimit then
    .stopped .bounded
  else
    match machine.session.graph.block block with
    | .error _ => .stopped .noBlock
    | .ok current => .ready current function

theorem approach_eq (block previous : Int) (function : String) (machine : Machine) :
    approach block previous function machine =
      if block < 0 then
        .ok (.stopped .noBlock) ((noteFunction function).after machine)
      else
        match enterFunction block function ((noteFunction function).after machine) with
        | .error fault entered => .error fault entered
        | .ok function entered =>
          let counted := { entered with session := entered.session.counting (previous, block) 1 }
          .ok (admission block previous function counted) counted := by
  have noted : noteFunction function machine = .ok () ((noteFunction function).after machine) := rfl
  unfold approach
  rw [bind_ok noted]
  by_cases below : block < 0
  · rw [if_pos below, if_pos below]
    rfl
  · rw [if_neg below, if_neg below, bind_apply]
    cases enterFunction block function ((noteFunction function).after machine) with
    | error fault entered => rfl
    | ok function entered =>
      have counts : countEdge (previous, block) 1 entered =
          .ok () { entered with session := entered.session.counting (previous, block) 1 } :=
        rfl
      dsimp only
      rw [bind_ok counts]
      generalize { entered with session := entered.session.counting (previous, block) 1 } = counted
      rw [bind_ok (session_apply counted)]
      unfold admission
      by_cases often : edgeCount counted.session (previous, block) > counted.session.settings.loopLimit
      · rw [if_pos often, if_pos (.inl often)]
        rfl
      · rw [if_neg often, bind_ok (path_apply counted)]
        by_cases costly : counted.path.gas.total > counted.session.settings.gasLimit
        · rw [if_pos costly, if_pos (.inr costly)]
          rfl
        · rw [if_neg costly, if_neg (not_or.mpr ⟨often, costly⟩)]
          cases counted.session.graph.block block <;> rfl

def rewatched (watch : Watch) (machine : Machine) : Machine :=
  { machine with session := { machine.session with watch := watch } }

theorem noteFunction_after (function : String) (machine : Machine) :
    (noteFunction function).after machine = rewatched (machine.session.watch.call function) machine := by
  unfold rewatched Watch.call
  by_cases same : function = machine.session.watch.previousFunction
  · simp [after, noteFunction, same]
  · simp [after, noteFunction, same]

theorem enterFunction_rewatched (block : Int) (function : String) (watch : Watch) (machine : Machine) :
    let signature? := machine.session.signatureAt? block
    (enterFunction block function).after (rewatched watch machine) =
        rewatched { watch with currentFunction := signature?.getD watch.currentFunction } machine ∧
      (enterFunction block function).returns (rewatched watch machine) =
        (enterFunction block function).returns machine ∧
      ∀ name entered, enterFunction block function (rewatched watch machine) = .ok name entered →
        name = signature?.elim function signatureName := by
  have read : (rewatched watch machine).session.source = machine.session.source := rfl
  have starts : (rewatched watch machine).session.functionStarts = machine.session.functionStarts := rfl
  simp only [enterFunction, after, Exec.returns, bind_apply, session_apply, read, starts, Session.signatureAt?]
  cases machine.session.source with
  | none => exact ⟨rfl, rfl, fun _ _ run => by cases run; rfl⟩
  | some map =>
    cases Table.get? block machine.session.functionStarts with
    | none => exact ⟨rfl, rfl, fun _ _ run => by cases run; rfl⟩
    | some selector =>
      dsimp only [Option.bind]
      cases Table.get? selector map.functions with
      | none => exact ⟨rfl, rfl, fun _ _ run => by cases run⟩
      | some signature => exact ⟨rfl, rfl, fun _ _ run => by cases run; rfl⟩

namespace Visit

def edge (visit : Visit) : Int × Int :=
  (visit.previous, visit.block)

/-- Whether the call gets as far as counting its edge: there can be such a block, and if a function starts there, its
name is known. -/
def counts (visit : Visit) : Bool :=
  0 ≤ visit.block && (enterFunction visit.block visit.function).returns visit.machine

def entered (visit : Visit) : Session :=
  if visit.counts then visit.machine.session.counting visit.edge 1 else visit.machine.session

def signature? (visit : Visit) : Option String :=
  if visit.block < 0 then none else visit.machine.session.signatureAt? visit.block

def name (visit : Visit) : String :=
  visit.signature?.elim visit.function signatureName

def noted (visit : Visit) : Watch :=
  let watch := visit.machine.session.watch.call visit.function
  { watch with currentFunction := visit.signature?.getD watch.currentFunction }

theorem approach_of_counts {visit : Visit} (counts : visit.counts) :
    let counted := rewatched visit.noted { visit.machine with session := visit.machine.session.counting visit.edge 1 }
    approach visit.block visit.previous visit.function visit.machine =
      .ok (admission visit.block visit.previous visit.name counted) counted := by
  obtain ⟨enters, returning, named⟩ := enterFunction_rewatched visit.block visit.function
    (visit.machine.session.watch.call visit.function) visit.machine
  obtain ⟨above, known⟩ := Bool.and_eq_true_iff.mp counts
  have notBelow : ¬ visit.block < 0 := Int.not_lt.mpr (of_decide_eq_true above)
  rw [← returning] at known
  have approached := approach_eq visit.block visit.previous visit.function visit.machine
  rw [noteFunction_after, if_neg notBelow] at approached
  unfold name noted signature?
  rw [if_neg notBelow]
  cases run : enterFunction visit.block visit.function
      (rewatched (visit.machine.session.watch.call visit.function) visit.machine) with
  | error fault machine =>
    rw [returns_of_error run] at known
    cases known
  | ok name machine =>
    rw [after_of_ok run] at enters
    rw [run, enters, named name machine run] at approached
    exact approached

theorem approach_of_not_counts {visit : Visit} (uncounted : ¬visit.counts) :
    approach visit.block visit.previous visit.function visit.machine =
        .ok (.stopped .noBlock) (rewatched visit.noted visit.machine) ∨
      ∃ fault, approach visit.block visit.previous visit.function visit.machine =
        .error fault (rewatched visit.noted visit.machine) := by
  obtain ⟨enters, returning, _⟩ := enterFunction_rewatched visit.block visit.function
    (visit.machine.session.watch.call visit.function) visit.machine
  have approached := approach_eq visit.block visit.previous visit.function visit.machine
  rw [noteFunction_after] at approached
  unfold noted signature?
  by_cases below : visit.block < 0
  · rw [if_pos below] at approached ⊢
    exact .inl approached
  · rw [if_neg below] at approached ⊢
    refine .inr ?_
    cases run : enterFunction visit.block visit.function
        (rewatched (visit.machine.session.watch.call visit.function) visit.machine) with
    | error fault machine =>
      rw [after_of_error run] at enters
      rw [run, enters] at approached
      exact ⟨fault, approached⟩
    | ok name machine =>
      refine (uncounted (Bool.and_eq_true_iff.mpr ⟨decide_eq_true (Int.not_lt.mp below), ?_⟩)).elim
      rw [← returning, returns_of_ok run]

variable (visit : Visit)

theorem approach_after :
    (approach visit.block visit.previous visit.function).after visit.machine =
      rewatched visit.noted { visit.machine with session := visit.entered } := by
  unfold entered
  by_cases counts : visit.counts
  · rw [if_pos counts]
    exact after_of_ok (approach_of_counts counts)
  · rw [if_neg counts]
    rcases approach_of_not_counts counts with stopped | ⟨fault, failed⟩
    · exact after_of_ok stopped
    · exact after_of_error failed

theorem of_ready {visit : Visit} {current : Block} {function : String} {machine : Machine}
    (ready : approach visit.block visit.previous visit.function visit.machine = .ok (.ready current function) machine) :
    function = visit.name ∧ machine.path = visit.machine.path ∧
      Table.get? visit.block visit.machine.session.graph.blocks = some current := by
  by_cases counts : visit.counts
  · have approached := approach_of_counts counts
    rw [ready] at approached
    injection approached with admitted same
    unfold admission at admitted
    split at admitted
    · cases admitted
    · split at admitted
      · cases admitted
      · next found =>
        cases admitted
        refine ⟨rfl, by rw [same]; rfl, ?_⟩
        unfold Graph.block at found
        split at found
        · cases found
          assumption
        · cases found
  · rcases approach_of_not_counts counts with stopped | ⟨fault, failed⟩
    · rw [ready] at stopped
      cases stopped
    · rw [ready] at failed
      cases failed

theorem of_atEnd {decider : Decider} {visit : Visit} {kind : JumpKind} {function : String} {machine : Machine}
    (reached : visit.arrival decider = .ok (.atEnd kind function) machine) :
    ∃ current ready done,
      approach visit.block visit.previous visit.function visit.machine = .ok (.ready current function) ready ∧
      current.lines.forM (executeLine decider visit.block function) ready = .ok () done ∧
      machine = { done with path := { done.path with visited := done.path.visited ++ [visit.block] } } := by
  unfold arrival arrive at reached
  obtain ⟨approached, ready, approaches, rest⟩ := of_bind_ok reached
  cases approached with
  | stopped ending => cases rest
  | ready current entered =>
    have through : runThrough decider visit.block current entered ready = .ok (.atEnd kind function) machine := rest
    rw [runThrough_eq] at through
    obtain ⟨_, done, ran, ends⟩ := of_bind_ok through
    obtain ⟨_, visited, noted, ends⟩ := of_bind_ok ends
    cases noted
    obtain ⟨session, _, read, ends⟩ := of_bind_ok ends
    cases read
    generalize Table.get? visit.block _ = found at ends
    cases found with
    | none => cases ends
    | some kind =>
      cases ends
      exact ⟨current, ready, done, approaches, ran, rfl⟩

variable (decider : Decider)

theorem reached_marks :
    ((approach visit.block visit.previous visit.function).after visit.machine).Marks
      (visit.ownSteps decider) (visit.loads decider) (visit.reached decider) :=
  (marks_linking decider).reached visit

theorem lasting_reached : (visit.reached decider).session.lasting = visit.machine.session.lasting := by
  rw [(visit.reached_marks decider).lasting, approach_after]
  unfold entered
  split <;> rfl

theorem edgeCount_reached (edge : Int × Int) :
    edgeCount (visit.reached decider).session edge =
      edgeCount visit.machine.session edge + if visit.counts ∧ edge = visit.edge then 1 else 0 := by
  have taken : edgeCount (visit.reached decider).session edge = edgeCount visit.entered edge := by
    unfold edgeCount
    rw [(visit.reached_marks decider).takenEdges, approach_after]
    rfl
  rw [taken]
  unfold entered
  split
  · next counted =>
    rw [edgeCount_counting]
    simp only [counted, true_and]
  · next uncounted =>
    rw [if_neg fun both => uncounted both.1, add_zero]

theorem mem_visitedPcs_reached (pc : Int) :
    pc ∈ (visit.reached decider).session.visitedPcs ↔
      pc ∈ visit.machine.session.visitedPcs ∨ pc ∈ (visit.ownSteps decider).map Step.pc := by
  rw [(visit.reached_marks decider).visitedPcs, approach_after]
  unfold entered
  split <;> rfl

theorem records_reached : visit.machine.Records (visit.ownSteps decider) 0 (visit.reached decider) := by
  have marks := visit.reached_marks decider
  rw [approach_after] at marks
  constructor
  · rw [marks.finishedPaths]
    unfold entered
    split <;> rfl
  · rw [marks.trace]
    unfold entered
    split <;> rfl

theorem sighting_reached :
    (visit.reached decider).session.watch.sighting =
      (visit.loads decider).foldl (fun sighting word => sighting.load word)
        (visit.machine.session.watch.sighting.call visit.function) := by
  rw [(visit.reached_marks decider).sighting, approach_after, ← Watch.sighting_call]
  rfl

end Visit

end Explore

end MintAudit
