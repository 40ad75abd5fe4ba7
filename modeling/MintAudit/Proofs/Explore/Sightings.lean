import MintAudit.Proofs.Explore.Succession

namespace MintAudit

/-!
# What an exploration counts and sees

The sender of a transfer is taken to be the first word of the call data that is loaded in a function.
-/

/-! ## How often edges are counted -/

open Exec List

namespace Explore

section Counts

variable (decider : Decider)

/-- Whether the count of its edge stays behind when the call is over. -/
def Visit.leaks (visit : Visit) : Bool :=
  visit.counts && !visit.takesBack decider

def counted (edge : Int × Int) (calls : List Visit) : Nat :=
  calls.countP fun call => call.counts && edge == call.edge

def leaked (edge : Int × Int) (calls : List Visit) : Nat :=
  calls.countP fun call => call.leaks decider && edge == call.edge

/-- The way from a call down to another: the calls from which it leads on, and all calls that were over before. -/
inductive Way : Visit → List Visit → List Visit → Visit → Prop
  | here (visit : Visit) : Way visit [] [] visit
  | on
      {visit next target : Visit}
      {earlier later trail finished : List Visit}
      (made : visit.successors decider = earlier ++ next :: later)
      (below : Way next trail finished target) :
      Way visit (visit :: trail) (earlier.flatMap (Visit.tour decider) ++ finished) target

end Counts

variable {decider : Decider} {edge : Int × Int}

theorem admission_eq_bounded {block previous : Int} {function : String} {machine : Machine} :
    admission block previous function machine = .stopped .bounded ↔
      edgeCount machine.session (previous, block) > machine.session.settings.loopLimit ∨
        machine.path.gas.total > machine.session.settings.gasLimit := by
  unfold admission
  split
  · next reached =>
    exact iff_of_true rfl reached
  · next unreached =>
    refine iff_of_false ?_ unreached
    cases machine.session.graph.block block <;> nofun

def Visit.isBounded (visit : Visit) : Bool :=
  match approach visit.block visit.previous visit.function visit.machine with
  | .ok (.stopped .bounded) _ => true
  | _ => false

theorem Visit.counts_of_takesBack {visit : Visit} (takesBack : visit.takesBack decider) : visit.counts := by
  by_contra uncounted
  have none : visit.exit? decider = none := by
    unfold exit? arrival arrive
    rcases approach_of_not_counts uncounted with stopped | ⟨fault, failed⟩
    · rw [bind_ok stopped]
      split <;> simp_all
    · rw [bind_error failed]
      split <;> simp_all
  unfold Visit.takesBack at takesBack
  rw [none] at takesBack
  cases takesBack

theorem leaked_singleton (visit : Visit) :
    leaked decider edge [visit] = if visit.leaks decider ∧ edge = visit.edge then 1 else 0 := by
  simp only [leaked, countP_singleton, Bool.and_eq_true, beq_iff_eq]

theorem leaked_append (first second : List Visit) :
    leaked decider edge (first ++ second) = leaked decider edge first + leaked decider edge second :=
  countP_append

theorem Handed.edgeCount {before after : Session} {calls : List Visit}
    (each : ∀ next ∈ calls, edgeCount (next.explored decider).session edge =
      edgeCount next.machine.session edge + leaked decider edge (next.tour decider))
    (handed : Handed decider before calls after) :
    edgeCount after edge = edgeCount before edge + leaked decider edge (calls.flatMap (Visit.tour decider)) := by
  have sum : ∀ (calls : List Visit) (count : Int),
      calls.foldl (fun count next => count + (leaked decider edge (next.tour decider) : Int)) count =
        count + leaked decider edge (calls.flatMap (Visit.tour decider)) := by
    intro calls
    induction calls with
    | nil => exact fun count => (add_zero count).symm
    | cons next rest ih =>
      intro count
      rw [foldl_cons, ih, flatMap_cons, leaked_append, Nat.cast_add, add_assoc]
  rw [← sum]
  exact handed.foldl (fun session => Explore.edgeCount session edge) (fun _ => rfl)
    (fun next count => count + (leaked decider edge (next.tour decider) : Int)) each

namespace Visit

variable (visit : Visit)

theorem leaked_self :
    (leaked decider edge [visit] : Int) =
      (if visit.counts ∧ edge = visit.edge then 1 else 0) +
        if visit.takesBack decider ∧ edge = visit.edge then -1 else 0 := by
  rw [leaked_singleton, leaks]
  by_cases same : edge = visit.edge
  · by_cases takesBack : visit.takesBack decider
    · simp [same, takesBack, counts_of_takesBack takesBack]
    · simp [same, takesBack]
  · simp [same]

theorem edgeCount_explored :
    edgeCount (visit.explored decider).session edge =
      edgeCount visit.machine.session edge + leaked decider edge (visit.tour decider) := by
  induction visit using induction decider with
  | step visit ih =>
    obtain ⟨left, handed, explored⟩ := visit.handed decider
    have settled : edgeCount (visit.explored decider).session edge =
        edgeCount left edge + if visit.takesBack decider ∧ edge = visit.edge then -1 else 0 := by
      show edgeCount (visit.explored decider).session.handed edge = _
      rw [explored]
      cases visit.takesBack decider with
      | true =>
        refine (edgeCount_counting visit.edge edge (-1) left).trans ?_
        simp only [true_and]
      | false => simp [edgeCount, Session.leaving, Session.handed]
    have parted : leaked decider edge (visit.tour decider) =
        leaked decider edge [visit] + leaked decider edge ((visit.successors decider).flatMap (tour decider)) := by
      rw [tour_eq, ← leaked_append]
      rfl
    rw [settled, handed.edgeCount ih, visit.edgeCount_reached decider edge, parted, Nat.cast_add, leaked_self]
    ring

theorem isBounded_eq_true :
    visit.isBounded ↔
      ∃ machine, approach visit.block visit.previous visit.function visit.machine = .ok (.stopped .bounded) machine := by
  unfold isBounded
  split
  · next machine stopped =>
    exact iff_of_true rfl ⟨machine, stopped⟩
  · next other =>
    exact iff_of_false Bool.false_ne_true fun ⟨machine, stopped⟩ => other machine stopped

theorem isBounded_iff :
    visit.isBounded ↔
      visit.counts ∧
        (visit.machine.session.settings.loopLimit < edgeCount visit.machine.session visit.edge + 1 ∨
          visit.machine.session.settings.gasLimit < visit.machine.path.gas.total) := by
  rw [isBounded_eq_true]
  by_cases counts : visit.counts
  · have grown := edgeCount_counting visit.edge visit.edge 1 visit.machine.session
    rw [if_pos rfl] at grown
    rw [approach_of_counts counts, ← grown, and_iff_right counts]
    constructor
    · rintro ⟨machine, stopped⟩
      injection stopped with admitted
      exact admission_eq_bounded.mp admitted
    · intro reached
      exact ⟨_, congrArg (EStateM.Result.ok · _) (admission_eq_bounded.mpr reached)⟩
  · rcases approach_of_not_counts counts with stopped | ⟨fault, failed⟩
    · simp [stopped, counts]
    · simp [failed, counts]

variable (decider) in
theorem lasting_of_mem_tour {start visit : Visit} (member : visit ∈ start.tour decider) :
    visit.machine.session.lasting = start.machine.session.lasting := by
  have arriving : ∀ visit : Visit, True → visit.machine.session.lasting = start.machine.session.lasting →
      (visit.reached decider).session.lasting = start.machine.session.lasting :=
    fun visit _ same => (visit.lasting_reached decider).trans same
  obtain ⟨everywhere, _⟩ := forall_tour_session (fun _ => True)
    (fun session => session.lasting = start.machine.session.lasting) (fun _ => Iff.rfl) (fun _ _ _ _ same => same)
    (fun _ _ _ _ => trivial) arriving trivial rfl
  exact (everywhere visit member).2

end Visit

namespace Way

variable {start target : Visit} {trail finished : List Visit}

theorem mem_tour (way : Way decider start trail finished target) : target ∈ start.tour decider := by
  induction way with
  | here visit =>
    rw [Visit.tour_eq]
    exact mem_cons_self
  | on made below ih =>
    rw [Visit.tour_eq, made]
    exact mem_cons_of_mem _ (mem_flatMap.mpr ⟨_, by simp, ih⟩)

theorem exists_of_mem_tour (member : target ∈ start.tour decider) :
    ∃ trail finished, Way decider start trail finished target := by
  induction start using Visit.induction decider with
  | step start ih =>
    rw [Visit.tour_eq] at member
    rcases mem_cons.mp member with rfl | later
    · exact ⟨[], [], .here _⟩
    · obtain ⟨next, made, inside⟩ := mem_flatMap.mp later
      obtain ⟨trail, finished, below⟩ := ih next made inside
      obtain ⟨earlier, rest, split⟩ := append_of_mem made
      exact ⟨_, _, .on split below⟩

theorem down (index : Nat) (within : index < (start.successors decider).length)
    (below : Way decider ((start.successors decider).getD index start) trail finished target) :
    Way decider start (start :: trail)
      (((start.successors decider).take index).flatMap (Visit.tour decider) ++ finished) target := by
  have split := take_append_drop index (start.successors decider)
  rw [drop_eq_getElem_cons within] at split
  rw [getD_eq_getElem _ _ within] at below
  exact .on split.symm below

theorem edgeCount (way : Way decider start trail finished target) (edge : Int × Int) :
    edgeCount target.machine.session edge =
      edgeCount start.machine.session edge + counted edge trail + leaked decider edge finished := by
  induction way with
  | here visit => simp [counted, leaked]
  | @on visit next target earlier later trail finished made below ih =>
    obtain ⟨left, handed, _⟩ := visit.handed decider
    rw [made] at handed
    have front : Explore.edgeCount next.machine.session edge = _ :=
      handed.front.edgeCount fun next _ => next.edgeCount_explored
    have own : counted edge (visit :: trail) =
        counted edge trail + if visit.counts ∧ edge = visit.edge then 1 else 0 := by
      simp [counted, countP_cons]
    rw [ih, front, visit.edgeCount_reached decider edge, own, leaked_append]
    push_cast
    ring

end Way

/-- What a call leaves behind of the counts: one for each call of its tour that does not take its own back. -/
theorem edges_stay_counted (decider : Decider) (start : Visit) :
    (∀ edge, edgeCount (start.explored decider).session edge =
      edgeCount start.machine.session edge + leaked decider edge (start.tour decider)) ∧
    (∀ target ∈ start.tour decider, ∃ trail finished, Way decider start trail finished target) ∧
    ∀ trail finished target, Way decider start trail finished target →
      (target.isBounded ↔
        target.counts ∧
          (start.machine.session.settings.loopLimit <
              edgeCount start.machine.session target.edge + counted target.edge trail +
                leaked decider target.edge finished + 1 ∨
            start.machine.session.settings.gasLimit < target.machine.path.gas.total)) := by
  refine ⟨fun edge => start.edgeCount_explored, fun _ => Way.exists_of_mem_tour, fun trail finished target way => ?_⟩
  have lasting := Visit.lasting_of_mem_tour decider way.mem_tour
  have loopLimit : target.machine.session.settings.loopLimit = start.machine.session.settings.loopLimit :=
    congrArg Standing.loopLimit lasting
  have gasLimit : target.machine.session.settings.gasLimit = start.machine.session.settings.gasLimit :=
    congrArg Standing.gasLimit lasting
  rw [target.isBounded_iff, way.edgeCount, loopLimit, gasLimit]

def diamond : Machine where
  session :=
    { settings := { loopLimit := 1 }
      graph :=
        { instructions := [(0, "JUMPI "), (1, "JUMP "), (2, "JUMPDEST "), (3, "JUMP "), (4, "JUMPDEST "), (5, "JUMP "),
            (6, "JUMPDEST "), (7, "STOP ")]
          ends := [(0, 0), (1, 1), (2, 3), (4, 5), (6, 7)]
          kinds := [(0, .conditional), (1, .unconditional), (2, .unconditional), (4, .unconditional), (6, .terminal)]
          blocks :=
            [(0, { start := 0, stop := 0, lines := ["JUMPI "], kind := some .conditional, fallsTo := some (some 1) }),
              (1, { start := 1, stop := 1, lines := ["JUMP "], kind := some .unconditional }),
              (2, { start := 2, stop := 3, lines := ["JUMPDEST ", "JUMP "], kind := some .unconditional }),
              (4, { start := 4, stop := 5, lines := ["JUMPDEST ", "JUMP "], kind := some .unconditional }),
              (6, { start := 6, stop := 7, lines := ["JUMPDEST ", "STOP "], kind := some .terminal })]
          edges := [(0, [1]), (1, []), (2, []), (4, []), (6, [])] }
      source := some {} }
  path := { Path.initial with stack := [.integer 2, .term Path.deposit, .integer 4, .integer 6] }

def diamondStart : Visit where
  remaining := 4
  block := 0
  previous := 0
  function := "f()"
  machine := diamond

def diamondFall : Visit :=
  (diamondStart.successors .permissive).getD 1 diamondStart

def diamondJoint : Visit :=
  (diamondFall.successors .permissive).getD 0 diamondFall

def diamondTail : Visit :=
  (diamondJoint.successors .permissive).getD 0 diamondJoint

/-- The call comes back with its edges counted. The second side takes the last edge for the first time and is stopped by
what the first side left counted there. -/
theorem edges_stay_counted_diamond :
    diamondStart.comesBack .permissive ∧ diamond.session.takenEdges = [] ∧
    leaked .permissive (4, 6) (diamondStart.tour .permissive) = 2 ∧
    ∃ trail finished, Way .permissive diamondStart trail finished diamondTail ∧ diamondTail.edge = (4, 6) ∧
      diamondTail.isBounded ∧ counted (4, 6) trail = 0 ∧ 0 < leaked .permissive (4, 6) finished := by
  obtain ⟨counts, _, bounds⟩ := edges_stay_counted .permissive diamondStart
  refine ⟨by decide +kernel, rfl, ?_, ?_⟩
  · have taken : edgeCount (diamondStart.explored .permissive).session (4, 6) = 2 := by decide +kernel
    have none : edgeCount diamondStart.machine.session (4, 6) = 0 := rfl
    have grown := counts (4, 6)
    omega
  · have way : Way .permissive diamondStart [diamondStart, diamondFall, diamondJoint] _ diamondTail :=
      .down 1 (by decide +kernel) (.down 0 (by decide +kernel) (.down 0 (by decide +kernel) (.here diamondTail)))
    have edge : diamondTail.edge = (4, 6) := by decide +kernel
    have bounded : diamondTail.isBounded := by decide +kernel
    have once : counted (4, 6) [diamondStart, diamondFall, diamondJoint] = 0 := by decide +kernel
    refine ⟨_, _, way, edge, bounded, once, ?_⟩
    have cheap : ¬ diamondStart.machine.session.settings.gasLimit < diamondTail.machine.path.gas.total := by
      decide +kernel
    have limit : diamondStart.machine.session.settings.loopLimit = 1 := rfl
    have none : edgeCount diamondStart.machine.session (4, 6) = 0 := rfl
    obtain ⟨_, often | costly⟩ := (bounds _ _ _ way).mp bounded
    · rw [edge, limit, none, once] at often
      omega
    · exact (cheap costly).elim

end Explore

/-! ## Whose load is taken for the sender -/

/-- What matters for the sender: a call of the exploration in a function, or a word of the call data that is loaded. -/
inductive Sighting.Event where
  | call (function : String)
  | load (word : Word)

namespace Sighting

def note (sighting : Sighting) : Event → Sighting
  | .call function => sighting.call function
  | .load word => sighting.load word

def Event.loaded? : Event → Option Word
  | .call _ => none
  | .load word => some word

theorem note_call_of_same {sighting : Sighting} {function : String} (inside : sighting.function = function) :
    sighting.note (.call function) = sighting := by
  rw [note, call, if_pos inside.symm]

section Since

variable {function : String} {events : List Event} (same : ∀ other, Event.call other ∈ events → other = function)

include same

theorem sender_while_inside {sighting : Sighting} (inside : sighting.function = function)
    (counted : 0 ≤ sighting.loads) :
    (events.foldl note sighting).sender =
      if sighting.loads = 0 then (events.filterMap Event.loaded?).head?.getD sighting.sender else sighting.sender := by
  induction events generalizing sighting with
  | nil => exact (ite_self _).symm
  | cons event rest ih =>
    have restSame : ∀ other, Event.call other ∈ rest → other = function :=
      fun other member => same other (mem_cons_of_mem _ member)
    rw [foldl_cons]
    cases event with
    | call other =>
      rw [same other mem_cons_self, note_call_of_same inside]
      exact ih restSame inside counted
    | load word =>
      have stays : (sighting.note (.load word)).function = function := inside
      have more : (sighting.note (.load word)).loads = sighting.loads + 1 := rfl
      rw [ih restSame stays (by omega), if_neg (by omega)]
      rfl

end Since

theorem sender_since_change {function : String} {past recent : List Event}
    (same : ∀ other, Event.call other ∈ recent → other = function) {sighting : Sighting}
    (changed : (past.foldl note sighting).function ≠ function) :
    ((past ++ .call function :: recent).foldl note sighting).sender =
      (recent.filterMap Event.loaded?).head?.getD (past.foldl note sighting).sender := by
  rw [foldl_append, foldl_cons]
  have anew : (past.foldl note sighting).note (.call function) =
      { past.foldl note sighting with function, loads := 0 } := by
    rw [note, call, if_neg (Ne.symm changed)]
  rw [anew]
  exact (sender_while_inside same rfl le_rfl).trans (if_pos rfl)

end Sighting

def Machine.scene (instruction : Instruction) (machine : Machine) : TransferEvent.Scene where
  logsFourTopics := match instruction with
    | .log topics => topics == 4
    | _ => false
  stack := machine.path.stack
  scopes := machine.session.scopes
  sender := machine.session.watch.source
  owner := machine.session.watch.owner
  stored := machine.session.watch.stored
  function := machine.session.watch.currentFunction

def Machine.conclude (outcome : TransferEvent.Outcome) : Exec Unit := do
  modifySession fun session =>
    { session with
      scopes := outcome.scopes
      watch := { session.watch with findings := outcome.findings } }
  match outcome.fault with
  | some fault => throw fault
  | none => pure ()

theorem Machine.inspect_eq (decider : Decider) (instruction : Instruction) (machine : Machine) :
    inspect decider instruction machine =
      conclude (TransferEvent.inspect decider (machine.scene instruction) machine.session.watch.findings) machine := by
  unfold inspect conclude
  rw [bind_ok (get_apply machine)]
  rfl

namespace Explore

open Sighting

section Events

variable (decider : Decider)

def Visit.events (visit : Visit) : List Event :=
  .call visit.function :: (visit.loads decider).map .load

end Events

variable {decider : Decider}

theorem foldl_note_loads (words : List Word) (sighting : Sighting) :
    (words.map Event.load).foldl note sighting = words.foldl (fun sighting word => sighting.load word) sighting := by
  rw [foldl_map]
  rfl

variable (decider) in
theorem sighting_tracking :
    Tracking decider (fun session => session.watch.sighting)
      fun visit sighting => (visit.events decider).foldl note sighting where
  hidden _ := rfl
  left _ _ _ _ := rfl
  reached visit := by
    rw [Visit.sighting_reached, Visit.events, foldl_cons, foldl_note_loads]
    rfl

theorem Visit.sighting_in_tour {start visit : Visit} {before after : List Visit}
    (position : start.tour decider = before ++ visit :: after) :
    visit.machine.session.watch.sighting =
      (before.flatMap (events decider)).foldl note start.machine.session.watch.sighting := by
  rw [foldl_flatMap]
  exact (sighting_tracking decider).before position

theorem Visit.sighting_in_block {visit : Visit} {done rest : List Moment} {moment : Moment}
    (position : visit.moments decider = done ++ moment :: rest) :
    moment.machine.session.watch.sighting =
      (.call visit.function :: (done.filterMap (Moment.loaded? decider)).map Event.load).foldl note
        visit.machine.session.watch.sighting := by
  have marks := (marks_linking decider).within position
  rw [Visit.approach_after] at marks
  rw [marks.sighting, foldl_cons, foldl_note_loads, note, ← Watch.sighting_call]
  rfl

/-- The sender that the detector of transfer events is shown at a line is remembered of all calls of the tour up to
there: it is the first word that was loaded since the function last changed, on whatever path, and if there was none, the
sender of before that. -/
theorem sender_across_paths (decider : Decider) {start visit : Visit} {before after : List Visit}
    (position : start.tour decider = before ++ visit :: after) {done rest : List Moment} {moment : Moment}
    (line : visit.moments decider = done ++ moment :: rest) :
    let counted := moment.machine.counted moment.block moment.function (Text.strip moment.line)
    let scene := counted.scene moment.instruction
    let history := before.flatMap (Visit.events decider) ++
      .call visit.function :: (done.filterMap (Moment.loaded? decider)).map Event.load
    let remembered := fun events : List Event => events.foldl note start.machine.session.watch.sighting
    Machine.inspect decider moment.instruction counted =
      Machine.conclude (TransferEvent.inspect decider scene counted.session.watch.findings) counted ∧
    scene.sender = (remembered history).sender ∧
    ∀ past function recent, history = past ++ .call function :: recent →
      (∀ other, Event.call other ∈ recent → other = function) → (remembered past).function ≠ function →
      scene.sender = (recent.filterMap Event.loaded?).head?.getD (remembered past).sender := by
  intro counted scene history remembered
  have sender : scene.sender = (remembered history).sender := by
    show moment.machine.session.watch.sighting.sender = _
    rw [Visit.sighting_in_block line, Visit.sighting_in_tour position, ← foldl_append]
  refine ⟨Machine.inspect_eq decider _ counted, sender, fun past function recent parted same changed => ?_⟩
  rw [sender, parted]
  exact sender_since_change same changed

def loadBeside : Machine where
  session :=
    { graph :=
        { instructions := [(0, "JUMPI "), (1, "LOG4 "), (2, "STOP "), (3, "JUMPDEST "), (4, "CALLDATALOAD "), (5, "STOP ")]
          ends := [(0, 0), (1, 2), (3, 5)]
          kinds := [(0, .conditional), (1, .terminal), (3, .terminal)]
          blocks :=
            [(0, { start := 0, stop := 0, lines := ["JUMPI "], kind := some .conditional, fallsTo := some (some 1) }),
              (1, { start := 1, stop := 2, lines := ["LOG4 ", "STOP "], kind := some .terminal }),
              (3, { start := 3, stop := 5, lines := ["JUMPDEST ", "CALLDATALOAD ", "STOP "], kind := some .terminal })]
          edges := [(0, [1]), (1, []), (3, [])] }
      source := some {} }
  path :=
    { Path.initial with
      stack := [.integer 3, .term Path.deposit, .integer 4, .integer 0, .integer TransferEvent.signature, .integer 0,
        .integer 0, .integer 0] }

def loadBesideStart : Visit where
  remaining := 1
  block := 0
  previous := 0
  function := "f()"
  machine := loadBeside

def loadBesideJump : Visit :=
  (loadBesideStart.successors .permissive).getD 0 loadBesideStart

def loadBesideFall : Visit :=
  (loadBesideStart.successors .permissive).getD 1 loadBesideStart

theorem loadBeside_tour :
    ∃ after, loadBesideStart.tour .permissive = [loadBesideStart, loadBesideJump] ++ loadBesideFall :: after := by
  have both : (loadBesideStart.successors .permissive).length = 2 := by decide +kernel
  have none : (loadBesideJump.successors .permissive).length = 0 := by decide +kernel
  have sides : loadBesideStart.successors .permissive = [loadBesideJump, loadBesideFall] := by
    unfold loadBesideJump loadBesideFall
    obtain ⟨first, second, shape⟩ := length_eq_two.mp both
    rw [shape, getD_cons_zero, getD_cons_succ, getD_cons_zero]
  refine ⟨(loadBesideFall.successors .permissive).flatMap (Visit.tour .permissive), ?_⟩
  rw [Visit.tour_eq, sides, flatMap_cons, flatMap_cons, Visit.tour_eq loadBesideJump,
    length_eq_zero_iff.mp none, Visit.tour_eq loadBesideFall]
  simp only [flatMap_nil, append_nil, List.cons_append, nil_append]

theorem sender_across_paths_loadBeside :
    ∃ after moment rest,
      loadBesideStart.tour .permissive = [loadBesideStart, loadBesideJump] ++ loadBesideFall :: after ∧
      loadBesideFall.moments .permissive = [] ++ moment :: rest ∧ moment.line = "LOG4 " ∧
      loadBesideStart.loads .permissive = [] ∧
      ((moment.machine.counted moment.block moment.function (Text.strip moment.line)).scene moment.instruction).sender =
        .term (.symbol "Id_1" Word.size) := by
  obtain ⟨after, tour⟩ := loadBeside_tour
  have lines : (loadBesideFall.moments .permissive).map Moment.line = ["LOG4 ", "STOP "] := by decide +kernel
  obtain ⟨moment, rest, shape, logs, _⟩ := map_eq_cons_iff.mp lines
  have line : loadBesideFall.moments .permissive = [] ++ moment :: rest := shape
  have word : (([loadBesideStart, loadBesideJump].flatMap (Visit.events .permissive) ++
      [Event.call loadBesideFall.function]).foldl note loadBesideStart.machine.session.watch.sighting).sender =
      .term (.symbol "Id_1" Word.size) := by
    decide +kernel
  refine ⟨after, moment, rest, tour, line, logs, by decide +kernel, ?_⟩
  rw [← word]
  exact (sender_across_paths .permissive tour line).2.1

end Explore

end MintAudit
