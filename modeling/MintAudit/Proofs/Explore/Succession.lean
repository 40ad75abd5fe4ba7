import MintAudit.Proofs.Explore.Footprint

namespace MintAudit

/-!
# From one call to the next

Apart from the open scopes, what all paths share is handed from call to call: the first call from the end of a block
finds it as it was there, and every other one as the call before it left it.
-/

open Exec

def Session.handed (session : Session) : Session :=
  { session with scopes := {} }

def Session.leaving (edge : Int × Int) (takesBack ends : Bool) (session : Session) : Session :=
  { session with
    takenEdges := if takesBack then (session.counting edge (-1)).takenEdges else session.takenEdges
    finishedPaths := session.finishedPaths + if ends then 1 else 0 }

def Decider.permissive : Decider :=
  fun _ => .satisfiable

/-- Whether a block that is left in this way takes the count of its edge back, if what is behind it comes back or not. -/
def JumpKind.takesBack (comesBack : Bool) : JumpKind → Bool
  | .conditional => comesBack
  | .other _ => true
  | _ => false

namespace Explore

section Handed

variable (decider : Decider)

def Handed : Session → List Visit → Session → Prop
  | before, [], after => after.handed = before.handed
  | before, next :: rest, after =>
    next.machine.session.handed = before.handed ∧ Handed (next.explored decider).session rest after

def Visit.comesBack (visit : Visit) : Bool :=
  (explore decider visit.remaining visit.block visit.previous visit.function).returns visit.machine

def Visit.takesBack (visit : Visit) : Bool :=
  match visit.exit? decider with
  | some exit => exit.kind.takesBack (visit.comesBack decider)
  | none => false

structure Tracking (view : Session → σ) (own : Visit → σ → σ) : Prop where
  hidden : ∀ session, view session.handed = view session
  left : ∀ session edge takesBack ends, view (session.leaving edge takesBack ends) = view session
  reached : ∀ visit : Visit, view (visit.reached decider).session = own visit (view visit.machine.session)

end Handed

variable {decider : Decider}

namespace Handed

variable {calls : List Visit} {before after : Session}

theorem congr {before other after : Session} (same : before.handed = other.handed)
    (handed : Handed decider before calls after) :
    Handed decider other calls after := by
  cases calls with
  | nil => exact Eq.trans handed same
  | cons next rest => exact ⟨handed.1.trans same, handed.2⟩

theorem append {before between after : Session} {calls more : List Visit} (first : Handed decider before calls between)
    (second : Handed decider between more after) :
    Handed decider before (calls ++ more) after := by
  induction calls generalizing before with
  | nil => exact second.congr first
  | cons next rest ih => exact ⟨first.1, ih first.2⟩

theorem front {earlier later : List Visit} {call : Visit}
    (handed : Handed decider before (earlier ++ call :: later) after) :
    Handed decider before earlier call.machine.session := by
  induction earlier generalizing before with
  | nil => exact handed.1
  | cons next rest ih => exact ⟨handed.1, ih handed.2⟩

theorem foldl (view : Session → σ) (hidden : ∀ session, view session.handed = view session) (run : Visit → σ → σ)
    (each : ∀ next ∈ calls, view (next.explored decider).session = run next (view next.machine.session))
    (handed : Handed decider before calls after) :
    view after = calls.foldl (fun found next => run next found) (view before) := by
  have same : ∀ {first second : Session}, first.handed = second.handed → view first = view second := by
    intro first second handed
    rw [← hidden first, handed, hidden]
  induction calls generalizing before with
  | nil => exact same handed
  | cons next rest ih =>
    obtain ⟨explored, later⟩ := List.forall_mem_cons.mp each
    rw [List.foldl_cons, ih later handed.2, explored, same handed.1]

theorem keeps {holds : Session → Prop} (hidden : ∀ session, holds session.handed ↔ holds session) {fine : Visit → Prop}
    (each : ∀ next ∈ calls, holds next.machine.session → fine next ∧ holds (next.explored decider).session)
    (handed : Handed decider before calls after) (initially : holds before) :
    (∀ next ∈ calls, fine next) ∧ holds after := by
  have same : ∀ {first second : Session}, first.handed = second.handed → holds second → holds first := by
    intro first second handed
    rw [← hidden first, handed, hidden]
    exact id
  induction calls generalizing before with
  | nil => exact ⟨fun _ absent => (by cases absent), same handed initially⟩
  | cons next rest ih =>
    obtain ⟨explored, later⟩ := List.forall_mem_cons.mp each
    obtain ⟨nextFine, nextHolds⟩ := explored (same handed.1 initially)
    obtain ⟨restFine, holdsAfter⟩ := ih later handed.2 nextHolds
    exact ⟨List.forall_mem_cons.mpr ⟨nextFine, restFine⟩, holdsAfter⟩

end Handed

theorem finishPath_handed (edge : Int × Int) (machine : Machine) :
    (finishPath.after machine).session.handed = (machine.session.leaving edge false true).handed := by
  unfold finishPath
  rw [after_bind_of_ok (modifySession_apply machine _), after_bind_of_ok (session_apply _)]
  split
  · split <;> rfl
  · rfl

theorem leaveScope_handed (machine : Machine) : (leaveScope.after machine).session.handed = machine.session.handed := by
  unfold leaveScope
  rw [after_bind_of_ok (session_apply machine)]
  cases machine.session.scopes.leave <;> rfl

variable (decider) in
theorem followSide_handed (condition : Term) (target : Exec Int) (follow : Int → Exec Unit) (machine : Machine) :
    ((followSide decider (.ok condition) target follow).after machine).session.handed =
      ((enterSide decider condition target follow).after (aside condition machine)).session.handed := by
  have same : (followSide decider (.ok condition) target follow).after machine =
      (attempt (enterSide decider condition target follow) >>= fun _ => leaveScope).after (aside condition machine) := by
    unfold after
    rw [followSide_of_ok]
  rw [same]
  rcases attempt_eq (enterSide decider condition target follow) (aside condition machine) with ran | ⟨fault, ran⟩
  · rw [after_bind_of_ok ran, leaveScope_handed]
  · rw [after_bind_of_error ran]

namespace Exit

variable (decider)

theorem onward_handed (exit : Exit) {target : Exec Int} (reads : Reads target) :
    Handed decider exit.machine.session (exit.onward target).toList
      ((target >>= fun address => followOn address (exit.follow decider)).after exit.machine).session := by
  unfold onward
  rcases reads.eq exit.machine with ⟨address, run⟩ | ⟨fault, run⟩
  · rw [run, after_bind_of_ok run, followOn, onCopy_after]
    have followed : (exit.follow decider address).after
        { exit.machine with path := { exit.machine.path with pc := address } } =
        Visit.explored decider (exit.visit [] address
          { exit.machine with path := { exit.machine.path with pc := address } }) :=
      after_bind_pure _ _ _
    rw [followed]
    exact ⟨rfl, rfl⟩
  · rw [run, after_bind_of_error run]
    rfl

theorem side_handed (exit : Exit) (condition : Term) {target : Exec Int} (reads : Reads target) (machine : Machine) :
    Handed decider machine.session (exit.side decider condition target machine).toList
      ((followSide decider (.ok condition) target (exit.follow decider)).after machine).session := by
  have inside := followSide_handed decider condition target (exit.follow decider) machine
  rw [enterSide_after reads] at inside
  unfold side
  cases entered : sideEntry decider condition target (aside condition machine) with
  | none =>
    rw [entered] at inside
    exact inside
  | some found =>
    obtain ⟨address, entry⟩ := found
    have followed : (exit.follow decider address).after entry =
        Visit.explored decider (exit.visit [condition] address entry) :=
      after_bind_pure _ _ _
    rw [entered] at inside
    dsimp only at inside
    rw [followed] at inside
    obtain ⟨_, rfl⟩ := of_sideEntry entered
    exact ⟨rfl, inside⟩

theorem sides_handed (exit : Exit) (previous : Int) (condition : Term) :
    let sides :=
      followSide decider (.ok condition) (jumpTarget exit.block) (exit.follow decider) >>= fun _ =>
        followSide decider (.ok (.unary .negation condition)) (nextBlock exit.block) (exit.follow decider) >>= fun _ =>
          countEdge (previous, exit.block) (-1)
    ∃ left,
      Handed decider exit.machine.session
        ((exit.jump decider condition).toList ++ (exit.fall decider condition).toList) left ∧
      (sides.after exit.machine).session.handed =
        (left.leaving (previous, exit.block) (sides.returns exit.machine) false).handed := by
  intro sides
  have jumping := exit.side_handed decider condition (jumpTarget_reads exit.block) exit.machine
  cases returned : exit.jumped decider condition with
  | error fault machine =>
    have none : exit.fall decider condition = none := by
      unfold fall
      rw [returned]
    unfold jumped at returned
    rw [after_of_error returned] at jumping
    refine ⟨machine.session, jumping.append ?_, ?_⟩
    · rw [none]
      rfl
    · rw [after_bind_of_error returned, returns_bind_of_error returned]
      rfl
  | ok value machine =>
    have entered := fall_of_jumped returned
    have falling := exit.side_handed decider (.unary .negation condition) (nextBlock_reads exit.block) machine
    unfold jumped at returned
    rw [after_of_ok returned] at jumping
    rw [after_bind_of_ok returned, returns_bind_of_ok returned, entered]
    refine ⟨_, jumping.append falling, ?_⟩
    cases fallen : followSide decider (.ok (.unary .negation condition)) (nextBlock exit.block)
        (exit.follow decider) machine with
    | error fault later =>
      rw [after_bind_of_error fallen, returns_bind_of_error fallen, after_of_error fallen]
      rfl
    | ok value later =>
      rw [after_bind_of_ok fallen, returns_bind_of_ok fallen, after_of_ok fallen]
      rfl

theorem leaveBlock_handed (exit : Exit) (previous : Int) :
    let leaving := leaveBlock decider exit.block previous (exit.follow decider) exit.kind
    ∃ left, Handed decider exit.machine.session (exit.successors decider) left ∧
      (leaving.after exit.machine).session.handed =
        (left.leaving (previous, exit.block) (exit.kind.takesBack (leaving.returns exit.machine))
          (exit.kind == .terminal)).handed := by
  unfold successors
  cases exit.kind with
  | terminal => exact ⟨exit.machine.session, rfl, finishPath_handed (previous, exit.block) exit.machine⟩
  | unconditional => exact ⟨_, exit.onward_handed decider (jumpAddress_reads exit.block), rfl⟩
  | fallsTo => exact ⟨_, exit.onward_handed decider (nextBlock_reads exit.block), rfl⟩
  | conditional =>
    unfold condition? leaveBlock
    dsimp only [JumpKind.takesBack]
    rcases (branchCondition_reads exit.block).eq exit.machine with ⟨tested, found⟩ | ⟨fault, failed⟩
    · rw [after_bind_of_ok found, returns_bind_of_ok found, found]
      cases tested with
      | error fault =>
        have failed : followSide decider (.error fault) (jumpTarget exit.block) (exit.follow decider)
            exit.machine = _ :=
          followSide_of_error fault _ _ _
        rw [after_bind_of_error failed, returns_bind_of_error failed]
        exact ⟨exit.machine.session, rfl, rfl⟩
      | ok condition => exact exit.sides_handed decider previous condition
    · rw [after_bind_of_error failed, returns_bind_of_error failed, failed]
      exact ⟨exit.machine.session, rfl, rfl⟩
  | other name => exact ⟨exit.machine.session, rfl, rfl⟩

end Exit

open List

namespace Visit

variable {visit : Visit} {exit : Exit}

theorem reached_of_exit (found : visit.exit? decider = some exit) : visit.reached decider = exit.machine :=
  after_of_ok (exit?_eq_some found).2.1

theorem comesBack_of_exit (found : visit.exit? decider = some exit) :
    visit.comesBack decider =
      (leaveBlock decider visit.block visit.previous (exit.follow decider) exit.kind).returns exit.machine := by
  obtain ⟨more, reached, block, _⟩ := exit?_eq_some found
  unfold comesBack Exit.follow
  rw [more, block]
  refine (returns_bind_of_ok reached).trans ?_
  exact returns_bind_pure _ _ _

theorem takesBack_of_exit (found : visit.exit? decider = some exit) :
    visit.takesBack decider =
      exit.kind.takesBack
        ((leaveBlock decider visit.block visit.previous (exit.follow decider) exit.kind).returns exit.machine) := by
  rw [← comesBack_of_exit found]
  simp only [takesBack, found]

theorem explored_of_no_exit (none : visit.exit? decider = none) :
    (visit.explored decider).session.handed =
      ((visit.reached decider).session.leaving visit.edge false (visit.isLeaf decider)).handed := by
  unfold reached isLeaf
  cases run : visit.arrival decider with
  | error fault machine =>
    rw [explored_of_error run, after_of_error run]
    rfl
  | ok arrival machine =>
    rw [after_of_ok run]
    cases arrival with
    | stopped ending =>
      rw [explored_of_stopped run]
      rfl
    | atEnd kind function =>
      cases remaining : visit.remaining with
      | zero =>
        rw [explored_of_bound remaining run]
        exact finishPath_handed visit.edge machine
      | succ more =>
        rw [exit?_of_atEnd remaining run] at none
        cases none

variable (decider) in
theorem handed (visit : Visit) :
    ∃ left, Handed decider (visit.reached decider).session (visit.successors decider) left ∧
      (visit.explored decider).session.handed =
        (left.leaving visit.edge (visit.takesBack decider) (visit.isLeaf decider)).handed := by
  cases found : visit.exit? decider with
  | none =>
    refine ⟨(visit.reached decider).session, ?_, ?_⟩
    · simp only [successors, found]
      rfl
    · simpa [takesBack, found] using explored_of_no_exit found
  | some exit =>
    obtain ⟨more, arrived, block, _⟩ := exit?_eq_some found
    have leaf : visit.isLeaf decider = (exit.kind == .terminal) := by simp [isLeaf, arrived, more]
    obtain ⟨left, handed, leaves⟩ := exit.leaveBlock_handed decider visit.previous
    refine ⟨left, ?_, ?_⟩
    · rw [reached_of_exit found, successors_of_exit found]
      exact handed
    · rw [block] at leaves
      rw [explored_of_exit found, takesBack_of_exit found, leaf]
      exact leaves

theorem forall_tour_session (fits : Visit → Prop) (holds : Session → Prop)
    (hidden : ∀ session, holds session.handed ↔ holds session)
    (left : ∀ session edge takesBack ends, holds session → holds (session.leaving edge takesBack ends))
    (fitting : ∀ visit, fits visit → ∀ next ∈ visit.successors decider, fits next)
    (arriving : ∀ visit, fits visit → holds visit.machine.session → holds (visit.reached decider).session)
    {start : Visit} (fit : fits start) (initially : holds start.machine.session) :
    (∀ visit ∈ start.tour decider, fits visit ∧ holds visit.machine.session) ∧
      holds (start.explored decider).session := by
  induction start using induction decider with
  | step start ih =>
    obtain ⟨last, handed, explored⟩ := start.handed decider
    obtain ⟨inside, holdsLast⟩ := handed.keeps hidden
      (fun next made nextHolds => ih next made (fitting start fit next made) nextHolds)
      (arriving start fit initially)
    constructor
    · intro visit member
      rw [tour_eq] at member
      rcases mem_cons.mp member with rfl | later
      · exact ⟨fit, initially⟩
      · obtain ⟨next, made, deeper⟩ := mem_flatMap.mp later
        exact inside next made visit deeper
    · rw [← hidden, explored, hidden]
      exact left last _ _ _ holdsLast

end Visit

theorem exists_of_flatMap_eq_append_cons {view : α → List β} {parts : List α} {before after : List β} {element : β}
    (position : parts.flatMap view = before ++ element :: after) :
    ∃ earlier part later inner outer, parts = earlier ++ part :: later ∧
      view part = inner ++ element :: outer ∧ before = earlier.flatMap view ++ inner := by
  induction parts generalizing before with
  | nil => simp at position
  | cons first rest ih =>
    have later : ∀ between, rest.flatMap view = between ++ element :: after → before = view first ++ between →
        ∃ earlier part later inner outer, first :: rest = earlier ++ part :: later ∧
          view part = inner ++ element :: outer ∧ before = earlier.flatMap view ++ inner := by
      rintro between below rfl
      obtain ⟨earlier, part, later, inner, outer, rfl, inside, rfl⟩ := ih below
      exact ⟨first :: earlier, part, later, inner, outer, rfl, inside, by simp⟩
    rw [flatMap_cons, append_eq_append_iff] at position
    rcases position with ⟨between, shape, below⟩ | ⟨between, shape, below⟩
    · exact later between below shape
    · cases between with
      | nil => exact later [] below.symm (by simpa using shape.symm)
      | cons head tail =>
        cases below
        exact ⟨[], first, rest, before, tail, rfl, shape, rfl⟩

namespace Tracking

variable {view : Session → σ} {own : Visit → σ → σ} (tracking : Tracking decider view own)

include tracking

theorem handed {before after : Session} {calls : List Visit}
    (each : ∀ next ∈ calls, view (next.explored decider).session =
      (next.tour decider).foldl (fun found call => own call found) (view next.machine.session))
    (handed : Handed decider before calls after) :
    view after = (calls.flatMap (Visit.tour decider)).foldl (fun found call => own call found) (view before) := by
  rw [foldl_flatMap]
  exact handed.foldl view tracking.hidden
    (fun next found => (next.tour decider).foldl (fun found call => own call found) found) each

theorem explored (visit : Visit) :
    view (visit.explored decider).session =
      (visit.tour decider).foldl (fun found call => own call found) (view visit.machine.session) := by
  induction visit using Visit.induction decider with
  | step visit ih =>
    obtain ⟨last, handed, explored⟩ := visit.handed decider
    rw [← tracking.hidden, explored, tracking.hidden, tracking.left, tracking.handed ih handed,
      tracking.reached, Visit.tour_eq, foldl_cons]

theorem before {start visit : Visit} {before after : List Visit}
    (position : start.tour decider = before ++ visit :: after) :
    view visit.machine.session = before.foldl (fun found call => own call found) (view start.machine.session) := by
  induction start using Visit.induction decider generalizing before after with
  | step start ih =>
    rw [Visit.tour_eq] at position
    cases before with
    | nil =>
      cases position
      rfl
    | cons first rest =>
      injection position with same below
      subst same
      obtain ⟨earlier, next, later, inner, outer, made, inside, parted⟩ := exists_of_flatMap_eq_append_cons below
      obtain ⟨last, handed, _⟩ := start.handed decider
      rw [made] at handed
      have found := tracking.handed (fun next _ => tracking.explored next) handed.front
      rw [ih next (by simp [made]) inside, found, tracking.reached, parted, foldl_cons, foldl_append]

end Tracking

theorem Visit.recorded (visit : Visit) :
    visit.machine.Records (visit.steps decider) (visit.leaves decider).length (visit.explored decider) := by
  constructor
  · induction visit using Visit.induction decider with
    | step visit ih =>
      obtain ⟨last, handed, explored⟩ := visit.handed decider
      have sum := handed.foldl (fun session => session.finishedPaths) (fun _ => rfl)
        (fun next count => count + (next.leaves decider).length) ih
      have total : ∀ (calls : List Visit) (count : Nat),
          calls.foldl (fun count next => count + (next.leaves decider).length) count =
            count + (calls.flatMap (Visit.leaves decider)).length := by
        intro calls
        induction calls with
        | nil => exact fun count => rfl
        | cons next rest ih =>
          intro count
          rw [foldl_cons, ih, flatMap_cons, length_append, Nat.add_assoc]
      have finished : (visit.explored decider).session.finishedPaths =
          last.finishedPaths + if visit.isLeaf decider then 1 else 0 :=
        congrArg Session.finishedPaths explored
      rw [finished, sum, total, (visit.records_reached decider).finished, leaves_eq, length_append]
      split
      · rw [length_singleton]
        omega
      · rw [length_nil]
        omega
  · have tracking : Tracking decider (fun session => session.trace)
        fun call trace => (call.ownSteps decider).reverse ++ trace :=
      ⟨fun _ => rfl, fun _ _ _ _ => rfl, fun call => (call.records_reached decider).trace⟩
    have added : ∀ (calls : List Visit) (trace : List Step),
        calls.foldl (fun trace call => (call.ownSteps decider).reverse ++ trace) trace =
          (calls.flatMap (ownSteps decider)).reverse ++ trace := by
      intro calls
      induction calls with
      | nil => exact fun trace => rfl
      | cons next rest ih =>
        intro trace
        rw [foldl_cons, ih, flatMap_cons, reverse_append, List.append_assoc]
    exact (tracking.explored visit).trans (added _ _)

/-! ## How deep an exploration goes -/

def descend (decider : Decider) (settings : Settings) (depth : Int) (deeper : Int → Int → String → Exec Ending)
    (block previous : Int) (function : String) : Exec Ending := do
  match ← arrive decider block previous function with
  | .stopped ending => return ending
  | .atEnd kind function =>
    if kind = .terminal ∨ settings.depthLimit < depth + 1 then
      finishPath
    else
      leaveBlock decider block previous (fun address => discard (deeper address block function)) kind
    return .explored

variable (decider) (settings : Settings)

theorem descend_of_bound {depth : Int} (bound : settings.depthLimit < depth + 1)
    (deeper : Int → Int → String → Exec Ending) :
    descend decider settings depth deeper = explore decider 0 := by
  funext block previous function
  rw [descend, explore]
  refine congrArg _ (funext fun arrival => ?_)
  cases arrival with
  | stopped ending => rfl
  | atEnd kind function => simp only [bound, or_true, if_true]

theorem explore_eq_descend (depth : Int) :
    explore decider (remainingDepth settings depth) =
      descend decider settings depth (explore decider (remainingDepth settings (depth + 1))) := by
  by_cases bound : settings.depthLimit < depth + 1
  · have last : remainingDepth settings depth = 0 := by
      unfold remainingDepth
      omega
    rw [last, descend_of_bound decider settings bound]
  · have more : remainingDepth settings depth = remainingDepth settings (depth + 1) + 1 := by
      unfold remainingDepth
      omega
    rw [more]
    funext block previous function
    rw [explore, descend]
    congr 1
    funext arrival
    cases arrival with
    | stopped ending => rfl
    | atEnd kind function =>
      by_cases ends : kind = .terminal
      · subst ends
        simp [leaveBlock]
      · simp [ends, bound]

theorem eq_explore_iff (run : Int → Int → Int → String → Exec Ending) :
    (∀ depth, run depth = descend decider settings depth (run (depth + 1))) ↔
      run = fun depth => explore decider (remainingDepth settings depth) := by
  constructor
  · intro satisfies
    funext depth
    -- The induction is on how many more blocks a path may have.
    induction remaining : remainingDepth settings depth generalizing depth with
    | zero =>
      have bound : settings.depthLimit < depth + 1 := by
        unfold remainingDepth at remaining
        omega
      rw [satisfies, descend_of_bound decider settings bound]
    | succ more ih =>
      have deeper : remainingDepth settings (depth + 1) = more := by
        unfold remainingDepth at *
        omega
      rw [satisfies, ih _ deeper, ← deeper, ← explore_eq_descend, remaining, deeper]
  · rintro rfl depth
    exact explore_eq_descend decider settings depth

namespace Visit

variable {decider}

theorem length_successors (visit : Visit) : (visit.successors decider).length ≤ 2 := by
  have few : ∀ call : Option Visit, call.toList.length ≤ 1 := fun call => by cases call <;> simp
  unfold successors
  split
  · next exit _ =>
    unfold Exit.successors
    split
    · exact (few _).trans (by decide)
    · exact (few _).trans (by decide)
    · split
      · next condition _ =>
        rw [length_append]
        exact Nat.add_le_add (few (exit.jump decider condition)) (few (exit.fall decider condition))
      · simp
    · simp
  · simp

theorem length_tour (visit : Visit) : (visit.tour decider).length ≤ 2 ^ (visit.remaining + 1) - 1 := by
  induction visit using induction decider with
  | step visit ih =>
    have each : ∀ count ∈ (visit.successors decider).map fun next => (next.tour decider).length,
        count ≤ 2 ^ visit.remaining - 1 := by
      intro count member
      obtain ⟨next, made, rfl⟩ := mem_map.mp member
      have less : 2 ^ (next.remaining + 1) ≤ 2 ^ visit.remaining :=
        Nat.pow_le_pow_right (by decide) (remaining_of_mem_successors made)
      exact (ih next made).trans (Nat.sub_le_sub_right less 1)
    have total := sum_le_card_nsmul _ _ each
    rw [length_map, smul_eq_mul] at total
    have twice := Nat.mul_le_mul_right (2 ^ visit.remaining - 1) (@length_successors decider visit)
    have positive := Nat.two_pow_pos visit.remaining
    rw [tour_eq, length_cons, length_flatMap, pow_succ]
    omega

theorem length_le_of_isChain {visit : Visit} {path : List Visit}
    (chain : List.IsChain (fun call next => next ∈ call.successors decider) (visit :: path)) :
    path.length ≤ visit.remaining := by
  induction path generalizing visit with
  | nil => exact Nat.zero_le _
  | cons next rest ih =>
    obtain ⟨made, onward⟩ := isChain_cons_cons.mp chain
    exact (ih onward).trans_lt (remaining_of_mem_successors made)

end Visit

/--
An exploration from depth zero ends within its bound, on every graph and for all answers: its recursion has one solution;
what it records are the instructions of the calls of its tour; a path has at most one block more than the bound; and there
are fewer calls in all than the power of two behind that.
-/
theorem exploration_bounded (machine : Machine) (block previous : Int) (function : String) :
    let limit := machine.session.settings.depthLimit.toNat
    let start : Visit :=
      { remaining := remainingDepth machine.session.settings 0, block, previous, function, machine }
    (∀ run : Int → Int → Int → String → Exec Ending,
      (∀ depth, run depth = descend decider machine.session.settings depth (run (depth + 1))) ↔
        run = fun depth => explore decider (remainingDepth machine.session.settings depth)) ∧
      machine.Records (start.steps decider) (start.leaves decider).length (start.explored decider) ∧
      (∀ path, List.IsChain (fun call next => next ∈ call.successors decider) (start :: path) →
        (start :: path).length ≤ limit + 1) ∧
      (start.tour decider).length ≤ 2 ^ (limit + 1) - 1 := by
  intro limit start
  have remaining : start.remaining = limit := by simp [start, limit, remainingDepth]
  refine ⟨eq_explore_iff decider _, start.recorded, fun path chain => ?_, ?_⟩
  · rw [← remaining]
    exact Nat.succ_le_succ (Visit.length_le_of_isChain chain)
  · rw [← remaining]
    exact start.length_tour

end Explore

end MintAudit
