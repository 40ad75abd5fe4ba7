import MintAudit.Proofs.Machine.InStep

namespace MintAudit

/-!
# Executing a block and leaving it

However the paths behind a block are explored, the scopes that were open at its end are open still.
-/

/-! ## Executing a block -/

open Exec Exec.Steady
open Holdings (Blind)

def Session.lasting (session : Session) : Standing :=
  { session.standing with takenEdges := [], finishedPaths := 0, trace := [] }

structure Machine.Roams (vocabulary : Vocabulary) (before after : Machine) : Prop where
  lasting : after.session.lasting = before.session.lasting
  gas : after.path.gas = before.path.gas
  given : before.session.names.other ≤ after.session.names.other
  speaks : after.Speaks vocabulary
  above : after.session.scopes.Above before.session.scopes

variable {vocabulary : Vocabulary}

namespace Machine.Roams

theorem refl {machine : Machine} (speaks : machine.Speaks vocabulary) : machine.Roams vocabulary machine :=
  ⟨rfl, rfl, le_rfl, speaks, Scopes.Above.refl _⟩

theorem trans {before between after : Machine} (first : before.Roams vocabulary between)
    (second : between.Roams vocabulary after) :
    before.Roams vocabulary after :=
  ⟨second.lasting.trans first.lasting, second.gas.trans first.gas, first.given.trans second.given, second.speaks,
    second.above.trans first.above⟩

theorem of_abides {before after : Machine} (abides : before.Abides vocabulary.frame after)
    (above : after.session.scopes.Above before.session.scopes) :
    before.Roams vocabulary after := by
  refine ⟨?_, abides.gas, abides.given, abides.speaks, above⟩
  unfold Session.lasting
  rw [abides.standing]

end Machine.Roams

namespace Exec

def after (computation : Exec α) (before : Machine) : Machine :=
  match computation before with
  | .ok _ machine => machine
  | .error _ machine => machine

variable {computation : Exec α} {before machine : Machine} {value : α} {next : α → Exec β} {gives : Nat → α → Prop}
    {distance : Int} {γ : Type} {frame : Frame γ}

theorem after_of_ok (run : computation before = .ok value machine) : computation.after before = machine := by
  unfold after
  rw [run]

variable {fault : Fault} {before after : Machine}

theorem after_of_error (run : computation before = .error fault machine) : computation.after before = machine := by
  unfold after
  rw [run]

theorem after_congr {first second : Exec α} {before : Machine} (same : first before = second before) :
    first.after before = second.after before := by
  unfold after
  rw [same]

theorem after_bind_of_ok (run : computation before = .ok value machine) :
    (computation >>= next).after before = (next value).after machine := by
  unfold after
  rw [bind_ok run]

theorem after_bind_of_error (run : computation before = .error fault machine) :
    (computation >>= next).after before = machine :=
  after_of_error (bind_error run)

theorem after_bind_pure (computation : Exec α) (view : α → β) (before : Machine) :
    (computation >>= fun value => pure (view value)).after before = computation.after before := by
  cases run : computation before with
  | ok value machine => rw [after_bind_of_ok run, after_of_ok run]; rfl
  | error fault machine => rw [after_bind_of_error run, after_of_error run]

theorem of_bind_ok {value : β} (run : (computation >>= next) before = .ok value after) :
    ∃ found between, computation before = .ok found between ∧ next found between = .ok value after :=
  Effect.of_bind_ok run

def Reads (computation : Exec α) : Prop :=
  ∀ machine, computation.after machine = machine

theorem pure_reads (value : α) : Reads (pure value) := fun _ => rfl

theorem throw_reads (fault : Fault) : Reads (throw fault : Exec α) := fun _ => rfl

theorem session_reads : Reads session := fun _ => rfl

theorem path_reads : Reads path := fun _ => rfl

theorem lift_reads (result : Except Fault α) : Reads (lift result) := by
  cases result with
  | ok value => exact pure_reads value
  | error fault => exact throw_reads fault

theorem Reads.eq (reads : Reads computation) (machine : Machine) :
    (∃ value, computation machine = .ok value machine) ∨ ∃ fault, computation machine = .error fault machine := by
  have same := reads machine
  cases run : computation machine with
  | ok value next =>
    rw [after_of_ok run] at same
    exact .inl ⟨value, by rw [same]⟩
  | error fault next =>
    rw [after_of_error run] at same
    exact .inr ⟨fault, by rw [same]⟩

theorem Reads.bind (first : Reads computation) (second : ∀ value, Reads (next value)) :
    Reads (computation >>= next) := by
  intro machine
  rcases first.eq machine with ⟨value, run⟩ | ⟨fault, run⟩
  · rw [after_bind_of_ok run]
    exact second value machine
  · exact after_bind_of_error run

def Roaming (vocabulary : Vocabulary) (given : Nat) (computation : Exec α) : Prop :=
  ∀ before : Machine, before.Speaks vocabulary → given ≤ before.session.names.other →
    before.Roams vocabulary (computation.after before)

def Following (decider : Decider) (vocabulary : Vocabulary) (computation : Exec α) : Prop :=
  ∀ before : Machine, before.Speaks vocabulary →
    match computation before with
    | .ok _ after =>
      before.Roams vocabulary after ∧ after.session.scopes.Extends before.session.scopes ∧
        (decider.Sound → vocabulary.Strict → ∀ branches, before.InStep branches → after.InStep branches)
    | .error _ after => before.Roams vocabulary after

variable {decider : Decider}

theorem Roaming.bind {given : Nat} (first : Roaming vocabulary given computation)
    (second : ∀ value, Roaming vocabulary given (next value)) :
    Roaming vocabulary given (computation >>= next) := by
  intro before speaks later
  have roams := first before speaks later
  cases run : computation before with
  | ok value between =>
    rw [after_of_ok run] at roams
    rw [after_bind_of_ok run]
    exact roams.trans (second value between roams.speaks (later.trans roams.given))
  | error fault between =>
    rw [after_of_error run] at roams
    rw [after_bind_of_error run]
    exact roams

theorem Following.roaming (following : Following decider vocabulary computation) (given : Nat) :
    Roaming vocabulary given computation := by
  intro before speaks _
  have result := following before speaks
  unfold after
  split at result
  · exact result.1
  · exact result

theorem Reads.roaming (reads : Reads computation) (given : Nat) : Roaming vocabulary given computation := by
  intro machine speaks _
  rw [reads machine]
  exact .refl speaks

theorem Following.bind (first : Following decider vocabulary computation)
    (second : ∀ value, Following decider vocabulary (next value)) :
    Following decider vocabulary (computation >>= next) := by
  intro before speaks
  have result := first before speaks
  rw [bind_apply]
  cases run : computation before with
  | ok value between =>
    rw [run] at result
    obtain ⟨roams, asserts, keeps⟩ := result
    have onward := second value between roams.speaks
    dsimp only
    cases continued : next value between with
    | ok value after =>
      rw [continued] at onward
      exact ⟨roams.trans onward.1, onward.2.1.trans asserts, fun sound strict branches inStep =>
        onward.2.2 sound strict branches (keeps sound strict branches inStep)⟩
    | error fault after =>
      rw [continued] at onward
      exact roams.trans onward
  | error fault after =>
    rw [run] at result
    exact result

theorem Assuming.following (assuming : ∀ given, Assuming decider vocabulary.frame distance given computation gives) :
    Following decider vocabulary computation := by
  intro before speaks
  have result := assuming _ before rfl speaks
  cases run : computation before with
  | ok value after =>
    rw [run] at result
    obtain ⟨abides, asserts, _, keeps, _⟩ := result
    exact ⟨.of_abides abides asserts.above, asserts, keeps⟩
  | error fault after =>
    rw [run] at result
    exact .of_abides result.1 result.2

theorem Assuming.abides {before : Machine}
    (assuming : Assuming decider frame distance before.session.names.other computation gives)
    (speaks : before.Speaks frame.toVocabulary) :
    before.Abides frame (computation.after before) := by
  have result := assuming before rfl speaks
  cases run : computation before with
  | ok value after =>
    rw [run] at result
    rw [after_of_ok run]
    exact result.1
  | error fault after =>
    rw [run] at result
    rw [after_of_error run]
    exact result.1

theorem Assuming.moved (assuming : Assuming decider frame distance before.session.names.other computation gives)
    (speaks : before.Speaks frame.toVocabulary) (run : computation before = .ok value after) :
    after.path.pc = before.path.pc + distance := by
  have result := assuming before rfl speaks
  rw [run] at result
  exact result.2.2.1

theorem Orderly.abides {before : Machine}
    (orderly : Orderly frame 0 distance before.session.names.other computation gives)
    (speaks : before.Speaks frame.toVocabulary) :
    before.Abides frame (computation.after before) := by
  have assuming : Assuming (fun _ => .undecided) frame distance before.session.names.other computation gives :=
    orderly.assuming
  exact assuming.abides speaks

theorem Orderly.moved (orderly : Orderly frame 0 distance before.session.names.other computation gives)
    (speaks : before.Speaks frame.toVocabulary) (run : computation before = .ok value after) :
    after.path.pc = before.path.pc + distance := by
  have assuming : Assuming (fun _ => .undecided) frame distance before.session.names.other computation gives :=
    orderly.assuming
  exact assuming.moved speaks run

theorem Steady.following {holds : Nat → α → Prop}
    (steady : ∀ given, Steady vocabulary.frame given computation (holds given)) :
    Following decider vocabulary computation :=
  Assuming.following fun given => (steady given).tidy.assuming

theorem Following.of_pure (value : α) : Following decider vocabulary (pure value) :=
  fun _ speaks => ⟨.refl speaks, .refl _, fun _ _ _ inStep => inStep⟩

theorem Following.of_throw (fault : Fault) : Following decider vocabulary (throw fault : Exec α) :=
  fun _ speaks => .refl speaks

theorem modifySession_following {change : Session → Session}
    (same : ∀ session, ∃ takenEdges finishedPaths trace executed visitedPcs,
      change session = { session with takenEdges, finishedPaths, trace, executed, visitedPcs }) :
    Following decider vocabulary (modifySession change) := by
  intro before speaks
  obtain ⟨takenEdges, finishedPaths, trace, executed, visitedPcs, equal⟩ := same before.session
  rw [modifySession_apply, equal]
  exact ⟨⟨rfl, rfl, le_rfl, ⟨speaks.path, speaks.session.branches, speaks.session.parameters⟩, Scopes.Above.refl _⟩,
    .refl _, fun _ _ _ inStep => inStep.transfer rfl rfl⟩

end Exec

namespace Explore

variable {γ : Type} {frame : Frame γ} (decider : Decider)

variable (given : Nat) (block : Int)

theorem noteFunction_steady (function : String) :
    Steady vocabulary.frame given (noteFunction function) fun _ => True := by
  refine modifySession_plain fun session => ?_
  split
  · exact ⟨session.watch, session.callsAffect, rfl, fun _ => rfl⟩
  · exact ⟨_, session.callsAffect, rfl, fun _ => rfl⟩

theorem enterFunction_steady (function : String) :
    Steady vocabulary.frame given (enterFunction block function) fun _ => True := by
  unfold enterFunction
  refine session_steady.bind fun session _ => ?_
  split
  · exact of_pure trivial
  · split
    · exact of_pure trivial
    · split
      · exact Orderly.of_throw _
      · exact bind (modifySession_plain fun _ => ⟨_, _, rfl, fun _ => rfl⟩) fun _ _ => of_pure trivial

theorem countEdge_following (edge : Int × Int) (change : Int) : Following decider vocabulary (countEdge edge change) :=
  modifySession_following fun _ => ⟨_, _, _, _, _, rfl⟩

theorem approach_following (previous : Int) (function : String) :
    Following decider vocabulary (approach block previous function) := by
  have session : Following decider vocabulary session := following fun _ => session_steady
  have path : Following decider vocabulary path := following fun _ => path_steady
  unfold approach
  refine (following fun given => noteFunction_steady given function).bind fun _ => ?_
  split
  · exact Following.of_pure _
  · refine (following fun given => enterFunction_steady given block function).bind fun function => ?_
    refine (countEdge_following decider _ _).bind fun _ => ?_
    refine session.bind fun session => ?_
    split
    · exact Following.of_pure _
    · refine path.bind fun path => ?_
      split
      · exact Following.of_pure _
      · split
        · exact Following.of_pure _
        · exact Following.of_pure _

theorem currentText_steady : Steady vocabulary.frame given currentText fun _ => True := by
  unfold currentText
  refine session_steady.bind fun session _ => ?_
  split
  · exact Orderly.of_throw _
  · exact path_steady.bind fun path _ => lift_steady (.anything _)

theorem noteOwner_steady (blind : Blind frame.shown .owner) (given : Nat) (text : String) :
    Steady frame given (noteOwner text) fun _ => True := by
  unfold noteOwner
  refine session_steady.bind fun session _ => ?_
  split
  · refine path_steady.bind fun path _ => ?_
    split
    · exact Orderly.of_throw _
    · exact modifySession_plain fun _ => ⟨_, _, rfl, fun _ => blind _ _ _ _ _⟩
  · split
    · exact modifySession_plain fun _ => ⟨_, _, rfl, fun _ => blind _ _ _ _ _⟩
    · exact of_pure trivial

theorem noteSource_steady (blind : Blind frame.shown .owner) (given : Nat) (text : String) :
    Steady frame given (noteSource text) fun _ => True := by
  unfold noteSource
  split
  · exact (modifySession_plain fun _ => ⟨_, _, rfl, fun _ => blind _ _ _ _ _⟩).bind fun _ _ =>
      noteOwner_steady blind given text
  · exact noteOwner_steady blind given text

theorem step_following (function line : String) :
    Following decider vocabulary (Machine.step decider block function line) := by
  have get : Following decider vocabulary get := fun _ speaks => ⟨.refl speaks, .refl _, fun _ _ _ inStep => inStep⟩
  unfold Machine.step
  refine get.bind fun machine => ?_
  dsimp only
  split
  · exact Following.of_throw _
  · refine (modifySession_following fun _ => ⟨_, _, _, _, _, rfl⟩).bind fun _ => ?_
    exact Assuming.following fun _ => Machine.perform_assuming decider block function fun part _ => vocabulary.blind part

theorem executeLine_following (function line : String) :
    Following decider vocabulary (executeLine decider block function line) := by
  unfold executeLine
  refine (following currentText_steady).bind fun text => ?_
  refine (step_following decider block function _).bind fun _ => ?_
  exact following fun given => noteSource_steady (vocabulary.blind .owner) given text

theorem executeLines_following (function : String) (lines : List String) :
    Following decider vocabulary (lines.forM (executeLine decider block function)) := by
  induction lines with
  | nil => exact Following.of_pure _
  | cons line rest ih =>
    exact (executeLine_following decider block function line).bind fun _ => ih

theorem noteVisited_steady :
    Steady frame given (modifyPath fun path => { path with visited := path.visited ++ [block] }) fun _ => True :=
  modifyPath_plain fun _ => ⟨_, _, _, _, rfl⟩

def comeToEnd (block : Int) (function : String) : Exec Arrival := do
  modifyPath fun path => { path with visited := path.visited ++ [block] }
  match Table.get? block (← Exec.session).graph.kinds with
  | some kind => return .atEnd kind function
  | none => throw .missingKey

theorem comeToEnd_steady (function : String) : Steady frame given (comeToEnd block function) fun _ => True := by
  refine (noteVisited_steady given block).bind fun _ _ => session_steady.bind fun session _ => ?_
  split
  · exact of_pure trivial
  · exact Orderly.of_throw _

theorem runThrough_eq (current : Block) (function : String) :
    runThrough decider block current function = (do
      current.lines.forM (executeLine decider block function)
      comeToEnd block function) := rfl

theorem runThrough_following (current : Block) (function : String) :
    Following decider vocabulary (runThrough decider block current function) := by
  rw [runThrough_eq]
  refine (executeLines_following decider block function _).bind fun _ => ?_
  exact following fun given => comeToEnd_steady given block function

theorem arrive_following (previous : Int) (function : String) :
    Following decider vocabulary (arrive decider block previous function) := by
  unfold arrive
  refine (approach_following decider block previous function).bind fun reached => ?_
  split
  · exact Following.of_pure _
  · exact runThrough_following decider block _ _

end Explore

/-! ## Leaving a block -/

namespace Explore

variable {decider : Decider} {given : Nat}

variable (decider) in
theorem finishPath_following : Following decider vocabulary finishPath := by
  unfold finishPath
  refine (modifySession_following fun _ => ⟨_, _, _, _, _, rfl⟩).bind fun _ => ?_
  refine (Steady.following fun _ => session_steady).bind fun session => ?_
  split
  · split
    · exact Following.of_throw _
    · exact Following.of_throw _
  · exact Following.of_pure _

variable (block : Int)

theorem currentBlock_reads : Reads (currentBlock block) :=
  session_reads.bind fun _ => lift_reads _

theorem jumpTarget_reads : Reads (jumpTarget block) :=
  (currentBlock_reads block).bind fun _ => pure_reads _

theorem currentText_reads : Reads currentText := by
  unfold currentText
  refine session_reads.bind fun session => ?_
  split
  · exact throw_reads _
  · exact path_reads.bind fun path => lift_reads _

theorem jumpAddress_reads : Reads (jumpAddress block) := by
  unfold jumpAddress
  refine (jumpTarget_reads block).bind fun address => ?_
  refine session_reads.bind fun session => ?_
  split
  · refine Reads.bind ?_ fun _ => pure_reads _
    exact currentText_reads.bind fun _ => pure_reads _
  · exact pure_reads _

theorem nextBlock_reads : Reads (nextBlock block) := by
  unfold nextBlock
  refine (currentBlock_reads block).bind fun current => ?_
  refine (lift_reads _).bind fun next => ?_
  split
  · exact pure_reads _
  · exact throw_reads _

theorem branchCondition_reads : Reads (branchCondition block) :=
  (currentBlock_reads block).bind fun _ => (lift_reads _).bind fun _ => pure_reads _

variable {machine next : Machine}

variable {change : Path → Path} {fault : Fault} {computation : Exec Unit} {follow : Int → Exec Unit}

theorem onCopy_of_ok {computation : Exec α} {value : α}
    (run : computation { machine with path := change machine.path } = .ok value next) :
    onCopy change computation machine = .ok value { next with path := machine.path } := by
  unfold onCopy
  rw [run]

theorem onCopy_of_error {computation : Exec α}
    (run : computation { machine with path := change machine.path } = .error fault next) :
    onCopy change computation machine = .error fault { next with path := machine.path } := by
  unfold onCopy
  rw [run]

theorem onCopy_after (change : Path → Path) (computation : Exec α) (machine : Machine) :
    (onCopy change computation).after machine =
      { computation.after { machine with path := change machine.path } with path := machine.path } := by
  cases run : computation { machine with path := change machine.path } with
  | ok value next => rw [after_of_ok (onCopy_of_ok run), after_of_ok run]
  | error fault next => rw [after_of_error (onCopy_of_error run), after_of_error run]

theorem attempt_of_ok (run : computation machine = .ok () next) : attempt computation machine = .ok () next := by
  simp only [attempt, tryCatch, tryCatchThe, MonadExceptOf.tryCatch, EStateM.tryCatch, run]

theorem attempt_of_error (run : computation machine = .error fault next) :
    attempt computation machine = .ok () next ∨ attempt computation machine = .error fault next := by
  simp only [attempt, tryCatch, tryCatchThe, MonadExceptOf.tryCatch, EStateM.tryCatch, run]
  split
  · exact .inr rfl
  · exact .inr rfl
  · exact .inl rfl

theorem attempt_eq (computation : Exec Unit) (machine : Machine) :
    attempt computation machine = .ok () (computation.after machine) ∨
      ∃ fault, attempt computation machine = .error fault (computation.after machine) := by
  cases run : computation machine with
  | ok value next =>
    rw [after_of_ok run]
    exact .inl (attempt_of_ok run)
  | error fault next =>
    rw [after_of_error run]
    exact (attempt_of_error run).imp id fun failed => ⟨fault, failed⟩

def entering (address : Int) (condition : Term) (side : Machine) : Machine :=
  { side with
    path := { side.path with pc := address, conditions := side.path.conditions ++ [asWord condition] } }

/-- How one side of a branch is entered, if it is: at which address, and with which machine. -/
def sideEntry (decider : Decider) (condition : Term) (target : Exec Int) (side : Machine) : Option (Int × Machine) :=
  if decider side.session.scopes.assertions = .unsatisfiable then
    none
  else
    match target side with
    | .ok address _ => some (address, entering address condition side)
    | .error _ _ => none

section Sides

variable {condition : Term} {target : Exec Int} {side : Machine}

theorem sideEntry_of_unsatisfiable (pruned : decider side.session.scopes.assertions = .unsatisfiable) :
    sideEntry decider condition target side = none := by
  simp only [sideEntry, pruned, ↓reduceIte]

theorem sideEntry_of_ok (possible : decider side.session.scopes.assertions ≠ .unsatisfiable) {address : Int}
    {machine : Machine} (run : target side = .ok address machine) :
    sideEntry decider condition target side = some (address, entering address condition side) := by
  simp only [sideEntry, possible, ↓reduceIte, run]

theorem sideEntry_of_error (possible : decider side.session.scopes.assertions ≠ .unsatisfiable) {fault : Fault}
    {machine : Machine} (run : target side = .error fault machine) :
    sideEntry decider condition target side = none := by
  simp only [sideEntry, possible, ↓reduceIte, run]

theorem of_sideEntry {address : Int} {entry : Machine}
    (entered : sideEntry decider condition target side = some (address, entry)) :
    decider side.session.scopes.assertions ≠ .unsatisfiable ∧ entry = entering address condition side := by
  by_cases pruned : decider side.session.scopes.assertions = .unsatisfiable
  · rw [sideEntry_of_unsatisfiable pruned] at entered
    cases entered
  · refine ⟨pruned, ?_⟩
    cases run : target side with
    | ok found machine =>
      rw [sideEntry_of_ok pruned run] at entered
      cases entered
      rfl
    | error fault machine =>
      rw [sideEntry_of_error pruned run] at entered
      cases entered

theorem enterSide_of_unsatisfiable (pruned : decider side.session.scopes.assertions = .unsatisfiable)
    (follow : Int → Exec Unit) :
    enterSide decider condition target follow side = .ok () side := by
  unfold enterSide
  rw [bind_ok (session_apply side)]
  simp only [pruned, ne_eq, not_true_eq_false, ↓reduceIte]
  rfl

theorem enterSide_of_satisfiable (possible : decider side.session.scopes.assertions ≠ .unsatisfiable)
    (follow : Int → Exec Unit) :
    enterSide decider condition target follow side = (target >>= fun address =>
        onCopy (fun path => { path with pc := address, conditions := path.conditions ++ [asWord condition] })
          (follow address)) side := by
  unfold enterSide
  rw [bind_ok (session_apply side)]
  simp only [possible, ne_eq, not_false_eq_true, ↓reduceIte]

theorem enterSide_after (reads : Reads target) (follow : Int → Exec Unit) :
    (enterSide decider condition target follow).after side =
      match sideEntry decider condition target side with
      | some (address, entry) => { (follow address).after entry with path := side.path }
      | none => side := by
  by_cases pruned : decider side.session.scopes.assertions = .unsatisfiable
  · rw [sideEntry_of_unsatisfiable pruned]
    exact after_of_ok (enterSide_of_unsatisfiable pruned follow)
  · rw [after_congr (enterSide_of_satisfiable pruned follow)]
    rcases reads.eq side with ⟨address, run⟩ | ⟨fault, run⟩
    · rw [after_bind_of_ok run, sideEntry_of_ok pruned run]
      exact onCopy_after _ _ _
    · rw [after_bind_of_error run, sideEntry_of_error pruned run]

theorem entering_speaks (speaks : side.Speaks vocabulary)
    (only : condition.Only (vocabulary.Admits side.session.names.other)) (address : Int) :
    (entering address condition side).Speaks vocabulary := by
  refine ⟨{ speaks.path with conditions := ?_ }, speaks.session⟩
  refine List.forall_mem_append.mpr ⟨speaks.path.conditions, List.forall_mem_singleton.mpr ?_⟩
  cases condition with
  | truth value => trivial
  | _ => exact only

theorem enterSide_roams (reads : Reads target) {follow : Int → Exec Unit}
    (roaming : ∀ address, Roaming vocabulary given (follow address)) (speaks : side.Speaks vocabulary)
    (later : given ≤ side.session.names.other) (only : condition.Only (vocabulary.Admits given)) :
    side.Roams vocabulary ((enterSide decider condition target follow).after side) ∧
      ((enterSide decider condition target follow).after side).path = side.path := by
  rw [enterSide_after reads]
  cases entered : sideEntry decider condition target side with
  | none => exact ⟨.refl speaks, rfl⟩
  | some found =>
    obtain ⟨address, entry⟩ := found
    obtain ⟨_, rfl⟩ := of_sideEntry entered
    have onlyStill := only.mono fun _ => vocabulary.grows later
    have roams := roaming address _ (entering_speaks speaks onlyStill address) later
    exact ⟨⟨roams.lasting, rfl, roams.given, ⟨speaks.path.mono roams.given, roams.speaks.session⟩, roams.above⟩, rfl⟩

end Sides

def aside (condition : Term) (machine : Machine) : Machine :=
  machine.rescoped (machine.session.scopes.enter.assume condition)

theorem assertions_aside (condition : Term) (machine : Machine) :
    (aside condition machine).session.scopes.assertions = machine.session.scopes.assertions ++ [condition] :=
  (Scopes.assertions_assume _ _).trans (congrArg (· ++ [condition]) (Scopes.assertions_enter _))

theorem aside_speaks (speaks : machine.Speaks vocabulary) (condition : Term) :
    (aside condition machine).Speaks vocabulary :=
  ⟨speaks.path, speaks.session.branches, speaks.session.parameters⟩

theorem followSide_of_error (fault : Fault) (target : Exec Int) (follow : Int → Exec Unit) (machine : Machine) :
    followSide decider (.error fault) target follow machine =
      .error fault (machine.rescoped machine.session.scopes.enter) :=
  rfl

theorem followSide_of_ok (condition : Term) (target : Exec Int) (follow : Int → Exec Unit) (machine : Machine) :
    followSide decider (.ok condition) target follow machine =
      (attempt (enterSide decider condition target follow) >>= fun _ => leaveScope) (aside condition machine) :=
  rfl

theorem leaveScope_eq {left : Scopes} (leave : machine.session.scopes.leave = .ok left) :
    leaveScope machine = .ok () (machine.rescoped left) := by
  simp only [leaveScope, bind_apply, session_apply, leave, lift_ok, modifySession_apply]
  rfl

section Roaming

variable {target : Exec Int} (reads : Reads target) {follow : Int → Exec Unit}
    (roaming : ∀ address, Roaming vocabulary given (follow address))

include reads roaming

theorem followSide_outcome {machine : Machine} (speaks : machine.Speaks vocabulary)
    (later : given ≤ machine.session.names.other) {condition : Term} (only : condition.Only (vocabulary.Admits given)) :
    let inside := (enterSide decider condition target follow).after (aside condition machine)
    ∃ left, inside.session.scopes.leave = .ok left ∧ left.Above machine.session.scopes ∧
      (left = machine.session.scopes ∨ condition ∈ left.assertions) ∧
      (followSide decider (.ok condition) target follow machine = .ok () (inside.rescoped left) ∨
        ∃ fault, followSide decider (.ok condition) target follow machine = .error fault inside) := by
  intro inside
  have roams : (aside condition machine).Roams vocabulary inside :=
    (enterSide_roams reads roaming (aside_speaks speaks condition) later only).1
  obtain ⟨left, leave, above, same⟩ := Scopes.Above.leave_side roams.above
  refine ⟨left, leave, above, same, ?_⟩
  rw [followSide_of_ok]
  rcases attempt_eq (enterSide decider condition target follow) (aside condition machine) with ran | ⟨fault, ran⟩
  · rw [bind_ok ran, leaveScope_eq leave]
    exact .inl rfl
  · rw [bind_error ran]
    exact .inr ⟨fault, rfl⟩

theorem followSide_roaming {condition : Except Fault Term}
    (only : Gives (Term.Only (vocabulary.Admits given)) condition) :
    Roaming vocabulary given (followSide decider condition target follow) := by
  intro machine speaks later
  cases condition with
  | error fault =>
    rw [after_of_error (followSide_of_error fault target follow machine)]
    exact ⟨rfl, rfl, le_rfl, ⟨speaks.path, speaks.session.branches, speaks.session.parameters⟩,
      Scopes.above_opening _ [[]]⟩
  | ok condition =>
    obtain ⟨left, _, above, _, outcome⟩ := followSide_outcome reads roaming speaks later only
    have roams : (aside condition machine).Roams vocabulary
        ((enterSide decider condition target follow).after (aside condition machine)) :=
      (enterSide_roams reads roaming (aside_speaks speaks condition) later only).1
    have opened : (aside condition machine).session.scopes.Above machine.session.scopes :=
      Scopes.above_opening machine.session.scopes [[condition]]
    rcases outcome with returned | ⟨fault, failed⟩
    · rw [after_of_ok returned]
      refine ⟨roams.lasting, roams.gas, roams.given, ⟨roams.speaks.path, ?_⟩, above⟩
      exact ⟨roams.speaks.session.branches, roams.speaks.session.parameters⟩
    · rw [after_of_error failed]
      exact ⟨roams.lasting, roams.gas, roams.given, roams.speaks, roams.above.trans opened⟩

end Roaming

theorem branchCondition_gives (speaks : machine.Speaks vocabulary) {block : Int} {condition : Except Fault Term}
    (found : branchCondition block machine = .ok condition next) :
    Gives (Term.Only (vocabulary.Admits machine.session.names.other)) condition := by
  simp only [branchCondition, currentBlock, bind_apply, session_apply, Graph.block] at found
  cases present : Table.get? block machine.session.graph.blocks with
  | none =>
    rw [present] at found
    cases found
  | some current =>
    rw [present] at found
    simp only [lift_ok, Block.getBranch, Block.known] at found
    cases branch : current.branch with
    | none =>
      rw [branch] at found
      cases found
    | some word =>
      rw [branch] at found
      simp only [lift_ok] at found
      cases found
      obtain ⟨entry, member, rfl⟩ := Table.exists_mem_of_get? present
      have wordOnly := speaks.session.branches entry member word branch
      cases tested : conditionOf word with
      | ok condition => exact conditionOf_only wordOnly tested
      | error fault => trivial

theorem followOn_roaming (roaming : ∀ address, Roaming vocabulary given (follow address)) (address : Int) :
    Roaming vocabulary given (followOn address follow) := by
  intro machine speaks later
  have moved : Machine.Speaks vocabulary { machine with path := { machine.path with pc := address } } :=
    ⟨⟨speaks.path.stack, speaks.path.memory, speaks.path.hashes, speaks.path.balances, speaks.path.storage,
      speaks.path.touched, speaks.path.conditions⟩, speaks.session⟩
  have roams := roaming address _ moved later
  unfold followOn
  rw [onCopy_after]
  exact ⟨roams.lasting, rfl, roams.given, ⟨speaks.path.mono roams.given, roams.speaks.session⟩, roams.above⟩

theorem leaveBlock_roaming (previous : Int) (roaming : ∀ address, Roaming vocabulary given (follow address))
    (kind : JumpKind) :
    Roaming vocabulary given (leaveBlock decider block previous follow kind) := by
  have uncounted : Roaming vocabulary given (countEdge (previous, block) (-1)) :=
    (countEdge_following decider _ _).roaming given
  cases kind with
  | terminal => exact (finishPath_following decider).roaming given
  | unconditional => exact ((jumpAddress_reads block).roaming given).bind (followOn_roaming roaming)
  | fallsTo => exact ((nextBlock_reads block).roaming given).bind (followOn_roaming roaming)
  | conditional =>
    intro machine speaks later
    unfold leaveBlock
    rcases (branchCondition_reads block).eq machine with ⟨condition, found⟩ | ⟨fault, failed⟩
    · rw [after_bind_of_ok found]
      have only := branchCondition_gives speaks found
      have denied : Gives (Term.Only (vocabulary.Admits machine.session.names.other))
          (condition.map (.unary .negation)) :=
        only.map fun _ only => only
      have laterFollow : ∀ address, Roaming vocabulary machine.session.names.other (follow address) :=
        fun address before speaking evenLater => roaming address before speaking (later.trans evenLater)
      refine ((followSide_roaming (jumpTarget_reads block) laterFollow only).bind fun _ => ?_) machine speaks le_rfl
      refine (followSide_roaming (nextBlock_reads block) laterFollow denied).bind fun _ => ?_
      exact (countEdge_following decider _ _).roaming _
    · rw [after_bind_of_error failed]
      exact .refl speaks
  | other name => exact uncounted.bind fun _ => (throw_reads _).roaming given

variable (decider) in
theorem explore_roaming (remaining : Nat) (block previous : Int) (function : String) :
    Roaming vocabulary given (explore decider remaining block previous function) := by
  induction remaining generalizing block previous function with
  | zero =>
    unfold explore
    refine ((arrive_following decider block previous function).roaming given).bind fun arrival => ?_
    cases arrival with
    | stopped ending => exact (pure_reads _).roaming given
    | atEnd kind function =>
      exact ((finishPath_following decider).roaming given).bind fun _ => (pure_reads _).roaming given
  | succ remaining ih =>
    unfold explore
    refine ((arrive_following decider block previous function).roaming given).bind fun arrival => ?_
    cases arrival with
    | stopped ending => exact (pure_reads _).roaming given
    | atEnd kind function =>
      refine (leaveBlock_roaming block previous (fun address => ?_) kind).bind fun _ => (pure_reads _).roaming given
      exact (ih address block function).bind fun _ => (pure_reads _).roaming given

end Explore

end MintAudit
