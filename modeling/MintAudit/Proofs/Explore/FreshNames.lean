import MintAudit.Proofs.Explore.StartBlocks
import MintAudit.Proofs.Machine.Underway

namespace MintAudit

/-!
# Fresh names

Every name that is counted is new. The paths of an exploration share the counters, so a symbol that an instruction makes up
on one of them was pushed by no earlier instruction on any other.
-/

open List

/-! ## The generator -/

namespace Names

/-- The ways to ask for a name that count. -/
inductive Counting where
  | stackWord | dataWord | anything | anyAddress | gasLeft | accountBalance

namespace Counting

def start : Counting → String
  | stackWord => "s"
  | dataWord => "Id_"
  | anything => "some_var_"
  | anyAddress => "some_address_"
  | gasLeft => "gas_"
  | accountBalance => "balance_"

def take : Counting → Names → String × Names
  | stackWord => Names.stackWord
  | dataWord => Names.dataWord
  | anything => Names.anything
  | anyAddress => Names.anyAddress
  | gasLeft => Names.gasLeft
  | accountBalance => Names.accountBalance

def count : Counting → Names → Nat
  | stackWord, names => names.stack
  | dataWord, names => names.data
  | _, names => names.other

variable (call other : Counting) (names : Names)

theorem take_eq : (call.take names).1 = call.start ++ toString (call.count (call.take names).2) ∧
    call.count names < call.count (call.take names).2 := by
  cases call <;> exact ⟨rfl, Nat.lt_succ_self _⟩

theorem count_le_take : other.count names ≤ other.count (call.take names).2 := by
  cases call <;> cases other <;> first | exact le_rfl | exact Nat.le_succ _

theorem getLast?_start : ∀ last ∈ call.start.toList.getLast?, last.isDigit = false := by
  cases call <;> simp [start]

variable {call other}

theorem start_inj (same : call.start = other.start) : call = other := by
  cases call <;> cases other <;> first | rfl | exact absurd same (by decide)

end Counting

/-- The names that are given one after another. -/
def returned : List Counting → Names → List String
  | [], _ => []
  | call :: rest, names => (call.take names).1 :: returned rest (call.take names).2

variable {calls : List Counting} {names : Names} {name : String}

theorem exists_of_mem_returned (member : name ∈ returned calls names) :
    ∃ (call : Counting) (number : Nat), name = call.start ++ toString number ∧ call.count names < number := by
  induction calls generalizing names with
  | nil => cases member
  | cons call rest ih =>
    rcases mem_cons.mp member with rfl | later
    · exact ⟨call, _, call.take_eq names⟩
    · obtain ⟨other, number, same, more⟩ := ih later
      exact ⟨other, number, same, (call.count_le_take other names).trans_lt more⟩

theorem returned_nodup (calls : List Counting) (names : Names) : (returned calls names).Nodup := by
  induction calls generalizing names with
  | nil => exact nodup_nil
  | cons call rest ih =>
    refine nodup_cons.mpr ⟨fun again => ?_, ih _⟩
    obtain ⟨other, number, same, more⟩ := exists_of_mem_returned again
    rw [(call.take_eq names).1] at same
    obtain ⟨starts, rfl⟩ := append_inj call.getLast?_start other.getLast?_start same
    rw [Counting.start_inj starts] at more
    exact more.ne rfl

theorem returned_ne_constant (member : name ∈ returned calls names) :
    name ∉ [dataSize, gasPrice, contract, caller, origin] := by
  obtain ⟨call, number, rfl, _⟩ := exists_of_mem_returned member
  have cut := rdropWhile_isDigit number call.getLast?_start
  intro constant
  have kept : ∀ fixed ∈ [dataSize, gasPrice, contract, caller, origin],
      fixed.toList.rdropWhile Char.isDigit ≠ call.start.toList := by
    cases call <;> decide +kernel
  exact kept _ constant cut

end Names

/-- The numbered names that were given out, and all names that are not numbered. -/
def Vocabulary.counted : Vocabulary where
  Admits given name := ∀ start ∈ Names.starts, ∀ number : Nat, name = start ++ toString number → number ≤ given
  grows more admitted start member number same := (admitted start member number same).trans more
  generated start member _ other known _ same :=
    (Names.append_inj (Names.starts_getLast? start member) (Names.starts_getLast? other known) same).2.ge
  plain other _ start member number same := (other start member number same).elim

/-! ## Symbols that an instruction makes up -/

/-- What the name of the symbol begins with that the instruction makes up, if it does: a power of anything but two numbers,
and what is not known of calls, of gas and of accounts. -/
def Instruction.coined? (stack : List Word) : Instruction → Option String
  | .plain .exp =>
    match stack with
    | base :: exponent :: _ => if base.isConcrete && exponent.isConcrete then none else some "some_var_"
    | _ => none
  | .plain .returndatasize | .plain .create | .plain .delegatecall => some "some_var_"
  | .plain .gas => some "gas_"
  | .plain .balance => some "balance_"
  | _ => none

namespace Exec

/-- The computation puts the next symbol with this start on the stack. -/
def Coins (start : String) (act : Exec Unit) : Prop :=
  ∀ before after, act before = .ok () after →
    after.path.stack.head? = some (Word.symbol (start ++ toString (before.session.names.other + 1)))

theorem Coins.bind {act : Exec α} {next : α → Exec Unit} {start : String} (spares : Effect.Preserves Machine.session act)
    (coins : ∀ value, Coins start (next value)) : Coins start (act >>= next) := by
  intro before after runs
  obtain ⟨value, between, first, rest⟩ := of_bind_ok runs
  rw [← spares.of_ok first]
  exact coins value between after rest

theorem need_session (count : Nat) : Effect.Preserves Machine.session (need count) := by
  constructor
  intro before
  rw [need_apply]
  split <;> rfl

theorem advance_session (distance : Int) : Effect.Preserves Machine.session (advance distance) :=
  .modify fun _ => rfl

theorem pop_session : Effect.Preserves Machine.session pop := by
  constructor
  intro before
  cases stack : before.path.stack with
  | nil => rw [pop_nil _ stack]; rfl
  | cons word rest => rw [pop_cons _ stack]; rfl

theorem drop_session (count : Nat) : Effect.Preserves Machine.session (drop count) := by
  induction count with
  | zero =>
    rw [drop_zero]
    exact .pure _
  | succ count ih =>
    rw [drop_succ]
    exact (pop_session.bind fun _ => .pure _).bind fun _ => ih

theorem unknownResult_coins (count : Nat) : Coins "some_var_" (Environment.unknownResult count) := by
  refine .bind (need_session count) fun _ => .bind (advance_session 1) fun _ => .bind (drop_session count) fun _ => ?_
  intro before after runs
  cases runs
  rfl

theorem gasLeft_coins : Coins "gas_" Environment.gasLeft := by
  intro before after runs
  cases runs
  rfl

theorem balance_coins : Coins "balance_" Environment.balance := by
  refine .bind (need_session 1) fun _ => .bind (advance_session 1) fun _ => .bind pop_session fun address => ?_
  intro before after runs
  cases runs
  rfl

theorem exponentiation_coins {base exponent : Word} {rest : List Word} {before after : Machine}
    (operands : before.path.stack = base :: exponent :: rest) (unknown : ¬(base.isConcrete && exponent.isConcrete))
    (runs : Alu.exponentiation before = .ok () after) :
    after.path.stack.head? = some (Word.symbol ("some_var_" ++ toString (before.session.names.other + 1))) := by
  have enough : 2 ≤ before.path.stack.length := by simp [operands]
  replace runs := (bind_ok (need_ok before enough)).symm.trans runs
  replace runs := (bind_ok (advance_apply before 1)).symm.trans runs
  have advanced : ({ before.path with pc := before.path.pc + 1 } : Path).stack = base :: exponent :: rest := operands
  replace runs := (bind_ok (pop_cons { before with path := { before.path with pc := before.path.pc + 1 } } advanced)).symm.trans
    runs
  replace runs := (bind_ok (pop_cons _ rfl)).symm.trans runs
  dsimp only at runs
  split at runs
  · simp_all [Word.isConcrete]
  · cases runs
    rfl

end Exec

namespace Machine

open Exec

theorem stack_of_coined {decider : Decider} {block : Int} {function line start : String} {before after : Machine}
    (coined : (Instruction.ofLine line).coined? before.path.stack = some start)
    (runs : step decider block function line before = .ok () after) :
    start ∈ Names.starts ∧
      after.path.stack.head? = some (Word.symbol (start ++ toString (before.session.names.other + 1))) := by
  obtain ⟨between, same, executes⟩ := executed_of_step runs
  have samePath := path_eq same
  have sameNames : between.session.names = before.session.names := congrArg (fun around => around.2.1) same
  rw [← samePath] at coined
  rw [← sameNames]
  generalize Instruction.ofLine line = instruction at *
  unfold Instruction.coined? at coined
  split at coined
  · split at coined
    · next operands =>
      split at coined
      · cases coined
      · next unknown =>
        cases coined
        exact ⟨by decide, exponentiation_coins operands unknown executes⟩
    · cases coined
  · cases coined
    exact ⟨by decide, unknownResult_coins 0 between after executes⟩
  · cases coined
    exact ⟨by decide, unknownResult_coins 3 between after executes⟩
  · cases coined
    exact ⟨by decide, unknownResult_coins 6 between after executes⟩
  · cases coined
    exact ⟨by decide, gasLeft_coins between after executes⟩
  · cases coined
    exact ⟨by decide, balance_coins between after executes⟩
  · cases coined

end Machine

namespace Explore

open Exec

variable {decider : Decider} {vocabulary : Vocabulary}

variable (decider) in
/-- The machine once the instruction of the line is done. -/
def Moment.executed (moment : Moment) : Option Machine :=
  match (currentText >>= fun _ => Machine.step decider moment.block moment.function (Text.strip moment.line))
    moment.machine with
  | .ok _ machine => some machine
  | .error _ _ => none

theorem Moment.executed_eq_some {moment : Moment} {pushed : Machine} (done : moment.executed decider = some pushed) :
    ∃ text, currentText moment.machine = .ok text moment.machine ∧
      Machine.step decider moment.block moment.function (Text.strip moment.line) moment.machine = .ok () pushed := by
  unfold executed at done
  split at done
  · next runs =>
    cases done
    obtain ⟨text, between, reads, steps⟩ := of_bind_ok runs
    have same := currentText_reads moment.machine
    rw [after_of_ok reads] at same
    subst same
    exact ⟨text, reads, steps⟩
  · cases done

/-- What the instructions of some lines leave in the machine was named before the last machine. -/
def NamedBefore (decider : Decider) (vocabulary : Vocabulary) (moments : List Moment) (last : Machine) : Prop :=
  ∀ moment ∈ moments, ∀ pushed, moment.executed decider = some pushed →
    pushed.Speaks vocabulary ∧ pushed.session.names.other ≤ last.session.names.other

theorem before_linking :
    Linking decider fun moments before after =>
      before.Speaks vocabulary → before.Roams vocabulary after ∧ NamedBefore decider vocabulary moments after where
  refl machine speaks := ⟨.refl speaks, fun _ member => absurd member not_mem_nil⟩
  trans first second speaks := by
    obtain ⟨roams, done⟩ := first speaks
    obtain ⟨further, rest⟩ := second roams.speaks
    refine ⟨roams.trans further, forall_mem_append.mpr ⟨fun moment member pushed runs => ?_, rest⟩⟩
    obtain ⟨spoken, earlier⟩ := done moment member pushed runs
    exact ⟨spoken, earlier.trans further.given⟩
  line moment speaks := by
    refine ⟨(executeLine_following decider moment.block moment.function moment.line).roaming 0 _ speaks (Nat.zero_le _),
      forall_mem_singleton.mpr fun pushed done => ?_⟩
    obtain ⟨text, reads, steps⟩ := moment.executed_eq_some done
    have roams := (step_following decider moment.block moment.function (Text.strip moment.line)).roaming 0 moment.machine
      speaks (Nat.zero_le _)
    rw [after_of_ok steps] at roams
    have noted : Following decider vocabulary (noteSource text) :=
      Steady.following fun given => noteSource_steady (vocabulary.blind .owner) given text
    unfold executeLine
    rw [after_bind_of_ok reads, after_bind_of_ok steps]
    exact ⟨roams.speaks, (noted.roaming 0 pushed roams.speaks (Nat.zero_le _)).given⟩
  ending block function machine speaks := by
    have ended : Following decider vocabulary (comeToEnd block function) :=
      Steady.following fun given => comeToEnd_steady given block function
    exact ⟨ended.roaming 0 machine speaks (Nat.zero_le _), fun _ member => absurd member not_mem_nil⟩

theorem Visit.given_reached (visit : Visit) :
    visit.machine.session.names.other ≤ (visit.reached decider).session.names.other :=
  ((arrive_following decider visit.block visit.previous visit.function).roaming 0 visit.machine
    visit.machine.speaks_unrestricted (Nat.zero_le _)).given

theorem given_tracking :
    Tracking decider (fun session => session.names.other) fun visit given =>
      given + ((visit.reached decider).session.names.other - visit.machine.session.names.other) where
  hidden _ := rfl
  left _ _ _ _ := rfl
  reached visit := (Nat.add_sub_cancel' visit.given_reached).symm

theorem le_foldl_given (calls : List Visit) (given : Nat) :
    given ≤ calls.foldl (fun given visit =>
      given + ((visit.reached decider).session.names.other - visit.machine.session.names.other)) given := by
  induction calls generalizing given with
  | nil => exact le_rfl
  | cons next others ih => exact (Nat.le_add_right _ _).trans (ih _)

theorem given_le_of_tour {start visit earlier : Visit} {before after : List Visit}
    (position : start.tour decider = before ++ visit :: after) (member : earlier ∈ before) :
    (earlier.reached decider).session.names.other ≤ visit.machine.session.names.other := by
  obtain ⟨first, rest, rfl⟩ := append_of_mem member
  have here := given_tracking.before position
  rw [append_assoc, cons_append] at position
  rw [here, foldl_append, foldl_cons, ← given_tracking.before position, ← given_tracking.reached earlier]
  exact le_foldl_given rest _

theorem given_le_explored {start visit : Visit} (member : visit ∈ start.tour decider) :
    (visit.reached decider).session.names.other ≤ (start.explored decider).session.names.other := by
  obtain ⟨first, rest, position⟩ := append_of_mem member
  rw [given_tracking.explored start, position, foldl_append, foldl_cons, ← given_tracking.before position,
    ← given_tracking.reached visit]
  exact le_foldl_given rest _

theorem Exit.successors_speaks {exit : Exit} {next : Visit} (speaks : exit.machine.Speaks vocabulary)
    (member : next ∈ exit.successors decider) : next.machine.Speaks vocabulary := by
  obtain ⟨address, rfl⟩ | ⟨condition, tested, jumped | fallen⟩ := of_mem_successors member
  · obtain ⟨path, session⟩ := speaks
    exact ⟨{ path with }, session⟩
  · obtain ⟨_, address, rfl⟩ := of_side jumped
    exact entering_speaks (aside_speaks speaks condition) (of_condition? speaks tested).2 address
  · obtain ⟨machine, returned, entered⟩ := fall_eq_some fallen
    have roams := (of_jumped speaks tested returned).1
    obtain ⟨_, address, rfl⟩ := of_side entered
    have only : (Term.unary .negation condition).Only (vocabulary.Admits machine.session.names.other) :=
      (of_condition? speaks tested).2.mono fun _ => vocabulary.grows roams.given
    exact entering_speaks (aside_speaks roams.speaks _) only address

theorem Visit.successors_speaks {visit next : Visit} (speaks : visit.machine.Speaks vocabulary)
    (member : next ∈ visit.successors decider) : next.machine.Speaks vocabulary := by
  obtain ⟨exit, found, later⟩ := exists_exit member
  have roams := (arrive_following decider visit.block visit.previous visit.function).roaming 0 visit.machine speaks
    (Nat.zero_le _)
  rw [after_of_ok (exit?_eq_some found).2.1] at roams
  exact Exit.successors_speaks roams.speaks later

/-- The lines that an exploration executes, on one path after another. -/
def Visit.allMoments (decider : Decider) (start : Visit) : List Moment :=
  (start.tour decider).flatMap (Visit.moments decider)

section Course

variable {start : Visit} (speaks : start.machine.Speaks vocabulary)

include speaks in
theorem speaks_approached {visit : Visit} (member : visit ∈ start.tour decider) :
    visit.machine.Roams vocabulary
      ((approach visit.block visit.previous visit.function).after visit.machine) :=
  (approach_following decider visit.block visit.previous visit.function).roaming 0 visit.machine
    (Visit.forall_tour (fun _ speaks _ => Visit.successors_speaks speaks) speaks visit member) (Nat.zero_le _)

include speaks in
theorem before_of_call {visit : Visit} (member : visit ∈ start.tour decider) :
    NamedBefore decider vocabulary (visit.moments decider) (visit.reached decider) :=
  (before_linking.reached visit (speaks_approached speaks member).speaks).2

include speaks in
theorem before_of_allMoments {before after : List Moment} {moment : Moment}
    (position : start.allMoments decider = before ++ moment :: after) :
    NamedBefore decider vocabulary before moment.machine ∧
      start.machine.session.names.other ≤ moment.machine.session.names.other := by
  obtain ⟨earlier, visit, later, inner, outer, tour, lines, rfl⟩ := exists_of_flatMap_eq_append_cons position
  have here := speaks_approached speaks (show visit ∈ start.tour decider by simp [tour])
  obtain ⟨roams, within⟩ := before_linking.within lines here.speaks
  refine ⟨forall_mem_append.mpr ⟨fun line member pushed runs => ?_, within⟩, ?_⟩
  · obtain ⟨call, among, inside⟩ := mem_flatMap.mp member
    have member : call ∈ start.tour decider := by simp [tour, among]
    obtain ⟨spoken, given⟩ := before_of_call speaks member line inside pushed runs
    exact ⟨spoken, given.trans ((given_le_of_tour tour among).trans (here.given.trans roams.given))⟩
  · have reached : start.machine.session.names.other ≤ visit.machine.session.names.other := by
      rw [given_tracking.before tour]
      exact le_foldl_given earlier _
    exact reached.trans (here.given.trans roams.given)

include speaks in
theorem before_explored : NamedBefore decider vocabulary (start.allMoments decider) (start.explored decider) := by
  intro line member pushed runs
  obtain ⟨call, among, inside⟩ := mem_flatMap.mp member
  obtain ⟨spoken, given⟩ := before_of_call speaks among line inside pushed runs
  exact ⟨spoken, given.trans (given_le_explored among)⟩

end Course

/-- The counters are handed from one exploration to the next. -/
theorem before_of_beginnings {blocks : List Int} {machine : Machine} (speaks : machine.Speaks vocabulary)
    {before after : List Moment} {moment : Moment}
    (position : (beginnings decider blocks machine).flatMap (Visit.allMoments decider) = before ++ moment :: after) :
    NamedBefore decider vocabulary before moment.machine ∧
      machine.session.names.other ≤ moment.machine.session.names.other := by
  induction blocks generalizing machine before after with
  | nil => simp [beginnings] at position
  | cons block rest ih =>
    rw [beginnings] at position
    obtain ⟨earlier, start, later, inner, outer, begun, inside, rfl⟩ := exists_of_flatMap_eq_append_cons position
    cases earlier with
    | nil =>
      cases begun
      exact before_of_allMoments speaks inside
    | cons first others =>
      obtain ⟨rfl, left⟩ := cons.inj begun
      cases run : exploreFrom decider block machine with
      | error fault next => simp [run] at left
      | ok value next =>
        rw [run] at left
        obtain ⟨finding, same, _⟩ := exploreFrom_eq_ok run
        have roams := explore_roaming decider (remainingDepth machine.session.settings 0) block 0 "fallback" machine
          speaks (Nat.zero_le _)
        have names : next.session.names = ((beginning block machine).explored decider).session.names := by rw [same]; rfl
        have spoken : next.Speaks vocabulary := by
          obtain ⟨path, session⟩ := roams.speaks
          rw [same]
          exact ⟨path, { session with }⟩
        have within : (beginnings decider rest next).flatMap (Visit.allMoments decider) =
            (others.flatMap (Visit.allMoments decider) ++ inner) ++ moment ::
              (outer ++ later.flatMap (Visit.allMoments decider)) := by
          simp [show beginnings decider rest next = others ++ start :: later from left, inside]
        obtain ⟨named, given⟩ := ih spoken within
        have grown : ((beginning block machine).explored decider).session.names.other ≤
            moment.machine.session.names.other := names ▸ given
        refine ⟨?_, roams.given.trans grown⟩
        rw [flatMap_cons, append_assoc]
        refine forall_mem_append.mpr ⟨fun line member pushed runs => ?_, named⟩
        obtain ⟨spoken, earlier⟩ := @before_explored decider _ (beginning block machine) speaks line member pushed runs
        exact ⟨spoken, earlier.trans grown⟩

/-- A symbol that an instruction makes up is in no word that an earlier one of the instructions has left on the stack. -/
def Fresh (decider : Decider) (moments : List Moment) : Prop :=
  ∀ before moment after, moments = before ++ moment :: after →
    ∀ pushed, moment.executed decider = some pushed →
      (moment.instruction.coined? moment.machine.path.stack).isSome →
        ∃ name, pushed.path.stack.head? = some (Word.symbol name) ∧
          ∀ earlier ∈ before, ∀ left, earlier.executed decider = some left →
            ∀ word ∈ left.path.stack, word.Only (· ≠ name)

theorem fresh_of_before {moments : List Moment}
    (named : ∀ before moment after, moments = before ++ moment :: after →
      NamedBefore decider .counted before moment.machine) :
    Fresh decider moments := by
  intro before moment after position pushed runs coins
  obtain ⟨first, coined⟩ := Option.isSome_iff_exists.mp coins
  obtain ⟨_, _, steps⟩ := moment.executed_eq_some runs
  obtain ⟨known, top⟩ := Machine.stack_of_coined coined steps
  refine ⟨_, top, fun earlier member left leaves word inside => ?_⟩
  obtain ⟨spoken, given⟩ := named before moment after position earlier member left leaves
  refine (spoken.path.stack word inside).mono fun other admitted same => ?_
  have := admitted first known _ same
  omega

/-- Names that are counted are all different, and none is one of the fixed names. So a symbol that an instruction makes up
is in no word that any earlier instruction has left on the stack: of the exploration, on whatever path, and of the
explorations that other blocks were started with before. -/
theorem generated_fresh :
    (∀ calls names, (Names.returned calls names).Nodup ∧
      ∀ name ∈ Names.returned calls names,
        name ∉ [Names.dataSize, Names.gasPrice, Names.contract, Names.caller, Names.origin]) ∧
      (∀ start : Visit, start.machine.Speaks .counted → Fresh decider (start.allMoments decider)) ∧
      ∀ (blocks : List Int) (machine : Machine), machine.Speaks .counted →
        Fresh decider ((beginnings decider blocks machine).flatMap (Visit.allMoments decider)) := by
  refine ⟨fun calls names => ⟨Names.returned_nodup calls names, fun _ => Names.returned_ne_constant⟩, ?_, ?_⟩
  · exact fun start speaks => fresh_of_before fun _ _ _ position => (before_of_allMoments speaks position).1
  · exact fun blocks machine speaks => fresh_of_before fun _ _ _ position => (before_of_beginnings speaks position).1

/-- A branch on the deposit: on both sides it is asked what gas is left. -/
def onBothSides : Visit :=
  { branchOnDepositStart with
    machine :=
      { branchOnDeposit with
        session :=
          { branchOnDeposit.session with
            graph :=
              { branchOnDeposit.session.graph with
                instructions := [(0, "JUMPI "), (1, "GAS "), (2, "GAS ")]
                blocks :=
                  [(0, { start := 0, stop := 0, lines := ["JUMPI "], kind := some .conditional, fallsTo := some (some 1) }),
                    (1, { start := 1, stop := 1, lines := ["GAS "], kind := some .terminal }),
                    (2, { start := 2, stop := 2, lines := ["GAS "], kind := some .terminal })] } } } }

/-- The last two instructions make up symbols, and the second of these is nowhere in what the first left. -/
def LastTwoApart (moments : List Moment) : Prop :=
  ∃ front first second gas more name, moments = front ++ [first, second] ∧
    first.executed .permissive = some gas ∧ second.executed .permissive = some more ∧
      more.path.stack.head? = some (Word.symbol name) ∧ ∀ word ∈ gas.path.stack, word.Only (· ≠ name)

theorem generated_fresh_onBothSides :
    LastTwoApart (onBothSides.allMoments .permissive) ∧
      LastTwoApart ((beginnings .permissive [1, 2] onBothSides.machine).flatMap (Visit.allMoments .permissive)) := by
  have speaks : onBothSides.machine.Speaks .counted := by
    obtain ⟨path, session⟩ := branchOnDeposit_speaks .counted
    refine Machine.speaks_of_unbranched path (fun entry member => ?_) session.parameters
    simp only [onBothSides, mem_cons, not_mem_nil, or_false] at member
    rcases member with rfl | rfl | rfl <;> rfl
  have apart {moments : List Moment} (before : List (Bool × Bool)) (fresh : Fresh .permissive moments)
      (shape : moments.map (fun moment => ((moment.executed .permissive).isSome,
        (moment.instruction.coined? moment.machine.path.stack).isSome)) = before ++ [(true, true), (true, true)]) :
      LastTwoApart moments := by
    obtain ⟨front, _, rfl, _, shape⟩ := map_eq_append_iff.mp shape
    obtain ⟨first, _, rfl, asked, shape⟩ := map_eq_cons_iff.mp shape
    obtain ⟨second, _, rfl, again, shape⟩ := map_eq_cons_iff.mp shape
    obtain rfl := map_eq_nil_iff.mp shape
    obtain ⟨gas, done⟩ := Option.isSome_iff_exists.mp (Prod.mk.inj asked).1
    obtain ⟨doneAgain, coined⟩ := Prod.mk.inj again
    obtain ⟨more, doneAgain⟩ := Option.isSome_iff_exists.mp doneAgain
    obtain ⟨name, top, apart⟩ := fresh (front ++ [first]) second [] (by simp) more doneAgain coined
    exact ⟨front, first, second, gas, more, name, rfl, done, doneAgain, top, apart first (by simp) gas done⟩
  obtain ⟨_, ofVisit, ofBlocks⟩ := @generated_fresh .permissive
  exact ⟨apart [(true, false)] (ofVisit onBothSides speaks) (by decide +kernel),
    apart [] (ofBlocks [1, 2] onBothSides.machine speaks) (by decide +kernel)⟩

end Explore

end MintAudit
