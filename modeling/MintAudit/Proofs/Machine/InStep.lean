import MintAudit.Explore.Run
import MintAudit.Proofs.Machine.OrderlyStep

namespace MintAudit

/-!
# Assertions and path in step

What is asserted is what was assumed on the path behind the constraints it began with, in the same order, and it can
hold.
-/

open Word List

open Exec
open Holdings (Blind)

set_option mvcgen.warning false

def Vocabulary.Strict (vocabulary : Vocabulary) : Prop :=
  ∀ given number : Nat, vocabulary.Admits given ("some_var_" ++ toString number) → number ≤ given

/-- The generated names that were given out, and all other names. -/
def Vocabulary.givenOut : Vocabulary where
  Admits given name := ∀ number : Nat, name = "some_var_" ++ toString number → number ≤ given
  grows more admitted number same := (admitted number same).trans more
  generated start member _ _ same :=
    (Names.append_inj (Names.starts_getLast? start member) (Names.starts_getLast? _ (by decide)) same).2.ge
  plain other given number same := (other "some_var_" (by decide) number same).elim

theorem Vocabulary.givenOut_strict : givenOut.Strict :=
  fun _ number admitted => admitted number rfl

def Satisfiable (conditions : List Term) : Prop :=
  ∃ assignment, ∀ condition ∈ conditions, Term.Holds assignment condition

theorem Satisfiable.append_nonnegative {conditions : List Term} (satisfiable : Satisfiable conditions)
    {admits : String → Prop} (only : ∀ condition ∈ conditions, condition.Only admits) {name : String}
    (fresh : ¬ admits name) (width : Nat) :
    Satisfiable (conditions ++ [.binary .sge (.symbol name width) (.literal width 0)]) := by
  obtain ⟨assignment, holds⟩ := satisfiable
  refine ⟨Function.update assignment name fun _ => 0, ?_⟩
  intro condition member
  rcases mem_append.mp member with old | new
  · have unchanged : ∀ other, admits other → Function.update assignment name (fun _ => 0) other = assignment other := by
      rintro other admitted
      refine Function.update_of_ne ?_ _ _
      rintro rfl
      exact fresh admitted
    rw [Term.Holds, Term.eval_congr unchanged (only condition old)]
    exact holds condition old
  · obtain rfl := mem_singleton.mp new
    simp [Term.Holds, Term.eval, BinaryOp.apply]

namespace Explore

variable {condition : Term} {word : Word}

theorem conditionOf_asWord (kind : condition.kind = .condition) : conditionOf (asWord condition) = .ok condition := by
  cases condition with
  | truth value => rfl
  | _ => simp [asWord, conditionOf, kind]

theorem conditionOf_kind (found : conditionOf word = .ok condition) : condition.kind = .condition := by
  unfold conditionOf at found
  split at found
  · cases found
    rfl
  · split at found
    · cases found
      assumption
    · cases found
  · cases found

theorem conditionOf_only {admits : String → Prop} (only : word.Only admits) (found : conditionOf word = .ok condition) :
    condition.Only admits := by
  unfold conditionOf at found
  split at found
  · cases found
    trivial
  · split at found
    · cases found
      exact only
    · cases found
  · cases found

end Explore

/-- The assertions are the conditions of the path behind the constraints it began with, one scope is open for each
branch that was taken, and the assertions can hold together. -/
structure Machine.InStep (branches : Nat) (machine : Machine) : Prop where
  initial : machine.path.conditions.take 3 = Path.initial.conditions
  same : (machine.path.conditions.drop 3).map Explore.conditionOf = machine.session.scopes.assertions.map Except.ok
  scopes : machine.session.scopes.inner.length = branches
  feasible : Satisfiable machine.session.scopes.assertions

namespace Machine.InStep

variable {branches : Nat}

theorem transfer {before after : Machine} (inStep : before.InStep branches)
    (scopes : after.session.scopes = before.session.scopes)
    (conditions : after.path.conditions = before.path.conditions) :
    after.InStep branches := by
  obtain ⟨initial, same, count, feasible⟩ := inStep
  exact ⟨by rw [conditions, initial], by rw [conditions, scopes, same], by rw [scopes, count], by rwa [scopes]⟩

theorem assume {before after : Machine} (inStep : before.InStep branches) {condition : Term} {word : Word}
    (found : Explore.conditionOf word = .ok condition)
    (feasible : Satisfiable (before.session.scopes.assertions ++ [condition]))
    (scopes : after.session.scopes = before.session.scopes.assume condition)
    (conditions : after.path.conditions = before.path.conditions ++ [word]) :
    after.InStep branches := by
  have long : 3 ≤ before.path.conditions.length := by
    have := congrArg List.length inStep.initial
    rw [length_take] at this
    have three : Path.initial.conditions.length = 3 := rfl
    omega
  refine ⟨?_, ?_, ?_, ?_⟩
  · rw [conditions, take_append_of_le_length long, inStep.initial]
  · rw [conditions, drop_append_of_le_length long, map_append, inStep.same, scopes,
      Scopes.assertions_assume, map_append, map_singleton, map_singleton, found]
  · rw [scopes, ← inStep.scopes]
    unfold Scopes.assume
    split <;> simp_all
  · rwa [scopes, Scopes.assertions_assume]

theorem only {machine : Machine} (inStep : machine.InStep branches) {vocabulary : Vocabulary} {given : Nat}
    (speaks : machine.path.Speaks vocabulary given) :
    ∀ condition ∈ machine.session.scopes.assertions, condition.Only (vocabulary.Admits given) := by
  intro condition member
  have mapped : Except.ok condition ∈ (machine.path.conditions.drop 3).map Explore.conditionOf := by
    rw [inStep.same]
    exact mem_map_of_mem member
  obtain ⟨word, wordMember, found⟩ := mem_map.mp mapped
  exact Explore.conditionOf_only (speaks.conditions word (mem_of_mem_drop wordMember)) found

end Machine.InStep

namespace Exec

def Assuming (decider : Decider) (frame : Frame γ) (distance : Int) (given : Nat) (computation : Exec α)
    (gives : Nat → α → Prop) :
    Prop :=
  ∀ before : Machine, before.session.names.other = given → before.Speaks frame.toVocabulary →
    match computation before with
    | .ok value after =>
      before.Abides frame after ∧ after.session.scopes.Extends before.session.scopes ∧
        after.path.pc = before.path.pc + distance ∧
        (decider.Sound → frame.Strict → ∀ branches, before.InStep branches → after.InStep branches) ∧
        gives after.session.names.other value
    | .error _ after => before.Abides frame after ∧ after.session.scopes.Above before.session.scopes

variable {γ : Type} {decider : Decider} {frame : Frame γ} {distance : Int} {given : Nat}

variable {computation : Exec α} {gives : Nat → β → Prop} {next : α → Exec β} {between : Nat → α → Prop}

theorem Orderly.assuming {gives : Nat → α → Prop} (orderly : Orderly frame 0 distance given computation gives) :
    Assuming decider frame distance given computation gives := by
  intro before names speaks
  have result := orderly before before.session.scopes names speaks ⟨[], rfl, rfl⟩
  cases run : computation before with
  | ok value after =>
    rw [run] at result
    obtain ⟨abides, scopes, conditions, moved, holds⟩ := result
    exact ⟨abides, scopes ▸ Scopes.Extends.refl _, moved, fun _ _ _ inStep => inStep.transfer scopes conditions, holds⟩
  | error fault after =>
    rw [run] at result
    exact result

theorem Assuming.seq {farther : Int} (first : Assuming decider frame distance given computation between)
    (second : ∀ now value, given ≤ now → between now value → Assuming decider frame farther now (next value) gives) :
    Assuming decider frame (distance + farther) given (computation >>= next) gives := by
  intro before names speaks
  have result := first before names speaks
  rw [bind_apply]
  cases run : computation before with
  | ok value middle =>
    rw [run] at result
    obtain ⟨abides, asserts, moved, keeps, holds⟩ := result
    have onward := second _ value (names ▸ abides.given) holds middle rfl abides.speaks
    dsimp only
    cases continued : next value middle with
    | ok value after =>
      rw [continued] at onward
      obtain ⟨later, assertsMore, movedOn, keepsLater, holds⟩ := onward
      exact ⟨abides.trans later, assertsMore.trans asserts, by rw [movedOn, moved, add_assoc],
        fun sound strict branches inStep => keepsLater sound strict branches (keeps sound strict branches inStep),
        holds⟩
    | error fault after =>
      rw [continued] at onward
      exact ⟨abides.trans onward.1, onward.2.trans asserts.above⟩
  | error fault after =>
    rw [run] at result
    exact result

theorem Assuming.bind (first : Assuming decider frame 0 given computation between)
    (second : ∀ now value, given ≤ now → between now value → Assuming decider frame distance now (next value) gives) :
    Assuming decider frame distance given (computation >>= next) gives :=
  zero_add distance ▸ first.seq second

theorem Steady.bindAssuming {holds : α → Prop} (first : Steady frame given computation holds)
    (second : ∀ value, holds value → Assuming decider frame distance given (next value) gives) :
    Assuming decider frame distance given (computation >>= next) gives := by
  refine (Orderly.assuming first).bind ?_
  rintro _ value _ ⟨rfl, valueHolds⟩
  exact second value valueHolds

theorem Assuming.advance {gives : Nat → α → Prop} {next : Unit → Exec α}
    (onward : Assuming decider frame 0 given (next ()) gives) :
    Assuming decider frame distance given (Exec.advance distance >>= next) gives := by
  have moved : Assuming decider frame (distance + 0) given (Exec.advance distance >>= next) gives := by
    refine (advance_orderly distance).assuming.seq ?_
    rintro _ _ _ rfl
    exact onward
  rwa [add_zero] at moved

end Exec

def Flag.Tests (flag : Flag) : Prop :=
  ∀ condition, flag.toTerm = .ok condition → Explore.conditionOf flag.toWord = .ok condition

theorem Word.relate_tests (relation : Word.Relation) (left right : Word) :
    Gives Flag.Tests (relate relation left right) := by
  have comparison (left right : Term) (relation : Word.Relation) :
      (Flag.condition (.binary relation.onTerms left right)).Tests := by
    rintro _ ⟨rfl⟩
    have kind : (Term.binary relation.onTerms left right).kind = .condition := by cases relation <;> rfl
    simp [Flag.toWord, Explore.conditionOf, kind]
  have known (value : Bool) : (Flag.known value).Tests := by
    rintro _ ⟨rfl⟩
    rfl
  have outcomes (value : Bool) : (outcome left right value).Tests := by
    unfold outcome
    split
    · rintro _ ⟨⟩
    · exact known value
  unfold relate
  split
  · split
    · trivial
    · exact (Gives.anything _).bind fun _ _ => comparison _ _ _
  · split
    · trivial
    · exact (Gives.anything _).bind fun _ _ => comparison _ _ _
  · split
    · exact outcomes _
    · split
      · exact known _
      · trivial

namespace Calls

theorem possible_strides [Journey] {before : Machine} (decider : Decider) (flag : Flag) :
    Strides 0 0 0 before (possible decider flag) := by
  mvcgen [possible] with grind

variable {γ : Type} {frame : Frame γ} {given : Nat} (decider : Decider)

theorem possible_tidy (flag : Flag) : Tidy frame 0 given (possible decider flag) :=
  tidy_of_strides (fun start outer => @possible_strides ⟨frame, start, outer⟩ start decider flag) given

variable {flag : Flag} (recipient : Word)

variable {decider} in
theorem of_possible {answer : Bool} {machine after : Machine} (run : possible decider flag machine = .ok answer after) :
    after = machine ∧ (answer = true → ∃ condition, flag.toTerm = .ok condition ∧
      decider (machine.session.scopes.assertions ++ [condition]) = .satisfiable) := by
  obtain ⟨_, _, enters, run⟩ := Effect.of_bind_ok run
  cases enters
  obtain ⟨_, _, assumes, run⟩ := Effect.of_bind_ok run
  cases found : flag.toTerm with
  | error fault =>
    rw [Exec.assumeFlag, found] at assumes
    cases assumes
  | ok condition =>
    rw [Exec.assumeFlag, found] at assumes
    cases assumes
    have asked : (machine.session.scopes.enter.assume condition).assertions =
        machine.session.scopes.assertions ++ [condition] := by
      rw [Scopes.assertions_assume, Scopes.assertions_enter]
    simp only [Exec.feasible, bind_apply, session_apply, asked] at run
    cases verdict : decider (machine.session.scopes.assertions ++ [condition]) with
    | satisfiable =>
      rw [verdict] at run
      cases run
      exact ⟨rfl, fun _ => ⟨condition, rfl, verdict⟩⟩
    | unsatisfiable =>
      rw [verdict] at run
      cases run
      exact ⟨rfl, fun yes => absurd yes Bool.false_ne_true⟩
    | undecided =>
      rw [verdict] at run
      cases run

theorem assumeOnPath_eq {condition : Term} (found : flag.toTerm = .ok condition) (machine : Machine) :
    assumeOnPath flag machine =
      .ok ()
        { machine.rescoped (machine.session.scopes.assume condition) with
          path := { machine.path with conditions := machine.path.conditions ++ [flag.toWord] } } := by
  simp only [assumeOnPath, Exec.assumeFlag, bind_apply, found, lift_ok, modifyPath_apply]
  rfl

theorem assumeOnPath_abides {machine : Machine} (speaks : machine.Speaks frame.toVocabulary)
    (flagOnly : flag.Only (frame.Admits machine.session.names.other)) (condition : Term) :
    machine.Abides frame
      { machine.rescoped (machine.session.scopes.assume condition) with
        path := { machine.path with conditions := machine.path.conditions ++ [flag.toWord] } } := by
  refine ⟨rfl, rfl, rfl, le_rfl, rfl, { speaks.path with conditions := ?_ }, speaks.session.branches,
    speaks.session.parameters⟩
  exact forall_mem_append.mpr ⟨speaks.path.conditions, forall_mem_singleton.mpr (Flag.toWord_only flagOnly)⟩

theorem assumeIfPossible_assuming (flagOnly : flag.Only (frame.Admits given)) (tests : flag.Tests) :
    Assuming decider frame 0 given (assumeIfPossible decider flag) fun now _ => now = given := by
  rintro before rfl speaks
  have asks := possible_tidy decider flag before before.session.scopes rfl speaks ⟨[], rfl, rfl⟩
  unfold assumeIfPossible
  cases run : possible decider flag before with
  | error fault after =>
    rw [run] at asks
    rw [bind_error run]
    exact asks
  | ok answer after =>
    obtain ⟨rfl, satisfied⟩ := of_possible run
    rw [bind_ok run]
    cases answer with
    | false => exact ⟨.refl speaks, .refl _, (add_zero _).symm, fun _ _ _ inStep => inStep, rfl⟩
    | true =>
      obtain ⟨condition, found, verdict⟩ := satisfied rfl
      simp only [↓reduceIte]
      rw [bind_ok (assumeOnPath_eq found after)]
      refine ⟨assumeOnPath_abides speaks flagOnly condition, .of_assume _ condition, (add_zero _).symm, ?_, rfl⟩
      intro sound _ branches inStep
      exact inStep.assume (tests condition found) ((sound _).1 verdict) rfl rfl

theorem unknownBalance_assuming :
    Assuming decider frame 0 given unknownBalance fun now word => word.Only (frame.Admits now) := by
  rintro before rfl speaks
  let name := "some_var_" ++ toString (before.session.names.other + 1)
  let condition : Term := .binary .sge (.symbol name size) (.literal size 0)
  let named : Machine :=
    { session := { before.session with names := { before.session.names with other := before.session.names.other + 1 } }
      path := { before.path with
        known := if before.path.known.contains name then before.path.known else before.path.known ++ [name] } }
  have more : before.session.names.other ≤ named.session.names.other := Nat.le_succ _
  have drawn : (do symbolNamed (← freshName Names.anything) : Exec Word) before = .ok (symbol name) named := rfl
  have compared : (symbol name).relate .atLeast (.integer 0) = .ok (.condition condition) := rfl
  have namedSpeaks : named.Speaks frame.toVocabulary := by
    have pathSpeaks := speaks.path.mono more
    have sessionSpeaks := speaks.session.mono more
    exact ⟨⟨pathSpeaks.stack, pathSpeaks.memory, pathSpeaks.hashes, pathSpeaks.balances, pathSpeaks.storage,
      pathSpeaks.touched, pathSpeaks.conditions⟩, sessionSpeaks.branches, sessionSpeaks.parameters⟩
  have admitted : frame.Admits named.session.names.other name :=
    frame.generated _ (by decide) _
  have flagOnly : (Flag.condition condition).Only (frame.Admits named.session.names.other) := ⟨admitted, trivial⟩
  have tests : Explore.conditionOf (Flag.condition condition).toWord = .ok condition := rfl
  have assumed := assumeOnPath_eq (show (Flag.condition condition).toTerm = .ok condition from rfl) named
  have result : unknownBalance before = .ok (symbol name)
      { named.rescoped (named.session.scopes.assume condition) with
        path := { named.path with
          conditions := named.path.conditions ++ [(Flag.condition condition).toWord] } } := by
    have shape : unknownBalance = (do
        let balance ← (do symbolNamed (← freshName Names.anything))
        assumeOnPath (← lift (balance.relate .atLeast (.integer 0)))
        return balance) := by
      simp only [unknownBalance, bind_assoc]
    rw [shape, bind_ok drawn, compared, bind_ok (lift_ok _ _), bind_ok assumed]
    rfl
  rw [result]
  have later := assumeOnPath_abides namedSpeaks flagOnly condition
  refine ⟨⟨rfl, rfl, rfl, ⟨le_rfl, le_rfl, more⟩, rfl, later.speaks⟩, .of_assume _ condition, (add_zero _).symm, ?_,
    admitted⟩
  intro _ strict branches inStep
  refine inStep.assume tests ?_ rfl rfl
  refine inStep.feasible.append_nonnegative (inStep.only speaks.path) (fun early => ?_) size
  have := strict _ _ early
  omega

theorem noteCall_steady : Steady frame given noteCall fun _ => True := by
  unfold noteCall
  refine (modifyPath_plain fun _ => ⟨_, _, _, _, rfl⟩).bind fun _ _ => ?_
  refine path_steady.bind fun path _ => ?_
  exact modifySession_plain fun _ => ⟨_, _, rfl, fun _ => rfl⟩

theorem balanceOf_steady (account : String) :
    Steady frame given (balanceOf account) (Word.Only (frame.Admits given)) := by
  unfold balanceOf
  refine path_steady.bind fun path speaks => ?_
  split
  · next word found =>
    obtain ⟨entry, member, rfl⟩ := Table.exists_mem_of_get? found
    exact Steady.of_pure (speaks.balances entry member)
  · exact Orderly.of_throw _

theorem accountOf_tidy : Tidy frame 0 given (accountOf recipient) := by
  unfold accountOf
  split
  · exact Orderly.of_pure trivial
  · exact (numberedName_orderly "some_address_").mono fun _ _ _ _ => trivial

theorem giveTo_assuming {amount : Word} (amountOnly : amount.Only (frame.Admits given)) :
    Assuming decider frame 0 given (giveTo recipient amount) fun _ _ => True := by
  unfold giveTo
  refine (accountOf_tidy recipient).assuming.bind fun now account more _ => ?_
  refine (unknownBalance_assuming decider).bind fun later before evenMore beforeOnly => ?_
  have amountStill : amount.Only (frame.Admits later) := amountOnly.mono fun _ => frame.grows (more.trans evenMore)
  refine (lift_steady (.of_ok fun _ => operate_only beforeOnly amountStill)).bindAssuming fun total totalOnly => ?_
  exact (Environment.putBalance_steady account totalOnly).tidy.assuming

theorem transfer_assuming {amount contractBalance : Word} (amountOnly : amount.Only (frame.Admits given))
    (balanceOnly : contractBalance.Only (frame.Admits given)) :
    Assuming decider frame 0 given (transfer decider recipient amount contractBalance) fun _ _ => True := by
  unfold transfer
  refine (lift_steady (.of_ok fun _ => operate_only balanceOnly amountOnly)).bindAssuming fun rest restOnly => ?_
  refine (Environment.putBalance_steady "Ia" restOnly).bindAssuming fun _ _ => ?_
  refine (lift_steady (.anything _)).bindAssuming fun other _ => ?_
  refine (possible_tidy decider other).assuming.bind fun now elsewhere more _ => ?_
  have amountStill : amount.Only (frame.Admits now) := amountOnly.mono fun _ => frame.grows more
  split
  · exact giveTo_assuming decider recipient amountStill
  · refine (balanceOf_steady "Is").bindAssuming fun before beforeOnly => ?_
    refine (lift_steady (.of_ok fun _ => operate_only beforeOnly amountStill)).bindAssuming fun total totalOnly => ?_
    exact (Environment.putBalance_steady "Is" totalOnly).tidy.assuming

theorem call_assuming (move : Bool) : Assuming decider frame 1 given (call decider move) fun _ _ => True := by
  unfold call
  refine (need_steady 7).bindAssuming fun _ _ => ?_
  refine noteCall_steady.bindAssuming fun _ _ => ?_
  refine Assuming.advance ?_
  refine discard_pop_steady.bindAssuming fun _ _ => ?_
  refine pop_steady.bindAssuming fun recipient _ => ?_
  refine pop_steady.bindAssuming fun amount amountOnly => ?_
  refine (drop_steady 4).bindAssuming fun _ _ => ?_
  split
  · exact (push_steady (integer_only 1)).tidy.assuming
  · refine (balanceOf_steady "Ia").bindAssuming fun contractBalance balanceOnly => ?_
    have compared := (Gives.of_ok fun _ => relate_only amountOnly balanceOnly).and (relate_tests .atMost _ _)
    refine (lift_steady compared).bindAssuming fun covered ⟨coveredOnly, tests⟩ => ?_
    refine (assumeIfPossible_assuming decider coveredOnly tests).bind ?_
    rintro _ answer _ rfl
    split
    · refine (push_steady (integer_only 1)).bindAssuming fun _ _ => ?_
      split
      · exact transfer_assuming decider recipient amountOnly balanceOnly
      · exact (Orderly.of_pure trivial).assuming
    · exact (push_steady (integer_only 0)).tidy.assuming

theorem selfDestruct_assuming : Assuming decider frame 1 given selfDestruct fun _ _ => True := by
  unfold selfDestruct
  refine Assuming.advance ?_
  refine pop_steady.bindAssuming fun recipient _ => ?_
  refine (balanceOf_steady "Ia").bindAssuming fun amount amountOnly => ?_
  refine (Environment.putBalance_steady "Ia" (integer_only 0)).bindAssuming fun _ _ => ?_
  exact giveTo_assuming decider recipient amountOnly

end Calls

namespace Machine

variable {γ : Type} {frame : Frame γ} {given : Nat} (decider : Decider)

theorem execute_assuming (block : Int) (function : String) {instruction : Instruction}
    (blind : ∀ part ∈ instruction.changed, Blind frame.shown part) :
    Assuming decider frame instruction.stride given (execute decider block function instruction) fun _ _ => True := by
  by_cases moves : instruction.MovesValue
  · rcases moves with rfl | rfl | rfl
    · exact Calls.call_assuming decider true
    · exact Calls.call_assuming decider false
    · exact Calls.selfDestruct_assuming decider
  · exact (execute_tidy decider block function moves blind).assuming

theorem perform_assuming (block : Int) (function : String) {instruction : Instruction}
    (blind : ∀ part ∈ .findings :: instruction.changed, Blind frame.shown part) :
    Assuming decider frame instruction.stride given (perform decider block function instruction) fun _ _ => True := by
  obtain ⟨found, changed⟩ := forall_mem_cons.mp blind
  have executes : Assuming decider frame instruction.stride given (execute decider block function instruction)
      fun _ _ => True :=
    execute_assuming decider block function changed
  cases instruction with
  | failing => exact (Orderly.of_pure trivial).assuming
  | _ =>
    exact (inspect_steady decider found _).bindAssuming fun _ _ =>
      showProgress_steady.bindAssuming fun _ _ => executes

end Machine

end MintAudit
