import MintAudit.Proofs.Machine.Effects

namespace MintAudit

/-!
# Orderly computations as triples

On the way from a machine, every computation says from which machines it goes on in order and what it does to the
height of the scopes. An instruction is then checked step by step.
-/

open Std.Do

set_option mvcgen.warning false

/-- What a computation is part of: the machine that all began with, and the scopes that are open around it. -/
class Journey where
  {γ : Type}
  frame : Frame γ
  start : Machine
  outer : Scopes

namespace Exec

open Journey

/-- How many scopes are open. -/
def height (machine : Machine) : Nat :=
  machine.session.scopes.inner.length

/-- How many words there are on the stack. -/
abbrev depth (machine : Machine) : Nat :=
  machine.path.stack.length

/-- The computation leaves the height of the stack alone. -/
abbrev Still (act : Exec α) : Prop :=
  Effect.Preserves depth act

abbrev Shape : PostShape := .except Fault (.arg Machine .pure)

section Notions

variable [Journey]

/-- The machine was reached in an orderly way. -/
structure Within (machine : Machine) : Prop where
  abides : start.Abides frame machine
  conditions : machine.path.conditions = start.path.conditions
  scopes : ∃ own, machine.session.scopes = outer.opening own

/-- So was one that a fault has stopped. -/
structure Fallen (machine : Machine) : Prop where
  abides : start.Abides frame machine
  above : machine.session.scopes.Above outer

abbrev Knows (machine : Machine) (word : Word) : Prop :=
  word.Only (frame.Admits machine.session.names.other)

/-- The computation takes words from the stack and puts words there. If what it needs is there, it goes on in order: it
opens scopes for those that it closes and moves the program counter by a distance. -/
abbrev Goes (closed opened taken put : Nat) (distance : Int) (before : Machine) (needs : Prop) (act : Exec α)
    (gives : α → Machine → Prop) : Prop :=
  ⦃fun machine => ⌜machine = before⌝⦄ act
  ⦃post⟨fun value after => ⌜(taken ≤ depth before ∧ depth after + taken = depth before + put) ∧
      (Within before → outer.inner.length + closed ≤ height before → needs →
        Within after ∧ height after + closed = height before + opened ∧ after.path.pc = before.path.pc + distance ∧
          before.session.names.other ≤ after.session.names.other ∧ gives value after)⌝,
    fun _ after => ⌜Within before → outer.inner.length + closed ≤ height before → needs → Fallen after⌝⟩⦄

abbrev Obtains (before : Machine) (needs : Prop) (act : Exec α) (gives : α → Machine → Prop) : Prop :=
  Goes 0 0 0 0 0 before needs act gives

abbrev Runs (before : Machine) (act : Exec Unit) : Prop :=
  Obtains before True act fun _ _ => True

/-- The computation puts a word somewhere. -/
abbrev Puts (before : Machine) (word : Word) (act : Exec Unit) : Prop :=
  Obtains before (Knows before word) act fun _ _ => True

/-- What is left of this for an instruction. -/
abbrev Strides (taken put : Nat) (distance : Int) (before : Machine) (act : Exec α) : Prop :=
  ⦃fun machine => ⌜machine = before⌝⦄ act
  ⦃post⟨fun _ after => ⌜(taken ≤ depth before ∧ depth after + taken = depth before + put) ∧
      (Within before → outer.inner.length ≤ height before →
        Within after ∧ height after = height before ∧ after.path.pc = before.path.pc + distance)⌝,
    fun _ after => ⌜Within before → outer.inner.length ≤ height before → Fallen after⌝⟩⦄

/-- The names that are taken were not given out before, and symbols may have them. -/
def Fresh (take : Names → String × Names) : Prop :=
  Names.Proceeds take ∧ ∀ names, frame.Admits (take names).2.other (take names).1

end Notions

/-- The computation leaves everything as it was. -/
abbrev Looks (before : Machine) (act : Exec α) (gives : α → Prop) : Prop :=
  ⦃fun machine => ⌜machine = before⌝⦄ act
  ⦃post⟨fun value after => ⌜after = before ∧ gives value⌝, fun _ after => ⌜after = before⌝⟩⦄

theorem of_triple {act : Exec α} {pre : Assertion Shape} {post : PostCond α Shape} (triple : ⦃pre⦄ act ⦃post⦄)
    {before after : Machine} {value : α} (holds : (pre before).down) (run : act before = .ok value after) :
    (post.1 value after).down := by
  have result := triple before holds
  simp only [wp, PredTrans.apply, EStateM.run] at result
  rw [run] at result
  exact result

theorem height_opening {machine : Machine} {scopes : Scopes} {own : List (List Term)}
    (opened : machine.session.scopes = scopes.opening own) :
    height machine = own.length + scopes.inner.length := by
  rw [height, opened, ← List.length_append]
  rfl

theorem tidy_of_strides {γ : Type} {frame : Frame γ} {taken put : Nat} {distance : Int} {act : Exec α}
    (strides : ∀ start outer, @Strides ⟨frame, start, outer⟩ α taken put distance start act) (given : Nat) :
    Tidy frame distance given act := by
  rintro before outer rfl speaks ⟨own, none, scopes⟩
  obtain rfl := List.length_eq_zero_iff.mp none
  let _ : Journey := ⟨frame, before, outer⟩
  have within : Within before := ⟨.refl speaks, rfl, [], scopes⟩
  have level : height before = outer.inner.length := congrArg (·.inner.length) scopes
  have result := strides before outer before rfl
  simp only [wp, PredTrans.apply, EStateM.run] at result
  cases run : act before with
  | ok value after =>
    rw [run] at result
    obtain ⟨⟨abides, conditions, own, opened⟩, same, pc⟩ := result.2 within level.ge
    have heights : height after = own.length + outer.inner.length := height_opening opened
    obtain rfl : own = [] := List.length_eq_zero_iff.mp (by omega)
    exact ⟨abides, opened, conditions, pc, trivial⟩
  | error fault after =>
    rw [run] at result
    obtain ⟨abides, above⟩ := result within level.ge
    exact ⟨abides, above⟩

theorem lift_still (result : Except Fault α) : Still (lift result) := by
  cases result with
  | ok value => exact .pure value
  | error fault => exact .throw fault

@[spec] theorem lift_looks {before : Machine} (result : Except Fault α) :
    Looks before (lift result) fun value => result = .ok value := by
  cases result <;> mvcgen [lift]

@[spec] theorem discard_lift_looks {before : Machine} (result : Except Fault α) :
    Looks before (discard (lift result)) fun _ => True := by
  change Looks before (lift result >>= fun _ => pure ()) _
  mvcgen with grind

@[spec] theorem path_looks {before : Machine} : Looks before path fun path => path = before.path := by
  mvcgen [path] with grind

@[spec] theorem session_looks {before : Machine} : Looks before session fun session => session = before.session := by
  mvcgen [session] with grind

@[spec] theorem need_looks {before : Machine} (count : Nat) : Looks before (need count) fun _ => True := by
  mvcgen [need] with grind

variable [Journey] {machine before after : Machine} {word : Word}

@[grind →] theorem Within.fallen (within : Within machine) : Fallen machine := by
  obtain ⟨own, scopes⟩ := within.scopes
  exact ⟨within.abides, scopes ▸ Scopes.above_opening outer own⟩

theorem Within.speaks (within : Within machine) : machine.Speaks frame.toVocabulary :=
  within.abides.speaks

@[grind ⇒] theorem Knows.mono (knows : Knows before word)
    (more : before.session.names.other ≤ after.session.names.other) : Knows after word :=
  Word.Only.mono (fun _ => frame.grows more) knows

theorem Orderly.goes {taken put : Nat} {distance : Int} {act : Exec α} {needs : Prop} {gives : Nat → α → Prop}
    (stack : ∀ {value after}, act before = .ok value after →
      taken ≤ depth before ∧ depth after + taken = depth before + put)
    (orderly : needs → Orderly frame 0 distance before.session.names.other act gives) :
    Goes 0 0 taken put distance before needs act fun value after => gives after.session.names.other value := by
  rintro machine rfl
  simp only [wp, PredTrans.apply, EStateM.run]
  have ends (within : Within machine) (needed : needs) :=
    orderly needed machine machine.session.scopes rfl within.speaks ⟨[], rfl, rfl⟩
  cases run : act machine with
  | ok value after =>
    rw [run] at ends
    refine ⟨stack run, fun within _ needed => ?_⟩
    obtain ⟨abides, scopes, conditions, pc, holds⟩ := ends within needed
    exact ⟨⟨within.abides.trans abides, conditions.trans within.conditions, scopes ▸ within.scopes⟩,
      congrArg (·.inner.length) scopes, pc, abides.given, holds⟩
  | error fault after =>
    rw [run] at ends
    intro within _ needed
    obtain ⟨abides, above⟩ := ends within needed
    exact ⟨within.abides.trans abides, above.trans within.fallen.above⟩

theorem Orderly.obtains {act : Exec α} {needs : Prop} {gives : Nat → α → Prop} (still : Still act)
    (orderly : needs → Orderly frame 0 0 before.session.names.other act gives) :
    Obtains before needs act fun value after => gives after.session.names.other value :=
  Orderly.goes (fun run => ⟨Nat.zero_le _, still.of_ok run⟩) orderly

theorem Steady.puts {act : Exec Unit} (still : Still act)
    (steady : ∀ {given}, word.Only (frame.Admits given) → Steady frame given act fun _ => True) :
    Puts before word act :=
  Orderly.obtains still fun knows => (steady knows).tidy

theorem Steady.runs {act : Exec Unit} (still : Still act)
    (steady : ∀ {given}, Steady frame given act fun _ => True) :
    Runs before act :=
  Orderly.obtains still fun _ => steady.tidy

theorem goes_of_rescoped {act : Exec Unit} {closed opened : Nat} (still : Still act)
    (rescopes : ∀ own : List (List Term), closed ≤ own.length → before.session.scopes = outer.opening own →
      ∃ changed : List (List Term), changed.length + closed = own.length + opened ∧
        act before = .ok () (before.rescoped (outer.opening changed))) :
    Goes closed opened 0 0 0 before True act fun _ _ => True := by
  rintro machine rfl
  have rescoped (within : Within machine) (level : outer.inner.length + closed ≤ height machine) :
      ∃ changed : List (List Term), changed.length + outer.inner.length + closed = height machine + opened ∧
        act machine = .ok () (machine.rescoped (outer.opening changed)) := by
    obtain ⟨own, scopes⟩ := within.scopes
    have deep := height_opening scopes
    obtain ⟨changed, count, run⟩ := rescopes own (by omega) scopes
    exact ⟨changed, by omega, run⟩
  simp only [wp, PredTrans.apply, EStateM.run]
  cases run : act machine with
  | ok value after =>
    refine ⟨⟨Nat.zero_le _, still.of_ok run⟩, fun within level _ => ?_⟩
    obtain ⟨changed, count, rescopes⟩ := rescoped within level
    cases run.symm.trans rescopes
    have abides := within.abides
    exact ⟨⟨⟨abides.standing, abides.visitedPcs, abides.gas, abides.names, abides.shows, abides.speaks.path,
      abides.speaks.session.branches, abides.speaks.session.parameters⟩, within.conditions, changed, rfl⟩,
      (congrArg (· + closed) (height_opening rfl)).trans count, (Int.add_zero _).symm, le_rfl, trivial⟩
  | error fault after =>
    intro within level _
    obtain ⟨changed, count, rescopes⟩ := rescoped within level
    cases run.symm.trans rescopes

@[spec] theorem enterScope_goes : Goes 0 1 0 0 0 before True enterScope fun _ _ => True := by
  refine goes_of_rescoped ⟨fun _ => rfl⟩ fun own _ scopes => ⟨[] :: own, by simp, ?_⟩
  have entered : before.session.scopes.enter = outer.opening ([] :: own) := by
    rw [scopes]
    rfl
  rw [← entered]
  rfl

@[spec] theorem leaveScope_goes : Goes 1 0 0 0 0 before True leaveScope fun _ _ => True := by
  have still : Still leaveScope := .bind ⟨fun _ => rfl⟩ fun _ => (lift_still _).bind fun _ => ⟨fun _ => rfl⟩
  refine goes_of_rescoped still fun own some scopes => ?_
  cases own with
  | nil => cases some
  | cons scope rest =>
    refine ⟨rest, by simp, ?_⟩
    simp only [leaveScope, bind_apply, session_apply, scopes, Scopes.leave_opening_cons, lift_ok, modifySession_apply]
    rfl

@[spec] theorem assume_goes (condition : Term) : Goes 1 1 0 0 0 before True (assume condition) fun _ _ => True := by
  refine goes_of_rescoped ⟨fun _ => rfl⟩ fun own some scopes => ?_
  cases own with
  | nil => cases some
  | cons scope rest =>
    refine ⟨(scope ++ [condition]) :: rest, by simp, ?_⟩
    have assumed : before.session.scopes.assume condition = outer.opening ((scope ++ [condition]) :: rest) := by
      rw [scopes]
      rfl
    rw [← assumed]
    rfl

@[spec] theorem assumeFlag_goes (flag : Flag) : Goes 1 1 0 0 0 before True (assumeFlag flag) fun _ _ => True := by
  mvcgen [assumeFlag] with grind

@[spec] theorem assumeNot_goes (flag : Flag) : Goes 1 1 0 0 0 before True (assumeNot flag) fun _ _ => True := by
  mvcgen [assumeNot] with grind

@[spec] theorem feasible_goes (decider : Decider) : Goes 1 1 0 0 0 before True (feasible decider) fun _ _ => True := by
  mvcgen [feasible] with grind

@[spec] theorem pop_goes : Goes 0 0 1 0 0 before True pop fun word after => Knows after word := by
  refine Orderly.goes (fun run => ?_) fun _ => pop_steady.giving
  rw [pop, bind_ok (path_apply before)] at run
  cases stack : before.path.stack with
  | nil =>
    rw [stack] at run
    cases run
  | cons word rest =>
    rw [stack] at run
    cases run
    simp [depth, stack]

@[spec] theorem push_goes (word : Word) : Goes 0 0 0 1 0 before (Knows before word) (push word) fun _ _ => True := by
  refine Orderly.goes (fun run => ?_) fun knows => (push_steady knows).tidy
  cases run
  exact ⟨Nat.zero_le _, rfl⟩

@[spec] theorem advance_goes (count : Int) : Goes 0 0 0 0 count before True (advance count) fun _ _ => True := by
  refine Orderly.goes (fun run => ?_) fun _ => advance_tidy count
  cases run
  exact ⟨Nat.zero_le _, rfl⟩

@[spec] theorem discard_pop_goes : Goes 0 0 1 0 0 before True (discard pop) fun _ _ => True := by
  change Goes 0 0 1 0 0 before True (pop >>= fun _ => pure ()) _
  mvcgen with grind

@[spec] theorem drop_goes (count : Nat) : Goes 0 0 count 0 0 before True (drop count) fun _ _ => True := by
  induction count generalizing before with
  | zero =>
    rw [drop_zero]
    mvcgen
    grind
  | succ count ih =>
    have rest (machine : Machine) : Goes 0 0 count 0 0 machine True (drop count) fun _ _ => True := ih
    rw [drop_succ]
    mvcgen [rest] with grind

@[spec] theorem symbolNamed_obtains (name : String) :
    Obtains before (frame.Admits before.session.names.other name) (symbolNamed name) fun word after =>
      Knows after word :=
  Orderly.obtains ⟨fun _ => rfl⟩ fun admitted => (symbolNamed_steady admitted).giving

@[spec] theorem freshName_obtains (take : Names → String × Names) :
    Obtains before (Fresh take) (freshName take) fun name after => frame.Admits after.session.names.other name :=
  Orderly.obtains ⟨fun _ => rfl⟩ fun fresh => (freshName_orderly fresh.1).mono fun _ _ _ ⟨names, _, now, name⟩ =>
    now ▸ name ▸ fresh.2 names

theorem numbered_fresh {start : String} (listed : start ∈ Names.starts) : Fresh (Names.numbered start) :=
  ⟨Names.numbered_proceeds start, fun _ => frame.generated start listed _⟩

@[grind ←] theorem anything_fresh : Fresh Names.anything :=
  numbered_fresh (by decide)

@[grind ←] theorem gasLeft_fresh : Fresh Names.gasLeft :=
  numbered_fresh (by decide)

@[grind ←] theorem accountBalance_fresh : Fresh Names.accountBalance :=
  numbered_fresh (by decide)

@[spec] theorem freshSymbol_obtains :
    Obtains before True (freshSymbol Names.anything) fun word after => Knows after word := by
  mvcgen [freshSymbol] with grind [Word.symbol]

end Exec

end MintAudit
