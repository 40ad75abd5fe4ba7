import MintAudit.Machine.Step
import MintAudit.Proofs.Table

namespace MintAudit

/-!
# What the machine does

Before an instruction is executed it is counted, the detectors look and progress is shown.
-/

/-! ## The parts of an execution -/

namespace Exec

variable (machine : Machine)

@[simp] theorem pure_apply (value : α) : (pure value : Exec α) machine = .ok value machine := rfl

@[simp] theorem throw_apply (fault : Fault) : (throw fault : Exec α) machine = .error fault machine := rfl

theorem bind_apply (computation : Exec α) (next : α → Exec β) :
    (computation >>= next) machine =
      match computation machine with
      | .ok value after => next value after
      | .error fault after => .error fault after := by
  change EStateM.bind computation next machine = _
  unfold EStateM.bind
  cases computation machine <;> rfl

variable {before after : Machine} {computation : Exec α} {next : α → Exec β} {count : Nat} {rest : List Word}
    {word : Word}

theorem bind_ok {value : α} (returns : computation before = .ok value after) :
    (computation >>= next) before = next value after := by
  rw [bind_apply, returns]

theorem bind_error {fault : Fault} (stops : computation before = .error fault after) :
    (computation >>= next) before = .error fault after := by
  rw [bind_apply, stops]

@[simp] theorem get_apply : (get : Exec Machine) machine = .ok machine machine := rfl

@[simp] theorem session_apply : session machine = .ok machine.session machine := rfl

@[simp] theorem path_apply : path machine = .ok machine.path machine := rfl

@[simp] theorem lift_ok (value : α) : lift (.ok value) machine = .ok value machine := rfl

@[simp] theorem lift_error (fault : Fault) : (lift (.error fault) : Exec α) machine = .error fault machine := rfl

@[simp] theorem modifySession_apply (change : Session → Session) :
    modifySession change machine = .ok () { machine with session := change machine.session } := rfl

@[simp] theorem modifyPath_apply (change : Path → Path) :
    modifyPath change machine = .ok () { machine with path := change machine.path } := rfl

theorem need_apply (count : Nat) :
    need count machine =
      if machine.path.stack.length < count then
        .error .stackUnderflow machine
      else
        .ok () machine := by
  simp only [need, bind_apply, path_apply]
  split <;> rfl

theorem need_ok (enough : count ≤ machine.path.stack.length) : need count machine = .ok () machine := by
  rw [need_apply, if_neg (by omega)]

theorem need_short (short : machine.path.stack.length < count) :
    need count machine = .error .stackUnderflow machine := by
  rw [need_apply, if_pos short]

theorem pop_nil (empty : machine.path.stack = []) : pop machine = .error .outOfRange machine := by
  simp only [pop, bind_apply, path_apply, empty, throw_apply]

theorem pop_cons (top : machine.path.stack = word :: rest) :
    pop machine = .ok word { machine with path := { machine.path with stack := rest } } := by
  simp only [pop, bind_apply, path_apply, top, modifyPath_apply, pure_apply]

theorem discard_pop_cons (top : machine.path.stack = word :: rest) :
    discard pop machine = .ok () { machine with path := { machine.path with stack := rest } } :=
  bind_ok (pop_cons machine top)

@[simp] theorem push_apply (word : Word) :
    push word machine = .ok () { machine with path := { machine.path with stack := word :: machine.path.stack } } := rfl

@[simp] theorem advance_apply (count : Int) :
    advance count machine = .ok () { machine with path := { machine.path with pc := machine.path.pc + count } } := rfl

theorem drop_zero : drop 0 = pure () := by
  unfold drop
  simp

theorem foldlM_range'_start (computation : Exec Unit) (count first second : Nat) :
    List.foldlM (fun _ _ => computation) () (List.range' first count) =
      List.foldlM (fun _ _ => computation) () (List.range' second count) := by
  induction count generalizing first second with
  | zero => rfl
  | succ count ih =>
    rw [List.range'_succ, List.range'_succ, List.foldlM_cons, List.foldlM_cons]
    congr 1
    funext _
    exact ih _ _

theorem drop_succ (count : Nat) : drop (count + 1) = (do discard pop; drop count) := by
  unfold drop
  simp only [Std.Legacy.Range.forIn_eq_forIn_range', Std.Legacy.Range.size, Nat.sub_zero,
    Nat.add_sub_cancel, Nat.div_one, bind_pure_comp, List.forIn_yield_eq_foldlM, id_map']
  rw [List.range'_succ, List.foldlM_cons]
  congr 1
  funext _
  exact foldlM_range'_start _ _ _ _

end Exec

def Machine.counted (block : Int) (function line : String) (machine : Machine) : Machine :=
  let entry : Step :=
    { block := block, pc := machine.path.pc, line := line, depth := machine.path.stack.length, function := function }
  { machine with
    session :=
      { machine.session with
        trace := entry :: machine.session.trace
        executed := machine.session.executed + 1
        visitedPcs :=
          if machine.session.visitedPcs.contains machine.path.pc then
            machine.session.visitedPcs
          else
            machine.path.pc :: machine.session.visitedPcs } }

theorem Machine.step_eq (decider : Decider) (block : Int) (function line : String) (machine : Machine) :
    step decider block function line machine =
      if machine.session.alarm = some machine.session.executed then
        .error .timeLimit machine
      else
        perform decider block function (Instruction.ofLine line) (machine.counted block function line) := by
  unfold step
  rw [Exec.bind_ok (Exec.get_apply machine)]
  dsimp only
  split
  · rfl
  · rfl

/-! ## What a path holds -/

structure Holdings where
  memory : Table Key Word
  touched : Word
  bytes : Array Word
  hashes : Table String Word
  storage : Table Key Word

def Path.holdings (path : Path) : Holdings where
  memory := path.memory
  touched := path.touched
  bytes := path.bytes
  hashes := path.hashes
  storage := path.storage

/-- The parts of what a path holds, and of what the detectors remember, that change together. -/
inductive Holdings.Part where
  | words
  | bytes
  | hashes
  | storage
  | loads
  | stored
  | findings
  | owner
  deriving DecidableEq, Repr

def Holdings.Blind (shown : Holdings → Watch → γ) : Part → Prop
  | .words => ∀ holdings memory touched, shown { holdings with memory, touched } = shown holdings
  | .bytes => ∀ holdings bytes, shown { holdings with bytes } = shown holdings
  | .hashes => ∀ holdings hashes, shown { holdings with hashes } = shown holdings
  | .storage => ∀ holdings storage, shown { holdings with storage } = shown holdings
  | .loads => ∀ holdings watch word, shown holdings (Environment.countLoad word watch) = shown holdings watch
  | .stored => ∀ holdings watch, shown holdings { watch with stored := true } = shown holdings watch
  | .findings => ∀ holdings watch findings, shown holdings { watch with findings } = shown holdings watch
  | .owner => ∀ holdings watch owner comparesOwner pausable,
      shown holdings { watch with owner, comparesOwner, pausable } = shown holdings watch

def Opcode.changed : Opcode → List Holdings.Part
  | .mload => [.words]
  | .mstore => [.words, .bytes]
  | .mstore8 => [.words]
  | .codecopy => [.words]
  | .extcodecopy => [.words]
  | .hash => [.hashes]
  | .sload => [.storage]
  | .sstore => [.storage, .stored]
  | .calldataload => [.loads]
  | _ => []

def Instruction.changed : Instruction → List Holdings.Part
  | .plain opcode => opcode.changed
  | _ => []

/-! ## The supply of names -/

namespace Names

/-- A supply comes later if no fewer names of each kind were taken from it. -/
instance : Preorder Names where
  le earlier later := earlier.stack ≤ later.stack ∧ earlier.data ≤ later.data ∧ earlier.other ≤ later.other
  le_refl _ := ⟨le_rfl, le_rfl, le_rfl⟩
  le_trans _ _ _ first second := ⟨first.1.trans second.1, first.2.1.trans second.2.1, first.2.2.trans second.2.2⟩

def Proceeds (take : Names → String × Names) : Prop :=
  ∀ names, names ≤ (take names).2

theorem numbered_proceeds (start : String) : Proceeds (numbered start) :=
  fun _ => ⟨le_rfl, le_rfl, Nat.le_succ _⟩

theorem dataWord_proceeds : Proceeds dataWord :=
  fun _ => ⟨le_rfl, Nat.le_succ _, le_rfl⟩

theorem append_toString_inj {start : String} {first second : Nat} :
    start ++ toString first = start ++ toString second ↔ first = second := by
  rw [String.append_right_inj]
  exact Nat.repr_inj

end Names

/-! ## How far an instruction moves -/

namespace Instruction

def size : Instruction → Int
  | .push (some width) _ => 1 + width
  | _ => 1

def stride : Instruction → Int
  | .failing => 0
  | .plain .jump => 0
  | .plain .jumpi => 0
  | .plain .returnData => 0
  | instruction => instruction.size

def stayingNames : List String := ["INVALID", "ASSERTFAIL", "RETURN", "JUMP", "JUMPI"]

theorem name_of_staying :
    ∀ entry ∈ Opcode.names, entry.2 = .jump ∨ entry.2 = .jumpi ∨ entry.2 = .returnData → entry.1 ∈ stayingNames := by
  decide

theorem stride_of_name {line : String} (other : nameOf line ∉ stayingNames) :
    (ofLine line).stride = (ofLine line).size := by
  unfold ofLine
  dsimp only
  split
  · next fails =>
    refine (other ?_).elim
    rcases Bool.or_eq_true_iff.mp fails with invalid | asserts
    · simp [stayingNames, of_decide_eq_true invalid]
    · simp [stayingNames, of_decide_eq_true asserts]
  · split
    · next opcode found =>
      obtain ⟨before, after, names, _⟩ := List.lookup_eq_some_iff.mp found
      have member : (nameOf line, opcode) ∈ Opcode.names := by simp [names]
      have moves : ¬ (opcode = .jump ∨ opcode = .jumpi ∨ opcode = .returnData) :=
        fun stays => other (name_of_staying _ member stays)
      simp_all [stride]
    · split
      · cases numberAfter "PUSH" (nameOf line) <;> rfl
      · split
        · rfl
        · split
          · rfl
          · split <;> rfl

end Instruction

/-! ## Scopes above scopes -/

namespace Scopes

def assumeAll (conditions : List Term) (scopes : Scopes) : Scopes :=
  match scopes.inner with
  | [] => { scopes with base := scopes.base ++ conditions }
  | scope :: outer => { scopes with inner := (scope ++ conditions) :: outer }

def opening (own : List (List Term)) (outer : Scopes) : Scopes :=
  { outer with inner := own ++ outer.inner }

/-- The scopes came of others by asserting conditions and then opening scopes. -/
def Above (scopes outer : Scopes) : Prop :=
  ∃ asserted own, scopes = (outer.assumeAll asserted).opening own

def Extends (scopes outer : Scopes) : Prop :=
  ∃ asserted, scopes = outer.assumeAll asserted

@[simp] theorem assumeAll_nil (scopes : Scopes) : scopes.assumeAll [] = scopes := by
  obtain ⟨base, inner⟩ := scopes
  cases inner <;> simp [assumeAll]

@[simp] theorem assumeAll_singleton (condition : Term) (scopes : Scopes) :
    scopes.assumeAll [condition] = scopes.assume condition := by
  obtain ⟨base, inner⟩ := scopes
  cases inner <;> rfl

@[simp] theorem assumeAll_assumeAll (first second : List Term) (scopes : Scopes) :
    (scopes.assumeAll first).assumeAll second = scopes.assumeAll (first ++ second) := by
  obtain ⟨base, inner⟩ := scopes
  cases inner <;> simp [assumeAll]

@[simp] theorem opening_nil (scopes : Scopes) : scopes.opening [] = scopes := rfl

variable (outer : Scopes)

theorem opening_opening (first second : List (List Term)) :
    (outer.opening second).opening first = outer.opening (first ++ second) := by
  simp [opening]

theorem assumeAll_opening_cons (scope : List Term) (own : List (List Term)) (conditions : List Term) :
    (outer.opening (scope :: own)).assumeAll conditions = outer.opening ((scope ++ conditions) :: own) :=
  rfl

theorem leave_opening_cons (scope : List Term) (own : List (List Term)) :
    (outer.opening (scope :: own)).leave = .ok (outer.opening own) :=
  rfl

theorem above_opening (own : List (List Term)) : (outer.opening own).Above outer :=
  ⟨[], own, by rw [assumeAll_nil]⟩

namespace Extends

theorem refl (scopes : Scopes) : scopes.Extends scopes :=
  ⟨[], by rw [assumeAll_nil]⟩

theorem of_assume (outer : Scopes) (condition : Term) : (outer.assume condition).Extends outer :=
  ⟨[condition], by rw [assumeAll_singleton]⟩

theorem trans {last between first : Scopes} (later : last.Extends between) (earlier : between.Extends first) :
    last.Extends first := by
  obtain ⟨more, rfl⟩ := later
  obtain ⟨asserted, rfl⟩ := earlier
  exact ⟨asserted ++ more, by rw [assumeAll_assumeAll]⟩

theorem above {scopes outer : Scopes} (asserts : scopes.Extends outer) : scopes.Above outer := by
  obtain ⟨asserted, rfl⟩ := asserts
  exact ⟨asserted, [], rfl⟩

theorem leave_side {scopes outer : Scopes} {condition : Term}
    (asserts : scopes.Extends (outer.enter.assume condition)) :
    scopes.leave = .ok outer := by
  obtain ⟨asserted, rfl⟩ := asserts
  rfl

end Extends

namespace Above

theorem refl (scopes : Scopes) : scopes.Above scopes :=
  above_opening scopes []

theorem trans {inside between outer : Scopes} (higher : inside.Above between) (lower : between.Above outer) :
    inside.Above outer := by
  obtain ⟨later, own, rfl⟩ := higher
  obtain ⟨asserted, opened, rfl⟩ := lower
  -- What was asserted later is in the innermost scope that was opened before, if there is one.
  cases opened with
  | nil => exact ⟨asserted ++ later, own, by rw [opening_nil, assumeAll_assumeAll]⟩
  | cons scope rest =>
    exact ⟨asserted, own ++ (scope ++ later) :: rest, by
      rw [assumeAll_opening_cons, opening_opening]⟩

theorem leave_side {scopes outer : Scopes} {condition : Term} (above : scopes.Above (outer.enter.assume condition)) :
    ∃ left, scopes.leave = .ok left ∧ left.Above outer ∧ (left = outer ∨ condition ∈ left.assertions) := by
  obtain ⟨asserted, own, rfl⟩ := above
  have side : (outer.enter.assume condition).assumeAll asserted = outer.opening [condition :: asserted] := rfl
  rw [side, opening_opening]
  cases own with
  | nil => exact ⟨outer, rfl, refl outer, .inl rfl⟩
  | cons scope rest =>
    refine ⟨_, rfl, above_opening outer _, .inr ?_⟩
    simp [assertions, opening]

end Above

end Scopes

/-! ## Whole numbers as doubles -/

namespace Binary64

theorem one_le_roundDivide {numerator denominator : Nat} (atLeast : denominator ≤ numerator)
    (positive : 0 < denominator) :
    1 ≤ roundDivide numerator denominator := by
  have := Nat.div_pos atLeast positive
  unfold roundDivide
  dsimp only
  split
  · omega
  · split <;> omega

theorem one_le_scaled {number : Nat} (positive : number ≠ 0) : 1 ≤ scaled number 1 (exponentFor number 1) := by
  have exponentBound : exponentFor number 1 ≤ number.log2 := by
    unfold exponentFor leastExponent
    dsimp only
    split <;> omega
  unfold scaled
  apply one_le_roundDivide
  · rw [Nat.one_mul]
    rcases Int.le_total 0 (exponentFor number 1) with nonnegative | negative
    · have powerBound : 2 ^ (exponentFor number 1).toNat ≤ 2 ^ number.log2 :=
        Nat.pow_le_pow_right (by decide) (by omega)
      calc
        2 ^ (exponentFor number 1).toNat ≤ 2 ^ number.log2 := powerBound
        _ ≤ number := Nat.log2_self_le positive
        _ ≤ number * 2 ^ (-exponentFor number 1).toNat := Nat.le_mul_of_pos_right _ (Nat.two_pow_pos _)
    · have : (exponentFor number 1).toNat = 0 := by omega
      rw [this, pow_zero]
      exact Nat.mul_pos (Nat.pos_of_ne_zero positive) (Nat.two_pow_pos _)
  · rw [Nat.one_mul]
    exact Nat.two_pow_pos _

theorem ofInt_natCast_cases (number : Nat) :
    (∃ negative significand exponent,
      ofInt number = .finite negative significand exponent ∧ (number ≠ 0 → significand ≠ 0)) ∨
      ∃ negative, ofInt number = .infinite negative := by
  unfold ofInt nearest
  simp only [Int.natAbs_natCast]
  split
  · next zero =>
    exact .inl ⟨_, _, _, rfl, fun positive => (positive zero).elim⟩
  · next positive =>
    have significand := one_le_scaled positive
    split
    · split
      · exact .inr ⟨_, rfl⟩
      · exact .inl ⟨_, _, _, rfl, fun _ => (Nat.two_pow_pos 52).ne'⟩
    · split
      · exact .inr ⟨_, rfl⟩
      · exact .inl ⟨_, _, _, rfl, fun _ => Nat.one_le_iff_ne_zero.mp significand⟩

theorem div?_ofInt (dividend : Nat) {divisor : Nat} (positive : divisor ≠ 0) :
    ∃ share, (ofInt dividend).div? (ofInt divisor) = some share := by
  rcases ofInt_natCast_cases dividend with ⟨_, _, _, left, _⟩ | ⟨_, left⟩ <;>
    rcases ofInt_natCast_cases divisor with ⟨_, _, _, right, notZero⟩ | ⟨_, right⟩ <;>
    rw [left, right]
  · simp [div?, notZero positive]
  · simp [div?]
  · simp [div?, notZero positive]
  · simp [div?]

end Binary64

namespace Machine

open Exec

/-- No alarm is due, the clock runs and there is code of which progress can be shown. -/
structure Underway (session : Session) : Prop where
  noAlarm : session.alarm ≠ some session.executed
  clock : session.clockStarted = true
  blocks : session.graph.blocks ≠ []
  instructions : session.graph.instructions ≠ []

variable {decider : Decider} {block : Int} {function line : String}

theorem coverage_ok {count : Nat} (executed : Nat) (positive : count ≠ 0) :
    ∃ percent, coverage executed count = .ok percent := by
  obtain ⟨share, divided⟩ := Binary64.div?_ofInt executed positive
  refine ⟨share.mul (Binary64.ofInt 100), ?_⟩
  unfold coverage
  rw [if_neg positive, divided]
  rfl

theorem showProgress_underway {machine : Machine} (clock : machine.session.clockStarted = true)
    (blocks : machine.session.graph.blocks ≠ []) (instructions : machine.session.graph.instructions ≠ []) :
    showProgress machine = .ok () machine := by
  have someBlocks : machine.session.graph.blocks.isEmpty = false := by simpa using blocks
  have someInstructions : machine.session.graph.instructions.length ≠ 0 := by simpa using instructions
  obtain ⟨percent, covered⟩ := coverage_ok machine.session.visitedPcs.length someInstructions
  unfold showProgress
  simp only [bind_apply, session_apply, someBlocks, Bool.false_eq_true, ↓reduceIte, covered, lift_ok, clock,
    Bool.not_true, Bool.and_false, pure_apply]

theorem inspect_ok {instruction : Instruction} (silent : ∀ topics, instruction ≠ .log topics) (machine : Machine) :
    inspect decider instruction machine = .ok () machine := by
  unfold inspect
  simp only [bind_apply, get_apply, TransferEvent.inspect, TransferEvent.isEvent,
    Bool.false_eq_true, ↓reduceIte, modifySession_apply, pure_apply]

theorem step_of_underway {machine : Machine} (underway : Underway machine.session)
    (silent : ∀ topics, Instruction.ofLine line ≠ .log topics) :
    step decider block function line machine =
      execute decider block function (Instruction.ofLine line) (machine.counted block function line) := by
  rw [step_eq, if_neg underway.noAlarm]
  generalize Instruction.ofLine line = instruction at *
  have shown : showProgress (machine.counted block function line) = .ok () (machine.counted block function line) :=
    showProgress_underway underway.clock underway.blocks underway.instructions
  cases instruction with
  | failing => rfl
  | _ => exact (bind_ok (inspect_ok silent _)).trans (bind_ok shown)

theorem step_of_plain {machine : Machine} (underway : Underway machine.session) {opcode : Opcode}
    (instruction : Instruction.ofLine line = .plain opcode) :
    step decider block function line machine =
      executePlain decider block function opcode (machine.counted block function line) := by
  have silent : ∀ topics, Instruction.ofLine line ≠ .log topics := by
    intro topics isLog
    rw [instruction] at isLog
    cases isLog
  rw [step_of_underway underway silent, instruction]
  rfl

def surroundings (machine : Machine) : Path × Names × Option SourceMap :=
  (machine.path, machine.session.names, machine.session.source)

theorem path_eq {first second : Machine} (same : first.surroundings = second.surroundings) : first.path = second.path :=
  congrArg Prod.fst same

theorem inspect_preserves (instruction : Instruction) :
    Effect.Preserves surroundings (inspect decider instruction) := by
  refine ⟨fun before => ?_⟩
  unfold inspect
  rw [bind_ok (get_apply before)]
  dsimp only
  rw [bind_ok (modifySession_apply _ _)]
  cases (TransferEvent.inspect decider _ before.session.watch.findings).fault with
  | none => rfl
  | some fault => rfl

theorem showProgress_preserves : Effect.Preserves surroundings showProgress := by
  unfold showProgress
  refine .bind ⟨fun _ => rfl⟩ fun session => .ite (.throw_bind _ _) ?_
  refine .bind ⟨fun _ => ?_⟩ fun percent => .ite (.throw _) (.pure _)
  cases coverage session.visitedPcs.length session.graph.instructions.length with
  | ok percent => rfl
  | error fault => rfl

variable {before after : Machine}

theorem executed_of_step (runs : step decider block function line before = .ok () after) :
    ∃ between, between.surroundings = before.surroundings ∧
      execute decider block function (Instruction.ofLine line) between = .ok () after := by
  rw [step_eq] at runs
  split at runs
  · cases runs
  · generalize Instruction.ofLine line = instruction at *
    cases instruction with
    | failing => exact ⟨before.counted block function line, rfl, runs⟩
    | _ =>
      obtain ⟨_, looked, inspected, onward⟩ := Effect.of_bind_ok runs
      obtain ⟨_, shown, progressed, executed⟩ := Effect.of_bind_ok onward
      have unseen := (inspect_preserves _).of_ok inspected
      exact ⟨shown, (showProgress_preserves.of_ok progressed).trans unseen, executed⟩

theorem execute_of_step (runs : step decider block function line before = .ok () after) :
    ∃ between, between.path = before.path ∧
      execute decider block function (Instruction.ofLine line) between = .ok () after := by
  obtain ⟨between, same, executes⟩ := executed_of_step runs
  exact ⟨between, congrArg Prod.fst same, executes⟩

end Machine

end MintAudit
