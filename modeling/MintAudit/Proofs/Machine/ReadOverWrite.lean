import MintAudit.Proofs.Machine.InStep
import MintAudit.Proofs.Machine.WordFragment

namespace MintAudit

/-!
# Loading a word that was stored

A store keeps a word under its address, and a load looks there only as long as the number of touched words is a
concrete one.
-/

/-! ## Runs on a path -/

open Exec Holdings

/-- An instruction that was done, with the machine before it and after it. -/
structure Deed where
  instruction : Instruction
  before : Machine
  after : Machine

def Deed.Done (decider : Decider) (deed : Deed) : Prop :=
  ∃ between block function, between.surroundings = deed.before.surroundings ∧
    Machine.execute decider block function deed.instruction between = .ok () deed.after

/-- The deeds of a path since its start, the latest first. Between two of them everything may change but what the path
holds; numbered names are not taken back. -/
inductive Run (decider : Decider) (start : Machine) : List Deed → Machine → Prop where
  | start : Run decider start [] start
  | elsewhere
      {deeds : List Deed}
      {before after : Machine}
      (run : Run decider start deeds before)
      (held : after.path.holdings = before.path.holdings)
      (later : before.session.names ≤ after.session.names) :
      Run decider start deeds after
  | step
      {deeds : List Deed}
      {before after : Machine}
      {block : Int}
      {function line : String}
      (run : Run decider start deeds before)
      (does : Machine.step decider block function line before = .ok () after) :
      Run decider start (⟨Instruction.ofLine line, before, after⟩ :: deeds) after

namespace Deed

variable {decider : Decider} {deed : Deed}

theorem done_of_step {before after : Machine} {block : Int} {function line : String}
    (does : Machine.step decider block function line before = .ok () after) :
    Done decider ⟨Instruction.ofLine line, before, after⟩ := by
  obtain ⟨between, same, executes⟩ := Machine.executed_of_step does
  exact ⟨between, block, function, same, executes⟩

theorem Done.keeps {γ : Type} {shown : Holdings → γ} (done : deed.Done decider)
    (blind : ∀ part ∈ deed.instruction.changed, Blind (fun holdings _ => shown holdings) part) :
    shown deed.after.path.holdings = shown deed.before.path.holdings ∧
      deed.before.session.names ≤ deed.after.session.names := by
  obtain ⟨between, block, function, surroundings, executes⟩ := done
  have unmoved := Machine.path_eq surroundings
  have supply : between.session.names = deed.before.session.names := congrArg (·.2.1) surroundings
  let frame : Frame γ := .unrestricted fun holdings _ => shown holdings
  have assuming : Assuming decider frame _ between.session.names.other
      (Machine.execute decider block function deed.instruction) fun _ _ => True :=
    Machine.execute_assuming decider block function blind
  have result := assuming between rfl between.speaks_unrestricted
  rw [executes] at result
  rw [← unmoved, ← supply]
  exact ⟨result.1.shows, result.1.names⟩

theorem Done.same {γ : Type} {shown : Holdings → γ} (done : deed.Done decider)
    (blind : ∀ part ∈ deed.instruction.changed, Blind (fun holdings _ => shown holdings) part) :
    shown deed.after.path.holdings = shown deed.before.path.holdings :=
  (done.keeps blind).1

theorem Done.names (done : deed.Done decider) : deed.before.session.names ≤ deed.after.session.names :=
  (done.keeps fun part _ => Vocabulary.unrestricted.blind part).2

end Deed

namespace Run

variable {decider : Decider} {start last : Machine} {deed : Deed} {deeds : List Deed}

theorem done (run : Run decider start deeds last) : ∀ deed ∈ deeds, deed.Done decider := by
  induction run with
  | start => simp
  | elsewhere _ _ _ ih => exact ih
  | step _ does ih => exact List.forall_mem_cons.mpr ⟨Deed.done_of_step does, ih⟩

theorem of_cons (run : Run decider start (deed :: deeds) last) : Run decider start deeds deed.before := by
  generalize happened : deed :: deeds = all at run
  induction run with
  | start => cases happened
  | elsewhere _ _ _ ih => exact ih happened
  | step run does _ =>
    cases happened
    exact run

end Run

open Effect Instruction Memory

theorem Exec.of_lift_ok {result : Except Fault α} {before after : Machine} {value : α}
    (runs : lift result before = .ok value after) :
    result = .ok value ∧ before = after := by
  cases result with
  | ok value =>
    cases runs
    exact ⟨rfl, rfl⟩
  | error fault => cases runs

def Holdings.words (holdings : Holdings) : Table Key Word × Word :=
  (holdings.memory, holdings.touched)

theorem Holdings.words_blind {part : Part} (other : part ≠ .words) : Blind (fun holdings _ => holdings.words) part := by
  cases part <;> first | exact (other rfl).elim | simp [Blind, words]

namespace Memory

variable {decider : Decider} {before after : Machine}

def found? (path : Path) (address : Word) : Option (Int × Int × Word) := do
  let place ← address.concrete?
  let count ← path.touched.concrete?
  let word ← Table.get? (Key.number place) path.memory
  return (place, count, word)

theorem concrete?_symbolic (word : Word) : word.symbolic.concrete? = none := by
  rw [Word.symbolic]
  split
  · rfl
  · assumption

theorem concrete?_of_chooseTouched {test : Term} {yes no result : Word}
    (chosen : chooseTouched test yes no = .ok result) :
    result.concrete? = none := by
  unfold chooseTouched at chosen
  split at chosen
  · obtain ⟨_, _, rest⟩ := of_except_bind_ok chosen
    cases rest
    rfl
  · obtain ⟨_, _, rest⟩ := of_except_bind_ok chosen
    cases rest
    rfl
  · cases chosen

theorem concrete?_of_touch {touched reached result : Word} (symbolic : touched.concrete? = none)
    (runs : touch decider touched reached before = .ok result after) :
    result.concrete? = none := by
  have closed : ∀ {chosen : Word} {machine : Machine},
      (leaveScope >>= fun _ => pure chosen : Exec Word) machine = .ok result after → result = chosen := by
    intro chosen machine runs
    obtain ⟨_, _, _, ends⟩ := Effect.of_bind_ok runs
    cases ends
    rfl
  unfold touch at runs
  obtain ⟨grows, _, _, runs⟩ := Effect.of_bind_ok runs
  obtain ⟨_, _, _, runs⟩ := Effect.of_bind_ok runs
  obtain ⟨_, _, _, runs⟩ := Effect.of_bind_ok runs
  obtain ⟨session, _, _, runs⟩ := Effect.of_bind_ok runs
  split at runs
  · obtain ⟨possible, _, _, runs⟩ := Effect.of_bind_ok runs
    split at runs
    · obtain ⟨test, _, _, runs⟩ := Effect.of_bind_ok runs
      obtain ⟨chosen, _, lifted, runs⟩ := Effect.of_bind_ok runs
      rw [closed runs]
      exact concrete?_of_chooseTouched (of_lift_ok lifted).1
    · rw [closed runs]
      exact symbolic
  · rw [closed runs]
    exact symbolic

theorem touch_preserves (touched reached : Word) : Effect.Preserves Machine.path (touch decider touched reached) := by
  have lifted : ∀ {β : Type} (result : Except Fault β), Effect.Preserves Machine.path (lift result) := by
    intro β result
    cases result with
    | ok value => exact .pure _
    | error fault => exact .throw _
  have left : Effect.Preserves Machine.path leaveScope :=
    .bind ⟨fun _ => rfl⟩ fun _ => (lifted _).bind fun _ => ⟨fun _ => rfl⟩
  have ends : ∀ chosen, Effect.Preserves Machine.path (leaveScope >>= fun _ => pure chosen : Exec Word) :=
    fun chosen => left.bind fun _ => .pure _
  have asked : Effect.Preserves Machine.path (feasible decider) := by
    refine .bind ⟨fun _ => rfl⟩ fun session => ?_
    split
    · exact .pure _
    · exact .pure _
    · exact left.bind fun _ => .throw _
  unfold touch
  refine (lifted _).bind fun grows => .bind ⟨fun _ => rfl⟩ fun _ => ?_
  refine .bind ((lifted _).bind fun _ => ⟨fun _ => rfl⟩) fun _ => .bind ⟨fun _ => rfl⟩ fun session => ?_
  split
  · refine asked.bind fun possible => ?_
    split
    · exact (lifted _).bind fun _ => (lifted _).bind ends
    · exact ends _
  · exact ends _

variable {count bytes : Int} {touched : Word} {rest : List Word} {address word : Word}

theorem exists_of_atLeast (reached : atLeast count bytes = .ok touched) : ∃ number, touched = .integer number := by
  obtain ⟨words, _, rest⟩ := of_except_bind_ok reached
  cases rest
  exact ⟨_, rfl⟩

theorem atLeast_ok (reached : atLeast count bytes = .ok touched) (other : Int) :
    ∃ touched, atLeast other bytes = .ok touched := by
  obtain ⟨words, covered, _⟩ := of_except_bind_ok reached
  exact ⟨.integer (max other words), by rw [atLeast, covered]; rfl⟩

theorem load_eq {address : Word} (operand : before.path.stack = address :: rest) :
    load decider before =
      (match found? before.path address with
        | some (place, count, word) => do
            let touched ← lift (atLeast count (place + 32))
            push word
            setTouched touched
        | none => do
            let touched ← touch decider before.path.touched.symbolic (← lift (wordsBehind address))
            let word ← symbolNamed (Names.memoryWord address)
            push word
            putWord (Key.ofWord address) word
            setTouched touched : Exec Unit) (before.atStack rest) := by
  unfold load
  refine (bind_ok (need_ok before (by simp [operand]))).trans ?_
  refine (bind_ok (advance_apply _ _)).trans ((bind_ok (pop_cons _ (by exact operand))).trans ?_)
  refine (bind_ok (path_apply _)).trans ?_
  rfl

theorem operand_of_load (runs : load decider before = .ok () after) :
    ∃ address rest, before.path.stack = address :: rest := by
  cases stack : before.path.stack with
  | nil =>
    unfold load at runs
    rw [bind_error (need_short before (by simp [stack]))] at runs
    cases runs
  | cons address rest => exact ⟨address, rest, rfl⟩

theorem load_ok {address word touched : Word} {place count : Int} (operand : before.path.stack = address :: rest)
    (found : found? before.path address = some (place, count, word))
    (reached : atLeast count (place + 32) = .ok touched) :
    ∃ after, load decider before = .ok () after := by
  rw [load_eq operand, found]
  simp only [reached]
  exact ⟨_, rfl⟩

theorem load_found {place count : Int} (operand : before.path.stack = address :: rest)
    (found : found? before.path address = some (place, count, word)) (runs : load decider before = .ok () after) :
    after.path.memory = before.path.memory ∧ after.path.touched.isConcrete = true ∧
      after.path.stack = word :: rest := by
  rw [load_eq operand, found] at runs
  obtain ⟨touched, _, lifted, runs⟩ := Effect.of_bind_ok runs
  obtain ⟨reached, rfl⟩ := of_lift_ok lifted
  obtain ⟨number, rfl⟩ := exists_of_atLeast reached
  cases runs
  exact ⟨rfl, rfl, rfl⟩

theorem load_missed {address : Word} (operand : before.path.stack = address :: rest)
    (missed : found? before.path address = none) (runs : load decider before = .ok () after) :
    after.path.touched.concrete? = none ∧ after.path.stack = Word.symbol (Names.memoryWord address) :: rest := by
  rw [load_eq operand, missed] at runs
  obtain ⟨reached, _, lifted, runs⟩ := Effect.of_bind_ok runs
  obtain ⟨_, rfl⟩ := of_lift_ok lifted
  obtain ⟨touched, between, touches, runs⟩ := Effect.of_bind_ok runs
  have symbolic := concrete?_of_touch (concrete?_symbolic _) touches
  have unmoved : between.path = (before.atStack rest).path := (touch_preserves _ _).of_ok touches
  cases runs
  exact ⟨symbolic, congrArg (fun path => Word.symbol (Names.memoryWord address) :: path.stack) unmoved⟩

theorem store_returns {place : Int} (operands : before.path.stack = address :: word :: rest)
    (concrete : address.concrete? = some place) (runs : store decider before = .ok () after) :
    match before.path.touched.concrete? with
    | some count =>
      Table.get? (Key.number place) after.path.memory = some word ∧ atLeast count (place + 32) = .ok after.path.touched
    | none => after.path.touched.concrete? = none := by
  unfold store at runs
  rw [bind_ok (need_ok before (by simp [operands])), bind_ok (advance_apply _ _),
    bind_ok (pop_cons _ (by exact operands)), bind_ok (pop_cons _ rfl), bind_ok (path_apply _)] at runs
  simp only [concrete] at runs
  obtain ⟨_, extended, extends', runs⟩ := Effect.of_bind_ok runs
  obtain ⟨_, written, writes, runs⟩ := Effect.of_bind_ok runs
  unfold keepWord at runs
  simp only [concrete] at runs
  cases counted : before.path.touched.concrete? with
  | some count =>
    simp only [counted] at runs
    obtain ⟨touched, _, lifted, runs⟩ := Effect.of_bind_ok runs
    obtain ⟨reached, rfl⟩ := of_lift_ok lifted
    cases runs
    exact ⟨Table.get?_put_self _ _ _, reached⟩
  | none =>
    simp only [counted] at runs
    obtain ⟨reached, _, lifted, runs⟩ := Effect.of_bind_ok runs
    obtain ⟨touched, _, touches, runs⟩ := Effect.of_bind_ok runs
    cases runs
    exact concrete?_of_touch counted touches

end Memory

namespace Machine

variable {decider : Decider} {before after : Machine} {block : Int} {function line : String}

def writesMemory : Instruction → Bool
  | .plain .mstore => true
  | .plain .mstore8 => true
  | .plain .codecopy => true
  | .plain .extcodecopy => true
  | _ => false

/-- A load finds its word; every other instruction asks for none. -/
def findsWord (instruction : Instruction) (path : Path) : Bool :=
  match instruction with
  | .plain .mload => path.stack.head?.all fun address => (Memory.found? path address).isSome
  | _ => true

theorem step_leaves_words (quiet : writesMemory (ofLine line) = false) (other : ofLine line ≠ .plain .mload)
    (runs : step decider block function line before = .ok () after) :
    after.path.memory = before.path.memory ∧ after.path.touched = before.path.touched := by
  refine Prod.mk.inj ((Deed.done_of_step runs).same fun part changes => Holdings.words_blind ?_)
  rintro rfl
  dsimp only at changes
  generalize ofLine line = instruction at *
  cases instruction with
  | plain opcode =>
    cases opcode <;> first | exact absurd changes (by decide) | exact absurd quiet (by decide) | exact other rfl
  | _ => cases changes

theorem step_words (quiet : writesMemory (ofLine line) = false)
    (runs : step decider block function line before = .ok () after) :
    after.path.touched.isConcrete = (before.path.touched.isConcrete && findsWord (ofLine line) before.path) ∧
      (before.path.touched.isConcrete = true → findsWord (ofLine line) before.path = true →
        after.path.memory = before.path.memory) := by
  by_cases isLoad : ofLine line = .plain .mload
  · obtain ⟨between, unmoved, executes⟩ := execute_of_step runs
    rw [isLoad] at executes ⊢
    have loads : load decider between = .ok () after := executes
    obtain ⟨address, rest, operand⟩ := operand_of_load loads
    have finds : findsWord (.plain .mload) before.path = (found? between.path address).isSome := by
      simp [findsWord, ← unmoved, operand]
    rw [finds, ← unmoved]
    cases found : found? between.path address with
    | some result =>
      obtain ⟨place, count, word⟩ := result
      obtain ⟨sameMemory, stillConcrete, _⟩ := load_found operand found loads
      have concrete : between.path.touched.isConcrete = true := by
        cases counted : between.path.touched.concrete? with
        | some count => simp [Word.isConcrete, counted]
        | none => simp [found?, counted] at found
      exact ⟨by simp [concrete, stillConcrete], fun _ _ => sameMemory⟩
    | none =>
      obtain ⟨symbolic, _⟩ := load_missed operand found loads
      exact ⟨by simp [Word.isConcrete, symbolic], fun _ impossible => absurd impossible Bool.false_ne_true⟩
  · obtain ⟨sameMemory, sameTouched⟩ := step_leaves_words quiet isLoad runs
    have finds : findsWord (ofLine line) before.path = true := by
      unfold findsWord
      split
      · next isLoad' =>
        exact (isLoad isLoad').elim
      · rfl
    exact ⟨by rw [sameTouched, finds, Bool.and_true], fun _ _ => sameMemory⟩

/-- Instructions that write no word of memory, done one after another. Between two of them everything may change but
what the path holds, as when the exploration goes on in another block. The flag tells whether every load on the way
finds its word. -/
inductive Course (decider : Decider) (start : Machine) : Bool → Machine → Prop where
  | start : Course decider start true start
  | elsewhere
      {found : Bool}
      {before after : Machine}
      (course : Course decider start found before)
      (held : after.path.holdings = before.path.holdings) :
      Course decider start found after
  | step
      {found : Bool}
      {before after : Machine}
      {block : Int}
      {function line : String}
      (course : Course decider start found before)
      (quiet : writesMemory (Instruction.ofLine line) = false)
      (runs : Machine.step decider block function line before = .ok () after) :
      Course decider start (found && findsWord (Instruction.ofLine line) before.path) after

theorem Course.words {start last : Machine} {found : Bool} (course : Course decider start found last) :
    last.path.touched.isConcrete = (start.path.touched.isConcrete && found) ∧
      (last.path.touched.isConcrete = true → last.path.memory = start.path.memory) := by
  induction course with
  | start => exact ⟨by simp, fun _ => rfl⟩
  | elsewhere _ held ih =>
    have sameMemory := congrArg Holdings.memory held
    have sameTouched := congrArg Holdings.touched held
    simp only [Path.holdings] at sameMemory sameTouched
    rw [sameMemory, sameTouched]
    exact ih
  | step _ quiet runs ih =>
    obtain ⟨touched, memory⟩ := step_words quiet runs
    refine ⟨by rw [touched, ih.1, Bool.and_assoc], fun concrete => ?_⟩
    rw [touched, Bool.and_eq_true] at concrete
    rw [memory concrete.1 concrete.2, ih.2 concrete.1]

section StoreThenLoad

variable {storing stored loading : Machine} {address word again : Word} {others : List Word} {place : Int}
    {found : Bool}

theorem found_after_store (isStore : ofLine line = .plain .mstore)
    (operands : storing.path.stack = address :: word :: others) (placed : address.concrete? = some place)
    (stores : step decider block function line storing = .ok () stored) (course : Course decider stored found loading)
    (placedAgain : again.concrete? = some place) :
    if storing.path.touched.isConcrete && found then
      ∃ count touched, found? loading.path again = some (place, count, word) ∧ atLeast count (place + 32) = .ok touched
    else
      found? loading.path again = none := by
  obtain ⟨storer, unmoved, storeRuns⟩ := execute_of_step stores
  rw [isStore] at storeRuns
  have kept := store_returns (unmoved ▸ operands) placed storeRuns
  rw [unmoved] at kept
  obtain ⟨touched, memory⟩ := course.words
  have lost : loading.path.touched.isConcrete = false → found? loading.path again = none := by
    intro symbolic
    have uncounted : loading.path.touched.concrete? = none := by simpa [Word.isConcrete] using symbolic
    simp [found?, uncounted]
  cases counted : storing.path.touched.concrete? with
  | none =>
    simp only [counted] at kept
    have symbolic : stored.path.touched.isConcrete = false := by simp [Word.isConcrete, kept]
    simpa [Word.isConcrete, counted] using lost (by simp [touched, symbolic])
  | some count =>
    simp only [counted] at kept
    obtain ⟨word_kept, reached⟩ := kept
    obtain ⟨number, concreteThen⟩ := exists_of_atLeast reached
    have concrete : stored.path.touched.isConcrete = true := by rw [concreteThen]; rfl
    rw [concrete, Bool.true_and] at touched
    cases found with
    | false => simpa using lost touched
    | true =>
      obtain ⟨later, counts⟩ := Option.isSome_iff_exists.mp touched
      obtain ⟨more, enough⟩ := atLeast_ok reached later
      have finds : found? loading.path again = some (place, later, word) := by
        simp [found?, placedAgain, counts, memory touched, word_kept]
      simpa [Word.isConcrete, counted] using ⟨later, finds, more, enough⟩

/-- A load of a stored word gives this word if the number of touched words was concrete when it was stored and every
load since then has found its word; otherwise it gives the symbol of its address. -/
theorem load_after_store {storeBlock loadBlock : Int} {storeFunction storeLine loadFunction loadLine : String}
    {rest : List Word} (isStore : Instruction.ofLine storeLine = .plain .mstore)
    (operands : storing.path.stack = address :: word :: others) (placed : address.concrete? = some place)
    (stores : step decider storeBlock storeFunction storeLine storing = .ok () stored)
    (course : Course decider stored found loading) (isLoad : Instruction.ofLine loadLine = .plain .mload)
    (operand : loading.path.stack = again :: rest) (placedAgain : again.concrete? = some place) :
    (storing.path.touched.isConcrete = true → found = true → Underway loading.session →
        ∃ after, step decider loadBlock loadFunction loadLine loading = .ok () after) ∧
      ∀ after, step decider loadBlock loadFunction loadLine loading = .ok () after →
        after.path.stack =
          (if storing.path.touched.isConcrete && found then word else Word.symbol (Names.memoryWord again)) ::
            rest := by
  have stands := found_after_store isStore operands placed stores course placedAgain
  constructor
  · intro concrete finds underway
    simp only [concrete, finds, Bool.and_self, if_true] at stands
    obtain ⟨count, touched, finds, reached⟩ := stands
    rw [step_of_plain underway isLoad]
    exact Memory.load_ok operand finds reached
  · intro after runs
    obtain ⟨loader, unmoved, loads⟩ := execute_of_step runs
    rw [isLoad] at loads
    rw [← unmoved] at operand stands
    split at stands
    · next whole =>
      obtain ⟨count, touched, finds, _⟩ := stands
      rw [if_pos whole]
      exact (Memory.load_found operand finds loads).2.2
    · next broken =>
      rw [if_neg broken]
      exact (Memory.load_missed operand stands loads).2

def storingSeven : Machine where
  session :=
    { graph :=
        { instructions := [(0, "STOP")]
          blocks := [(0, { start := 0, stop := 0, lines := ["STOP"], kind := some .terminal })] } }
  path := { stack := [.integer 0, .integer 7, .integer 64, .integer 0] }

theorem load_after_store_missed :
    ∃ stored loading, step (fun _ => .satisfiable) 0 "f()" "MSTORE" storingSeven = .ok () stored ∧
      Course (fun _ => .satisfiable) stored false loading ∧ loading.path.stack = [.integer 0] ∧
        ∀ after, step (fun _ => .satisfiable) 0 "f()" "MLOAD" loading = .ok () after →
          after.path.stack = [Word.symbol "mem_0"] := by
  obtain ⟨_, stored, stores, misses⟩ := exists_of_seen (show
    seen (fun _ machine => findsWord (Instruction.ofLine "MLOAD") machine.path)
      (step (fun _ => .satisfiable) 0 "f()" "MSTORE" storingSeven) = some false by decide +kernel)
  obtain ⟨_, loading, runs, operand⟩ := exists_of_seen (show
    seen (fun _ machine => machine.path.stack)
      ((do
          step (fun _ => .satisfiable) 0 "f()" "MSTORE"
          step (fun _ => .satisfiable) 0 "f()" "MLOAD"
          step (fun _ => .satisfiable) 0 "f()" "POP") storingSeven) = some [.integer 0] by decide +kernel)
  rw [bind_ok stores] at runs
  obtain ⟨_, between, loads, pops⟩ := Effect.of_bind_ok runs
  have course : Course (fun _ => .satisfiable) stored false loading := by
    have first := Course.start.step rfl loads
    rw [misses] at first
    exact first.step rfl pops
  refine ⟨stored, loading, stores, course, operand, fun after runs => ?_⟩
  exact (load_after_store rfl rfl rfl stores course rfl operand rfl).2 after runs

end StoreThenLoad

end Machine

end MintAudit
