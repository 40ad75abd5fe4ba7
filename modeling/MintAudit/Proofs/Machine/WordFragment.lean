import MintAudit.Proofs.Machine.Arithmetic
import MintAudit.Proofs.Machine.Underway
import MintAudit.Proofs.Number.Numeral

namespace MintAudit

/-!
# The stack machine on words

A run of the symbolic machine over instructions that compute on the stack only is a run of the reference machine on
the values of its words, under every assignment.
-/

open Instruction (ofLine)

namespace Machine

open Word Exec
open Reference (Value)

/-- What has to hold of the surroundings for instructions to be executed in a block: the time is not up, progress can
be shown, the block is not left by a jump that may not be taken, and the word that an exchange is compared with is a
machine word, if there is one. -/
structure Ready (block : Int) (session : Session) (gates : Gates) : Prop where
  noAlarm : session.alarm = none
  clock : session.clockStarted = true
  blocks : session.graph.blocks ≠ []
  instructions : session.graph.instructions ≠ []
  kind : ∃ kind, Table.get? block session.graph.kinds = some kind ∧ kind ≠ .conditional
  loaded : gates.burn.loaded = .absent ∨ gates.burn.loaded.IsMachineWord

def OnWords (machine : Machine) : Prop :=
  ∀ word ∈ machine.path.stack, word.IsMachineWord

def values (assignment : Assignment) (machine : Machine) : List Value :=
  machine.path.stack.map (Word.value assignment)

/-- The machine came out where the reference machine does: it stopped if that finds too few words, and otherwise its
stack holds machine words with the values that the reference machine computes. -/
def Follows (block : Int) (before : Machine) (reference : List Value → Option (List Value)) :
    EStateM.Result Fault Machine Unit → Prop
  | .ok _ after =>
    Ready block after.session after.path.gates ∧ after.OnWords ∧
      ∀ assignment, reference (before.values assignment) = some (after.values assignment)
  | .error _ _ => ∀ assignment, reference (before.values assignment) = none

variable {decider : Decider} {block : Int} {function : String} {machine : Machine}

variable {count : Nat} {word : Word} {rest : List Word} {index : Nat} {next : Unit → Exec Unit} {lines : List String}

theorem Ready.underway {session : Session} {gates : Gates} (ready : Ready block session gates) : Underway session :=
  ⟨by simp [ready.noAlarm], ready.clock, ready.blocks, ready.instructions⟩

theorem step_eq_execute {line : String} (ready : Ready block machine.session machine.path.gates)
    (executes : Reference.Executes (ofLine line)) :
    step decider block function line machine =
      execute decider block function (ofLine line) (machine.counted block function line) := by
  refine step_of_underway ready.underway fun topics isLog => ?_
  rw [isLog] at executes
  exact executes

theorem checkRevert_ok (ready : Ready block machine.session machine.path.gates) :
    Alu.checkRevert block machine = .ok () machine := by
  obtain ⟨kind, found, notConditional⟩ := ready.kind
  unfold Alu.checkRevert
  simp only [bind_apply, session_apply, found, notConditional, ↓reduceIte, pure_apply]

theorem same_ok {left right : Word} (leftWord : left.IsMachineWord) (rightWord : right.IsMachineWord) :
    ∃ answer, left.same right = .ok answer := by
  rcases Alu.numbers_or_symbolic leftWord rightWord with
      ⟨leftNumber, rightNumber, _, _, rfl, rfl⟩ | symbolic
  · exact ⟨_, rfl⟩
  · obtain ⟨first, second, compares, _, _, _⟩ := Alu.equal_spec leftWord rightWord symbolic
    refine ⟨first == second, ?_⟩
    simp only [same, compares]
    rfl

theorem same_integer_ok (machineWord : word.IsMachineWord) (number : Int) :
    ∃ answer, word.same (.integer number) = .ok answer := by
  rcases machineWord.kinds with ⟨_, _, rfl⟩ | ⟨term, isWord, rfl⟩
  · exact ⟨_, rfl⟩
  · refine ⟨term == Term.ofInt 256 number, ?_⟩
    simp only [same, equal, equate, equateTerm, isWord.kind, Word.coerce]
    rfl

theorem same_loaded_ok {session : Session} {gates : Gates} (ready : Ready block session gates)
    (machineWord : word.IsMachineWord) :
    ∃ answer, word.same gates.burn.loaded = .ok answer := by
  rcases ready.loaded with absent | loadedWord
  · rw [absent]
    rcases machineWord.kinds with ⟨_, _, rfl⟩ | ⟨_, _, rfl⟩ <;> exact ⟨false, rfl⟩
  · exact same_ok machineWord loadedWord

theorem power_two_mul (countBound : count < 2 ^ 256) (word : Value) :
    Reference.power (BitVec.ofNat 256 2) (BitVec.ofNat 256 count) * word = word <<< (BitVec.ofNat 256 count).toNat := by
  apply BitVec.eq_of_toNat_eq
  have two : (BitVec.ofNat 256 2).toNat = 2 := rfl
  have countValue : (BitVec.ofNat 256 count).toNat = count := by rw [BitVec.toNat_ofNat, Nat.mod_eq_of_lt countBound]
  rw [Reference.power, two, countValue, BitVec.toNat_mul, BitVec.toNat_ofNat, BitVec.toNat_shiftLeft,
    Nat.shiftLeft_eq, Nat.mod_mul_mod, Nat.mul_comm]

theorem constant_yields {number : Int} (nonnegative : 0 ≤ number) (bounded : number < bound) (asTerm : Prop)
    [Decidable asTerm] :
    (if asTerm then Word.constant number else .integer number).Yields fun _ => BitVec.ofInt 256 number := by
  split
  · exact yields_term (Term.ofInt_isWord number) fun assignment => Term.bits_ofInt assignment number
  · exact ⟨⟨nonnegative, bounded⟩, fun _ => rfl⟩

theorem exchanged_cons {top : Word} (inside : index < rest.length) :
    Control.exchanged (index + 1) (top :: rest) = rest[index] :: rest.set index top := by
  simp [Control.exchanged, List.getElem?_eq_getElem inside]

def atStack (machine : Machine) (stack : List Word) : Machine :=
  { machine with path := { machine.path with pc := machine.path.pc + 1, stack := stack } }

theorem first_operand {needed : Nat} {first : Word} {next : Word → Exec Unit}
    (stack : machine.path.stack = first :: rest) (enough : needed ≤ rest.length + 1) :
    (do need needed; advance 1; next (← pop) : Exec Unit) machine = next first (machine.atStack rest) := by
  refine (bind_ok (need_ok machine (by rw [stack]; exact enough))).trans ?_
  exact (bind_ok (advance_apply _ _)).trans (bind_ok (pop_cons _ (by exact stack)))

theorem follows_short {before : Machine} {meaning : Reference.Meaning}
    (short : before.path.stack.length < meaning.arity) :
    Follows block before meaning.apply ((need meaning.arity >>= next) before) := by
  rw [bind_error (need_short before short)]
  intro assignment
  apply Reference.Meaning.apply_eq_none
  simpa [values] using short

theorem follows_push {before after : Machine} {reference : List Value → Option (List Value)} {result : Word}
    {meaning : Assignment → Value} (ready : Ready block after.session after.path.gates)
    (stack : after.path.stack = result :: rest) (restWords : ∀ word ∈ rest, word.IsMachineWord)
    (yields : result.Yields meaning)
    (computes :
      ∀ assignment,
        reference (before.values assignment) = some (meaning assignment :: rest.map (Word.value assignment))) :
    Follows block before reference (.ok () after) := by
  refine ⟨ready, ?_, fun assignment => ?_⟩
  · intro word member
    rw [stack] at member
    rcases List.mem_cons.mp member with rfl | inRest
    · exact yields.machineWord
    · exact restWords word inRest
  · rw [computes, values, stack, List.map_cons, yields.value]

theorem operands_follow {meaning : Value → Value → Value} (onWords : machine.OnWords)
    (computes :
      ∀ first second rest, machine.path.stack = first :: second :: rest →
        first.IsMachineWord → second.IsMachineWord →
          ∃ result after,
            (need 2 >>= next) machine = .ok () after ∧
              Ready block after.session after.path.gates ∧ after.path.stack = result :: rest ∧
                result.Yields fun assignment => meaning (first.value assignment) (second.value assignment)) :
    Follows block machine (Reference.Meaning.binary meaning).apply ((need 2 >>= next) machine) := by
  match stack : machine.path.stack with
  | [] => exact follows_short (by simp [stack, Reference.Meaning.arity])
  | [only] => exact follows_short (by simp [stack, Reference.Meaning.arity])
  | first :: second :: rest =>
    have firstWord := onWords first (by simp [stack])
    have secondWord := onWords second (by simp [stack])
    obtain ⟨result, after, outcome, readyAfter, pushed, yields⟩ := computes first second rest stack firstWord secondWord
    rw [outcome]
    refine follows_push readyAfter pushed ?_ yields ?_
    · intro word member
      exact onWords word (by simp [stack, member])
    · intro assignment
      simp [values, stack, Reference.Meaning.apply]

theorem byte_numbers {index number : Nat} (stack : machine.path.stack = .integer index :: .integer number :: rest)
    (indexBound : index < 2 ^ 256) (bounded : number < 2 ^ 256) :
    ∃ found : Nat,
      Alu.byte decider machine = .ok () (machine.atStack (.integer found :: rest)) ∧ found < 2 ^ 256 ∧
        BitVec.ofNat 256 found = Reference.byte (BitVec.ofNat 256 index) (BitVec.ofNat 256 number) := by
  have indexValue : (BitVec.ofNat 256 index).toNat = index := by rw [BitVec.toNat_ofNat, Nat.mod_eq_of_lt indexBound]
  -- The instruction up to the choice by the index.
  have start : Alu.byte decider machine =
      (if 32 ≤ (index : Int) ∨ (index : Int) < 0 then
        push (.integer 0)
      else do
        push (← lift (Alu.byteFromRight (.integer (32 - index - 1)) (.integer number))) : Exec Unit)
        (machine.atStack rest) :=
    (first_operand stack (by simp)).trans rfl
  rw [start, Reference.byte, indexValue]
  by_cases inside : index < 32
  · obtain ⟨found, computed, foundBound, same⟩ := Alu.byteFromRight_spec inside bounded
    refine ⟨found, ?_, foundBound, ?_⟩
    · rw [if_neg (by omega), computed]
      rfl
    · rw [if_pos inside, same]
  · refine ⟨0, ?_, by decide, ?_⟩
    · rw [if_pos (by omega)]
      rfl
    · exact (if_neg inside).symm

theorem swap_short (short : machine.path.stack.length ≤ index + 1) :
    Follows block machine (Reference.step (.swap (some (index + 1)))) (Control.swap (some (index + 1)) machine) := by
  have tooShort : (machine.path.stack.length : Int) ≤ index + 1 := by exact_mod_cast short
  have position : ((index : Int) + 1 - 1).toNat = index := by omega
  have stops : Control.swap (some (index + 1)) machine =
      .error .stackUnderflow { machine with path := { machine.path with pc := machine.path.pc + 1 } } := by
    refine (bind_ok (advance_apply _ _)).trans ?_
    simp only [bind_apply, path_apply, tooShort, ↓reduceIte, throw_apply]
  rw [stops]
  intro assignment
  cases stack : machine.path.stack with
  | nil => simp [values, stack, Reference.step]
  | cons top rest =>
    have outside : rest.length ≤ index := by
      rw [stack, List.length_cons] at short
      omega
    simp only [values, stack, List.map_cons, Reference.step, position]
    rw [List.getElem?_eq_none (by simpa using outside), Option.map_none]

theorem swap_outcome {top : Word} (ready : Ready block machine.session machine.path.gates)
    (stack : machine.path.stack = top :: rest) (inside : index < rest.length)
    (movedWords : ∀ word ∈ rest.set index top, word.IsMachineWord) :
    ∃ gates : Gates,
      gates.burn.loaded = machine.path.gates.burn.loaded ∧
        Control.swap (some (index + 1)) machine =
          .ok () { machine with
            path := { machine.path with
              pc := machine.path.pc + 1
              stack := rest[index] :: rest.set index top
              gates := gates } } := by
  have enough : ¬ ((top :: rest).length : Int) ≤ (index : Int) + 1 := by
    rw [List.length_cons]
    omega
  have range : Sequence.index? (top :: rest).length ((index : Int) + 1) = some (index + 1) :=
    Sequence.index?_natCast (by simpa using inside)
  obtain ⟨second, below, isSecond⟩ : ∃ second below, rest.set index top = second :: below := by
    cases moved : rest.set index top with
    | nil =>
      have := congrArg List.length moved
      rw [List.length_set] at this
      simp [this] at inside
    | cons second below => exact ⟨second, below, rfl⟩
  have secondAt : (rest[index] :: rest.set index top)[1]? = some second := by simp [isSecond]
  obtain ⟨answer, compared⟩ := same_loaded_ok ready (movedWords second (by simp [isSecond]))
  refine ⟨if answer then
    { machine.path.gates with burn := { machine.path.gates.burn with valid := true, trigger := false } }
    else machine.path.gates, by cases answer <;> rfl, ?_⟩
  refine (bind_ok (advance_apply _ _)).trans ?_
  simp only [bind_apply, path_apply, stack, enough, ↓reduceIte, range, exchanged_cons inside,
    modifyPath_apply, secondAt, compared, lift_ok]
  cases answer <;> rfl

section

variable (ready : Ready block machine.session machine.path.gates) (onWords : machine.OnWords)
include ready onWords

variable {meaning : Value → Value → Value} {instruction : Instruction}

theorem binary_follows {compute : Word → Word → Exec Word}
    (computes :
      ∀ first second rest, machine.path.stack = first :: second :: rest →
        first.IsMachineWord → second.IsMachineWord →
          ∃ result,
            compute first second (machine.atStack rest) = .ok result (machine.atStack rest) ∧
              result.Yields fun assignment => meaning (first.value assignment) (second.value assignment)) :
    Follows block machine (Reference.Meaning.binary meaning).apply (Alu.binary compute machine) := by
  refine operands_follow onWords fun first second rest stack firstWord secondWord => ?_
  obtain ⟨result, returns, yields⟩ := computes first second rest stack firstWord secondWord
  refine ⟨result.simplified, machine.atStack (result.simplified :: rest), ?_, ready, rfl, yields.simplified⟩
  refine (first_operand stack (by simp)).trans ?_
  exact (bind_ok (pop_cons _ rfl)).trans (bind_ok returns)

theorem unary_follows {next : Word → Exec Unit} {meaning : Value → Value}
    (computes :
      ∀ first rest, machine.path.stack = first :: rest →
        first.IsMachineWord →
          ∃ result,
            next first (machine.atStack rest) = .ok () (machine.atStack (result :: rest)) ∧
              result.Yields fun assignment => meaning (first.value assignment)) :
    Follows block machine (Reference.Meaning.unary meaning).apply
      ((do need 1; advance 1; next (← pop) : Exec Unit) machine) := by
  match stack : machine.path.stack with
  | [] => exact follows_short (by simp [stack, Reference.Meaning.arity])
  | first :: rest =>
    have firstWord := onWords first (by simp [stack])
    obtain ⟨result, returns, yields⟩ := computes first rest stack firstWord
    have outcome : (do need 1; advance 1; next (← pop) : Exec Unit) machine =
        .ok () (machine.atStack (result :: rest)) :=
      (first_operand stack (by simp)).trans returns
    rw [outcome]
    refine follows_push ready rfl ?_ yields ?_
    · intro word member
      exact onWords word (by simp [stack, member])
    · intro assignment
      simp [values, stack, Reference.Meaning.apply]

theorem isZero_follows :
    Follows block machine (Reference.Meaning.unary fun word => Reference.bit (word == 0)).apply
      (Alu.isZero machine) := by
  apply unary_follows ready onWords
  intro first rest _ firstWord
  have zeroWord : (Word.integer 0).IsMachineWord := ⟨by decide, by decide⟩
  rcases firstWord.kinds with ⟨number, bounded, rfl⟩ | ⟨term, isWord, rfl⟩
  · refine ⟨Alu.bit ((number : Int) == 0), rfl, Alu.yields_bit fun assignment => ?_⟩
    rw [value_number, beq_eq_decide, beq_eq_decide]
    congr 2
    simp only [Alu.ofNat_eq_zero_iff bounded, Int.natCast_eq_zero]
  · obtain ⟨left, right, compares, leftWord, rightWord, same⟩ := Alu.equal_spec firstWord zeroWord (.inl rfl)
    obtain ⟨sorted, kind⟩ : (Term.binary .eq left right).WellSorted ∧ (Term.binary .eq left right).kind = .condition :=
      Alu.test_sorted rfl (by decide) leftWord rightWord
    obtain ⟨result, asBit, yields⟩ := Alu.flagBit_yields sorted kind
    refine ⟨result.simplified, ?_, yields.simplified.machineWord, fun assignment => ?_⟩
    · simp only [concrete?, compares, bind_apply, lift_ok, asBit]
      rfl
    · rw [yields.simplified.value, beq_eq_decide]
      congr 1
      have zero : (Word.integer 0).value assignment = 0 := rfl
      simp only [← zero, ← same assignment, ← BitVec.toNat_inj, leftWord.toNat_bits,
        rightWord.toNat_bits, Term.eval, BinaryOp.apply, beq_eq_decide]
      simp

theorem complement_follows :
    Follows block machine (Reference.Meaning.unary fun word => ~~~word).apply (Alu.complement machine) := by
  apply unary_follows ready onWords
  intro first rest _ firstWord
  obtain ⟨flipped, result, flips, masks, yields⟩ := Alu.complement_yields firstWord
  refine ⟨result.simplified, ?_, yields.simplified⟩
  simp only [flips, bind_apply, lift_ok, masks]
  rfl

theorem additive_follows {op : Operation} (isAdditive : op = .add ∨ op = .sub) :
    Follows block machine (Reference.Meaning.binary op.onBits).apply (Alu.additiveIn block op machine) := by
  apply binary_follows ready onWords
  intro first second rest _ firstWord secondWord
  obtain ⟨result, computed, yields⟩ := Alu.additive_yields firstWord secondWord isAdditive
  have readyAfter : Ready block (machine.atStack rest).session (machine.atStack rest).path.gates := ready
  refine ⟨result, ?_, yields⟩
  rw [computed]
  exact (bind_ok (lift_ok _ _)).trans (bind_ok (checkRevert_ok readyAfter))

theorem lifted_follows {compute : Word → Word → Except Fault Word}
    (computes :
      ∀ {first second : Word}, first.IsMachineWord → second.IsMachineWord →
        ∃ result,
          compute first second = .ok result ∧
            result.Yields fun assignment => meaning (first.value assignment) (second.value assignment)) :
    Follows block machine (Reference.Meaning.binary meaning).apply
      (Alu.binary (fun first second => lift (compute first second)) machine) := by
  apply binary_follows ready onWords
  intro first second rest _ firstWord secondWord
  obtain ⟨result, computed, yields⟩ := computes firstWord secondWord
  exact ⟨result, by rw [computed]; rfl, yields⟩

theorem compared_follows {concrete : Int → Int → Bool} {symbolic : Word → Word → Except Fault Flag}
    (computes :
      ∀ {first second : Word}, first.IsMachineWord → second.IsMachineWord →
        Alu.Computes (Alu.compared concrete symbolic first second)
          fun assignment => meaning (first.value assignment) (second.value assignment)) :
    Follows block machine (Reference.Meaning.binary meaning).apply (Alu.comparison concrete symbolic machine) := by
  rw [Alu.comparison_eq]
  apply binary_follows ready onWords
  intro first second rest _ firstWord secondWord
  obtain ⟨result, returns, yields⟩ := computes firstWord secondWord
  exact ⟨result, returns _, yields⟩

def knownOperands : Instruction → Nat
  | .plain .mod => 2
  | .plain .exp => 2
  | .plain .signextend => 2
  | .plain .byte => 2
  | .plain .addmod => 3
  | .plain .mulmod => 3
  | .plain .shl => 1
  | _ => 0

def KnowsOperands (instruction : Instruction) (stack : List Word) : Prop :=
  ∀ word ∈ stack.take (knownOperands instruction), word.isConcrete = true

theorem numbers_follows {compute : Word → Word → Exec Word} (known : KnowsOperands instruction machine.path.stack)
    (two : knownOperands instruction = 2)
    (computes :
      ∀ {first second : Nat}, first < 2 ^ 256 → second < 2 ^ 256 →
        Alu.Computes (compute (.integer first) (.integer second))
          fun _ => meaning (BitVec.ofNat 256 first) (BitVec.ofNat 256 second)) :
    Follows block machine (Reference.Meaning.binary meaning).apply (Alu.binary compute machine) := by
  apply binary_follows ready onWords
  intro first second rest stack firstWord secondWord
  rw [KnowsOperands, stack, two] at known
  obtain ⟨firstNumber, firstBound, rfl⟩ := firstWord.number (known _ (by simp))
  obtain ⟨secondNumber, secondBound, rfl⟩ := secondWord.number (known _ (by simp))
  obtain ⟨result, returns, yields⟩ := computes firstBound secondBound
  refine ⟨result, returns _, yields.machineWord, fun assignment => ?_⟩
  rw [yields.value, value_number, value_number]

theorem remainder_follows (known : KnowsOperands (.plain .mod) machine.path.stack)
    (symbolic : Word → Word → Exec Word) :
    Follows block machine (Reference.Meaning.binary Reference.remainder).apply
      (Alu.division decider (fun first second => .ok (Alu.remainder first second)) symbolic machine) := by
  apply numbers_follows ready onWords known rfl
  intro first second firstBound secondBound
  exact ⟨Alu.remainder first second, fun _ => rfl, Alu.remainder_yields firstBound secondBound⟩

theorem exponentiation_follows (known : KnowsOperands (.plain .exp) machine.path.stack) :
    Follows block machine (Reference.Meaning.binary Reference.power).apply (Alu.exponentiation machine) := by
  apply numbers_follows ready onWords known rfl
  intro base exponent baseBound exponentBound
  obtain ⟨number, computed, bounded, same⟩ := Alu.power_yields baseBound exponentBound
  refine ⟨.integer number, fun machine => ?_, .of_number bounded, fun _ => ?_⟩
  · simp only [concrete?, computed, lift_ok]
  · rw [value_number, same]

theorem signExtension_follows (known : KnowsOperands (.plain .signextend) machine.path.stack) :
    Follows block machine (Reference.Meaning.binary Reference.extendSign).apply
      (Alu.signExtension decider machine) := by
  apply numbers_follows ready onWords known rfl
  intro index number indexBound bounded
  exact Alu.extendSign_computes indexBound bounded

theorem modular_follows {concrete : Int → Int → Int} {op last : BinaryOp} {meaning : Value → Value → Value → Value}
    (known : KnowsOperands instruction machine.path.stack) (three : knownOperands instruction = 3)
    (combined : Nat → Nat → Nat) (isCombined : ∀ first second : Nat, concrete first second = combined first second)
    (computes :
      ∀ first second modulus : Value,
        meaning first second modulus =
          if modulus = 0 then 0
          else BitVec.ofNat 256 (combined first.toNat second.toNat % modulus.toNat)) :
    Follows block machine (Reference.Meaning.ternary meaning).apply (Alu.modular decider concrete op last machine) := by
  match stack : machine.path.stack with
  | [] => exact follows_short (by simp [stack, Reference.Meaning.arity])
  | [only] => exact follows_short (by simp [stack, Reference.Meaning.arity])
  | [first, second] => exact follows_short (by simp [stack, Reference.Meaning.arity])
  | first :: second :: third :: rest =>
    rw [KnowsOperands, stack, three] at known
    obtain ⟨firstNumber, firstBound, rfl⟩ := (onWords first (by simp [stack])).number (known _ (by simp))
    obtain ⟨secondNumber, secondBound, rfl⟩ := (onWords second (by simp [stack])).number (known _ (by simp))
    obtain ⟨modulus, modulusBound, rfl⟩ := (onWords third (by simp [stack])).number (known _ (by simp))
    have result : (Word.integer (if (modulus : Int) = 0 then 0
        else Int.fmod (concrete firstNumber secondNumber) modulus)).Yields fun _ =>
          meaning (BitVec.ofNat 256 firstNumber) (BitVec.ofNat 256 secondNumber) (BitVec.ofNat 256 modulus) := by
      rw [isCombined]
      apply Alu.modulo_yields modulusBound
      intro _
      rw [computes, BitVec.toNat_ofNat, BitVec.toNat_ofNat, BitVec.toNat_ofNat,
        Nat.mod_eq_of_lt firstBound, Nat.mod_eq_of_lt secondBound, Nat.mod_eq_of_lt modulusBound]
    have outcome : Alu.modular decider concrete op last machine =
        .ok () (machine.atStack
          (.integer (if (modulus : Int) = 0 then 0
            else Int.fmod (concrete firstNumber secondNumber) modulus) :: rest)) := by
      refine (first_operand stack (by simp)).trans ?_
      refine (bind_ok (pop_cons _ rfl)).trans ?_
      exact (bind_ok (pop_cons _ rfl)).trans rfl
    rw [outcome]
    refine follows_push ready rfl ?_ result ?_
    · intro word member
      exact onWords word (by simp [stack, member])
    · intro assignment
      simp only [values, stack, List.map_cons, value_number, Reference.Meaning.apply]

theorem byte_follows (known : KnowsOperands (.plain .byte) machine.path.stack) :
    Follows block machine (Reference.Meaning.binary Reference.byte).apply (Alu.byte decider machine) := by
  refine operands_follow onWords fun first second rest stack firstWord secondWord => ?_
  rw [KnowsOperands, stack] at known
  obtain ⟨index, indexBound, rfl⟩ := firstWord.number (known _ (by simp [knownOperands]))
  obtain ⟨number, bounded, rfl⟩ := secondWord.number (known _ (by simp [knownOperands]))
  obtain ⟨found, executed, foundBound, same⟩ := byte_numbers stack indexBound bounded
  refine ⟨.integer found, _, executed, ready, rfl, .of_number foundBound, fun assignment => ?_⟩
  rw [value_number, value_number, value_number, same]

theorem shiftLeft_follows (known : KnowsOperands (.plain .shl) machine.path.stack) :
    Follows block machine (Reference.Meaning.binary fun count word => word <<< count.toNat).apply
      (Alu.shiftLeft machine) := by
  refine operands_follow onWords fun first second rest stack firstWord secondWord => ?_
  rw [KnowsOperands, stack] at known
  obtain ⟨count, countBound, rfl⟩ := firstWord.number (known _ (by simp [knownOperands]))
  have two : ((2 : Nat) : Int) = 2 := rfl
  obtain ⟨factor, raised, factorBound, factorValue⟩ := Alu.power_yields (show 2 < 2 ^ 256 by decide) countBound
  rw [two] at raised
  have factorWord : (Word.integer factor).IsMachineWord := .of_number factorBound
  obtain ⟨factorYields, matchedYields, _⟩ := Alu.matched_spec factorWord secondWord
  obtain ⟨raw, result, multiplied, masked, yields⟩ :=
    Alu.maskedProduct_yields factorYields matchedYields (Alu.matched_kinds factorWord secondWord)
  obtain ⟨isSelector, compared⟩ :=
    same_integer_ok matchedYields.machineWord (machine.atStack (second :: rest)).session.settings.receiverSelector
  have outcome : ∃ settings, Alu.shiftLeft machine =
      .ok () { machine.atStack (result.simplified :: rest) with
        session := { machine.session with settings := settings } } := by
    refine ⟨if isSelector then
      { machine.session.settings with shiftedReceiverSelector := result.simplified }
      else machine.session.settings, ?_⟩
    refine (first_operand stack (by simp)).trans ?_
    refine (bind_ok (by rw [raised]; rfl)).trans ?_
    refine (bind_ok (pop_cons _ rfl)).trans ?_
    simp only [bind_apply, multiplied, lift_ok, masked, push_apply, session_apply, compared]
    cases isSelector <;> rfl
  obtain ⟨settings, finished⟩ := outcome
  have readyAfter : Ready block { machine.session with settings := settings } machine.path.gates :=
    ⟨ready.noAlarm, ready.clock, ready.blocks, ready.instructions, ready.kind, ready.loaded⟩
  refine ⟨result.simplified, _, finished, readyAfter, rfl, yields.simplified.machineWord, fun assignment => ?_⟩
  rw [yields.simplified.value, value_number, value_number, factorValue, power_two_mul countBound]

theorem consume_follows : Follows block machine Reference.Meaning.discard.apply (Environment.consume 1 machine) := by
  match stack : machine.path.stack with
  | [] => exact follows_short (by simp [stack, Reference.Meaning.arity])
  | first :: rest =>
    have outcome : Environment.consume 1 machine = .ok () (machine.atStack rest) := by
      refine (bind_ok (need_ok machine (by simp [stack]))).trans ?_
      refine (bind_ok (advance_apply _ _)).trans ?_
      rw [drop_succ, drop_zero]
      exact bind_ok (discard_pop_cons _ (by exact stack))
    rw [outcome]
    refine ⟨ready, ?_, fun assignment => ?_⟩
    · intro word member
      exact onWords word (by simp [stack, show word ∈ rest from member])
    · simp only [values, stack, List.map_cons, Reference.Meaning.apply]
      rfl

theorem jumpdest_follows : Follows block machine Reference.Meaning.keep.apply (advance 1 machine) :=
  ⟨ready, onWords, fun _ => rfl⟩

theorem pushConstant_follows {width value : Int} (executes : Reference.Executes (.push (some width) (.ok value))) :
    Follows block machine (Reference.step (.push (some width) (.ok value)))
      (Control.pushConstant (some width) (.ok value) machine) := by
  obtain ⟨atLeastOne, atMost, nonnegative, small⟩ := executes
  have bounded : value < bound := by
    have : (2 : Int) ^ (8 * width.toNat) ≤ 2 ^ 256 := by
      apply pow_le_pow_right₀ (by decide)
      omega
    exact small.trans_le this
  exact follows_push ready rfl onWords (constant_yields nonnegative bounded _) fun _ => rfl

theorem duplicate_follows {depth : Int} (executes : Reference.Executes (.duplicate (some depth))) :
    Follows block machine (Reference.step (.duplicate (some depth))) (Control.duplicate (some depth) machine) := by
  obtain ⟨atLeastOne, atMost⟩ := executes
  have reference : ∀ assignment,
      Reference.step (.duplicate (some depth)) (machine.values assignment) =
        (machine.path.stack[(depth - 1).toNat]?).map fun word =>
          word.value assignment :: machine.values assignment := by
    intro assignment
    simp only [Reference.step, values, List.getElem?_map, Option.map_map]
    rfl
  by_cases short : (machine.path.stack.length : Int) ≤ depth - 1
  · have stops : Control.duplicate (some depth) machine =
        .error .stackUnderflow { machine with path := { machine.path with pc := machine.path.pc + 1 } } := by
      refine (bind_ok (advance_apply _ _)).trans ?_
      simp only [bind_apply, path_apply, short, ↓reduceIte, throw_apply]
    rw [stops]
    intro assignment
    rw [reference, List.getElem?_eq_none (by omega), Option.map_none]
  · have inside : (depth - 1).toNat < machine.path.stack.length := by omega
    have word := List.getElem?_eq_getElem inside
    have found : Sequence.at? machine.path.stack (depth - 1) = some machine.path.stack[(depth - 1).toNat] := by
      have range := Sequence.index?_natCast inside
      rw [Int.toNat_of_nonneg (by omega)] at range
      rw [Sequence.at?, range, Option.bind_some, word]
    have outcome : Control.duplicate (some depth) machine =
        .ok () (machine.atStack (machine.path.stack[(depth - 1).toNat] :: machine.path.stack)) := by
      refine (bind_ok (advance_apply _ _)).trans ?_
      simp only [bind_apply, path_apply, short, ↓reduceIte, found, push_apply]
      rfl
    rw [outcome]
    have copied := onWords _ (List.getElem_mem inside)
    refine follows_push ready rfl onWords ⟨copied, fun _ => rfl⟩ fun assignment => ?_
    rw [reference, word, Option.map_some]
    rfl

theorem swap_follows {depth : Int} (executes : Reference.Executes (.swap (some depth))) :
    Follows block machine (Reference.step (.swap (some depth))) (Control.swap (some depth) machine) := by
  obtain ⟨atLeastOne, atMost⟩ := executes
  obtain ⟨index, rfl⟩ : ∃ index : Nat, depth = index + 1 := ⟨(depth - 1).toNat, by omega⟩
  match stack : machine.path.stack with
  | [] => exact swap_short (by simp [stack])
  | top :: rest =>
    by_cases inside : index < rest.length
    · have topWord := onWords top (by simp [stack])
      have restWords : ∀ word ∈ rest, word.IsMachineWord := by
        intro word member
        exact onWords word (by simp [stack, member])
      have movedWords : ∀ word ∈ rest.set index top, word.IsMachineWord := by
        intro word member
        rcases List.mem_or_eq_of_mem_set member with inRest | rfl
        · exact restWords word inRest
        · exact topWord
      have otherWord := restWords _ (List.getElem_mem inside)
      obtain ⟨gates, sameLoaded, finished⟩ := swap_outcome ready stack inside movedWords
      rw [finished]
      have readyAfter : Ready block machine.session gates :=
        ⟨ready.noAlarm, ready.clock, ready.blocks, ready.instructions, ready.kind,
          by rw [sameLoaded]; exact ready.loaded⟩
      have position : ((index : Int) + 1 - 1).toNat = index := by omega
      refine follows_push readyAfter rfl movedWords ⟨otherWord, fun _ => rfl⟩ fun assignment => ?_
      simp only [values, stack, List.map_cons, Reference.step, position, List.getElem?_map,
        List.getElem?_eq_getElem inside, Option.map_some, List.map_set]
    · apply swap_short
      rw [stack, List.length_cons]
      omega

theorem executePlain_follows {opcode : Opcode} (executes : Reference.Executes (.plain opcode))
    (known : KnowsOperands (.plain opcode) machine.path.stack) :
    Follows block machine (Reference.step (.plain opcode)) (executePlain decider block function opcode machine) := by
  obtain ⟨meaning, found⟩ := Option.isSome_iff_exists.mp executes
  rw [Reference.step_plain found]
  cases opcode <;> cases found <;> simp only [executePlain]
  case add => exact additive_follows ready onWords (show Operation.add = .add ∨ _ from .inl rfl)
  case sub => exact additive_follows ready onWords (show Operation.sub = .add ∨ _ from .inr rfl)
  case mul => exact lifted_follows ready onWords Alu.product_yields
  case mod => exact remainder_follows ready onWords known _
  case addmod =>
    exact modular_follows ready onWords known rfl (· + ·) (fun _ _ => (Nat.cast_add _ _).symm) fun _ _ _ => rfl
  case mulmod =>
    exact modular_follows ready onWords known rfl (· * ·) (fun _ _ => (Nat.cast_mul _ _).symm) fun _ _ _ => rfl
  case exp => exact exponentiation_follows ready onWords known
  case signextend => exact signExtension_follows ready onWords known
  case lt => exact compared_follows ready onWords fun first second => (Alu.less_computes first second).1
  case gt => exact compared_follows ready onWords fun first second => (Alu.less_computes first second).2
  case eq => exact compared_follows ready onWords Alu.equal_computes
  case iszero => exact isZero_follows ready onWords
  case and => exact lifted_follows ready onWords (Alu.bitwise_yields (show Operation.and = .and ∨ _ from .inl rfl))
  case or => exact lifted_follows ready onWords (Alu.bitwise_yields (show Operation.or = .and ∨ _ from .inr (.inl rfl)))
  case xor => exact lifted_follows ready onWords (Alu.bitwise_yields (show Operation.xor = .and ∨ _ from .inr (.inr rfl)))
  case not => exact complement_follows ready onWords
  case byte => exact byte_follows ready onWords known
  case shl => exact shiftLeft_follows ready onWords known
  case pop => exact consume_follows ready onWords
  case jumpdest => exact jumpdest_follows ready onWords

theorem execute_follows (executes : Reference.Executes instruction)
    (known : KnowsOperands instruction machine.path.stack) :
    Follows block machine (Reference.step instruction) (execute decider block function instruction machine) := by
  match instruction with
  | .plain opcode => exact executePlain_follows ready onWords executes known
  | .push (some width) (.ok value) => exact pushConstant_follows ready onWords executes
  | .duplicate (some depth) => exact duplicate_follows ready onWords executes
  | .swap (some depth) => exact swap_follows ready onWords executes
  | .push none _ | .push (some _) (.error _) | .duplicate none | .swap none | .failing | .log _ | .unknown _ =>
    exact executes.elim

theorem step_follows {line : String} (executes : Reference.Executes (ofLine line))
    (known : KnowsOperands (ofLine line) machine.path.stack) :
    Follows block machine (Reference.step (ofLine line)) (step decider block function line machine) := by
  rw [step_eq_execute ready executes]
  have readyCounted : Ready block (machine.counted block function line).session
      (machine.counted block function line).path.gates :=
    ⟨ready.noAlarm, ready.clock, ready.blocks, ready.instructions, ready.kind, ready.loaded⟩
  have sameStack : (machine.counted block function line).path.stack = machine.path.stack := rfl
  exact execute_follows readyCounted onWords executes (by rwa [sameStack])

end

/-- Wherever a run comes to a line, the words that its instruction has to know are numbers. -/
def KnowsAlong (decider : Decider) (block : Int) (function : String) :
    List String → Machine → Prop
  | [], _ => True
  | line :: rest, machine =>
    KnowsOperands (Instruction.ofLine line) machine.path.stack ∧
      ∀ after, step decider block function line machine = .ok () after → KnowsAlong decider block function rest after

theorem knowsAlong_of_none (none : ∀ line ∈ lines, knownOperands (ofLine line) = 0) (machine : Machine) :
    KnowsAlong decider block function lines machine := by
  induction lines generalizing machine with
  | nil => trivial
  | cons line rest ih =>
    refine ⟨?_, fun after _ => ?_⟩
    · rw [KnowsOperands, none line (by simp), List.take_zero]
      exact fun _ member => (List.not_mem_nil member).elim
    · exact ih (fun other member => none other (List.mem_cons_of_mem _ member)) after

theorem run_follows {machine : Machine} (ready : Ready block machine.session machine.path.gates)
    (onWords : machine.OnWords) (executes : ∀ line ∈ lines, Reference.Executes (ofLine line))
    (known : KnowsAlong decider block function lines machine) :
    Follows block machine (Reference.run (lines.map ofLine)) (lines.forM (step decider block function) machine) := by
  induction lines generalizing machine with
  | nil => exact ⟨ready, onWords, fun _ => rfl⟩
  | cons line rest ih =>
    obtain ⟨knownHere, knownAfter⟩ := known
    have here : Follows block machine (Reference.step (ofLine line)) (step decider block function line machine) :=
      step_follows ready onWords (executes line (by simp)) knownHere
    rw [List.forM, bind_apply]
    cases outcome : step decider block function line machine with
    | error fault after =>
      rw [outcome] at here
      intro assignment
      simp only [List.map_cons, Reference.run, here assignment, Option.bind_none]
    | ok value after =>
      rw [outcome] at here
      obtain ⟨readyAfter, onWordsAfter, reaches⟩ := here
      have further :=
        ih readyAfter onWordsAfter
          (fun other member => executes other (List.mem_cons_of_mem _ member))
          (knownAfter after outcome)
      have joined : ∀ assignment,
          Reference.run ((line :: rest).map ofLine) (machine.values assignment) =
            Reference.run (rest.map ofLine) (after.values assignment) := by
        intro assignment
        simp only [List.map_cons, Reference.run, reaches assignment, Option.bind_some]
      dsimp only
      cases last : rest.forM (step decider block function) after with
      | error fault stopped =>
        rw [last] at further
        intro assignment
        rw [joined]
        exact further assignment
      | ok value stopped =>
        rw [last] at further
        refine ⟨further.1, further.2.1, fun assignment => ?_⟩
        rw [joined]
        exact further.2.2 assignment

/-- A run over instructions that compute on the stack is, under every assignment, the run of the reference machine on
the values of the stack: it stops exactly where that finds too few words, and otherwise it ends with machine words that
have the values that the reference machine ends with. -/
theorem run_refines_reference {lines : List String} {start : Machine}
    (ready : Ready block start.session start.path.gates) (onWords : start.OnWords)
    (executes : ∀ line ∈ lines, Reference.Executes (Instruction.ofLine line))
    (known : KnowsAlong decider block function lines start) (assignment : Assignment) :
    ((∃ fault after, lines.forM (step decider block function) start = .error fault after) ↔
      Reference.run (lines.map Instruction.ofLine) (start.values assignment) = none) ∧
    ∀ after,
      lines.forM (step decider block function) start = .ok () after →
        after.OnWords ∧
          Reference.run (lines.map Instruction.ofLine) (start.values assignment) = some (after.values assignment) := by
  have follows := run_follows ready onWords executes known
  cases outcome : lines.forM (step decider block function) start with
  | error fault after =>
    rw [outcome] at follows
    refine ⟨⟨fun _ => follows assignment, fun _ => ⟨fault, after, rfl⟩⟩, ?_⟩
    intro other isOk
    cases isOk
  | ok value after =>
    rw [outcome] at follows
    obtain ⟨_, onWordsAfter, reaches⟩ := follows
    constructor
    · constructor
      · rintro ⟨fault, other, isError⟩
        cases isError
      · intro stops
        rw [reaches assignment] at stops
        cases stops
    · intro other isOk
      obtain ⟨_, rfl⟩ := EStateM.Result.ok.inj isOk
      exact ⟨onWordsAfter, reaches assignment⟩

def numbersAboveSymbol : Machine where
  session :=
    { graph :=
        { instructions := [(0, "STOP")]
          kinds := [(0, .terminal)]
          blocks := [(0, { start := 0, stop := 0, lines := ["STOP"], kind := some .terminal })] } }
  path := { stack := [.integer 3, .integer 2, Word.symbol "x"] }

theorem run_refines_reference_sample :
    ((∃ fault after,
        ["EXP", "ADD", "DUP1", "NOT"].forM (step (fun _ => .satisfiable) 0 "f()") numbersAboveSymbol =
          .error fault after) ↔
      Reference.run (["EXP", "ADD", "DUP1", "NOT"].map Instruction.ofLine)
        (numbersAboveSymbol.values fun _ _ => 7) = none) ∧
    ∀ after,
      ["EXP", "ADD", "DUP1", "NOT"].forM (step (fun _ => .satisfiable) 0 "f()") numbersAboveSymbol = .ok () after →
        after.OnWords ∧
          Reference.run (["EXP", "ADD", "DUP1", "NOT"].map Instruction.ofLine)
            (numbersAboveSymbol.values fun _ _ => 7) = some (after.values fun _ _ => 7) := by
  have ready : Ready 0 numbersAboveSymbol.session numbersAboveSymbol.path.gates :=
    ⟨rfl, rfl, by decide, by decide, ⟨.terminal, rfl, by decide⟩, .inl rfl⟩
  have onWords : numbersAboveSymbol.OnWords := by
    intro word member
    simp only [numbersAboveSymbol, List.mem_cons, List.not_mem_nil, or_false] at member
    rcases member with rfl | rfl | rfl
    · exact ⟨by decide, by decide⟩
    · exact ⟨by decide, by decide⟩
    · exact ⟨trivial, rfl⟩
  have known : KnowsAlong (fun _ => .satisfiable) 0 "f()" ["EXP", "ADD", "DUP1", "NOT"] numbersAboveSymbol := by
    refine ⟨?_, fun after _ => knowsAlong_of_none ?_ after⟩
    · intro word member
      have two : knownOperands (Instruction.ofLine "EXP") = 2 := rfl
      rw [two] at member
      simp only [numbersAboveSymbol, List.take_succ_cons, List.take_zero, List.mem_cons, List.not_mem_nil,
        or_false] at member
      rcases member with rfl | rfl <;> rfl
    · intro line member
      simp only [List.mem_cons, List.not_mem_nil, or_false] at member
      rcases member with rfl | rfl | rfl <;> rfl
  refine run_refines_reference ready onWords ?_ known fun _ _ => 7
  intro line member
  simp only [List.mem_cons, List.not_mem_nil, or_false] at member
  rcases member with rfl | rfl | rfl | rfl
  · exact rfl
  · exact rfl
  · exact (by decide : (1 : Int) ≤ 1 ∧ (1 : Int) ≤ 16)
  · exact rfl

end Machine

end MintAudit
