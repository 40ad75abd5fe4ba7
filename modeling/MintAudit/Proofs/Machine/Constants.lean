import MintAudit.Proofs.Machine.Asking

namespace MintAudit

/-!
# Numbers and constants

A known word stands on the stack as a number or as a constant of the term language.
-/

theorem Word.constant_isMachineWord (value : BitVec 256) : (constant value.toNat).IsMachineWord :=
  Term.ofInt_isWord _

@[simp] theorem Word.value_constant (assignment : Assignment) (value : BitVec 256) :
    (constant value.toNat).value assignment = value := by
  refine (Term.bits_ofInt assignment _).trans ?_
  rw [BitVec.ofInt_natCast, BitVec.ofNat_toNat, BitVec.setWidth_eq]

theorem Machine.possible_const {machine : Machine} (satisfiable : Satisfiable machine.session.scopes.assertions)
    (event : Prop) :
    machine.Possible (fun _ => event) ↔ event := by
  constructor
  · rintro ⟨_, _, holds⟩
    exact holds
  · intro holds
    obtain ⟨assignment, admitted⟩ := satisfiable
    exact ⟨assignment, admitted, holds⟩

def Machine.withStack (machine : Machine) (stack : List Word) : Machine :=
  { machine with path := { machine.path with stack := stack } }

namespace Alu

open Classical Exec Word Machine
open Reference (Value)

/-- Instructions that compute with two numbers in one way and with two terms in another. -/
inductive Twofold where
  | slt | sgt | mod | smod | signextend | byte
  deriving DecidableEq, Repr

namespace Twofold

def opcode : Twofold → Opcode
  | slt => .slt
  | sgt => .sgt
  | mod => .mod
  | smod => .smod
  | signextend => .signextend
  | byte => .byte

noncomputable def onNumbers : Twofold → Value → Value → Value
  | slt, first, second => Reference.bit (asSigned first.toNat < asSigned second.toNat)
  | sgt, first, second => Reference.bit (asSigned second.toNat < asSigned first.toNat)
  | mod, first, second => Reference.remainder first second
  | smod, first, second => if second = 0 then 0 else sign (Flipped first) * (first.abs % second.abs)
  | signextend, index, word => Reference.extendSign index word
  | byte, index, word => Reference.byte index word

noncomputable def onConstants : Twofold → Value → Value → Value
  | slt, first, second => Reference.bit (first.toInt < second.toInt)
  | sgt, first, second => Reference.bit (second.toInt < first.toInt)
  | mod, first, second => Reference.remainder first second
  | smod, first, second => if second = 0 then 0 else sign (first.toInt < 0) * first.abs.smod second.abs
  | signextend, index, word => Reference.extendSign index word
  | byte, index, word => if index.toNat < 32 then chosen index word else 0

/-- Numbers and constants give the same: for a comparison both words are the least one or none is, the least word leaves
no remainder and only zero is divided by it, and the first byte of a word is below its half. -/
def Agree : Twofold → Value → Value → Prop
  | slt, first, second => first = BitVec.intMin 256 ↔ second = BitVec.intMin 256
  | sgt, first, second => first = BitVec.intMin 256 ↔ second = BitVec.intMin 256
  | mod, _, _ => True
  | smod, first, second =>
    if first = BitVec.intMin 256 then
      Reference.signedRemainder first second = 0
    else
      second = BitVec.intMin 256 → first = 0
  | signextend, _, _ => True
  | byte, index, word => ¬ (index = 0 ∧ word.msb = true)

instance : (twofold : Twofold) → (first second : Value) → Decidable (twofold.Agree first second)
  | slt, _, _ => inferInstanceAs (Decidable (_ ↔ _))
  | sgt, _, _ => inferInstanceAs (Decidable (_ ↔ _))
  | mod, _, _ => inferInstanceAs (Decidable True)
  | smod, _, _ => inferInstanceAs (Decidable (ite _ _ _))
  | signextend, _, _ => inferInstanceAs (Decidable True)
  | byte, _, _ => inferInstanceAs (Decidable (¬ (_ ∧ _)))

end Twofold

theorem asSigned_toNat (word : Value) :
    asSigned word.toNat = if word = BitVec.intMin 256 then 2 ^ 255 else word.toInt := by
  have isLeast : word = BitVec.intMin 256 ↔ word.toNat = 2 ^ 255 := by rw [← BitVec.toNat_inj, toNat_least]
  simp only [isLeast]
  rw [BitVec.toInt_eq_toNat_cond]
  unfold asSigned bound
  split <;> split <;> omega

theorem bit_inj {left right : Bool} : Reference.bit left = Reference.bit right ↔ left = right := by
  cases left <;> cases right <;> decide

theorem asSigned_lt_iff (left right : Value) :
    ((asSigned left.toNat < asSigned right.toNat) ↔ left.toInt < right.toInt) ↔
      (left = BitVec.intMin 256 ↔ right = BitVec.intMin 256) := by
  have leftLower := left.le_two_mul_toInt
  have leftUpper := left.two_mul_toInt_lt
  have rightLower := right.le_two_mul_toInt
  have rightUpper := right.two_mul_toInt_lt
  have isLeast (word : Value) : word = BitVec.intMin 256 ↔ word.toInt = -2 ^ 255 := by
    rw [← BitVec.toInt_inj]
    rfl
  rw [asSigned_toNat, asSigned_toNat]
  simp only [isLeast]
  split <;> split <;> omega

theorem sign_mul_inj {negative : Prop} {left right : Value} :
    sign negative * left = sign negative * right ↔ left = right := by
  unfold sign
  split
  · rw [neg_one_mul, neg_one_mul, neg_inj]
  · rw [one_mul, one_mul]

theorem umod_eq_smod_iff {left : Value} (notLeast : left ≠ BitVec.intMin 256) (right : Value) :
    left.abs % right.abs = left.abs.smod right.abs ↔ (right = BitVec.intMin 256 → left = 0) := by
  by_cases rightLeast : right = BitVec.intMin 256
  · subst rightLeast
    by_cases zero : left = 0
    · subst zero
      exact iff_of_true (by decide) fun _ => rfl
    · rw [(abs_smod_least notLeast zero).1, BitVec.abs_intMin, abs_umod_least notLeast, left_eq_add]
      exact iff_of_false (by decide) fun onlyZero => zero (onlyZero rfl)
  · exact iff_of_true (abs_smod_abs notLeast rightLeast).symm fun least => (rightLeast least).elim

theorem least_umod_eq_iff {right : Value} (nonzero : right ≠ 0) :
    (BitVec.intMin 256).abs % right.abs = -(BitVec.intMin 256).abs.smod right.abs ↔
      (BitVec.intMin 256).srem right = 0 := by
  by_cases rightLeast : right = BitVec.intMin 256
  · subst rightLeast
    exact iff_of_true (by decide) BitVec.srem_self
  have negative : (BitVec.intMin 256).toInt < 0 := by decide
  have divisor : right.abs ≠ 0 := (abs_eq_zero_iff right).not.mpr nonzero
  rw [abs_least_smod rightLeast, srem_eq_abs_umod, if_pos negative, neg_eq_zero, BitVec.abs_intMin]
  by_cases none : BitVec.intMin 256 % right.abs = 0#256
  · simp [none]
  · -- Both leave the same remainder, but the constant has the divisor taken from it.
    rw [if_neg none, neg_sub, eq_comm, sub_eq_self]
    exact iff_of_false divisor none

theorem smod_agrees_iff (left right : Value) :
    Twofold.smod.onNumbers left right = Twofold.smod.onConstants left right ↔ Twofold.smod.Agree left right := by
  simp only [Twofold.onNumbers, Twofold.onConstants, Twofold.Agree, Reference.signedRemainder]
  by_cases zero : right = 0
  · subst zero
    refine iff_of_true rfl ?_
    split
    · rfl
    · exact fun least => absurd least (by decide)
  simp only [zero, ↓reduceIte]
  split
  · next least =>
      subst least
      have unflipped : ¬ Flipped (BitVec.intMin 256) := fun flipped => flipped.2 rfl
      have negative : (BitVec.intMin 256).toInt < 0 := by decide
      -- The only word with different signs in the two ways.
      rw [sign, sign, if_neg unflipped, if_pos negative, one_mul, neg_one_mul]
      exact least_umod_eq_iff zero
  · next notLeast =>
      have flipped : Flipped left ↔ left.toInt < 0 := and_iff_left notLeast
      rw [flipped, sign_mul_inj]
      exact umod_eq_smod_iff notLeast right

theorem byte_agrees_iff (index word : Value) :
    Twofold.byte.onNumbers index word = Twofold.byte.onConstants index word ↔ Twofold.byte.Agree index word := by
  simp only [Twofold.onNumbers, Twofold.onConstants, Twofold.Agree]
  by_cases inside : index.toNat < 32
  · have same := chosen_eq_byte_iff index word
    rw [if_pos inside] at same
    rw [if_pos inside, eq_comm]
    exact same
  · have notFirst : index ≠ 0 := by
      rintro rfl
      exact inside (by decide)
    rw [Reference.byte, if_neg inside, if_neg inside]
    exact iff_of_true rfl fun first => notFirst first.1

theorem onNumbers_eq_onConstants_iff (twofold : Twofold) (first second : Value) :
    twofold.onNumbers first second = twofold.onConstants first second ↔ twofold.Agree first second := by
  cases twofold with
  | slt => exact bit_inj.trans (decide_eq_decide.trans (asSigned_lt_iff first second))
  | sgt => exact bit_inj.trans (decide_eq_decide.trans ((asSigned_lt_iff second first).trans Iff.comm))
  | mod => exact iff_of_true rfl trivial
  | smod => exact smod_agrees_iff first second
  | signextend => exact iff_of_true rfl trivial
  | byte => exact byte_agrees_iff first second

theorem asSigned_neg_iff (word : Value) : asSigned word.toNat < 0 ↔ Flipped word := by
  rw [asSigned_toNat, Flipped]
  split
  · next least => exact iff_of_false (by decide) fun flipped => flipped.2 least
  · next notLeast => exact (and_iff_left notLeast).symm

theorem natAbs_asSigned (word : Value) : (asSigned word.toNat).natAbs = word.abs.toNat := by
  rw [asSigned_toNat]
  split
  · next least =>
      rw [least, BitVec.abs_intMin, toNat_least]
      rfl
  · have bounded := word.isLt
    rw [BitVec.toNat_abs, BitVec.msb_eq_toInt, BitVec.toInt_eq_toNat_cond]
    simp only [decide_eq_true_eq]
    split <;> split <;> omega

theorem signedRemainder_spec (first second : Value) :
    ∃ number,
      signedRemainder first.toNat second.toNat = .integer number ∧
        BitVec.ofInt 256 number = Twofold.smod.onNumbers first second := by
  have isZero : (second.toNat : Int) = 0 ↔ second = 0 := by
    rw [Int.natCast_eq_zero, ← BitVec.toNat_inj]
    rfl
  simp only [signedRemainder, Twofold.onNumbers, isZero]
  split
  · exact ⟨0, rfl, rfl⟩
  · refine ⟨_, rfl, ?_⟩
    rw [natAbs_asSigned, natAbs_asSigned, ← Int.ofNat_fmod, ← BitVec.toNat_umod]
    simp only [asSigned_neg_iff, sign]
    split
    · rw [BitVec.ofInt_neg, BitVec.ofInt_natCast, BitVec.ofNat_toNat, BitVec.setWidth_eq, neg_one_mul]
    · rw [BitVec.ofInt_natCast, BitVec.ofNat_toNat, BitVec.setWidth_eq, one_mul]

variable {decider : Decider} {machine : Machine} {rest : List Word} {block : Int} {function : String}

theorem Computes.replaces {first second : Word} {compute : Word → Word → Exec Word} {meaning : Assignment → Value}
    (stack : machine.path.stack = first :: second :: rest) (computes : Computes (compute first second) meaning) :
    Replaces machine (binary compute) rest meaning := by
  obtain ⟨result, returns, yields⟩ := computes
  exact binary_replaces stack rfl ⟨result, returns _, yields.simplified.value⟩

theorem numbers_replaces (twofold : Twofold) {first second : Value}
    (stack : machine.path.stack = .integer first.toNat :: .integer second.toNat :: rest) :
    Replaces machine (executePlain decider block function twofold.opcode) rest fun _ =>
      twofold.onNumbers first second := by
  have same (word : Value) : BitVec.ofNat 256 word.toNat = word := by rw [BitVec.ofNat_toNat, BitVec.setWidth_eq]
  cases twofold with
  | slt => exact Computes.replaces stack ⟨bit _, fun _ => rfl, yields_bit fun _ => rfl⟩
  | sgt => exact Computes.replaces stack ⟨bit _, fun _ => rfl, yields_bit fun _ => rfl⟩
  | mod =>
    have yields := remainder_yields first.isLt second.isLt
    rw [same, same] at yields
    exact Computes.replaces stack ⟨remainder first.toNat second.toNat, fun _ => rfl, yields⟩
  | smod =>
    obtain ⟨number, computed, value⟩ := signedRemainder_spec first second
    have answers : Answers (machine.atStack rest) (lift (.ok (signedRemainder first.toNat second.toNat))) fun _ =>
        Twofold.smod.onNumbers first second :=
      answers_number (by rw [computed]; rfl) fun _ => value
    exact binary_replaces stack rfl answers
  | signextend =>
    have computes := extendSign_computes first.isLt second.isLt
    rw [same, same] at computes
    exact Computes.replaces stack computes
  | byte =>
    obtain ⟨found, executed, _, value⟩ := byte_numbers stack first.isLt second.isLt
    refine ⟨.integer found, executed, fun assignment => ?_⟩
    rw [value_number, value, same, same]
    rfl

theorem Replaces.congr {computation : Exec Unit} {meaning other : Assignment → Value}
    (replaces : Replaces machine computation rest meaning)
    (same : ∀ assignment, meaning assignment = other assignment) :
    Replaces machine computation rest other := by
  obtain ⟨result, returns, value⟩ := replaces
  exact ⟨result, returns, fun assignment => (value assignment).trans (same assignment)⟩

variable (sound : decider.Sound) (complete : decider.Complete)
    (satisfiable : Satisfiable machine.session.scopes.assertions)

theorem comparison_replaces {relation : Relation} {concrete : Int → Int → Bool} {first second : Value} {test : Bool}
    (stack : machine.path.stack = Word.constant first.toNat :: Word.constant second.toNat :: rest)
    (tests : test = true ↔ relation.onNumbers first.toInt second.toInt) :
    Replaces machine (comparison concrete (Word.relate relation)) rest fun _ => Reference.bit test := by
  have firstWord : (Term.ofInt 256 first.toNat).IsWord := Term.ofInt_isWord _
  have secondWord : (Term.ofInt 256 second.toNat).IsWord := Term.ofInt_isWord _
  have sorted := test_sorted (show relation.onTerms.isTest = true by cases relation <;> rfl)
    (by cases relation <;> decide) firstWord secondWord
  have computes : Computes
      (compared concrete (Word.relate relation) (Word.constant first.toNat) (Word.constant second.toNat))
      fun _ => Reference.bit test := by
    refine compared_computes (.inl rfl) (relate_term firstWord relation secondWord) sorted fun assignment => ?_
    have holds := Term.holds_onTerms assignment relation firstWord secondWord
    have firstBits : (Term.ofInt 256 first.toNat).bits assignment = first := value_constant assignment first
    have secondBits : (Term.ofInt 256 second.toNat).bits assignment = second := value_constant assignment second
    rw [firstBits, secondBits, ← tests] at holds
    exact congrArg Reference.bit (Bool.eq_iff_iff.mpr (holds.symm.trans decide_eq_true_iff.symm))
  exact Computes.replaces stack computes

include sound complete satisfiable in
theorem constants_replaces (twofold : Twofold) {first second : Value}
    (stack : machine.path.stack = Word.constant first.toNat :: Word.constant second.toNat :: rest) :
    Replaces machine (executePlain decider block function twofold.opcode) rest fun _ =>
      twofold.onConstants first second := by
  have firstWord := constant_isMachineWord first
  have secondWord := constant_isMachineWord second
  have unknown : (Word.constant first.toNat).isConcrete = false ∨ (Word.constant second.toNat).isConcrete = false :=
    .inl rfl
  cases twofold with
  | slt => exact comparison_replaces stack decide_eq_true_iff
  | sgt => exact comparison_replaces stack decide_eq_true_iff
  | mod =>
    have replaces := unsigned_replaces sound complete stack firstWord secondWord unknown
      (show BinaryOp.urem.isWordwise = true from rfl) Term.bits_urem fun first second => .ok (remainder first second)
    simp only [value_constant, possible_const satisfiable] at replaces
    exact Replaces.congr replaces fun _ => ite_not _ _ _
  | smod =>
    have replaces := smod_replaces sound complete stack firstWord secondWord unknown
    simp only [value_constant, possible_const satisfiable] at replaces
    refine Replaces.congr replaces fun _ => ?_
    by_cases zero : second = 0
    · exact (if_neg (not_not.mpr zero)).trans (if_pos zero).symm
    · rw [if_pos zero, and_iff_right zero]
      exact (if_neg zero).symm
  | signextend =>
    have replaces := signExtension_replaces sound complete stack firstWord secondWord unknown
    simp only [value_constant, possible_const satisfiable] at replaces
    refine Replaces.congr replaces fun _ => ?_
    by_cases inside : first.toNat < 32
    · rw [if_pos inside]
      refine (filled_eq_extendSign_iff _ first second).mpr ?_
      rw [if_pos inside, and_signBit_eq_zero_iff inside]
      simp [inside]
    · exact (if_neg inside).trans (if_neg inside).symm
  | byte =>
    have replaces := byte_replaces sound complete stack firstWord secondWord unknown
    simp only [value_constant, possible_const satisfiable] at replaces
    exact replaces

end Alu

namespace Machine

open Alu Word
open Reference (Value)

theorem step_pushes {decider : Decider} {block : Int} {function line : String} {machine : Machine} {opcode : Opcode}
    {rest : List Word} {meaning : Assignment → Value}
    (replaces :
      Replaces (machine.counted block function line) (executePlain decider block function opcode) rest meaning)
    (underway : Underway machine.session)
    (instruction : Instruction.ofLine line = .plain opcode) :
    ∃ result after,
      step decider block function line machine = .ok () after ∧ after.path.stack = result :: rest ∧
        ∀ assignment, result.value assignment = meaning assignment := by
  obtain ⟨result, executed, same⟩ := replaces
  rw [step_of_plain underway instruction]
  exact ⟨result, _, executed, rfl, same⟩

/-- Two known words as numbers and as constants: the instruction returns for both, and what it pushes has the same value
exactly where `Twofold.Agree` says. -/
theorem step_numbers_eq_constants_iff {decider : Decider} (sound : decider.Sound) (complete : decider.Complete)
    (block : Int) (function : String) {line : String} {machine : Machine} (underway : Underway machine.session)
    (satisfiable : Satisfiable machine.session.scopes.assertions) {twofold : Twofold}
    (instruction : Instruction.ofLine line = .plain twofold.opcode) (first second : Value) (rest : List Word) :
    ∃ number constant numberAfter constantAfter,
      step decider block function line
          (machine.withStack (.integer first.toNat :: .integer second.toNat :: rest)) = .ok () numberAfter ∧
        numberAfter.path.stack = number :: rest ∧
        step decider block function line
          (machine.withStack (Word.constant first.toNat :: Word.constant second.toNat :: rest)) = .ok () constantAfter ∧
        constantAfter.path.stack = constant :: rest ∧
        ∀ assignment, number.value assignment = constant.value assignment ↔ twofold.Agree first second := by
  have numbers :
      Replaces
        ((machine.withStack (.integer first.toNat :: .integer second.toNat :: rest)).counted block function line)
        (executePlain decider block function twofold.opcode) rest fun _ => twofold.onNumbers first second :=
    numbers_replaces twofold rfl
  have constants :
      Replaces
        ((machine.withStack (Word.constant first.toNat :: Word.constant second.toNat :: rest)).counted
          block function line)
        (executePlain decider block function twofold.opcode) rest fun _ => twofold.onConstants first second := by
    apply constants_replaces sound complete
    · exact satisfiable
    · rfl
  obtain ⟨number, numberAfter, numberStep, numberStack, numberValue⟩ := step_pushes numbers underway instruction
  obtain ⟨constant, constantAfter, constantStep, constantStack, constantValue⟩ :=
    step_pushes constants underway instruction
  refine ⟨number, constant, numberAfter, constantAfter, numberStep, numberStack, constantStep, constantStack, ?_⟩
  intro assignment
  rw [numberValue, constantValue]
  exact onNumbers_eq_onConstants_iff twofold first second

theorem step_numbers_eq_constants_iff_least :
    ∃ number constant numberAfter constantAfter,
      step Decider.exact 0 "f()" "SLT" (twoSymbols.withStack [.integer (2 ^ 255), .integer 0]) = .ok () numberAfter ∧
        numberAfter.path.stack = [number] ∧
        step Decider.exact 0 "f()" "SLT" (twoSymbols.withStack [Word.constant (2 ^ 255), Word.constant 0]) =
          .ok () constantAfter ∧
        constantAfter.path.stack = [constant] ∧
        ∀ assignment, number.value assignment ≠ constant.value assignment := by
  have underway : Underway twoSymbols.session := ⟨by decide, rfl, by decide, by decide⟩
  have satisfiable : Satisfiable twoSymbols.session.scopes.assertions :=
    ⟨fun _ _ => 0, fun _ member => absurd member List.not_mem_nil⟩
  have instruction : Instruction.ofLine "SLT" = .plain Twofold.slt.opcode := rfl
  obtain ⟨number, constant, numberAfter, constantAfter, numberStep, numberStack, constantStep, constantStack, agree⟩ :=
    step_numbers_eq_constants_iff Decider.exact_sound Decider.exact_complete 0 "f()" underway satisfiable instruction
      (BitVec.intMin 256) 0 []
  refine ⟨number, constant, numberAfter, constantAfter, numberStep, numberStack, constantStep, constantStack, ?_⟩
  intro assignment same
  exact absurd ((agree assignment).mp same) (by decide)

end Machine

end MintAudit
