import MintAudit.Machine.Memory
import MintAudit.Proofs.Word.Signed

namespace MintAudit

/-!
# Arithmetic means what the reference says

What the arithmetic of the symbolic machine computes from two machine words is a machine word with the value that the
reference machine computes from theirs, whichever of the operands are numbers and whichever are terms.
-/

/-! ## A reference machine on words -/

namespace Reference

abbrev Value := BitVec 256

def bit (test : Bool) : Value :=
  if test then 1 else 0

def remainder (left right : Value) : Value :=
  if right = 0 then 0 else left % right

def addModulo (first second modulus : Value) : Value :=
  if modulus = 0 then 0 else BitVec.ofNat 256 ((first.toNat + second.toNat) % modulus.toNat)

def mulModulo (first second modulus : Value) : Value :=
  if modulus = 0 then 0 else BitVec.ofNat 256 ((first.toNat * second.toNat) % modulus.toNat)

def power (base exponent : Value) : Value :=
  BitVec.ofNat 256 (base.toNat ^ exponent.toNat)

/-- The word whose bytes above an index repeat the sign of the byte there. -/
def extendSign (index word : Value) : Value :=
  if index.toNat < 32 then
    (word.setWidth (8 * (index.toNat + 1))).signExtend 256
  else
    word

def byte (index word : Value) : Value :=
  if index.toNat < 32 then
    (word >>> (8 * (31 - index.toNat))) &&& 255
  else
    0

inductive Meaning where
  | keep
  | discard
  | unary (compute : Value → Value)
  | binary (compute : Value → Value → Value)
  | ternary (compute : Value → Value → Value → Value)

def Meaning.apply : Meaning → List Value → Option (List Value)
  | keep, stack => some stack
  | discard, _ :: rest => some rest
  | unary compute, first :: rest => some (compute first :: rest)
  | binary compute, first :: second :: rest => some (compute first second :: rest)
  | ternary compute, first :: second :: third :: rest => some (compute first second third :: rest)
  | _, _ => none

def Meaning.arity : Meaning → Nat
  | keep => 0
  | discard => 1
  | unary _ => 1
  | binary _ => 2
  | ternary _ => 3

theorem Meaning.apply_eq_none {meaning : Meaning} {stack : List Value} (short : stack.length < meaning.arity) :
    meaning.apply stack = none := by
  match meaning, stack with
  | keep, _ => exact (Nat.not_lt_zero _ short).elim
  | discard, [] => rfl
  | unary _, [] => rfl
  | binary _, [] => rfl
  | binary _, [_] => rfl
  | ternary _, [] => rfl
  | ternary _, [_] => rfl
  | ternary _, [_, _] => rfl
  | discard, _ :: _ =>
    simp only [arity, List.length_cons] at short
    omega
  | unary _, _ :: _ =>
    simp only [arity, List.length_cons] at short
    omega
  | binary _, _ :: _ :: _ =>
    simp only [arity, List.length_cons] at short
    omega
  | ternary _, _ :: _ :: _ :: _ =>
    simp only [arity, List.length_cons] at short
    omega

/-- The instructions without operands in the listing; the top of the stack is the first operand. -/
def meaning? : Opcode → Option Meaning
  | .jumpdest => some .keep
  | .pop => some .discard
  | .iszero => some (.unary fun word => bit (word == 0))
  | .not => some (.unary fun word => ~~~word)
  | .add => some (.binary (· + ·))
  | .mul => some (.binary (· * ·))
  | .sub => some (.binary (· - ·))
  | .mod => some (.binary remainder)
  | .exp => some (.binary power)
  | .signextend => some (.binary extendSign)
  | .lt => some (.binary fun left right => bit (left.ult right))
  | .gt => some (.binary fun left right => bit (right.ult left))
  | .eq => some (.binary fun left right => bit (left == right))
  | .and => some (.binary (· &&& ·))
  | .or => some (.binary (· ||| ·))
  | .xor => some (.binary (· ^^^ ·))
  | .byte => some (.binary byte)
  | .shl => some (.binary fun count word => word <<< count.toNat)
  | .addmod => some (.ternary addModulo)
  | .mulmod => some (.ternary mulModulo)
  | _ => none

/-- The instructions that the machine has: constants of one to 32 bytes, copies and exchanges within the first
seventeen words, and computations. -/
def Executes : Instruction → Prop
  | .plain opcode => (meaning? opcode).isSome
  | .push (some width) (.ok value) => 1 ≤ width ∧ width ≤ 32 ∧ 0 ≤ value ∧ value < 2 ^ (8 * width.toNat)
  | .duplicate (some depth) => 1 ≤ depth ∧ depth ≤ 16
  | .swap (some depth) => 1 ≤ depth ∧ depth ≤ 16
  | _ => False

def step : Instruction → List Value → Option (List Value)
  | .plain opcode, stack => (meaning? opcode).bind (·.apply stack)
  | .push _ (.ok value), stack => some (BitVec.ofInt 256 value :: stack)
  | .duplicate (some depth), stack => (stack[(depth - 1).toNat]?).map (· :: stack)
  | .swap (some depth), top :: rest =>
    (rest[(depth - 1).toNat]?).map fun other => other :: rest.set (depth - 1).toNat top
  | _, _ => none

theorem step_plain {opcode : Opcode} {meaning : Meaning} (found : meaning? opcode = some meaning) :
    step (.plain opcode) = meaning.apply := by
  funext stack
  simp only [step, found, Option.bind_some]

def run : List Instruction → List Value → Option (List Value)
  | [], stack => some stack
  | instruction :: rest, stack => (step instruction stack).bind (run rest)

end Reference

/-! ## Arithmetic instructions on machine words -/

open BitVec

theorem Word.IsMachineWord.symbolic {word : Word} (machineWord : word.IsMachineWord) :
    word.symbolic.Yields (fun assignment => word.value assignment) ∧ word.symbolic.isConcrete = false := by
  rcases machineWord.kinds with ⟨number, _, rfl⟩ | ⟨term, isWord, rfl⟩
  · refine ⟨yields_term (Term.ofInt_isWord number) fun assignment => ?_, rfl⟩
    exact Term.bits_ofInt assignment number
  · exact ⟨⟨isWord, fun _ => rfl⟩, rfl⟩

namespace Alu

open Word

variable {left right : Word} {meaning : Assignment → BitVec 256} {index number : Nat}

theorem modulo_bound_yields {term : Term} (isWord : term.IsWord) :
    ∃ result, (Word.term term).modulo bound = .ok result ∧ result.Yields fun assignment => term.bits assignment := by
  refine ⟨.term (.binary .smod term (Term.ofInt 256 bound)), ?_, ?_⟩
  · simp only [modulo, isWord.kind]
  · have reducedWord : (Term.binary .smod term (Term.ofInt 256 bound)).IsWord :=
      isWord.binary rfl (Term.ofInt_isWord bound)
    apply yields_term reducedWord
    intro assignment
    apply eq_of_toNat_eq
    rw [reducedWord.toNat_bits, isWord.toNat_bits]
    have zero : (Term.ofInt 256 bound).eval assignment = 0 := by simp [Term.ofInt, Term.eval, wrap, bound]
    simp only [Term.eval, zero, BinaryOp.apply, ↓reduceIte]

theorem ofInt_onIntegers (op : Operation) (left right : Nat) :
    BitVec.ofInt 256 (op.onIntegers left right) = op.onBits (BitVec.ofNat 256 left) (BitVec.ofNat 256 right) := by
  apply eq_of_toNat_eq
  cases op with
  | add =>
    simp only [Operation.onIntegers, Operation.onBits, toNat_ofInt, toNat_add, toNat_ofNat]
    omega
  | sub =>
    simp only [Operation.onIntegers, Operation.onBits, toNat_ofInt, toNat_sub, toNat_ofNat]
    omega
  | mul =>
    simp only [Operation.onIntegers, Operation.onBits, toNat_ofInt, toNat_mul, toNat_ofNat]
    rw [← Nat.mul_mod, ← Nat.cast_mul, ← Int.natCast_mod, Int.toNat_natCast]
  | and =>
    have asNumber : Operation.and.onIntegers left right = ((left &&& right : Nat) : Int) := rfl
    rw [asNumber, ofInt_natCast]
    simp only [Operation.onBits, toNat_and, toNat_ofNat, Nat.and_mod_two_pow]
  | or =>
    have asNumber : Operation.or.onIntegers left right = ((left ||| right : Nat) : Int) := rfl
    rw [asNumber, ofInt_natCast]
    simp only [Operation.onBits, toNat_or, toNat_ofNat, Nat.or_mod_two_pow]
  | xor =>
    have asNumber : Operation.xor.onIntegers left right = ((left ^^^ right : Nat) : Int) := rfl
    rw [asNumber, ofInt_natCast]
    simp only [Operation.onBits, toNat_xor, toNat_ofNat, Nat.xor_mod_two_pow]

theorem yields_reduced {number : Int} (same : ∀ assignment, BitVec.ofInt 256 number = meaning assignment) :
    (Word.integer (number % 2 ^ 256)).Yields meaning := by
  refine ⟨⟨Int.emod_nonneg _ (by decide), Int.emod_lt_of_pos _ (by decide)⟩, fun assignment => ?_⟩
  rw [← same assignment]
  apply eq_of_toNat_eq
  simp only [value, toNat_ofInt]
  omega

variable {word : Word} {condition : Term} {symbolic : Word → Word → Except Fault Flag} {concrete : Int → Int → Bool}
    {first second : Word}

theorem keepBits_yields (yields : word.Yields meaning) (symbolic : word.isConcrete = false) :
    ∃ result, word.and (.integer allOnes) = .ok result ∧ result.Yields meaning := by
  have onesWord : (Word.integer allOnes).IsMachineWord := ⟨by decide, by decide⟩
  obtain ⟨term, operated, isWord, termBits⟩ := operate_yields .and yields.machineWord onesWord (.inl symbolic)
  refine ⟨.term term, operated, yields_term isWord fun assignment => ?_⟩
  have ones : (Word.integer allOnes).value assignment = BitVec.allOnes 256 := by
    simp only [value]
    decide
  rw [termBits, ones, yields.value]
  exact BitVec.and_allOnes

theorem maskedProduct_yields {left right first second : Word}
    (firstYields : first.Yields fun assignment => left.value assignment)
    (secondYields : second.Yields fun assignment => right.value assignment)
    (kinds :
      (∃ leftNumber rightNumber : Nat, first = .integer leftNumber ∧ second = .integer rightNumber) ∨
        (first.isConcrete = false ∨ second.isConcrete = false)) :
    ∃ raw result,
      first.mul second = .ok raw ∧ raw.and (.integer allOnes) = .ok result ∧
        result.Yields fun assignment => left.value assignment * right.value assignment := by
  rcases kinds with ⟨leftNumber, rightNumber, rfl, rfl⟩ | symbolic
  · refine ⟨.integer (leftNumber * rightNumber), .integer ((leftNumber * rightNumber) % 2 ^ 256), rfl, ?_, ?_⟩
    · rw [← Bitwise.and_allOnes]
      rfl
    · apply yields_reduced
      intro assignment
      rw [← firstYields.value, ← secondYields.value, value_number, value_number]
      exact ofInt_onIntegers .mul leftNumber rightNumber
  · obtain ⟨term, operated, isWord, termBits⟩ :=
      operate_yields .mul firstYields.machineWord secondYields.machineWord symbolic
    have termYields : (Word.term term).Yields fun assignment =>
        left.value assignment * right.value assignment := by
      apply yields_term isWord
      intro assignment
      rw [termBits, firstYields.value, secondYields.value]
      rfl
    obtain ⟨result, masked, resultYields⟩ := keepBits_yields termYields rfl
    exact ⟨.term term, result, operated, masked, resultYields⟩

theorem complement_yields (machineWord : word.IsMachineWord) :
    ∃ flipped result,
      word.complement = .ok flipped ∧ flipped.and (.integer allOnes) = .ok result ∧
        result.Yields fun assignment => ~~~(word.value assignment) := by
  rcases machineWord.kinds with ⟨number, bounded, rfl⟩ | ⟨term, isWord, rfl⟩
  · refine ⟨.integer (-1 - number), .integer ((-1 - number) % 2 ^ 256), rfl, ?_, ?_⟩
    · rw [← Bitwise.and_allOnes]
      rfl
    · apply yields_reduced
      intro assignment
      apply eq_of_toNat_eq
      rw [value_number]
      simp only [toNat_ofInt, toNat_not, toNat_ofNat]
      omega
  · have flippedWord : (Term.unary .complement term).IsWord := by
      refine ⟨⟨isWord.sorted, ?_⟩, isWord.kind⟩
      rw [isWord.kind]
      trivial
    have flippedYields : (Word.term (.unary .complement term)).Yields fun assignment =>
        ~~~((Word.term term).value assignment) := by
      apply yields_term flippedWord
      intro assignment
      apply eq_of_toNat_eq
      rw [flippedWord.toNat_bits, toNat_not, value, isWord.toNat_bits]
      simp only [Term.eval, UnaryOp.apply, Term.width_eq isWord.kind]
    obtain ⟨result, masked, resultYields⟩ := keepBits_yields flippedYields rfl
    refine ⟨.term (.unary .complement term), result, ?_, masked, resultYields⟩
    simp only [Word.complement, isWord.kind]

theorem yields_bit {test : Bool} (same : ∀ assignment, meaning assignment = Reference.bit test) :
    (bit test).Yields meaning := by
  cases test with
  | true => exact ⟨⟨by decide, by decide⟩, fun assignment => (same assignment).symm⟩
  | false => exact ⟨⟨by decide, by decide⟩, fun assignment => (same assignment).symm⟩

theorem flagBit_yields (sorted : condition.WellSorted) (kind : condition.kind = .condition) :
    ∃ result,
      (Flag.condition condition).bit = .ok result ∧
        result.Yields fun assignment => Reference.bit (decide (condition.eval assignment ≠ 0)) := by
  have choiceWord : (Term.choice condition (.literal size 1) (.literal size 0)).IsWord :=
    ⟨⟨sorted, trivial, trivial, kind, rfl⟩, rfl⟩
  refine ⟨_, rfl, yields_term choiceWord fun assignment => ?_⟩
  unfold Term.bits
  by_cases holds : condition.eval assignment = 0
  · simp [Term.eval, holds, Reference.bit]
  · simp [Term.eval, holds, Reference.bit, size]

theorem test_sorted {op : BinaryOp} (test : op.isTest = true) (notLogical : op ≠ .both ∧ op ≠ .either)
    {left right : Term} (leftWord : left.IsWord) (rightWord : right.IsWord) :
    (Term.binary op left right).WellSorted ∧ (Term.binary op left right).kind = .condition := by
  refine ⟨⟨leftWord.sorted, rightWord.sorted, ?_⟩, Term.kind_test test left right⟩
  rw [leftWord.kind, rightWord.kind]
  cases op <;> simp_all [BinaryOp.isTest, BinaryOp.Takes]

def Computes (computation : Exec Word) (meaning : Assignment → BitVec 256) : Prop :=
  ∃ result, (∀ machine, computation machine = .ok result machine) ∧ result.Yields meaning

def compared (concrete : Int → Int → Bool) (symbolic : Word → Word → Except Fault Flag)
    (first second : Word) : Exec Word :=
  match first.concrete?, second.concrete? with
  | some firstValue, some secondValue => pure (bit (concrete firstValue secondValue))
  | _, _ => do Exec.lift (← Exec.lift (symbolic first second)).bit

theorem comparison_eq (concrete : Int → Int → Bool) (symbolic : Word → Word → Except Fault Flag) :
    comparison concrete symbolic = binary (compared concrete symbolic) := rfl

theorem compared_number (concrete : Int → Int → Bool) (symbolic : Word → Word → Except Fault Flag)
    (first second : Int) :
    compared concrete symbolic (.integer first) (.integer second) = pure (bit (concrete first second)) := rfl

theorem compared_symbolic (unknown : first.isConcrete = false ∨ second.isConcrete = false) :
    compared concrete symbolic first second =
      (Exec.lift (symbolic first second) >>= fun flag => Exec.lift flag.bit) := by
  unfold compared isConcrete at *
  rcases unknown with firstUnknown | secondUnknown
  · cases found : first.concrete? with
    | none => rfl
    | some value => simp [found] at firstUnknown
  · cases found : second.concrete? with
    | none => cases first.concrete? <;> rfl
    | some value => simp [found] at secondUnknown

theorem compared_computes (unknown : first.isConcrete = false ∨ second.isConcrete = false)
    (compares : symbolic first second = .ok (.condition condition))
    (sorted : condition.WellSorted ∧ condition.kind = .condition)
    (same : ∀ assignment, meaning assignment = Reference.bit (decide (condition.eval assignment ≠ 0))) :
    Computes (compared concrete symbolic first second) meaning := by
  obtain ⟨result, asBit, yields⟩ := flagBit_yields sorted.1 sorted.2
  refine ⟨result, fun machine => ?_, yields.machineWord, fun assignment => ?_⟩
  · rw [compared_symbolic unknown, compares]
    simp only [Exec.lift, pure_bind, asBit]
    rfl
  · rw [yields.value, same]

theorem unsigned_natCast (number : Nat) : unsigned number = number := by
  have : ¬ ((number : Int) < 0) := by omega
  simp [unsigned, this]

section

variable (leftWord : left.IsMachineWord) (rightWord : right.IsMachineWord)
include leftWord rightWord

theorem matched_spec :
    (matched left right).1.Yields (fun assignment => left.value assignment) ∧
      (matched left right).2.Yields (fun assignment => right.value assignment) ∧
      (if left.isConcrete ∧ right.isConcrete then
        matched left right = (left, right)
      else
        (matched left right).1.isConcrete = false ∨ (matched left right).2.isConcrete = false) := by
  have leftSelf : left.Yields (fun assignment => left.value assignment) := ⟨leftWord, fun _ => rfl⟩
  have rightSelf : right.Yields (fun assignment => right.value assignment) := ⟨rightWord, fun _ => rfl⟩
  unfold matched
  cases leftConcrete : left.isConcrete <;> cases rightConcrete : right.isConcrete
  · exact ⟨leftSelf, rightSelf, by simp [leftConcrete]⟩
  · exact ⟨leftSelf, rightWord.symbolic.1, by simp [leftConcrete]⟩
  · exact ⟨leftWord.symbolic.1, rightSelf, by simp [rightConcrete]⟩
  · exact ⟨leftSelf, rightSelf, by simp⟩

theorem numbers_or_symbolic :
    (∃ leftNumber rightNumber : Nat,
      leftNumber < 2 ^ 256 ∧ rightNumber < 2 ^ 256 ∧ left = .integer leftNumber ∧ right = .integer rightNumber) ∨
      (left.isConcrete = false ∨ right.isConcrete = false) := by
  rcases leftWord.kinds with ⟨leftNumber, leftBound, rfl⟩ | ⟨leftTerm, _, rfl⟩
  · rcases rightWord.kinds with ⟨rightNumber, rightBound, rfl⟩ | ⟨rightTerm, _, rfl⟩
    · exact .inl ⟨leftNumber, rightNumber, leftBound, rightBound, rfl, rfl⟩
    · exact .inr (.inr rfl)
  · exact .inr (.inl rfl)

theorem additive_yields {op : Operation} (isAdditive : op = .add ∨ op = .sub) :
    ∃ result,
      additive op left right = .ok result ∧
        result.Yields fun assignment => op.onBits (left.value assignment) (right.value assignment) := by
  obtain ⟨firstYields, secondYields, kinds⟩ := matched_spec leftWord rightWord
  rcases numbers_or_symbolic leftWord rightWord with
      ⟨leftNumber, rightNumber, leftBound, rightBound, rfl, rfl⟩ | symbolic
  · refine ⟨.integer (op.onIntegers leftNumber rightNumber % 2 ^ 256), ?_, ?_⟩
    · rcases isAdditive with rfl | rfl <;> rw [← Int.fmod_eq_emod_of_nonneg _ (by decide)] <;> rfl
    · apply yields_reduced
      intro assignment
      rw [ofInt_onIntegers, value_number, value_number]
  · have mixed : ¬ (left.isConcrete = true ∧ right.isConcrete = true) := by
      rintro ⟨leftConcrete, rightConcrete⟩
      simp [leftConcrete, rightConcrete] at symbolic
    rw [if_neg mixed] at kinds
    obtain ⟨term, operated, isWord, termBits⟩ :=
      operate_yields op firstYields.machineWord secondYields.machineWord kinds
    have termYields : (Word.term term).Yields fun assignment =>
        op.onBits (left.value assignment) (right.value assignment) := by
      apply yields_term isWord
      intro assignment
      rw [termBits, firstYields.value, secondYields.value]
    unfold additive
    simp only [operated]
    -- Two symbolic operands are reduced once more, which changes nothing.
    by_cases sameKind : left.isConcrete == right.isConcrete
    · obtain ⟨reduced, reduces, reducedYields⟩ := modulo_bound_yields isWord
      refine ⟨reduced.simplified, ?_, ?_⟩
      · simp only [sameKind, ↓reduceIte, bind, Except.bind, reduces, pure, Except.pure]
      · apply Yields.simplified
        exact ⟨reducedYields.machineWord, fun assignment =>
          (reducedYields.value assignment).trans (termYields.value assignment)⟩
    · refine ⟨(Word.term term).simplified, ?_, termYields.simplified⟩
      simp only [sameKind, Bool.false_eq_true, ↓reduceIte, bind, Except.bind, pure, Except.pure]

theorem matched_kinds :
    (∃ leftNumber rightNumber : Nat,
      (matched left right).1 = .integer leftNumber ∧ (matched left right).2 = .integer rightNumber) ∨
      ((matched left right).1.isConcrete = false ∨ (matched left right).2.isConcrete = false) := by
  obtain ⟨_, _, kinds⟩ := matched_spec leftWord rightWord
  rcases numbers_or_symbolic leftWord rightWord with
      ⟨leftNumber, rightNumber, _, _, rfl, rfl⟩ | symbolic
  · exact .inl ⟨leftNumber, rightNumber, rfl, rfl⟩
  · right
    rw [if_neg] at kinds
    · exact kinds
    · rintro ⟨leftConcrete, rightConcrete⟩
      simp [leftConcrete, rightConcrete] at symbolic

theorem product_yields :
    ∃ result,
      product left right = .ok result ∧
        result.Yields fun assignment => left.value assignment * right.value assignment := by
  obtain ⟨firstYields, secondYields, _⟩ := matched_spec leftWord rightWord
  obtain ⟨raw, result, multiplied, masked, yields⟩ :=
    maskedProduct_yields firstYields secondYields (matched_kinds leftWord rightWord)
  refine ⟨result.simplified, ?_, yields.simplified⟩
  simp only [product, multiplied, masked, bind, Except.bind, pure, Except.pure]

theorem relateUnsigned_spec (op : BinaryOp) (symbolic : left.isConcrete = false ∨ right.isConcrete = false) :
    ∃ leftTerm rightTerm : Term,
      relateUnsigned op left right = .ok (.condition (.binary op leftTerm rightTerm)) ∧
        leftTerm.IsWord ∧ rightTerm.IsWord ∧
        ∀ assignment,
          leftTerm.bits assignment = left.value assignment ∧ rightTerm.bits assignment = right.value assignment := by
  rcases leftWord.kinds with ⟨leftNumber, _, rfl⟩ | ⟨leftTerm, leftIsWord, rfl⟩
  · rcases rightWord.kinds with ⟨rightNumber, _, rfl⟩ | ⟨rightTerm, rightIsWord, rfl⟩
    · simp [isConcrete, concrete?] at symbolic
    · obtain ⟨operand, coerced, operandWord, operandBits⟩ := leftWord.coerce
      refine ⟨operand, rightTerm, ?_, operandWord, rightIsWord, fun assignment => ⟨operandBits assignment, rfl⟩⟩
      simp only [relateUnsigned, rightIsWord.kind, coerced]
      rfl
  · obtain ⟨operand, coerced, operandWord, operandBits⟩ := rightWord.coerce
    refine ⟨leftTerm, operand, ?_, leftIsWord, operandWord, fun assignment => ⟨rfl, operandBits assignment⟩⟩
    simp only [relateUnsigned, leftIsWord.kind, coerced]
    rfl

theorem equal_spec (symbolic : left.isConcrete = false ∨ right.isConcrete = false) :
    ∃ first second : Term,
      left.equal right = .ok (.condition (.binary .eq first second)) ∧ first.IsWord ∧ second.IsWord ∧
        ∀ assignment,
          first.bits assignment = second.bits assignment ↔ left.value assignment = right.value assignment := by
  rcases leftWord.kinds with ⟨leftNumber, _, rfl⟩ | ⟨leftTerm, leftIsWord, rfl⟩
  · rcases rightWord.kinds with ⟨rightNumber, _, rfl⟩ | ⟨rightTerm, rightIsWord, rfl⟩
    · simp [isConcrete, concrete?] at symbolic
    · obtain ⟨operand, coerced, operandWord, operandBits⟩ := leftWord.coerce
      refine ⟨rightTerm, operand, ?_, rightIsWord, operandWord, fun assignment => ?_⟩
      · simp only [equal, equate, equateTerm, rightIsWord.kind, coerced]
        rfl
      · rw [operandBits]
        exact eq_comm
  · obtain ⟨operand, coerced, operandWord, operandBits⟩ := rightWord.coerce
    refine ⟨leftTerm, operand, ?_, leftIsWord, operandWord, fun assignment => ?_⟩
    · rcases rightWord.kinds with ⟨rightNumber, _, rfl⟩ | ⟨rightTerm, rightIsWord, rfl⟩ <;>
        simp only [equal, equate, equateTerm, leftIsWord.kind, coerced] <;> rfl
    · rw [operandBits]
      rfl

theorem less_computes :
    Computes
        (compared (fun first second => unsigned first < unsigned second) (relateUnsigned .ult) left right)
        (fun assignment => Reference.bit ((left.value assignment).ult (right.value assignment))) ∧
      Computes
        (compared (fun first second => unsigned second < unsigned first) (relateUnsigned .ugt) left right)
        (fun assignment => Reference.bit ((right.value assignment).ult (left.value assignment))) := by
  rcases numbers_or_symbolic leftWord rightWord with
      ⟨leftNumber, rightNumber, leftBound, rightBound, rfl, rfl⟩ | symbolic
  · constructor
    all_goals
      rw [compared_number]
      refine ⟨_, fun machine => rfl, yields_bit fun assignment => ?_⟩
      simp only [value_number, unsigned_natCast, BitVec.ult, toNat_ofNat,
        Nat.mod_eq_of_lt leftBound, Nat.mod_eq_of_lt rightBound, Nat.cast_lt]
  · constructor
    all_goals
      obtain ⟨leftTerm, rightTerm, compares, leftIsWord, rightIsWord, values⟩ :=
        relateUnsigned_spec leftWord rightWord _ symbolic
      apply compared_computes symbolic compares (test_sorted rfl (by decide) leftIsWord rightIsWord)
      intro assignment
      obtain ⟨leftBits, rightBits⟩ := values assignment
      rw [← leftBits, ← rightBits, BitVec.ult, leftIsWord.toNat_bits, rightIsWord.toNat_bits]
      simp only [Term.eval, BinaryOp.apply]
      congr 1
      simp

theorem equal_computes :
    Computes (compared (· == ·) Word.equal left right)
      (fun assignment => Reference.bit (left.value assignment == right.value assignment)) := by
  rcases numbers_or_symbolic leftWord rightWord with
      ⟨leftNumber, rightNumber, leftBound, rightBound, rfl, rfl⟩ | symbolic
  · rw [compared_number]
    refine ⟨_, fun machine => rfl, yields_bit fun assignment => ?_⟩
    congr 1
    rw [value_number, value_number, beq_eq_decide, beq_eq_decide]
    congr 1
    rw [← toNat_inj, toNat_ofNat, toNat_ofNat, Nat.mod_eq_of_lt leftBound, Nat.mod_eq_of_lt rightBound, Nat.cast_inj]
  · obtain ⟨first, second, compares, firstWord, secondWord, same⟩ := equal_spec leftWord rightWord symbolic
    apply compared_computes symbolic compares (test_sorted rfl (by decide) firstWord secondWord)
    intro assignment
    congr 1
    rw [beq_eq_decide]
    simp only [← same assignment, ← toNat_inj, firstWord.toNat_bits, secondWord.toNat_bits,
      Term.eval, BinaryOp.apply, beq_eq_decide]
    simp

end

theorem bitwise_yields {op : Operation} (isBitwise : op = .and ∨ op = .or ∨ op = .xor) (leftWord : left.IsMachineWord)
    (rightWord : right.IsMachineWord) :
    ∃ result,
      operate op left right = .ok result ∧
        result.Yields fun assignment => op.onBits (left.value assignment) (right.value assignment) := by
  rcases numbers_or_symbolic leftWord rightWord with
      ⟨leftNumber, rightNumber, leftBound, rightBound, rfl, rfl⟩ | symbolic
  · have cut : ∃ number : Nat, number < 2 ^ 256 ∧ op.onIntegers leftNumber rightNumber = number := by
      rcases isBitwise with rfl | rfl | rfl
      · exact ⟨leftNumber &&& rightNumber, Nat.and_lt_two_pow _ rightBound, rfl⟩
      · exact ⟨leftNumber ||| rightNumber, Nat.or_lt_two_pow leftBound rightBound, rfl⟩
      · exact ⟨leftNumber ^^^ rightNumber, Nat.xor_lt_two_pow leftBound rightBound, rfl⟩
    obtain ⟨number, bounded, isNumber⟩ := cut
    refine ⟨.integer (op.onIntegers leftNumber rightNumber), rfl, ?_, fun assignment => ?_⟩
    · rw [isNumber]
      exact .of_number bounded
    · rw [value, ofInt_onIntegers, value_number, value_number]
  · obtain ⟨term, operated, isWord, termBits⟩ := operate_yields op leftWord rightWord symbolic
    exact ⟨.term term, operated, yields_term isWord termBits⟩

theorem ofNat_eq_zero_iff {number : Nat} (bounded : number < 2 ^ 256) : BitVec.ofNat 256 number = 0 ↔ number = 0 := by
  rw [← toNat_inj, toNat_ofNat, Nat.mod_eq_of_lt bounded]
  rfl

theorem remainder_yields {left right : Nat} (leftBound : left < 2 ^ 256) (rightBound : right < 2 ^ 256) :
    (remainder left right).Yields fun _ =>
      Reference.remainder (BitVec.ofNat 256 left) (BitVec.ofNat 256 right) := by
  unfold remainder Reference.remainder
  by_cases zero : right = 0
  · subst zero
    exact ⟨⟨by decide, by decide⟩, fun _ => rfl⟩
  · have notZero : BitVec.ofNat 256 right ≠ 0 := (ofNat_eq_zero_iff rightBound).not.mpr zero
    have isNumber : Bitwise.and (Int.fmod (unsigned left) (unsigned right)) allOnes = (left % right : Nat) := by
      rw [unsigned_natCast, unsigned_natCast, Bitwise.and_allOnes,
        Int.fmod_eq_emod_of_nonneg _ (Int.natCast_nonneg right), ← Int.natCast_mod]
      have := Nat.mod_le left right
      omega
    rw [if_neg (by exact_mod_cast zero), isNumber]
    apply yields_number ((Nat.mod_le left right).trans_lt leftBound)
    intro _
    rw [if_neg notZero, toNat_umod, toNat_ofNat, toNat_ofNat, Nat.mod_eq_of_lt leftBound, Nat.mod_eq_of_lt rightBound]

theorem modulo_yields {combined modulus : Nat} (modulusBound : modulus < 2 ^ 256)
    (same :
      ∀ assignment,
        meaning assignment =
          if BitVec.ofNat 256 modulus = 0 then 0 else BitVec.ofNat 256 (combined % modulus)) :
    (Word.integer (if (modulus : Int) = 0 then 0 else Int.fmod combined modulus)).Yields meaning := by
  by_cases zero : modulus = 0
  · subst zero
    rw [if_pos (by rfl)]
    refine ⟨⟨by decide, by decide⟩, fun assignment => ?_⟩
    rw [same]
    rfl
  · have notZero : BitVec.ofNat 256 modulus ≠ 0 := (ofNat_eq_zero_iff modulusBound).not.mpr zero
    have below := Nat.mod_lt combined (Nat.pos_of_ne_zero zero)
    rw [if_neg (by exact_mod_cast zero), Int.fmod_eq_emod_of_nonneg _ (Int.natCast_nonneg modulus), ← Int.natCast_mod]
    apply yields_number (below.trans modulusBound)
    intro assignment
    rw [same, if_neg notZero, toNat_ofNat, Nat.mod_eq_of_lt (below.trans modulusBound)]

theorem powerModulo_eq (modulus base exponent : Nat) :
    power.powerModulo modulus base exponent = base ^ exponent % modulus := by
  fun_induction power.powerModulo modulus base exponent with
  | case1 base exponent positive half odd ih =>
    have split : exponent = 2 * (exponent / 2) + 1 := by omega
    have folded : half = (base * base) ^ (exponent / 2) % modulus := ih.trans (Nat.pow_mod _ _ _).symm
    rw [folded, Nat.mod_mul_mod]
    conv_rhs => rw [split, pow_succ, pow_mul, pow_two]
  | case2 base exponent positive half even ih =>
    have split : exponent = 2 * (exponent / 2) := by omega
    have folded : half = (base * base) ^ (exponent / 2) % modulus := ih.trans (Nat.pow_mod _ _ _).symm
    rw [folded]
    conv_rhs => rw [split, pow_mul, pow_two]
  | case3 base exponent zero =>
    have : exponent = 0 := by omega
    simp [this]

theorem power_yields {base exponent : Nat} (baseBound : base < 2 ^ 256) (exponentBound : exponent < 2 ^ 256) :
    ∃ number : Nat,
      power base exponent = .ok (.integer number) ∧ number < 2 ^ 256 ∧
        BitVec.ofNat 256 number = Reference.power (BitVec.ofNat 256 base) (BitVec.ofNat 256 exponent) := by
  refine ⟨base ^ exponent % 2 ^ 256, ?_, Nat.mod_lt _ (Nat.two_pow_pos 256), ?_⟩
  · have nonnegative : (0 : Int) ≤ exponent := Int.natCast_nonneg exponent
    have reduced : ((base : Int) % ((2 ^ 256 : Nat) : Int)).toNat = base := by
      rw [← Int.natCast_mod, Int.toNat_natCast, Nat.mod_eq_of_lt baseBound]
    unfold power
    simp only [nonnegative, ↓reduceIte, reduced, Int.toNat_natCast, powerModulo_eq]
  · unfold Reference.power
    rw [toNat_ofNat, toNat_ofNat, Nat.mod_eq_of_lt baseBound, Nat.mod_eq_of_lt exponentBound]
    apply eq_of_toNat_eq
    rw [toNat_ofNat, toNat_ofNat, Nat.mod_mod]

theorem testBit_highOnes {first index : Nat} (inside : first ≤ 256) :
    (2 ^ 256 - 2 ^ first).testBit index = (decide (first ≤ index) && decide (index < 256)) := by
  have factored : 2 ^ 256 - 2 ^ first = 2 ^ first * (2 ^ (256 - first) - 1) := by
    rw [Nat.mul_sub, ← pow_add, Nat.mul_one]
    congr 2
    omega
  rw [factored, Nat.testBit_two_pow_mul, Nat.testBit_two_pow_sub_one]
  by_cases below : first ≤ index
  · simp only [below, decide_true, Bool.true_and, decide_eq_decide]
    omega
  · simp [below]

theorem getLsbD_signExtend_low {index : Nat} (number position : Nat) (inside : index < 32) :
    (((BitVec.ofNat 256 number).setWidth (8 * (index + 1))).signExtend 256).getLsbD position =
      (decide (position < 256) && number.testBit (min position (8 * index + 7))) := by
  rw [getLsbD_signExtend]
  by_cases outside : 256 ≤ position
  · have : ¬ position < 256 := by omega
    simp [this]
  have bounded : position < 256 := by omega
  by_cases low : position < 8 * (index + 1)
  · rw [Nat.min_eq_left (show position ≤ 8 * index + 7 by omega), if_pos low, getLsbD_setWidth, getLsbD_ofNat]
    simp [low, bounded]
  · have last : 8 * (index + 1) - 1 = 8 * index + 7 := by omega
    rw [Nat.min_eq_right (show 8 * index + 7 ≤ position by omega), if_neg low,
      msb_eq_getLsbD_last, last, getLsbD_setWidth, getLsbD_ofNat]
    have signInside : 8 * index + 7 < 256 := by omega
    have signKept : 8 * index + 7 < 8 * (index + 1) := by omega
    simp [bounded, signInside, signKept]

theorem extendSign_spec (inside : index < 32) (bounded : number < 2 ^ 256) :
    ∃ extended : Nat,
      extendSign index number = extended ∧ extended < 2 ^ 256 ∧
        BitVec.ofNat 256 extended = ((BitVec.ofNat 256 number).setWidth (8 * (index + 1))).signExtend 256 := by
  have sign : (2 : Int) ^ (8 * (index : Int) + 7).toNat = ((2 ^ (8 * index + 7) : Nat) : Int) := by
    push_cast
    congr 1
  have signBit : number &&& 2 ^ (8 * index + 7) = 0 ↔ number.testBit (8 * index + 7) = false := by
    rw [Nat.and_two_pow]
    cases number.testBit (8 * index + 7) <;> simp
  have signBound : 2 ^ (8 * index + 7) < 2 ^ 256 := Nat.pow_lt_pow_right (by decide) (by omega)
  have outside : ¬ (32 ≤ (index : Int) ∨ (index : Int) < 0) := by omega
  have tested : Bitwise.and (number : Int) ((2 ^ (8 * index + 7) : Nat) : Int) =
      ((number &&& 2 ^ (8 * index + 7) : Nat) : Int) := rfl
  unfold extendSign
  rw [if_neg outside]
  simp only [sign, tested]
  by_cases positive : number &&& 2 ^ (8 * index + 7) = 0
  · refine ⟨number &&& (2 ^ (8 * index + 7) - 1), ?_, Nat.and_lt_two_pow _ (by omega), ?_⟩
    · rw [if_neg (by simp [positive])]
      have low : ((2 ^ (8 * index + 7) : Nat) : Int) - 1 = ((2 ^ (8 * index + 7) - 1 : Nat) : Int) := by
        have := Nat.two_pow_pos (8 * index + 7)
        omega
      rw [low]
      rfl
    · apply eq_of_getLsbD_eq
      intro position inWord
      rw [getLsbD_signExtend_low number position inside, getLsbD_ofNat, Nat.testBit_and, Nat.testBit_two_pow_sub_one]
      by_cases low : position < 8 * index + 7
      · simp [low, inWord, Nat.min_eq_left (Nat.le_of_lt low)]
      · simp [low, Nat.min_eq_right (Nat.le_of_not_lt low), signBit.mp positive]
  · refine ⟨number ||| (2 ^ 256 - 2 ^ (8 * index + 7)), ?_, ?_, ?_⟩
    · rw [if_pos (by exact_mod_cast positive)]
      have high : bound - ((2 ^ (8 * index + 7) : Nat) : Int) = ((2 ^ 256 - 2 ^ (8 * index + 7) : Nat) : Int) := by
        unfold bound
        omega
      rw [high]
      rfl
    · apply Nat.or_lt_two_pow bounded
      have := Nat.two_pow_pos (8 * index + 7)
      omega
    · have isSet : number.testBit (8 * index + 7) = true := by
        rw [← Bool.not_eq_false]
        exact signBit.not.mp positive
      apply eq_of_getLsbD_eq
      intro position inWord
      rw [getLsbD_signExtend_low number position inside, getLsbD_ofNat, Nat.testBit_or, testBit_highOnes (by omega)]
      by_cases low : position < 8 * index + 7
      · have notHigh : ¬ 8 * index + 7 ≤ position := by omega
        simp [notHigh, inWord, Nat.min_eq_left (Nat.le_of_lt low)]
      · have high : 8 * index + 7 ≤ position := by omega
        simp [high, inWord, isSet]

theorem extendSign_computes (indexBound : index < 2 ^ 256) (bounded : number < 2 ^ 256) :
    Computes
      (if 32 ≤ (index : Int) ∨ (index : Int) < 0 then
        pure (.integer number)
      else
        pure (.integer (extendSign index number)))
      fun _ => Reference.extendSign (BitVec.ofNat 256 index) (BitVec.ofNat 256 number) := by
  have indexValue : (BitVec.ofNat 256 index).toNat = index := by rw [toNat_ofNat, Nat.mod_eq_of_lt indexBound]
  by_cases inside : index < 32
  · obtain ⟨extended, computed, extendedBound, same⟩ := extendSign_spec inside bounded
    refine ⟨.integer extended, fun machine => ?_, .of_number extendedBound, fun _ => ?_⟩
    · rw [if_neg (by omega), computed]
      rfl
    · rw [value_number, same, Reference.extendSign, indexValue, if_pos inside]
  · refine ⟨.integer number, fun machine => ?_, .of_number bounded, fun _ => ?_⟩
    · rw [if_pos (by omega)]
      rfl
    · rw [value_number, Reference.extendSign, indexValue, if_neg inside]

theorem byteFromRight_spec (inside : index < 32) (bounded : number < 2 ^ 256) :
    ∃ found : Nat,
      byteFromRight (.integer (32 - index - 1)) (.integer number) = .ok (.integer found) ∧ found < 2 ^ 256 ∧
        BitVec.ofNat 256 found = (BitVec.ofNat 256 number >>> (8 * (31 - index))) &&& 255 := by
  have position : (8 : Int) * (32 - index - 1) = ((8 * (31 - index) : Nat) : Int) := by omega
  have mask : (255 : Int) * 2 ^ (8 * (31 - index)) = ((255 * 2 ^ (8 * (31 - index)) : Nat) : Int) := by
    push_cast
    rfl
  have shifted :
      (number &&& 255 * 2 ^ (8 * (31 - index))) / 2 ^ (8 * (31 - index)) = (number >>> (8 * (31 - index))) &&& 255 := by
    rw [← Nat.shiftRight_eq_div_pow, Nat.shiftRight_and_distrib, Nat.shiftRight_eq_div_pow (255 * _),
      Nat.mul_div_cancel _ (Nat.two_pow_pos _)]
  refine ⟨(number >>> (8 * (31 - index))) &&& 255, ?_, ?_, ?_⟩
  · have notNegative : ¬ (((8 * (31 - index) : Nat) : Int) < 0) := by omega
    have conjunction : Word.and (.integer number) (.integer ((255 * 2 ^ (8 * (31 - index)) : Nat) : Int)) =
        .ok (.integer ((number &&& 255 * 2 ^ (8 * (31 - index)) : Nat) : Int)) := rfl
    have product : Word.mul (.integer 8) (.integer (32 - index - 1)) =
        .ok (.integer ((8 * (31 - index) : Nat) : Int)) := by
      rw [← position]
      rfl
    unfold byteFromRight
    rw [product]
    simp only [bind, Except.bind, Word.shiftLeft, notNegative, ↓reduceIte, Int.toNat_natCast, mask,
      conjunction, Word.shiftRight, concrete?]
    rw [← shifted]
    congr 2
    rw [Int.fdiv_eq_ediv_of_nonneg _ (by positivity)]
    push_cast
    rfl
  · exact Nat.and_lt_two_pow _ (by decide)
  · apply eq_of_toNat_eq
    rw [toNat_ofNat, toNat_and, toNat_ushiftRight, toNat_ofNat, Nat.mod_eq_of_lt bounded]
    exact Nat.mod_eq_of_lt (Nat.and_lt_two_pow _ (by decide))

end Alu

end MintAudit
