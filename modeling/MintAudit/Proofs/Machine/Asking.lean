import MintAudit.Proofs.Machine.Deviations

namespace MintAudit

/-!
# Instructions that ask the assertions

Division, sign extension and the choice of a byte on operands of which one is symbolic.
-/

def Machine.Certain (machine : Machine) (event : Assignment → Prop) : Prop :=
  ∀ assignment, machine.Admits assignment → event assignment

@[simp] theorem Machine.possible_atStack (machine : Machine) (stack : List Word) (event : Assignment → Prop) :
    (machine.atStack stack).Possible event ↔ machine.Possible event := Iff.rfl

theorem Machine.not_possible_iff {machine : Machine} {event : Assignment → Prop} :
    ¬ machine.Possible event ↔ machine.Certain fun assignment => ¬ event assignment := by
  simp only [Possible, Certain, not_exists, not_and]

theorem Machine.certain_congr {machine : Machine} {event other : Assignment → Prop}
    (same : ∀ assignment, event assignment ↔ other assignment) :
    machine.Certain event ↔ machine.Certain other := by
  simp only [Certain, same]

namespace Alu

open Classical Exec Word Machine
open Reference (Value)

/-- The instructions that ask what the assertions leave open. -/
inductive Asking where
  | div | sdiv | mod | smod | addmod | mulmod | signextend | byte
  deriving DecidableEq, Repr

def Asking.opcode : Asking → Opcode
  | div => .div
  | sdiv => .sdiv
  | mod => .mod
  | smod => .smod
  | addmod => .addmod
  | mulmod => .mulmod
  | signextend => .signextend
  | byte => .byte

def Asking.meaning : Asking → Reference.Meaning
  | div => .binary (· / ·)
  | sdiv => .binary BitVec.sdiv
  | mod => .binary Reference.remainder
  | smod => .binary Reference.signedRemainder
  | addmod => .ternary Reference.addModulo
  | mulmod => .ternary Reference.mulModulo
  | signextend => .binary Reference.extendSign
  | byte => .binary Reference.byte

/-- The operands that the instruction stops at: a known modulus other than zero. -/
def Asking.Refuses : Asking → List Word → Prop
  | addmod, [_, _, modulus] => ∃ number ≠ 0, modulus = .integer number
  | mulmod, [_, _, modulus] => ∃ number ≠ 0, modulus = .integer number
  | _, _ => False

section Exact

variable (machine : Machine) (first second : Assignment → Value) (assignment : Assignment)

/-- The sign of the quotient is chosen for all assignments: it is negative if some quotient is. It is the right one
where the quotient has it; where a word is the least one, which is its own magnitude, the magnitudes lack its sign. -/
def ExactQuotient : Prop :=
  let negative := machine.Possible fun other =>
    second other ≠ 0 ∧ Fits (first other) (second other) ∧ ((first other).sdiv (second other)).toInt < 0
  let quotient := (first assignment).sdiv (second assignment)
  second assignment ≠ 0 ∧
    (quotient = -quotient ∨ (negative ↔ ¬ (Flipped (first assignment) ↔ Flipped (second assignment))))

/-- The sign of the remainder is chosen for all assignments: it is negative if some dividend is. -/
def ExactRemainder : Prop :=
  let negative := machine.Possible fun other => second other ≠ 0 ∧ (first other).toInt < 0
  first assignment = 0 ∨
    second assignment ≠ 0 ∧
      ((first assignment).srem (second assignment) = 0 ∨
        first assignment ≠ BitVec.intMin 256 ∧ second assignment ≠ BitVec.intMin 256 ∧
          (negative ↔ (first assignment).toInt < 0) ∨
        second assignment = BitVec.intMin 256 ∧ first assignment = BitVec.ofNat 256 (2 ^ 254) ∧ negative)

/-- The sign is chosen for all assignments: it is set if it always is. Outside of a word there is nothing to extend, but
the place of the sign is computed in words, so that bits may be filled there too. -/
def ExactExtension : Prop :=
  let set := machine.Certain fun other =>
    (first other).toNat < 32 → (second other).getLsbD (8 * (first other).toNat + 7) = true
  if (first assignment).toNat < 32 then
    (second assignment).getLsbD (8 * (first assignment).toNat + 7) = true ↔ set
  else
    ∀ place, (8 * first assignment + 7).toNat ≤ place → place < 256 → ((second assignment).getLsbD place = true ↔ set)

/-- The first byte is moved with its sign. The place of a byte is computed in words, so that a byte may be found outside
of a word too. -/
def ExactByte : Prop :=
  if (first assignment).toNat < 32 then
    ¬ (first assignment = 0 ∧ (second assignment).msb = true)
  else
    second assignment >>> (8 * (31 - first assignment)).toNat &&& 255 = 0

end Exact

/-- The word that is pushed has the right value under an assignment. -/
def Asking.Exact (machine : Machine) (assignment : Assignment) : Asking → List (Assignment → Value) → Prop
  | div, [_, divisor] => machine.Certain (fun other => divisor other = 0) ∨ divisor assignment ≠ 0
  | sdiv, [dividend, divisor] =>
    machine.Certain (fun other => divisor other = 0) ∨ ExactQuotient machine dividend divisor assignment
  | mod, [dividend, divisor] =>
    machine.Certain (fun other => divisor other = 0) ∨ divisor assignment ≠ 0 ∨ dividend assignment = 0
  | smod, [dividend, divisor] =>
    machine.Certain (fun other => divisor other = 0) ∨ ExactRemainder machine dividend divisor assignment
  | addmod, [left, right, modulus] =>
    machine.Certain (fun other => modulus other = 0) ∨ modulus assignment ≠ 0 ∨ left assignment + right assignment = 0
  | mulmod, [left, right, modulus] =>
    machine.Certain (fun other => modulus other = 0) ∨ modulus assignment ≠ 0 ∨ left assignment * right assignment = 0
  | signextend, [index, word] =>
    machine.Certain (fun other => 32 ≤ (index other).toNat) ∨ ExactExtension machine index word assignment
  | byte, [index, word] => machine.Certain (fun other => 32 ≤ (index other).toNat) ∨ ExactByte index word assignment
  | _, _ => False

variable {decider : Decider} (sound : decider.Sound) (complete : decider.Complete)
variable {machine : Machine} {rest : List Word}

def Replaces (machine : Machine) (computation : Exec Unit) (rest : List Word)
    (meaning : Assignment → Value) : Prop :=
  ∃ result,
    computation machine = .ok () (machine.atStack (result :: rest)) ∧
      ∀ assignment, result.value assignment = meaning assignment

theorem pushByte_eq (place index word : Word) :
    (do
      enterScope
      assumeInside index
      let result ← if ← feasible decider then lift (byteFromRight place word) else pure (.integer 0)
      leaveScope
      push result.simplified) =
      (chosenByte decider place index word >>= fun result => push result.simplified) := by
  unfold chosenByte
  simp only [bind_assoc]
  refine bind_congr fun _ => bind_congr fun _ => bind_congr fun answer => ?_
  cases answer with
  | true => simp only [↓reduceIte, bind_assoc, pure_bind]
  | false => simp only [Bool.false_eq_true, ↓reduceIte, bind_assoc, pure_bind]

variable {first second : Word} {meaning : Assignment → Value}

theorem binary_replaces {compute : Word → Word → Exec Word} {computation : Exec Word}
    (stack : machine.path.stack = first :: second :: rest) (computes : compute first second = computation)
    (answers : Answers (machine.atStack rest) computation meaning) :
    Replaces machine (binary compute) rest meaning := by
  obtain ⟨result, returns, same⟩ := answers
  rw [← computes] at returns
  refine ⟨result.simplified, ?_, same⟩
  refine (first_operand stack (by simp)).trans ?_
  refine (bind_ok (pop_cons _ rfl)).trans ?_
  exact bind_ok returns

theorem match_unknown (unknown : first.isConcrete = false ∨ second.isConcrete = false) (numbers : Int → Int → α)
    (otherwise : α) :
    (match first.concrete?, second.concrete? with
      | some firstValue, some secondValue => numbers firstValue secondValue
      | _, _ => otherwise) = otherwise := by
  unfold isConcrete at unknown
  cases firstFound : first.concrete? with
  | none => rfl
  | some firstValue =>
    cases secondFound : second.concrete? with
    | none => rfl
    | some secondValue => simp [firstFound, secondFound] at unknown

include sound complete in
theorem division_replaces {concrete : Int → Int → Except Fault Word} {symbolic : Word → Word → Exec Word}
    (stack : machine.path.stack = first :: second :: rest)
    (unknown : first.isConcrete = false ∨ second.isConcrete = false) {divisor : Term}
    (secondSymbolic : second.symbolic = .term divisor) (isWord : divisor.IsWord)
    (answers :
      Answers ((machine.atStack rest).inside (nonzero divisor)) (symbolic first.symbolic (.term divisor)) meaning) :
    Replaces machine (division decider concrete symbolic) rest fun assignment =>
      if machine.Possible (fun other => divisor.bits other ≠ 0) then meaning assignment else 0 := by
  rw [← secondSymbolic] at answers
  apply binary_replaces stack (match_unknown unknown _ _)
  have guards := guarded_answers sound complete isWord answers
  rw [← secondSymbolic] at guards
  exact guards

section

variable {first second : Word} (stack : machine.path.stack = first :: second :: rest) (firstWord : first.IsMachineWord)
    (secondWord : second.IsMachineWord) (unknown : first.isConcrete = false ∨ second.isConcrete = false)

include sound complete stack firstWord secondWord unknown

theorem signExtension_replaces :
    Replaces machine (signExtension decider) rest fun assignment =>
      if machine.Possible (fun other => (first.value other).toNat < 32) then
        filled (¬ machine.Possible fun other =>
            (first.value other).toNat < 32 ∧ second.value other &&& signBit (first.value other) = 0)
          (first.value assignment) (second.value assignment)
      else
        second.value assignment := by
  obtain ⟨index, firstSymbolic, indexWord, indexBits⟩ := firstWord.symbolic_term
  obtain ⟨word, secondSymbolic, isWord, wordBits⟩ := secondWord.symbolic_term
  have answers : Answers (machine.atStack rest) _ _ := extendSignTerm_answers sound complete indexWord isWord
  simp only [indexBits, wordBits] at answers
  rw [← firstSymbolic, ← secondSymbolic] at answers
  exact binary_replaces stack (match_unknown unknown _ _) answers

theorem byte_replaces :
    Replaces machine (byte decider) rest fun assignment =>
      if machine.Possible (fun other => (first.value other).toNat < 32) then
        chosen (first.value assignment) (second.value assignment)
      else
        0 := by
  have chosenAnswers : ∃ place, position first = .ok place ∧ Answers (machine.atStack rest) _ _ :=
    chosenByte_answers sound complete firstWord secondWord
  obtain ⟨place, placed, result, returns, same⟩ := chosenAnswers
  refine ⟨result.simplified, ?_, same⟩
  refine (first_operand stack (by simp)).trans ?_
  obtain ⟨difference, subtracted, placed⟩ := Effect.of_except_bind_ok placed
  simp only [subtracted, placed, bind_lift_ok]
  refine (bind_ok (pop_cons _ rfl)).trans ?_
  have pushed : (chosenByte decider place first.symbolic second.symbolic >>= fun found => push found.simplified)
      (machine.atStack rest) = .ok () (machine.atStack (result.simplified :: rest)) := bind_ok returns
  rw [← pushByte_eq] at pushed
  exact (congrFun (match_unknown unknown _ _) _).trans pushed

end

section Modulus

variable {first second third : Word} {concrete : Int → Int → Int} {op last : BinaryOp}

def combinedRemainder (op last : BinaryOp) (first second third : Word) : Exec Word := do
  let first ← lift (extended first)
  let second ← lift (extended second)
  let third ← lift (extended third)
  let combined ← lift (first.combine op second)
  lift (lowBits (← lift (combined.combine last third)))

theorem moduloThird_unknown
    (unknown : first.isConcrete = false ∨ second.isConcrete = false ∨ third.isConcrete = false) :
    moduloThird decider concrete op last first second third =
      guarded decider third (combinedRemainder op last first.symbolic second.symbolic third) := by
  unfold moduloThird
  unfold isConcrete at unknown
  cases firstFound : first.concrete? with
  | none => rfl
  | some firstValue =>
    cases secondFound : second.concrete? with
    | none => rfl
    | some secondValue =>
      cases thirdFound : third.concrete? with
      | none => rfl
      | some thirdValue => simp [firstFound, secondFound, thirdFound] at unknown

theorem modular_apply (stack : machine.path.stack = first :: second :: third :: rest) :
    modular decider concrete op last machine =
      (moduloThird decider concrete op last first second third >>= fun result => push result.simplified)
        (machine.atStack rest) := by
  refine (first_operand stack (by simp)).trans ?_
  refine (bind_ok (pop_cons _ rfl)).trans ?_
  exact bind_ok (pop_cons _ rfl)

theorem combinedRemainder_returns (opWordwise : op.isWordwise = true) {left right modulus : Term}
    (leftWord : left.IsWord) (rightWord : right.IsWord) (modulusWord : modulus.IsWord) :
    combinedRemainder op last (.term left) (.term right) (.term modulus) machine =
      .ok (.term (wideRemainder op last left right modulus)) machine := by
  have combinedKind : (Term.binary op (wide left) (wide right)).kind = .bits 512 :=
    (Term.kind_wordwise opWordwise _ _).trans (wide_sorted leftWord).2
  simp only [combinedRemainder, extended_term leftWord, extended_term rightWord, extended_term modulusWord,
    combine_wide op (wide_sorted leftWord).2 (wide_sorted rightWord).2,
    combine_wide last combinedKind (wide_sorted modulusWord).2, bind_lift_ok, lowBits]
  rfl

theorem equal_zero (number : Int) : (Word.integer number).equal (.integer 0) = .ok (.known (decide (number = 0))) := by
  have order : (some (compare number 0) == some Ordering.eq) = decide (number = 0) := by
    rw [Bool.eq_iff_iff, beq_iff_eq, Option.some_inj, compare_eq_iff_eq, decide_eq_true_eq]
  exact congrArg (fun known => Except.ok (Flag.known known)) order

include sound complete in
theorem modular_known {number : Int} (stack : machine.path.stack = first :: second :: .integer number :: rest)
    (satisfiable : Satisfiable machine.session.scopes.assertions) (firstWord : first.IsMachineWord)
    (secondWord : second.IsMachineWord) (unknown : first.isConcrete = false ∨ second.isConcrete = false) :
    if number = 0 then
      modular decider concrete op last machine = .ok () (machine.atStack (.integer 0 :: rest))
    else
      ∃ after, modular decider concrete op last machine = .error .illSorted after := by
  obtain ⟨left, firstSymbolic, leftWord, _⟩ := firstWord.symbolic_term
  obtain ⟨right, secondSymbolic, rightWord, _⟩ := secondWord.symbolic_term
  have guards : guarded decider (.integer number)
      (combinedRemainder op last first.symbolic second.symbolic (.integer number)) (machine.atStack rest) = _ :=
    guarded_apply sound complete (equal_zero number) rfl _
  have unknownAny : first.isConcrete = false ∨ second.isConcrete = false ∨ (Word.integer number).isConcrete = false :=
    unknown.imp_right .inl
  have holds (assignment : Assignment) :
      (Term.unary .negation (.truth (decide (number = 0)))).Holds assignment ↔ number ≠ 0 := by
    simp [Term.Holds, Term.eval, UnaryOp.apply]
  simp only [holds] at guards
  rw [modular_apply stack, moduloThird_unknown unknownAny]
  split
  · next zero =>
      have none : ¬ (machine.atStack rest).Possible fun _ => number ≠ 0 := by
        rintro ⟨_, _, nonzero⟩
        exact nonzero zero
      rw [if_neg none] at guards
      exact bind_ok guards
  · next nonzero =>
      have stops (machine : Machine) :
          combinedRemainder op last first.symbolic second.symbolic (.integer number) machine =
            .error .illSorted machine := by
        rw [firstSymbolic, secondSymbolic, combinedRemainder, extended_term leftWord, extended_term rightWord]
        rfl
      obtain ⟨assignment, admitted⟩ := satisfiable
      rw [if_pos ⟨assignment, admitted, nonzero⟩, bind_error (stops _)] at guards
      exact ⟨_, bind_error guards⟩

include sound complete in
theorem modular_replaces (opWordwise : op.isWordwise = true) (lastWordwise : last.isWordwise = true) {modulus : Term}
    (stack : machine.path.stack = first :: second :: .term modulus :: rest) {left right : Term}
    (firstSymbolic : first.symbolic = .term left) (secondSymbolic : second.symbolic = .term right)
    (leftWord : left.IsWord) (rightWord : right.IsWord) (modulusWord : modulus.IsWord) :
    Replaces machine (modular decider concrete op last) rest fun assignment =>
      if machine.Possible (fun other => modulus.bits other ≠ 0) then
        (wideRemainder op last left right modulus).bits assignment
      else
        0 := by
  have returns : Answers ((machine.atStack rest).inside (nonzero modulus))
      (combinedRemainder op last (.term left) (.term right) (.term modulus))
      (wideRemainder op last left right modulus).bits :=
    answers_term (combinedRemainder_returns opWordwise leftWord rightWord modulusWord)
      (wideRemainder_isWord leftWord rightWord modulusWord opWordwise lastWordwise) fun _ => rfl
  obtain ⟨result, computed, same⟩ := guarded_answers sound complete modulusWord returns
  refine ⟨result.simplified, ?_, same⟩
  rw [modular_apply stack, moduloThird_unknown (.inr (.inr rfl)), firstSymbolic, secondSymbolic]
  exact bind_ok computed

end Modulus

theorem asked_iff {assignment : Assignment} (admitted : machine.Admits assignment) {event opposite : Assignment → Prop}
    (opposes : ∀ other, opposite other ↔ ¬ event other) {right pushed otherwise : Value} {exact : Prop}
    (outside : opposite assignment → right = otherwise) (same : machine.Possible event → (pushed = right ↔ exact)) :
    some [right] = some [if machine.Possible event then pushed else otherwise] ↔ machine.Certain opposite ∨ exact := by
  have certain : machine.Certain opposite ↔ ¬ machine.Possible event := by
    simp only [not_possible_iff, Certain, opposes]
  rw [certain, Option.some_inj, List.singleton_inj]
  by_cases possible : machine.Possible event
  · rw [if_pos possible, eq_comm, same possible]
    simp [possible]
  · have none := (opposes assignment).mpr fun holds => possible ⟨assignment, admitted, holds⟩
    simp [possible, outside none]

theorem and_signBit_eq_zero_iff {index : Value} (inside : index.toNat < 32) (word : Value) :
    word &&& signBit index = 0 ↔ word.getLsbD (8 * index.toNat + 7) = false := by
  have place : (8 * index + 7).toNat = 8 * index.toNat + 7 := by
    have eight : (8 : Value).toNat = 8 := rfl
    have seven : (7 : Value).toNat = 7 := rfl
    rw [BitVec.toNat_add, BitVec.toNat_mul, eight, seven]
    omega
  have power : signBit index = BitVec.twoPow 256 (8 * index.toNat + 7) := by
    rw [signBit, place]
    rfl
  have nonzero : BitVec.twoPow 256 (8 * index.toNat + 7) ≠ 0#256 := by
    intro zero
    have bit : (BitVec.twoPow 256 (8 * index.toNat + 7)).getLsbD (8 * index.toNat + 7) = _ := BitVec.getLsbD_twoPow _ _
    rw [zero, decide_eq_true (by omega)] at bit
    simp at bit
  rw [power, BitVec.and_twoPow]
  cases word.getLsbD (8 * index.toNat + 7) with
  | true => simpa using nonzero
  | false => simp

section Pushed

variable {block : Int} {function : String} {first second : Word} (stack : machine.path.stack = first :: second :: rest)
    (firstWord : first.IsMachineWord) (secondWord : second.IsMachineWord)
    (unknown : first.isConcrete = false ∨ second.isConcrete = false)

def PushesExact (decider : Decider) (block : Int) (function : String) (machine : Machine) (asking : Asking)
    (operands rest : List Word) : Prop :=
  ∃ result,
    executePlain decider block function asking.opcode machine = .ok () (machine.atStack (result :: rest)) ∧
      ∀ assignment, machine.Admits assignment →
        (asking.meaning.apply (operands.map (Word.value assignment)) = some [result.value assignment] ↔
          asking.Exact machine assignment (operands.map fun word other => word.value other))

theorem Replaces.pushesExact {asking : Asking} {operands : List Word} {pushed : Assignment → Value}
    (replaces : Replaces machine (executePlain decider block function asking.opcode) rest pushed)
    (exact :
      ∀ assignment, machine.Admits assignment →
        (asking.meaning.apply (operands.map (Word.value assignment)) = some [pushed assignment] ↔
          asking.Exact machine assignment (operands.map fun word other => word.value other))) :
    PushesExact decider block function machine asking operands rest := by
  obtain ⟨result, executed, same⟩ := replaces
  refine ⟨result, executed, fun assignment admitted => ?_⟩
  rw [same]
  exact exact assignment admitted

include sound complete stack firstWord secondWord unknown

theorem unsigned_replaces {op : BinaryOp} (wordwise : op.isWordwise = true) {compute : Value → Value → Value}
    (computes :
      ∀ {left right : Term}, left.IsWord → right.IsWord →
        ∀ assignment, (Term.binary op left right).bits assignment =
          compute (left.bits assignment) (right.bits assignment))
    (concrete : Int → Int → Except Fault Word) :
    Replaces machine (division decider concrete fun first second => lift (first.combine op second)) rest
      fun assignment =>
        if machine.Possible (fun other => second.value other ≠ 0) then
          compute (first.value assignment) (second.value assignment)
        else
          0 := by
  obtain ⟨dividend, firstSymbolic, dividendWord, dividendBits⟩ := firstWord.symbolic_term
  obtain ⟨divisor, secondSymbolic, divisorWord, divisorBits⟩ := secondWord.symbolic_term
  have answers : Answers ((machine.atStack rest).inside (nonzero divisor))
      (lift (first.symbolic.combine op (.term divisor)))
      fun assignment => compute (first.value assignment) (second.value assignment) := by
    rw [firstSymbolic, combine_term dividendWord _ divisorWord]
    refine answers_term (lift_ok _ _) (dividendWord.binary wordwise divisorWord) fun assignment => ?_
    rw [computes dividendWord divisorWord, dividendBits, divisorBits]
  have replaces :
      Replaces machine (division decider concrete fun first second => lift (first.combine op second)) rest _ :=
    division_replaces sound complete stack unknown secondSymbolic divisorWord answers
  simpa only [divisorBits] using replaces

theorem div_pushes : PushesExact decider block function machine .div [first, second] rest := by
  have replaces := unsigned_replaces sound complete stack firstWord secondWord unknown
    (show BinaryOp.udiv.isWordwise = true from rfl) Term.bits_udiv quotient
  refine Replaces.pushesExact replaces fun assignment admitted => ?_
  refine asked_iff admitted (fun _ => not_not.symm) (fun zero => ?_) fun _ => smtUDiv_eq_udiv_iff _ _
  rw [zero]
  exact BitVec.udiv_zero

theorem mod_pushes : PushesExact decider block function machine .mod [first, second] rest := by
  have replaces := unsigned_replaces sound complete stack firstWord secondWord unknown
    (show BinaryOp.urem.isWordwise = true from rfl) Term.bits_urem fun first second => .ok (remainder first second)
  refine Replaces.pushesExact replaces fun assignment admitted => ?_
  exact asked_iff admitted (fun _ => not_not.symm) (fun zero => if_pos zero) fun _ => umod_eq_remainder_iff _ _

theorem sdiv_pushes : PushesExact decider block function machine .sdiv [first, second] rest := by
  obtain ⟨dividend, firstSymbolic, dividendWord, dividendBits⟩ := firstWord.symbolic_term
  obtain ⟨divisor, secondSymbolic, divisorWord, divisorBits⟩ := secondWord.symbolic_term
  have answers : Answers ((machine.atStack rest).inside (nonzero divisor)) _ _ :=
    signedQuotientTerm_answers sound complete dividendWord divisorWord
  rw [← firstSymbolic] at answers
  have replaces : Replaces machine (division decider signedQuotient (signedQuotientTerm decider)) rest _ :=
    division_replaces sound complete stack unknown secondSymbolic divisorWord answers
  simp only [possible_inside, possible_atStack, holds_nonzero divisorWord, dividendBits, divisorBits] at replaces
  refine Replaces.pushesExact replaces fun assignment admitted => ?_
  refine asked_iff admitted (fun _ => not_not.symm) (fun zero => ?_) fun _ => ?_
  · rw [zero]
    exact BitVec.sdiv_zero
  have negative :
      (machine.Possible fun other => second.value other ≠ 0 ∧ Fits (first.value other) (second.value other) ∧
          ((first.value other).smtSDiv (second.value other)).toInt < 0) ↔
        machine.Possible fun other => second.value other ≠ 0 ∧ Fits (first.value other) (second.value other) ∧
          ((first.value other).sdiv (second.value other)).toInt < 0 := by
    refine possible_congr fun other => and_congr_right fun nonzero => ?_
    rw [smtSDiv_eq_sdiv _ nonzero]
  by_cases fits : machine.Possible fun other =>
      second.value other ≠ 0 ∧ Fits (first.value other) (second.value other)
  · rw [if_pos fits, signed_smtSDiv_iff, negative]
    rfl
  · -- Where the divisor is not zero, the least word is divided by minus one.
    rw [if_neg fits]
    by_cases zero : second.value assignment = 0
    · refine iff_of_false ?_ fun exact => exact.1 zero
      rw [zero]
      intro same
      exact absurd (same.trans BitVec.sdiv_zero) (by decide)
    · obtain ⟨least, minusOne⟩ : first.value assignment = BitVec.intMin 256 ∧ second.value assignment = -1 := by
        by_contra holds
        exact fits ⟨assignment, admitted, zero, holds⟩
      have quotient : (first.value assignment).sdiv (second.value assignment) = BitVec.intMin 256 := by
        rw [least, minusOne]
        exact BitVec.intMin_sdiv_neg_one
      refine iff_of_true quotient.symm ⟨zero, .inl ?_⟩
      rw [quotient, BitVec.neg_intMin]

theorem smod_replaces :
    Replaces machine
      (division decider (fun first second => .ok (signedRemainder first second)) (signedRemainderTerm decider)) rest
      fun assignment =>
        if machine.Possible (fun other => second.value other ≠ 0) then
          sign (machine.Possible fun other => second.value other ≠ 0 ∧ (first.value other).toInt < 0) *
            (first.value assignment).abs.smod (second.value assignment).abs
        else
          0 := by
  obtain ⟨dividend, firstSymbolic, dividendWord, dividendBits⟩ := firstWord.symbolic_term
  obtain ⟨divisor, secondSymbolic, divisorWord, divisorBits⟩ := secondWord.symbolic_term
  have answers : Answers ((machine.atStack rest).inside (nonzero divisor)) _ _ :=
    signedRemainderTerm_answers sound complete dividendWord divisorWord
  rw [← firstSymbolic] at answers
  have replaces :
      Replaces machine
        (division decider (fun first second => .ok (signedRemainder first second)) (signedRemainderTerm decider)) rest
        _ :=
    division_replaces sound complete stack unknown secondSymbolic divisorWord answers
  simpa only [possible_inside, possible_atStack, holds_nonzero divisorWord, dividendBits, divisorBits] using replaces

theorem smod_pushes : PushesExact decider block function machine .smod [first, second] rest := by
  have replaces := smod_replaces sound complete stack firstWord secondWord unknown
  refine Replaces.pushesExact replaces fun assignment admitted => ?_
  refine asked_iff admitted (fun _ => not_not.symm) (fun zero => if_pos zero) fun _ => ?_
  exact signed_smod_iff fun nonzero negative => ⟨assignment, admitted, nonzero, negative⟩

theorem signextend_pushes : PushesExact decider block function machine .signextend [first, second] rest := by
  have replaces := signExtension_replaces sound complete stack firstWord secondWord unknown
  refine Replaces.pushesExact replaces fun assignment admitted => ?_
  refine asked_iff admitted (fun _ => Nat.not_lt.symm) (fun outside => if_neg (Nat.not_lt.mpr outside)) fun _ => ?_
  have set :
      (¬ machine.Possible fun other =>
          (first.value other).toNat < 32 ∧ second.value other &&& signBit (first.value other) = 0) ↔
        machine.Certain fun other =>
          (first.value other).toNat < 32 → (second.value other).getLsbD (8 * (first.value other).toNat + 7) = true := by
    refine not_possible_iff.trans (certain_congr fun other => ?_)
    rw [not_and]
    refine imp_congr_right fun inside => ?_
    rw [and_signBit_eq_zero_iff inside, Bool.not_eq_false]
  rw [filled_eq_extendSign_iff, set]
  rfl

theorem byte_pushes : PushesExact decider block function machine .byte [first, second] rest := by
  have replaces := byte_replaces sound complete stack firstWord secondWord unknown
  refine Replaces.pushesExact replaces fun assignment admitted => ?_
  exact asked_iff admitted (fun _ => Nat.not_lt.symm) (fun outside => if_neg (Nat.not_lt.mpr outside))
    fun _ => chosen_eq_byte_iff _ _

end Pushed

/-- What an instruction does: it stops at operands that it refuses, and otherwise pushes a word that has the right value
exactly where `Asking.Exact` says. -/
def Outcome (decider : Decider) (block : Int) (function : String) (machine : Machine) (asking : Asking)
    (operands rest : List Word) : Prop :=
  if asking.Refuses operands then
    ∃ after, executePlain decider block function asking.opcode machine = .error .illSorted after
  else
    PushesExact decider block function machine asking operands rest

theorem outcome_of_replaces {block : Int} {function : String} {asking : Asking} {operands : List Word}
    {pushed : Assignment → Value}
    (outcome :
      if asking.Refuses operands then
        ∃ after, executePlain decider block function asking.opcode machine = .error .illSorted after
      else
        Replaces machine (executePlain decider block function asking.opcode) rest pushed)
    (exact :
      ∀ assignment, machine.Admits assignment →
        (asking.meaning.apply (operands.map (Word.value assignment)) = some [pushed assignment] ↔
          asking.Exact machine assignment (operands.map fun word other => word.value other))) :
    Outcome decider block function machine asking operands rest := by
  unfold Outcome
  split at outcome
  · next refused => exact (if_pos refused).mpr outcome
  · next accepted => exact (if_neg accepted).mpr (outcome.pushesExact exact)

section PushedByModulus

variable {block : Int} {function : String} {first second third : Word}
    (stack : machine.path.stack = first :: second :: third :: rest)
    (satisfiable : Satisfiable machine.session.scopes.assertions) (firstWord : first.IsMachineWord)
    (secondWord : second.IsMachineWord) (thirdWord : third.IsMachineWord)
    (unknown : first.isConcrete = false ∨ second.isConcrete = false ∨ third.isConcrete = false)

include sound complete stack satisfiable firstWord secondWord thirdWord unknown

theorem modular_outcome {op last : BinaryOp} (opWordwise : op.isWordwise = true) (lastWordwise : last.isWordwise = true)
    (compute : Value → Value → Value → Value)
    (computes :
      ∀ {left right modulus : Term}, left.IsWord → right.IsWord → modulus.IsWord →
        ∀ assignment, (wideRemainder op last left right modulus).bits assignment =
          compute (left.bits assignment) (right.bits assignment) (modulus.bits assignment))
    (concrete : Int → Int → Int) :
    if ∃ number ≠ 0, third = .integer number then
      ∃ after, modular decider concrete op last machine = .error .illSorted after
    else
      Replaces machine (modular decider concrete op last) rest fun assignment =>
        if machine.Possible (fun other => third.value other ≠ 0) then
          compute (first.value assignment) (second.value assignment) (third.value assignment)
        else
          0 := by
  rcases thirdWord.kinds with ⟨number, bounded, rfl⟩ | ⟨modulus, modulusWord, rfl⟩
  · have known :
        if (number : Int) = 0 then
          modular decider concrete op last machine = .ok () (machine.atStack (.integer 0 :: rest))
        else
          ∃ after, modular decider concrete op last machine = .error .illSorted after :=
      modular_known sound complete stack satisfiable firstWord secondWord
        (unknown.imp_right fun either => either.resolve_right Bool.noConfusion)
    by_cases zero : (number : Int) = 0
    · have accepted : ¬ ∃ other ≠ 0, Word.integer number = .integer other := by
        rintro ⟨other, nonzero, same⟩
        exact nonzero ((Word.integer.inj same).symm.trans zero)
      have none : ¬ machine.Possible fun other => (Word.integer number).value other ≠ 0 := by
        rintro ⟨assignment, _, nonzero⟩
        rw [zero] at nonzero
        exact nonzero rfl
      rw [if_pos zero] at known
      rw [if_neg accepted]
      exact ⟨.integer 0, known, fun assignment => (if_neg none).symm⟩
    · rw [if_neg zero] at known
      rw [if_pos ⟨_, zero, rfl⟩]
      exact known
  · obtain ⟨left, firstSymbolic, leftWord, leftBits⟩ := firstWord.symbolic_term
    obtain ⟨right, secondSymbolic, rightWord, rightBits⟩ := secondWord.symbolic_term
    have replaces : Replaces machine (modular decider concrete op last) rest _ :=
      modular_replaces sound complete opWordwise lastWordwise stack firstSymbolic secondSymbolic leftWord rightWord
        modulusWord
    simp only [computes leftWord rightWord modulusWord, leftBits, rightBits] at replaces
    have accepted : ¬ ∃ number ≠ 0, Word.term modulus = .integer number := by
      rintro ⟨_, _, same⟩
      cases same
    rw [if_neg accepted]
    exact replaces

theorem addmod_outcome : Outcome decider block function machine .addmod [first, second, third] rest := by
  have outcome := modular_outcome sound complete stack satisfiable firstWord secondWord thirdWord unknown rfl rfl
    (fun left right modulus => BitVec.ofNat 256 ((left.toNat + right.toNat) % modulus.toNat)) bits_wideSum (· + ·)
  refine outcome_of_replaces outcome fun assignment admitted => ?_
  exact asked_iff admitted (fun _ => not_not.symm) (fun zero => if_pos zero) fun _ => addModulo_iff _ _ _

theorem mulmod_outcome : Outcome decider block function machine .mulmod [first, second, third] rest := by
  have outcome := modular_outcome sound complete stack satisfiable firstWord secondWord thirdWord unknown rfl rfl
    (fun left right modulus => BitVec.ofNat 256 ((left.toNat * right.toNat) % modulus.toNat)) bits_wideProduct (· * ·)
  refine outcome_of_replaces outcome fun assignment admitted => ?_
  exact asked_iff admitted (fun _ => not_not.symm) (fun zero => if_pos zero) fun _ => mulModulo_iff _ _ _

end PushedByModulus

section Execution

variable {block : Int} {function : String} {asking : Asking} {operands : List Word}
    (satisfiable : Satisfiable machine.session.scopes.assertions) (arity : operands.length = asking.meaning.arity)
    (stack : machine.path.stack = operands ++ rest) (words : ∀ word ∈ operands, word.IsMachineWord)
    (unknown : ∃ word ∈ operands, word.isConcrete = false)

include sound complete satisfiable arity stack words unknown

theorem executePlain_outcome : Outcome decider block function machine asking operands rest := by
  have two (count : operands.length = 2) (accepts : ¬ asking.Refuses operands)
      (pushes :
        ∀ {first second : Word}, machine.path.stack = first :: second :: rest →
          first.IsMachineWord → second.IsMachineWord → (first.isConcrete = false ∨ second.isConcrete = false) →
            PushesExact decider block function machine asking [first, second] rest) :
      Outcome decider block function machine asking operands rest := by
    obtain ⟨first, second, rfl⟩ := List.length_eq_two.mp count
    refine (if_neg accepts).mpr (pushes stack (words first (by simp)) (words second (by simp)) ?_)
    simpa using unknown
  have three (count : operands.length = 3)
      (ends :
        ∀ {first second third : Word}, machine.path.stack = first :: second :: third :: rest →
          Satisfiable machine.session.scopes.assertions →
          first.IsMachineWord → second.IsMachineWord → third.IsMachineWord →
          (first.isConcrete = false ∨ second.isConcrete = false ∨ third.isConcrete = false) →
            Outcome decider block function machine asking [first, second, third] rest) :
      Outcome decider block function machine asking operands rest := by
    obtain ⟨first, second, third, rfl⟩ := List.length_eq_three.mp count
    refine ends stack satisfiable (words first (by simp)) (words second (by simp)) (words third (by simp)) ?_
    simpa using unknown
  cases asking with
  | div => exact two arity id (div_pushes sound complete)
  | sdiv => exact two arity id (sdiv_pushes sound complete)
  | mod => exact two arity id (mod_pushes sound complete)
  | smod => exact two arity id (smod_pushes sound complete)
  | addmod => exact three arity (addmod_outcome sound complete)
  | mulmod => exact three arity (mulmod_outcome sound complete)
  | signextend => exact two arity id (signextend_pushes sound complete)
  | byte => exact two arity id (byte_pushes sound complete)

end Execution

end Alu

namespace Machine

open Alu

/-- An instruction that asks the assertions, on operands of which one is symbolic: it stops only at a known modulus
other than zero. Otherwise it pushes one word in the place of its operands, closes its scopes, and the word has the
value that is meant exactly where `Asking.Exact` says. -/
theorem step_exact_iff {decider : Decider} (sound : decider.Sound) (complete : decider.Complete) {block : Int}
    {function line : String} {machine : Machine} (underway : Underway machine.session)
    (satisfiable : Satisfiable machine.session.scopes.assertions) {asking : Asking}
    (instruction : Instruction.ofLine line = .plain asking.opcode) {operands rest : List Word}
    (arity : operands.length = asking.meaning.arity) (stack : machine.path.stack = operands ++ rest)
    (words : ∀ word ∈ operands, word.IsMachineWord) (unknown : ∃ word ∈ operands, word.isConcrete = false) :
    (asking.Refuses operands → ∃ after, step decider block function line machine = .error .illSorted after) ∧
    (¬ asking.Refuses operands →
      ∃ result after,
        step decider block function line machine = .ok () after ∧ after.path.stack = result :: rest ∧
          after.session.scopes = machine.session.scopes ∧
          ∀ assignment, machine.Admits assignment →
            (asking.meaning.apply (operands.map (Word.value assignment)) = some [result.value assignment] ↔
              asking.Exact machine assignment (operands.map fun word other => word.value other))) := by
  have outcome : Outcome decider block function (machine.counted block function line) asking operands rest :=
    executePlain_outcome sound complete satisfiable arity stack words unknown
  rw [step_of_plain underway instruction]
  refine ⟨fun refused => (if_pos refused).mp outcome, fun accepted => ?_⟩
  obtain ⟨result, executed, exact⟩ := (if_neg accepted).mp outcome
  exact ⟨result, _, executed, rfl, rfl, exact⟩

def twoSymbols : Machine where
  session :=
    { graph :=
        { instructions := [(0, "STOP")]
          blocks := [(0, { start := 0, stop := 0, lines := ["STOP"], kind := some .terminal })] } }
  path := { stack := [Word.symbol "x", Word.symbol "y"] }

theorem step_exact_iff_quotient :
    ∃ result after,
      step Decider.exact 0 "f()" "SDIV" twoSymbols = .ok () after ∧ after.path.stack = [result] ∧
        result.value (fun name _ => if name = "x" then 6 else 3) ≠ 2 := by
  have isSymbol {word : Word} (member : word ∈ [Word.symbol "x", Word.symbol "y"]) :
      word = Word.symbol "x" ∨ word = Word.symbol "y" := by simpa using member
  have words : ∀ word ∈ [Word.symbol "x", Word.symbol "y"], word.IsMachineWord := by
    intro word member
    rcases isSymbol member with rfl | rfl <;> exact ⟨trivial, rfl⟩
  have admits (assignment : Assignment) : twoSymbols.Admits assignment := fun _ member => absurd member List.not_mem_nil
  obtain ⟨result, after, executed, stack, _, exact⟩ :
      ∃ result after,
        step Decider.exact 0 "f()" "SDIV" twoSymbols = .ok () after ∧ after.path.stack = [result] ∧ _ ∧
          ∀ assignment, twoSymbols.Admits assignment →
            (_ ↔ Asking.sdiv.Exact twoSymbols assignment
              ([Word.symbol "x", Word.symbol "y"].map fun word other => word.value other)) :=
    (step_exact_iff Decider.exact_sound Decider.exact_complete ⟨by decide, rfl, by decide, by decide⟩
      ⟨fun _ _ => 0, admits _⟩ rfl rfl rfl words ⟨_, List.mem_cons_self, rfl⟩).2 id
  refine ⟨result, after, executed, stack, fun isTwo => ?_⟩
  have holds := (exact (fun name _ => if name = "x" then 6 else 3) (admits _)).mp (by rw [isTwo]; decide +kernel)
  rcases holds with zero | ⟨_, own | signs⟩
  · exact absurd (zero (fun name _ => if name = "x" then 6 else 3) (admits _)) (by decide +kernel)
  · exact absurd own (by decide +kernel)
  · refine absurd (signs.mp ⟨fun name _ => if name = "x" then 2 ^ 256 - 1 else 1, admits _, ?_⟩) ?_
    · decide +kernel
    · decide +kernel

end Machine

end MintAudit
