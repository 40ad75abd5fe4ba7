import MintAudit.Proofs.Explore.Smooth
import MintAudit.Proofs.Machine.WordFragment

namespace MintAudit

/-!
# What is pushed for symbolic words

Division, sign extension and the choice of a byte ask the assertions which of several terms to push.
-/

/-! ## What the assertions leave open -/

namespace Machine

/-- The assertions hold under an assignment. -/
def Admits (machine : Machine) (assignment : Assignment) : Prop :=
  ∀ condition ∈ machine.session.scopes.assertions, condition.Holds assignment

def Possible (machine : Machine) (event : Assignment → Prop) : Prop :=
  ∃ assignment, machine.Admits assignment ∧ event assignment

def entered (machine : Machine) : Machine :=
  machine.rescoped machine.session.scopes.enter

def inside (condition : Term) (machine : Machine) : Machine :=
  machine.rescoped (machine.session.scopes.enter.assume condition)

variable {machine : Machine} {condition : Term}

theorem admits_inside {assignment : Assignment} :
    (machine.inside condition).Admits assignment ↔ machine.Admits assignment ∧ condition.Holds assignment := by
  unfold Admits inside rescoped
  simp only [Scopes.assertions_assume, Scopes.assertions_enter, List.forall_mem_append, List.forall_mem_singleton]

theorem possible_inside {event : Assignment → Prop} :
    (machine.inside condition).Possible event ↔
      machine.Possible fun assignment => condition.Holds assignment ∧ event assignment := by
  simp only [Possible, admits_inside, and_assoc]

theorem possible_congr {event other : Assignment → Prop} (same : ∀ assignment, event assignment ↔ other assignment) :
    machine.Possible event ↔ machine.Possible other := by
  simp only [Possible, same]

end Machine

namespace Exec

open Machine

variable {machine : Machine} {condition : Term}

@[simp] theorem enterScope_apply : enterScope machine = .ok () machine.entered := rfl

@[simp] theorem assume_entered : assume condition machine.entered = .ok () (machine.inside condition) := rfl

@[simp] theorem leaveScope_inside : leaveScope (machine.inside condition) = .ok () machine := rfl

open Classical in
theorem feasible_inside {decider : Decider} (sound : decider.Sound) (complete : decider.Complete) :
    feasible decider (machine.inside condition) =
      .ok (decide (machine.Possible condition.Holds)) (machine.inside condition) := by
  have asked : machine.Possible (fun assignment => condition.Holds assignment) ↔
      Satisfiable (machine.inside condition).session.scopes.assertions := by
    simp only [Possible, ← admits_inside]
    rfl
  unfold feasible
  rw [bind_ok (session_apply _)]
  by_cases possible : machine.Possible (fun assignment => condition.Holds assignment)
  · have answer := (sound.possible_iff complete _).mpr (asked.mp possible)
    rw [decide_eq_true possible]
    cases verdict : decider (machine.inside condition).session.scopes.assertions with
    | satisfiable => rfl
    | unsatisfiable => exact (answer verdict).elim
    | undecided => exact (complete _ verdict).elim
  · have answer := (sound.possible_iff complete _).not.mpr (asked.not.mp possible)
    rw [decide_eq_false possible, not_not.mp answer]
    rfl

open Classical in
theorem ask_apply {decider : Decider} (sound : decider.Sound) (complete : decider.Complete) {event : Assignment → Prop}
    (holds : ∀ assignment, condition.Holds assignment ↔ event assignment) (next : Bool → Exec α) :
    (do enterScope; assume condition; next (← feasible decider)) machine =
      next (decide (machine.Possible event)) (machine.inside condition) := by
  have same : machine.Possible condition.Holds ↔ machine.Possible event := possible_congr holds
  simp only [bind_apply, enterScope_apply, assume_entered, feasible_inside sound complete, same]

@[simp] theorem bind_lift_ok (value : α) (next : α → Exec β) : (lift (.ok value) >>= next) = next value := rfl

end Exec

open BitVec

open Term (ofInt ofInt_isWord bits_ofInt)

theorem Word.IsMachineWord.symbolic_term {word : Word} (machineWord : word.IsMachineWord) :
    ∃ term : Term,
      word.symbolic = .term term ∧ term.IsWord ∧ ∀ assignment, term.bits assignment = word.value assignment := by
  rcases machineWord.kinds with ⟨number, _, rfl⟩ | ⟨term, isWord, rfl⟩
  · exact ⟨ofInt 256 number, rfl, ofInt_isWord _, fun assignment => bits_ofInt _ _⟩
  · exact ⟨term, rfl, isWord, fun assignment => rfl⟩

namespace Alu

open Classical Exec Word Machine
open Reference (Value)

def Answers (machine : Machine) (computation : Exec Word)
    (meaning : Assignment → Value) : Prop :=
  ∃ result,
    computation machine = .ok result machine ∧ ∀ assignment, result.simplified.value assignment = meaning assignment

variable {machine : Machine} {computation : Exec Word} {meaning : Assignment → Value}

variable {term : Term} {index : Term}

theorem answers_term (returns : computation machine = .ok (.term term) machine) (isWord : term.IsWord)
    (same : ∀ assignment, term.bits assignment = meaning assignment) :
    Answers machine computation meaning :=
  ⟨.term term, returns, (yields_term isWord same).simplified.value⟩

theorem answers_number {number : Int} (returns : computation machine = .ok (.integer number) machine)
    (same : ∀ assignment, BitVec.ofInt 256 number = meaning assignment) :
    Answers machine computation meaning :=
  ⟨.integer number, returns, same⟩

variable {decider : Decider} (sound : decider.Sound) (complete : decider.Complete)

def nonzero (term : Term) : Term :=
  .unary .negation (.binary .eq term (Term.ofInt 256 0))

theorem holds_nonzero (isWord : term.IsWord) (assignment : Assignment) :
    (nonzero term).Holds assignment ↔ term.bits assignment ≠ 0 := by
  rw [nonzero, Term.holds_negation, Term.holds_eq assignment isWord (ofInt_isWord 0), bits_ofInt]
  rfl

include sound complete in
theorem guarded_apply {divisor : Word} {flag : Flag} {condition : Term}
    (compares : divisor.equal (.integer 0) = .ok flag) (denied : flag.opposite = .ok condition) (compute : Exec Word) :
    guarded decider divisor compute machine =
      if machine.Possible (fun assignment => condition.Holds assignment) then
        (compute >>= fun result => leaveScope >>= fun _ => pure result) (machine.inside condition)
      else
        .ok (.integer 0) machine := by
  unfold guarded
  simp only [compares, denied, assumeNot, bind_lift_ok]
  rw [ask_apply sound complete fun _ => Iff.rfl]
  by_cases possible : machine.Possible (fun assignment => condition.Holds assignment)
  · simp only [possible, decide_true, ↓reduceIte]
  · simp only [possible, decide_false, Bool.false_eq_true, ↓reduceIte]
    rfl

include sound complete in
theorem guarded_answers {divisor : Term} (isWord : divisor.IsWord)
    (answers : Answers (machine.inside (nonzero divisor)) computation meaning) :
    Answers machine (guarded decider (.term divisor) computation) fun assignment =>
      if machine.Possible (fun other => divisor.bits other ≠ 0) then meaning assignment else 0 := by
  obtain ⟨result, returns, same⟩ := answers
  have asked : guarded decider (.term divisor) computation machine = _ :=
    guarded_apply sound complete (equal_number isWord 0)
      (show Flag.opposite _ = .ok (nonzero divisor) from rfl) computation
  simp only [holds_nonzero isWord] at asked
  by_cases possible : machine.Possible (fun other => divisor.bits other ≠ 0)
  · refine ⟨result, ?_, fun assignment => (same assignment).trans (if_pos possible).symm⟩
    rw [asked, if_pos possible, bind_ok returns, bind_ok leaveScope_inside]
    rfl
  · refine ⟨.integer 0, ?_, fun assignment => (if_neg possible).symm⟩
    rw [asked, if_neg possible]

noncomputable def sign (negative : Prop) : Value :=
  if negative then -1 else 1

theorem bits_signed (isWord : term.IsWord) (negative : Prop) (assignment : Assignment) :
    (Term.binary .mul (ofInt 256 (if decide negative then -1 else 1)) term).bits assignment =
      sign negative * term.bits assignment := by
  rw [Term.bits_mul (ofInt_isWord _) isWord, bits_ofInt, sign]
  by_cases holds : negative
  · simp only [holds, decide_true, ↓reduceIte]
    rfl
  · simp only [holds, decide_false, Bool.false_eq_true, ↓reduceIte]
    rfl

section TwoWords

variable {first second : Term} (firstWord : first.IsWord) (secondWord : second.IsWord)

/-- The quotient does not leave the signed words. -/
def Fits (first second : Value) : Prop :=
  ¬ (first = BitVec.intMin 256 ∧ second = -1)

instance (first second : Value) : Decidable (Fits first second) :=
  inferInstanceAs (Decidable (¬ (_ ∧ _)))

def fitting (first second : Term) : Term :=
  .unary .negation (.binary .both (.binary .eq first (Term.ofInt 256 (-(2 ^ 255))))
    (.binary .eq second (Term.ofInt 256 (-1))))

include firstWord secondWord

theorem holds_fitting (assignment : Assignment) :
    (fitting first second).Holds assignment ↔ Fits (first.bits assignment) (second.bits assignment) := by
  have least : BitVec.ofInt 256 (-(2 ^ 255)) = BitVec.intMin 256 := by decide
  rw [fitting, Term.holds_negation, Term.holds_both, Term.holds_eq assignment firstWord (ofInt_isWord _),
    Term.holds_eq assignment secondWord (ofInt_isWord _), bits_ofInt, bits_ofInt, least]
  rfl

omit firstWord secondWord in
theorem holds_negative {term : Term} (isWord : term.IsWord) (assignment : Assignment) :
    (Term.binary Relation.less.onTerms term (ofInt 256 0)).Holds assignment ↔ (term.bits assignment).toInt < 0 := by
  rw [Term.holds_onTerms assignment _ isWord (ofInt_isWord 0), bits_ofInt]
  rfl

include sound complete in
theorem signedQuotientTerm_answers :
    Answers machine (signedQuotientTerm decider (.term first) (.term second)) fun assignment =>
      if machine.Possible (fun other => Fits (first.bits other) (second.bits other)) then
        sign (machine.Possible fun other => Fits (first.bits other) (second.bits other) ∧
            ((first.bits other).smtSDiv (second.bits other)).toInt < 0) *
          (first.bits assignment).abs.smtSDiv (second.bits assignment).abs
      else
        BitVec.intMin 256 := by
  have exactWord : (Term.binary .sdiv first second).IsWord := firstWord.binary rfl secondWord
  have sizeWord : (Term.binary .sdiv first.magnitude second.magnitude).IsWord :=
    firstWord.magnitude.binary rfl secondWord.magnitude
  simp only [signedQuotientTerm, equal_number firstWord, equal_number secondWord, combine_term firstWord _ secondWord,
    relate_number exactWord, magnitude_term firstWord, magnitude_term secondWord,
    combine_term firstWord.magnitude _ secondWord.magnitude, Word.mul, operate_before sizeWord,
    Operation.onTerms, assumeFlag, Flag.toTerm, bind_lift_ok, pure_bind]
  by_cases possible : machine.Possible (fun other => Fits (first.bits other) (second.bits other))
  · have answer := decide_eq_true possible
    have nested :
        (machine.inside (fitting first second)).Possible
            (fun other => ((Term.binary .sdiv first second).bits other).toInt < 0) ↔
          machine.Possible fun other => Fits (first.bits other) (second.bits other) ∧
            ((first.bits other).smtSDiv (second.bits other)).toInt < 0 := by
      simp only [possible_inside, holds_fitting firstWord secondWord, Term.bits_sdiv firstWord secondWord]
    apply answers_term
    · refine (ask_apply sound complete (holds_fitting firstWord secondWord) _).trans ?_
      simp only [answer, ↓reduceIte]
      exact ask_apply sound complete (holds_negative exactWord) _
    · exact (ofInt_isWord _).binary rfl sizeWord
    · intro assignment
      rw [bits_signed sizeWord, Term.bits_sdiv firstWord.magnitude secondWord.magnitude,
        Term.bits_magnitude firstWord, Term.bits_magnitude secondWord, if_pos possible]
      simp only [nested]
  · have answer := decide_eq_false possible
    apply answers_number
    · refine (ask_apply sound complete (holds_fitting firstWord secondWord) _).trans ?_
      simp only [answer, Bool.false_eq_true, ↓reduceIte]
      rfl
    · intro assignment
      rw [if_neg possible]
      decide

include sound complete in
theorem signedRemainderTerm_answers :
    Answers machine (signedRemainderTerm decider (.term first) (.term second)) fun assignment =>
      sign (machine.Possible fun other => (first.bits other).toInt < 0) *
        (first.bits assignment).abs.smod (second.bits assignment).abs := by
  have sizeWord : (Term.binary .smod first.magnitude second.magnitude).IsWord :=
    firstWord.magnitude.binary rfl secondWord.magnitude
  simp only [signedRemainderTerm, relate_number firstWord, magnitude_term firstWord, magnitude_term secondWord,
    combine_term firstWord.magnitude _ secondWord.magnitude, Word.mul, Word.constant, size,
    operate_term (ofInt_isWord _) _ sizeWord, Operation.onTerms, assumeFlag, Flag.toTerm, bind_lift_ok]
  refine answers_term (ask_apply sound complete (holds_negative firstWord) _)
    ((ofInt_isWord _).binary rfl sizeWord) fun assignment => ?_
  rw [bits_signed sizeWord, Term.bits_smod firstWord.magnitude secondWord.magnitude, Term.bits_magnitude firstWord,
    Term.bits_magnitude secondWord]

end TwoWords

def wide (term : Term) : Term :=
  .unary (.zeroExtend 256) term

theorem wide_sorted (isWord : term.IsWord) : (wide term).WellSorted ∧ (wide term).kind = .bits 512 := by
  refine ⟨⟨isWord.sorted, ?_⟩, ?_⟩
  · rw [isWord.kind]
    trivial
  · simp only [wide, Term.kind, isWord.kind, UnaryOp.kind]

theorem eval_wide (assignment : Assignment) (term : Term) : (wide term).eval assignment = term.eval assignment := rfl

theorem extended_term (isWord : term.IsWord) : extended (.term term) = .ok (.term (wide term)) := by
  simp only [extended, isWord.kind, wide]

theorem combine_wide {left right : Term} (op : BinaryOp) (leftKind : left.kind = .bits 512)
    (rightKind : right.kind = .bits 512) :
    (Word.term left).combine op (.term right) = .ok (.term (.binary op left right)) := by
  simp only [combine, leftKind, coerce, rightKind, ↓reduceIte]
  rfl

def wideRemainder (op last : BinaryOp) (first second third : Term) : Term :=
  .unary (.extract 255 0) (.binary last (.binary op (wide first) (wide second)) (wide third))

section ThreeWords

variable {first second third : Term} (firstWord : first.IsWord) (secondWord : second.IsWord) (thirdWord : third.IsWord)

include firstWord secondWord thirdWord

theorem wideRemainder_isWord {op last : BinaryOp} (opWordwise : op.isWordwise = true)
    (lastWordwise : last.isWordwise = true) :
    (wideRemainder op last first second third).IsWord := by
  obtain ⟨firstSorted, firstKind⟩ := wide_sorted firstWord
  obtain ⟨secondSorted, secondKind⟩ := wide_sorted secondWord
  obtain ⟨thirdSorted, thirdKind⟩ := wide_sorted thirdWord
  have combinedKind : (Term.binary op (wide first) (wide second)).kind = .bits 512 :=
    (Term.kind_wordwise opWordwise _ _).trans firstKind
  have takes {op : BinaryOp} (wordwise : op.isWordwise = true) : op.Takes (.bits 512) (.bits 512) := by
    cases op <;> simp_all [BinaryOp.isWordwise, BinaryOp.Takes]
  refine ⟨⟨⟨⟨firstSorted, secondSorted, ?_⟩, thirdSorted, ?_⟩, ?_⟩, rfl⟩
  · rw [firstKind, secondKind]
    exact takes opWordwise
  · rw [combinedKind, thirdKind]
    exact takes lastWordwise
  · rw [Term.kind_wordwise lastWordwise, combinedKind]
    exact ⟨by decide, by decide⟩

theorem bits_wideRemainder {op last : BinaryOp} (opWordwise : op.isWordwise = true) (assignment : Assignment) :
    (wideRemainder op last first second third).bits assignment =
      BitVec.ofNat 256 (last.apply 512 512
        (op.apply 512 512 (first.bits assignment).toNat (second.bits assignment).toNat)
        (third.bits assignment).toNat) := by
  have combinedKind : (Term.binary op (wide first) (wide second)).kind = .bits 512 :=
    (Term.kind_wordwise opWordwise _ _).trans (wide_sorted firstWord).2
  rw [firstWord.toNat_bits, secondWord.toNat_bits, thirdWord.toNat_bits, Term.bits, wideRemainder]
  simp only [Term.eval, UnaryOp.apply, eval_wide, Term.width_eq combinedKind, Term.width_eq (wide_sorted firstWord).2,
    Term.width_eq (wide_sorted secondWord).2, Term.width_eq (wide_sorted thirdWord).2, Nat.pow_zero, Nat.div_one]
  apply eq_of_toNat_eq
  simp only [toNat_ofNat, Nat.sub_zero, Nat.reduceAdd, Nat.mod_mod]

theorem bits_wideSum (assignment : Assignment) :
    (wideRemainder .add .smod first second third).bits assignment =
      BitVec.ofNat 256 (((first.bits assignment).toNat + (second.bits assignment).toNat) %
        (third.bits assignment).toNat) := by
  rw [bits_wideRemainder firstWord secondWord thirdWord rfl]
  have firstBound := (first.bits assignment).isLt
  have secondBound := (second.bits assignment).isLt
  have thirdBound := (third.bits assignment).isLt
  generalize (first.bits assignment).toNat = left at *
  generalize (second.bits assignment).toNat = right at *
  generalize (third.bits assignment).toNat = modulus at *
  have sum : (left + right) % 2 ^ 512 = left + right := Nat.mod_eq_of_lt (by omega)
  have sumSigned : signed 512 (left + right) = ((left + right : Nat) : Int) := if_pos (by omega)
  have modulusSigned : signed 512 modulus = (modulus : Int) := if_pos (by omega)
  have below := Nat.mod_le (left + right) modulus
  simp only [BinaryOp.apply, sum, sumSigned, modulusSigned]
  split
  · next zero => rw [zero, Nat.mod_zero]
  · rw [Int.fmod_eq_emod_of_nonneg _ (Int.natCast_nonneg modulus), ← Int.natCast_mod, wrap_of_lt (by omega)]

theorem bits_wideProduct (assignment : Assignment) :
    (wideRemainder .mul .urem first second third).bits assignment =
      BitVec.ofNat 256 (((first.bits assignment).toNat * (second.bits assignment).toNat) %
        (third.bits assignment).toNat) := by
  rw [bits_wideRemainder firstWord secondWord thirdWord rfl]
  have bound : (first.bits assignment).toNat * (second.bits assignment).toNat < 2 ^ 512 := by
    rw [show 512 = 256 + 256 from rfl, Nat.pow_add]
    exact Nat.mul_lt_mul'' (first.bits assignment).isLt (second.bits assignment).isLt
  simp only [BinaryOp.apply, Nat.mod_eq_of_lt bound]
  split
  · next zero => rw [zero, Nat.mod_zero]
  · rfl

end ThreeWords

def within (index : Term) : Term :=
  .unary .negation (.binary .either (.binary .sge index (Term.ofInt 256 32)) (.binary .slt index (Term.ofInt 256 0)))

theorem holds_within (isWord : index.IsWord) (assignment : Assignment) :
    (within index).Holds assignment ↔ (index.bits assignment).toNat < 32 := by
  have beyond := Term.holds_onTerms assignment .atLeast isWord (ofInt_isWord 32)
  have before := Term.holds_onTerms assignment .less isWord (ofInt_isWord 0)
  rw [bits_ofInt] at beyond before
  simp only [Relation.onTerms, Relation.onNumbers] at beyond before
  rw [within, Term.holds_negation, Term.holds_either, beyond, before]
  have thirtyTwo : (BitVec.ofInt 256 32).toInt = 32 := by decide
  have zero : (BitVec.ofInt 256 0).toInt = 0 := by decide
  rw [thirtyTwo, zero, toInt_eq_toNat_cond]
  have := (index.bits assignment).isLt
  split <;> omega

theorem assumeInside_eq (isWord : index.IsWord) : assumeInside (.term index) = Exec.assume (within index) := by
  simp only [assumeInside, relate_number isWord, Flag.toTerm, bind_lift_ok]
  rfl

def signBit (index : Value) : Value :=
  (1 : Value) <<< (8 * index + 7).toNat

noncomputable def filled (fill : Prop) (index word : Value) : Value :=
  if fill then word ||| -signBit index else word &&& (signBit index - 1)

def signBitTerm (index : Term) : Term :=
  .binary .shiftLeft (Term.ofInt 256 1) (.binary .add (.binary .mul (Term.ofInt 256 8) index) (Term.ofInt 256 7))

section Extension

variable {index word : Term} (indexWord : index.IsWord) (isWord : word.IsWord)

include indexWord in
theorem signBitTerm_isWord : (signBitTerm index).IsWord :=
  (ofInt_isWord 1).binary rfl (((ofInt_isWord 8).binary rfl indexWord).binary rfl (ofInt_isWord 7))

include indexWord in
theorem bits_signBitTerm (assignment : Assignment) :
    (signBitTerm index).bits assignment = signBit (index.bits assignment) := by
  have scaledWord : (Term.binary .mul (ofInt 256 8) index).IsWord := (ofInt_isWord 8).binary rfl indexWord
  rw [signBitTerm, Term.bits_shiftLeft (ofInt_isWord 1) (scaledWord.binary rfl (ofInt_isWord 7)),
    Term.bits_add scaledWord (ofInt_isWord 7), Term.bits_mul (ofInt_isWord 8) indexWord]
  simp only [bits_ofInt]
  rfl

include sound complete indexWord isWord in
theorem extendSignTerm_answers :
    Answers machine (extendSignTerm decider (.term index) (.term word)) fun assignment =>
      if machine.Possible (fun other => (index.bits other).toNat < 32) then
        filled (¬ machine.Possible fun other =>
            (index.bits other).toNat < 32 ∧ word.bits other &&& signBit (index.bits other) = 0)
          (index.bits assignment) (word.bits assignment)
      else
        word.bits assignment := by
  have scaledWord : (Term.binary .mul (ofInt 256 8) index).IsWord := (ofInt_isWord 8).binary rfl indexWord
  have shiftedWord : (Term.binary .add (.binary .mul (ofInt 256 8) index) (ofInt 256 7)).IsWord :=
    scaledWord.binary rfl (ofInt_isWord 7)
  have markWord := signBitTerm_isWord indexWord
  have maskedWord : (Term.binary .and word (signBitTerm index)).IsWord := isWord.binary rfl markWord
  have lowWord : (Term.binary .sub (signBitTerm index) (ofInt 256 1)).IsWord := markWord.binary rfl (ofInt_isWord 1)
  have highWord : (Term.binary .sub (ofInt 256 bound) (signBitTerm index)).IsWord :=
    (ofInt_isWord bound).binary rfl markWord
  have mark : Word.shiftLeft 1 (.term (.binary .add (.binary .mul (ofInt 256 8) index) (ofInt 256 7))) =
      .ok (.term (signBitTerm index)) := shiftLeft_term shiftedWord 1
  simp only [extendSignTerm, assumeInside_eq indexWord, Word.mul, operate_before indexWord, Word.add,
    operate_behind scaledWord, Operation.onTerms, mark, Word.and, operate_term isWord _ markWord,
    equal_number maskedWord, assumeFlag, Flag.toTerm, Word.sub, operate_behind markWord, operate_term isWord _ lowWord,
    operate_before markWord, Word.or, operate_term isWord _ highWord, bind_lift_ok, pure_bind]
  by_cases possible : machine.Possible (fun other => (index.bits other).toNat < 32)
  · have clear : ∀ assignment,
        (Term.binary .eq (.binary .and word (signBitTerm index)) (ofInt 256 0)).Holds assignment ↔
          word.bits assignment &&& signBit (index.bits assignment) = 0 := by
      intro assignment
      rw [Term.holds_eq assignment maskedWord (ofInt_isWord 0), Term.bits_and isWord markWord,
        bits_signBitTerm indexWord, bits_ofInt]
      rfl
    have nested :
        (machine.inside (within index)).Possible (fun other => word.bits other &&& signBit (index.bits other) = 0) ↔
          machine.Possible fun other =>
            (index.bits other).toNat < 32 ∧ word.bits other &&& signBit (index.bits other) = 0 := by
      simp only [possible_inside, holds_within indexWord]
    have asked := decide_eq_true possible
    by_cases positive : machine.Possible (fun other =>
        (index.bits other).toNat < 32 ∧ word.bits other &&& signBit (index.bits other) = 0)
    · have answer := decide_eq_true (nested.mpr positive)
      apply answers_term
      · refine (ask_apply sound complete (holds_within indexWord) _).trans ?_
        simp only [asked, ↓reduceIte]
        refine (ask_apply sound complete clear _).trans ?_
        simp only [answer, ↓reduceIte]
        rfl
      · exact isWord.binary rfl lowWord
      · intro assignment
        rw [if_pos possible, filled, if_neg (not_not.mpr positive), Term.bits_and isWord lowWord,
          Term.bits_sub markWord (ofInt_isWord 1), bits_signBitTerm indexWord, bits_ofInt]
        rfl
    · have answer := decide_eq_false (nested.not.mpr positive)
      apply answers_term
      · refine (ask_apply sound complete (holds_within indexWord) _).trans ?_
        simp only [asked, ↓reduceIte]
        refine (ask_apply sound complete clear _).trans ?_
        simp only [answer, Bool.false_eq_true, ↓reduceIte]
        rfl
      · exact isWord.binary rfl highWord
      · intro assignment
        have whole : BitVec.ofInt 256 bound = 0 := by decide
        rw [if_pos possible, filled, if_pos positive, Term.bits_or isWord highWord,
          Term.bits_sub (ofInt_isWord bound) markWord, bits_signBitTerm indexWord, bits_ofInt, whole]
        simp
  · have asked := decide_eq_false possible
    apply answers_term
    · refine (ask_apply sound complete (holds_within indexWord) _).trans ?_
      simp only [asked, Bool.false_eq_true, ↓reduceIte]
      rfl
    · exact isWord
    · intro assignment
      rw [if_neg possible]

end Extension

def chosen (index word : Value) : Value :=
  (word &&& (255 : Value) <<< (8 * (31 - index)).toNat).sshiftRight (8 * (31 - index)).toNat

def chosenByte (decider : Decider) (position index word : Word) : Exec Word := do
  enterScope
  assumeInside index
  let result ← if ← feasible decider then lift (byteFromRight position word) else pure (.integer 0)
  leaveScope
  return result

def position (index : Word) : Except Fault Word := do
  (← Word.sub (.integer 32) index).sub (.integer 1)

theorem position_term (indexWord : index.IsWord) :
    ∃ place : Term,
      position (.term index) = .ok (.term place) ∧ place.IsWord ∧
        ∀ assignment, place.bits assignment = 31 - index.bits assignment := by
  have firstWord : (Term.binary .sub (ofInt 256 32) index).IsWord := (ofInt_isWord 32).binary rfl indexWord
  refine ⟨.binary .sub (.binary .sub (ofInt 256 32) index) (ofInt 256 1), ?_,
    firstWord.binary rfl (ofInt_isWord 1), fun assignment => ?_⟩
  · unfold position
    simp only [Word.sub, operate_before indexWord]
    exact operate_behind firstWord 1 .sub
  · rw [Term.bits_sub firstWord (ofInt_isWord 1), Term.bits_sub (ofInt_isWord 32) indexWord]
    simp only [bits_ofInt]
    exact sub_right_comm _ _ _

theorem byteFromRight_term {place word : Term} (placeWord : place.IsWord) (isWord : word.IsWord) :
    ∃ byte : Term,
      byteFromRight (.term place) (.term word) = .ok (.term byte) ∧ byte.IsWord ∧
        ∀ assignment,
          byte.bits assignment =
            (word.bits assignment &&& (255 : Value) <<< (8 * place.bits assignment).toNat).sshiftRight
              (8 * place.bits assignment).toNat := by
  have countWord : (Term.binary .mul (ofInt 256 8) place).IsWord := (ofInt_isWord 8).binary rfl placeWord
  have maskWord : (Term.binary .shiftLeft (ofInt 256 255) (.binary .mul (ofInt 256 8) place)).IsWord :=
    (ofInt_isWord 255).binary rfl countWord
  have maskedWord := isWord.binary (show BinaryOp.and.isWordwise = true from rfl) maskWord
  refine ⟨_, ?_, maskedWord.binary (show BinaryOp.shiftRight.isWordwise = true from rfl) countWord,
    fun assignment => ?_⟩
  · unfold byteFromRight
    simp only [Word.mul, operate_before placeWord, Word.and, Operation.onTerms, shiftLeft_term countWord, bind,
      Except.bind, operate_term isWord _ maskWord]
    exact shiftRight_term maskedWord countWord
  · rw [Term.bits_shiftRight maskedWord countWord, Term.bits_and isWord maskWord,
      Term.bits_shiftLeft (ofInt_isWord 255) countWord, Term.bits_mul (ofInt_isWord 8) placeWord]
    simp only [bits_ofInt]
    rfl

theorem byteFromRight_number {word : Term} (isWord : word.IsWord) {number : Nat} (inside : number < 32) :
    ∃ byte : Term,
      byteFromRight (.integer (32 - number - 1)) (.term word) = .ok (.term byte) ∧ byte.IsWord ∧
        ∀ assignment, byte.bits assignment = chosen (BitVec.ofNat 256 number) (word.bits assignment) := by
  have product : Word.mul (.integer 8) (.integer (32 - number - 1)) =
      .ok (.integer ((8 * (31 - number) : Nat) : Int)) := by
    have position : (8 : Int) * (32 - number - 1) = ((8 * (31 - number) : Nat) : Int) := by omega
    rw [← position]
    rfl
  have count : (8 * (31 - BitVec.ofNat 256 number)).toNat = 8 * (31 - number) := by
    have place : (31 : BitVec 256) - BitVec.ofNat 256 number = BitVec.ofNat 256 (31 - number) := by
      apply eq_of_toNat_eq
      simp only [toNat_sub, toNat_ofNat, ofNat_eq_ofNat]
      omega
    rw [place, toNat_mul, toNat_ofNat]
    simp only [ofNat_eq_ofNat, toNat_ofNat]
    omega
  have notNegative : ¬ (((8 * (31 - number) : Nat) : Int) < 0) := by omega
  have mask : Word.shiftLeft 255 (.integer ((8 * (31 - number) : Nat) : Int)) =
      .ok (.integer (255 * 2 ^ (8 * (31 - number)))) := by
    rw [Word.shiftLeft, if_neg notNegative, Int.toNat_natCast]
  have maskedWord : (Term.binary .and word (ofInt 256 (255 * 2 ^ (8 * (31 - number))))).IsWord :=
    isWord.binary rfl (ofInt_isWord _)
  refine ⟨_, ?_, maskedWord.binary (show BinaryOp.shiftRight.isWordwise = true from rfl)
    (ofInt_isWord ((8 * (31 - number) : Nat) : Int)), fun assignment => ?_⟩
  · unfold byteFromRight
    simp only [product, mask, Word.and, operate_behind isWord, Operation.onTerms, bind, Except.bind]
    exact shiftRight_number maskedWord _
  · rw [Term.bits_shiftRight maskedWord (ofInt_isWord _), Term.bits_and isWord (ofInt_isWord _), chosen,
      count, bits_ofInt, bits_ofInt, ofInt_natCast, toNat_ofNat, Nat.mod_eq_of_lt (by omega)]
    congr 2
    have natural : (255 * 2 ^ (8 * (31 - number)) : Int) = ((255 * 2 ^ (8 * (31 - number)) : Nat) : Int) := by
      push_cast
      rfl
    apply eq_of_toNat_eq
    rw [natural, ofInt_natCast, toNat_ofNat, toNat_shiftLeft, Nat.shiftLeft_eq]
    rfl

include sound complete in
theorem chosenByte_answers {index word : Word} (indexWord : index.IsMachineWord) (isWord : word.IsMachineWord) :
    ∃ place, position index = .ok place ∧
      Answers machine (chosenByte decider place index.symbolic word.symbolic) fun assignment =>
        if machine.Possible (fun other => (index.value other).toNat < 32) then
          chosen (index.value assignment) (word.value assignment)
        else
          0 := by
  obtain ⟨indexTerm, indexSymbolic, indexIsWord, indexBits⟩ := indexWord.symbolic_term
  obtain ⟨wordTerm, wordSymbolic, wordIsWord, wordBits⟩ := isWord.symbolic_term
  -- The place of a byte is known if its index is, and then the index is inside wherever that is possible.
  have placed : ∃ place, position index = .ok place ∧
      (machine.Possible (fun other => (index.value other).toNat < 32) →
        ∃ byte : Term,
          byteFromRight place (.term wordTerm) = .ok (.term byte) ∧ byte.IsWord ∧
            ∀ assignment, byte.bits assignment = chosen (index.value assignment) (wordTerm.bits assignment)) := by
    rcases indexWord.kinds with ⟨number, bounded, rfl⟩ | ⟨term, termWord, rfl⟩
    · refine ⟨.integer (32 - number - 1), rfl, ?_⟩
      rintro ⟨assignment, _, inside⟩
      rw [value_number, toNat_ofNat, Nat.mod_eq_of_lt bounded] at inside
      obtain ⟨byte, found, byteWord, same⟩ := byteFromRight_number wordIsWord inside
      exact ⟨byte, found, byteWord, fun other => (same other).trans (by rw [value_number])⟩
    · obtain ⟨place, found, placeWord, placeBits⟩ := position_term termWord
      refine ⟨.term place, found, fun _ => ?_⟩
      obtain ⟨byte, cut, byteWord, same⟩ := byteFromRight_term placeWord wordIsWord
      exact ⟨byte, cut, byteWord, fun other => (same other).trans (by rw [placeBits]; rfl)⟩
  obtain ⟨place, found, cut⟩ := placed
  refine ⟨place, found, ?_⟩
  simp only [chosenByte, indexSymbolic, wordSymbolic, assumeInside_eq indexIsWord]
  have holds : ∀ assignment, (within indexTerm).Holds assignment ↔ (index.value assignment).toNat < 32 := by
    intro assignment
    rw [holds_within indexIsWord, indexBits]
  by_cases possible : machine.Possible (fun other => (index.value other).toNat < 32)
  · obtain ⟨byte, returns, byteWord, same⟩ := cut possible
    have asked := decide_eq_true possible
    apply answers_term
    · refine (ask_apply sound complete holds _).trans ?_
      simp only [asked, ↓reduceIte, returns]
      rfl
    · exact byteWord
    · intro assignment
      rw [if_pos possible, same, wordBits]
  · have asked := decide_eq_false possible
    apply answers_number
    · refine (ask_apply sound complete holds _).trans ?_
      simp only [asked, Bool.false_eq_true, ↓reduceIte]
      rfl
    · intro assignment
      rw [if_neg possible]
      rfl

end Alu

end MintAudit
