import MintAudit.Proofs.Term.Sums

namespace MintAudit

/-!
# Simplification keeps the value

Each builder of the simplifier yields a term that may stand for the operation it is named after.
-/

open BinaryOp

namespace Term

theorem Replaces.unary {op : UnaryOp} {new old : Term} (replaces : Replaces new old) (taken : op.Takes old.kind) :
    Replaces (.unary op new) (.unary op old) where
  sorted := ⟨replaces.sorted, by rwa [replaces.kind]⟩
  kind := by simp [Term.kind, replaces.kind]
  eval assignment := by simp [Term.eval, replaces.eval, replaces.width]

variable {op : BinaryOp} {term condition : Term} {value width operand : Nat} {left right : Term}

theorem Replaces.binary {newLeft oldLeft newRight oldRight : Term} (left : Replaces newLeft oldLeft)
    (right : Replaces newRight oldRight) (taken : op.Takes oldLeft.kind oldRight.kind) :
    Replaces (.binary op newLeft newRight) (.binary op oldLeft oldRight) where
  sorted := ⟨left.sorted, right.sorted, by rwa [left.kind, right.kind]⟩
  kind := by simp [Term.kind, left.kind, right.kind]
  eval assignment := by simp [Term.eval, left.eval, right.eval, left.width, right.width]

theorem Replaces.choice {newTest oldTest newYes oldYes newNo oldNo : Term} (test : Replaces newTest oldTest)
    (yes : Replaces newYes oldYes) (no : Replaces newNo oldNo) (condition : oldTest.kind = .condition)
    (sameKind : oldYes.kind = oldNo.kind) :
    Replaces (.choice newTest newYes newNo) (.choice oldTest oldYes oldNo) where
  sorted :=
    ⟨test.sorted, yes.sorted, no.sorted, test.kind.trans condition, yes.kind.trans (sameKind.trans no.kind.symm)⟩
  kind := yes.kind
  eval assignment := by simp [Term.eval, test.eval, yes.eval, no.eval]

theorem kind_test (test : op.isTest = true) (left right : Term) : (binary op left right).kind = .condition := by
  simp [Term.kind, BinaryOp.kind, test]

theorem literal?_eq_some (found : term.literal? = some value) :
    ∃ width written, term = literal width written ∧ value = written % 2 ^ width := by
  cases term with
  | literal width written => exact ⟨width, written, rfl, by simpa [literal?] using found.symm⟩
  | _ => simp [literal?] at found

theorem eval_of_literal? (found : term.literal? = some value) (assignment : Assignment) :
    term.eval assignment = value := by
  obtain ⟨width, written, rfl, rfl⟩ := literal?_eq_some found
  rfl

theorem lt_of_literal? (found : term.literal? = some value) (kind : term.kind = .bits width) : value < 2 ^ width := by
  obtain ⟨literalWidth, written, rfl, rfl⟩ := literal?_eq_some found
  obtain rfl : literalWidth = width := by simpa [Term.kind] using kind
  exact Nat.mod_lt _ (Nat.two_pow_pos _)

theorem condition_replaces {whole : Term} (sorted : term.WellSorted) (kind : term.kind = .condition)
    (wholeKind : whole.kind = .condition)
    (same : ∀ assignment, whole.eval assignment = (term.eval assignment != 0).toNat) :
    Replaces term whole := by
  refine ⟨sorted, kind.trans wholeKind.symm, fun assignment => ?_⟩
  rw [same]
  have := eval_lt_two assignment sorted kind
  interval_cases term.eval assignment <;> rfl

theorem mkNot_replaces (sorted : condition.WellSorted) (kind : condition.kind = .condition) :
    Replaces (mkNot condition) (.unary .negation condition) := by
  have plain : Replaces (.unary .negation condition) (.unary .negation condition) := .refl ⟨sorted, kind⟩
  unfold mkNot
  split
  · next value =>
    refine ⟨trivial, rfl, fun assignment => ?_⟩
    cases value <;> rfl
  · next operand =>
    refine condition_replaces sorted.1 sorted.2 rfl fun assignment => ?_
    simp only [eval, UnaryOp.apply]
    by_cases zero : operand.eval assignment = 0 <;> simp [zero, bne]
  · exact plain

theorem mkBoth_replaces (sorted : (binary .both left right).WellSorted) :
    Replaces (mkBoth left right) (binary .both left right) := by
  have plain := Replaces.refl sorted
  obtain ⟨leftSorted, rightSorted, leftKind, rightKind⟩ := sorted
  unfold mkBoth
  split
  · exact condition_replaces rightSorted rightKind rfl fun _ => by simp [eval, apply, bne]
  · refine ⟨trivial, rfl, fun assignment => ?_⟩
    simp [eval, apply]
  · exact condition_replaces leftSorted leftKind rfl fun _ => by simp [eval, apply, bne]
  · refine ⟨trivial, rfl, fun assignment => ?_⟩
    simp [eval, apply]
  · split
    · next same =>
      subst same
      exact condition_replaces leftSorted leftKind rfl fun _ => by simp [eval, apply, bne]
    · exact plain

theorem mkEither_replaces (sorted : (binary .either left right).WellSorted) :
    Replaces (mkEither left right) (binary .either left right) := by
  have plain := Replaces.refl sorted
  obtain ⟨leftSorted, rightSorted, leftKind, rightKind⟩ := sorted
  unfold mkEither
  split
  · refine ⟨trivial, rfl, fun assignment => ?_⟩
    simp [eval, apply]
  · exact condition_replaces rightSorted rightKind rfl fun _ => by simp [eval, apply, bne]
  · refine ⟨trivial, rfl, fun assignment => ?_⟩
    simp [eval, apply]
  · exact condition_replaces leftSorted leftKind rfl fun _ => by simp [eval, apply, bne]
  · split
    · next same =>
      subst same
      exact condition_replaces leftSorted leftKind rfl fun _ => by simp [eval, apply, bne]
    · exact plain

theorem mkChoice_replaces {test yes no : Term} (sorted : (choice test yes no).WellSorted) :
    Replaces (mkChoice test yes no) (choice test yes no) := by
  have plain := Replaces.refl sorted
  obtain ⟨testSorted, yesSorted, noSorted, testKind, sameKind⟩ := sorted
  unfold mkChoice
  split
  · exact ⟨yesSorted, rfl, fun assignment => by simp [eval]⟩
  · exact ⟨noSorted, sameKind.symm, fun assignment => by simp [eval]⟩
  · next opposite =>
    split
    · next same =>
      subst same
      exact ⟨yesSorted, rfl, fun assignment => (ite_self _).symm⟩
    · refine ⟨⟨testSorted.1, noSorted, yesSorted, testSorted.2, sameKind.symm⟩, sameKind.symm, fun assignment => ?_⟩
      simp only [eval, UnaryOp.apply]
      by_cases zero : opposite.eval assignment = 0 <;> simp [zero]
  · split
    · next same =>
      subst same
      exact ⟨yesSorted, rfl, fun assignment => by simp [eval]⟩
    · exact plain

theorem div_mod_div_mod {innerCount low count : Nat} (value innerLow : Nat) (inside : low + count ≤ innerCount) :
    value / 2 ^ innerLow % 2 ^ innerCount / 2 ^ low % 2 ^ count = value / 2 ^ (low + innerLow) % 2 ^ count := by
  apply Nat.eq_of_testBit_eq
  intro index
  simp only [Nat.testBit_mod_two_pow, Nat.testBit_div_two_pow]
  by_cases inCount : index < count
  · have : index + low < innerCount := by omega
    simp [inCount, this, Nat.add_assoc]
  · simp [inCount]

theorem concat_div_mod_right {width low count right : Nat} (left : Nat) (bounded : right < 2 ^ width)
    (inside : low + count ≤ width) :
    (left * 2 ^ width + right) / 2 ^ low % 2 ^ count = right / 2 ^ low % 2 ^ count := by
  apply Nat.eq_of_testBit_eq
  intro index
  rw [Nat.mul_comm]
  simp only [Nat.testBit_mod_two_pow, Nat.testBit_div_two_pow, Nat.testBit_two_pow_mul_add left bounded]
  by_cases inCount : index < count
  · have : index + low < width := by omega
    simp [inCount, this]
  · simp [inCount]

theorem concat_div_mod_left {width low right : Nat} (left count : Nat) (bounded : right < 2 ^ width)
    (beyond : width ≤ low) :
    (left * 2 ^ width + right) / 2 ^ low % 2 ^ count = left / 2 ^ (low - width) % 2 ^ count := by
  obtain ⟨above, rfl⟩ := Nat.exists_eq_add_of_le beyond
  rw [Nat.pow_add, ← Nat.div_div_eq_div_mul, Nat.add_sub_cancel_left, Nat.mul_comm,
    Nat.mul_add_div (Nat.two_pow_pos width), Nat.div_eq_of_lt bounded, Nat.add_zero]

theorem mkExtract_replaces {high low : Nat} (sorted : (unary (.extract high low) term).WellSorted) :
    Replaces (mkExtract high low term) (unary (.extract high low) term) := by
  fun_induction mkExtract high low term with
  | case1 high low width value =>
    refine ⟨trivial, rfl, fun assignment => ?_⟩
    simp [eval, UnaryOp.apply]
  | case2 high low innerHigh innerLow operand inside =>
    obtain ⟨⟨operandSorted, innerTaken⟩, taken⟩ := sorted
    obtain ⟨width, operandKind, innerOrder, innerBound⟩ := UnaryOp.takes_extract innerTaken
    simp only [Term.kind, UnaryOp.kind, UnaryOp.Takes] at taken
    refine ⟨⟨operandSorted, ?_⟩, ?_, fun assignment => ?_⟩
    · simp only [operandKind, UnaryOp.Takes]
      omega
    · simp only [Term.kind, UnaryOp.kind, Kind.bits.injEq]
      omega
    · simp only [eval, UnaryOp.apply]
      rw [div_mod_div_mod _ _ (by omega)]
      congr 2
      omega
  | case3 high low innerHigh innerLow operand outside => exact .refl sorted
  | case4 high low left right inside ih =>
    obtain ⟨⟨leftSorted, rightSorted, concatTaken⟩, taken⟩ := sorted
    obtain ⟨leftWidth, rightWidth, leftKind, rightKind⟩ := takes_concat concatTaken
    obtain ⟨_, _, order, _⟩ := UnaryOp.takes_extract taken
    rw [width_eq rightKind] at inside
    have rightTaken : (unary (.extract high low) right).WellSorted := by
      refine ⟨rightSorted, ?_⟩
      rw [rightKind]
      exact ⟨order, inside⟩
    refine (ih rightTaken).trans ⟨rightTaken, rfl, fun assignment => ?_⟩
    simp only [eval, UnaryOp.apply, apply, width_eq rightKind]
    exact (concat_div_mod_right _ (eval_lt assignment rightSorted rightKind) (by omega)).symm
  | case5 high low left right outside beyond ih =>
    obtain ⟨⟨leftSorted, rightSorted, concatTaken⟩, taken⟩ := sorted
    obtain ⟨leftWidth, rightWidth, leftKind, rightKind⟩ := BinaryOp.takes_concat concatTaken
    have concatKind : (binary .concat left right).kind = .bits (leftWidth + rightWidth) := by
      simp [Term.kind, BinaryOp.kind, BinaryOp.isTest, leftKind, rightKind]
    rw [concatKind] at taken
    obtain ⟨order, bounded⟩ := taken
    rw [width_eq rightKind] at outside beyond
    rw [width_eq rightKind] at ih
    rw [width_eq rightKind]
    have leftTaken : (unary (.extract (high - rightWidth) (low - rightWidth)) left).WellSorted := by
      refine ⟨leftSorted, ?_⟩
      rw [leftKind]
      exact ⟨by omega, by omega⟩
    refine (ih leftTaken).trans ⟨leftTaken, ?_, fun assignment => ?_⟩
    · simp only [Term.kind, UnaryOp.kind, Kind.bits.injEq]
      omega
    · simp only [eval, UnaryOp.apply, apply, width_eq rightKind]
      rw [concat_div_mod_left _ _ (eval_lt assignment rightSorted rightKind) beyond]
      congr 2
      omega
  | case6 high low left right _ _ => exact .refl sorted
  | case7 high low term _ _ _ whole =>
    obtain ⟨termSorted, taken⟩ := sorted
    obtain ⟨width, kind, _, _⟩ := UnaryOp.takes_extract taken
    obtain ⟨rfl, isWhole⟩ := whole
    rw [width_eq kind] at isWhole
    refine ⟨termSorted, ?_, fun assignment => ?_⟩
    · simp only [Term.kind, UnaryOp.kind, kind, Kind.bits.injEq]
      omega
    · have bounded := eval_lt assignment termSorted kind
      simp only [eval, UnaryOp.apply, Nat.pow_zero, Nat.div_one, Nat.sub_zero, isWhole]
      rw [Nat.mod_eq_of_lt bounded]
  | case8 => exact .refl sorted

theorem mkZeroExtend_replaces {extra : Nat} (sorted : (unary (.zeroExtend extra) term).WellSorted) :
    Replaces (mkZeroExtend extra term) (unary (.zeroExtend extra) term) := by
  obtain ⟨termSorted, taken⟩ := sorted
  obtain ⟨width, kind⟩ : ∃ width, term.kind = .bits width := by
    cases kind : term.kind with
    | condition => simp [kind, UnaryOp.Takes] at taken
    | bits width => exact ⟨width, rfl⟩
  have extendedKind : (unary (.zeroExtend extra) term).kind = .bits (extra + width) := by
    simp [Term.kind, UnaryOp.kind, kind]
  unfold mkZeroExtend
  split
  · next none =>
    subst none
    exact ⟨termSorted, by simpa [kind] using extendedKind.symm, fun assignment => rfl⟩
  · split
    · next literalWidth value =>
      obtain rfl : literalWidth = width := by simpa [Term.kind] using kind
      refine ⟨trivial, extendedKind.symm, fun assignment => ?_⟩
      have bounded : value % 2 ^ literalWidth < 2 ^ (extra + literalWidth) :=
        (Nat.mod_lt _ (Nat.two_pow_pos _)).trans_le (Nat.pow_le_pow_right (by decide) (by omega))
      simp only [eval, UnaryOp.apply, Nat.mod_eq_of_lt bounded]
    · refine ⟨⟨trivial, termSorted, by rw [kind]; trivial⟩, ?_, fun assignment => ?_⟩
      · rw [extendedKind]
        simp [Term.kind, BinaryOp.kind, BinaryOp.isTest, kind]
      · simp [eval, BinaryOp.apply, UnaryOp.apply]

theorem lowOnes?_eq_some {mask count : Nat} (found : lowOnes? mask = some count) :
    mask = 2 ^ count - 1 ∧ 0 < count := by
  unfold lowOnes? at found
  split at found
  · next shape =>
    obtain ⟨positive, noCarry⟩ := shape
    have power : (mask + 1).isPowerOfTwo := by
      rw [← Nat.and_sub_one_eq_zero_iff_isPowerOfTwo (by omega), Nat.add_sub_cancel, Nat.and_comm]
      exact noCarry
    obtain ⟨exponent, isPower⟩ := power
    obtain rfl : mask.log2 + 1 = count := by simpa using found
    have exponentPositive : exponent ≠ 0 := by
      rintro rfl
      omega
    obtain ⟨below, rfl⟩ := Nat.exists_eq_succ_of_ne_zero exponentPositive
    have logarithm : mask.log2 = below := by
      rw [Nat.log2_eq_iff positive]
      rw [Nat.succ_eq_add_one, Nat.pow_succ] at isPower
      rw [Nat.pow_succ]
      omega
    rw [logarithm]
    omega
  · simp at found

theorem mkMask_replaces {mask width : Nat} (sorted : term.WellSorted) (kind : term.kind = .bits width)
    (bounded : mask < 2 ^ width) :
    Replaces (mkMask mask term) (binary .and (literal width mask) term) := by
  have maskSorted : (binary .and (literal width mask) term).WellSorted := ⟨trivial, sorted, by rw [kind]; rfl⟩
  have maskEval : ∀ assignment,
      (binary .and (literal width mask) term).eval assignment = mask &&& term.eval assignment := by
    intro assignment
    simp [eval, BinaryOp.apply, Nat.mod_eq_of_lt bounded]
  unfold mkMask
  rw [width_eq kind]
  split
  · next empty =>
    refine ⟨trivial, rfl, fun assignment => ?_⟩
    rw [maskEval, empty, Nat.zero_and]
    exact Nat.zero_mod _
  · split
    · next count found =>
      obtain ⟨rfl, positive⟩ := lowOnes?_eq_some found
      have lowBits : ∀ assignment, (2 ^ count - 1) &&& term.eval assignment = term.eval assignment % 2 ^ count := by
        intro assignment
        rw [Nat.and_comm, Nat.and_two_pow_sub_one_eq_mod]
      split
      · next covers =>
        refine ⟨sorted, kind, fun assignment => ?_⟩
        have inside : term.eval assignment < 2 ^ count :=
          (eval_lt assignment sorted kind).trans_le (Nat.pow_le_pow_right (by decide) covers)
        rw [maskEval, lowBits, Nat.mod_eq_of_lt inside]
      · next partly =>
        have extractSorted : (unary (.extract (count - 1) 0) term).WellSorted := by
          refine ⟨sorted, ?_⟩
          rw [kind]
          exact ⟨by omega, by omega⟩
        have extracted := mkExtract_replaces extractSorted
        have extractedKind : (mkExtract (count - 1) 0 term).kind = .bits count := by
          rw [extracted.kind]
          simp only [Term.kind, UnaryOp.kind, Kind.bits.injEq]
          omega
        have extendSorted : (unary (.zeroExtend (width - count)) (mkExtract (count - 1) 0 term)).WellSorted :=
          ⟨extracted.sorted, by rw [extractedKind]; trivial⟩
        have extended := mkZeroExtend_replaces extendSorted
        refine ⟨extended.sorted, ?_, fun assignment => ?_⟩
        · rw [extended.kind]
          simp only [Term.kind, UnaryOp.kind, extractedKind, BinaryOp.kind, BinaryOp.isTest,
            Bool.false_eq_true, ↓reduceIte, Kind.bits.injEq]
          omega
        · rw [extended.eval, maskEval, lowBits]
          simp only [eval, UnaryOp.apply, extracted.eval, Nat.pow_zero, Nat.div_one]
          congr 2
          omega
    · exact .refl maskSorted

theorem eq_replaces {left right oldLeft oldRight : Term} (sorted : (binary .eq left right).WellSorted)
    (same :
      ∀ assignment, left.eval assignment = right.eval assignment ↔ oldLeft.eval assignment = oldRight.eval assignment) :
    Replaces (binary .eq left right) (binary .eq oldLeft oldRight) := by
  refine ⟨sorted, rfl, fun assignment => ?_⟩
  simp only [eval, apply, beq_eq_decide, same]

theorem truth_replaces_eq {value : Bool}
    (same : ∀ assignment, value = true ↔ left.eval assignment = right.eval assignment) :
    Replaces (truth value) (binary .eq left right) := by
  refine ⟨trivial, rfl, fun assignment => ?_⟩
  simp only [eval, apply, beq_eq_decide, ← same assignment, Bool.decide_eq_true]

theorem choiceEquals?_replaces {term test : Term} (sorted : term.WellSorted) (kind : term.kind = .bits width)
    (bounded : value < 2 ^ width) (found : choiceEquals? value term = some test) :
    Replaces test (binary .eq term (literal width value)) := by
  unfold choiceEquals? at found
  split at found
  · next inner yesWidth yes noWidth no =>
    obtain ⟨innerSorted, _, _, innerKind, sameKind⟩ := sorted
    obtain rfl : yesWidth = width := by simpa [Term.kind] using kind
    obtain rfl : yesWidth = noWidth := by simpa [Term.kind] using sameKind
    have innerBound := fun assignment => eval_lt_two assignment innerSorted innerKind
    have negated := mkNot_replaces innerSorted innerKind
    have shape : ∀ assignment,
        (binary .eq (choice inner (literal yesWidth yes) (literal yesWidth no))
            (literal yesWidth value)).eval assignment =
          if inner.eval assignment = 0 then
            (decide (no % 2 ^ yesWidth = value)).toNat
          else
            (decide (yes % 2 ^ yesWidth = value)).toNat := by
      intro assignment
      simp only [eval, apply, Nat.mod_eq_of_lt bounded]
      by_cases zero : inner.eval assignment = 0 <;> simp [zero, beq_eq_decide]
    split at found <;> obtain rfl := Option.some.inj found
    · next yesCase noCase =>
      refine ⟨trivial, rfl, fun assignment => ?_⟩
      rw [shape, yesCase, noCase]
      simp [eval]
    · next yesCase noCase =>
      refine ⟨innerSorted, innerKind, fun assignment => ?_⟩
      rw [shape, yesCase, noCase]
      have := innerBound assignment
      interval_cases inner.eval assignment <;> rfl
    · next yesCase noCase =>
      refine ⟨negated.sorted, negated.kind.trans rfl, fun assignment => ?_⟩
      rw [shape, yesCase, noCase, negated.eval]
      simp only [eval, UnaryOp.apply]
      have := innerBound assignment
      interval_cases inner.eval assignment <;> rfl
    · next yesCase noCase =>
      refine ⟨trivial, rfl, fun assignment => ?_⟩
      rw [shape, yesCase, noCase]
      simp [eval]
  · simp at found

theorem toSum_constant_lt (term : Term) : term.toSum.constant < 2 ^ term.toSum.width := by
  have positive := fun width => Nat.two_pow_pos width
  fun_cases toSum term with
  | case6 => exact positive _
  | _ => exact Nat.mod_lt _ (positive _)

theorem eval_padded (pad : Nat) (low : Term) (assignment : Assignment) :
    (binary .concat (literal pad 0) low).eval assignment = low.eval assignment := by
  simp [eval, apply]

theorem mkEqLiteral_replaces (sorted : term.WellSorted) (kind : term.kind = .bits width) (bounded : value < 2 ^ width) :
    Replaces (mkEqLiteral term value) (binary .eq term (literal width value)) := by
  have literalEval : ∀ assignment, (literal width value).eval assignment = value := fun _ => Nat.mod_eq_of_lt bounded
  unfold mkEqLiteral
  split
  · next test found =>
    exact choiceEquals?_replaces sorted kind bounded found
  · split
    · next padWidth low _ =>
      obtain ⟨_, lowSorted, taken⟩ := sorted
      obtain ⟨_, lowWidth, _, lowKind⟩ := takes_concat taken
      rw [width_eq lowKind]
      split
      · next fits =>
        apply eq_replaces
        · exact ⟨lowSorted, trivial, lowKind⟩
        · intro assignment
          rw [eval_padded, literalEval, eval, Nat.mod_eq_of_lt fits]
      · next tooLarge =>
        apply truth_replaces_eq
        intro assignment
        rw [eval_padded, literalEval]
        have := eval_lt assignment lowSorted lowKind
        simp only [Bool.false_eq_true, false_iff]
        omega
    · have stands := toSum_standsFor sorted kind
      have constantBound := toSum_constant_lt term
      rw [stands.sumWidth] at constantBound
      rw [width_eq kind]
      dsimp only
      split
      · next single isSingle =>
        have member : (1, single) ∈ term.toSum.nonzero := by simp [isSingle]
        obtain ⟨singleSorted, singleKind⟩ := Sum.ofWidth_nonzero stands.ofWidth _ member
        apply eq_replaces
        · exact ⟨singleSorted, trivial, singleKind⟩
        · intro assignment
          -- The constant moves to the other side of the equation.
          have split : (term.eval assignment : ZMod (2 ^ width)) = term.toSum.constant + single.eval assignment := by
            rw [← stands.value, Sum.value, ← Sum.total_nonzero, isSingle]
            simp
          have singleBound := eval_lt assignment singleSorted singleKind
          have termBound := eval_lt assignment sorted kind
          rw [← Nat.mod_eq_of_lt singleBound, ← Nat.mod_eq_of_lt termBound, eval, Nat.mod_mod,
            eval, ← ZMod.natCast_eq_natCast_iff', ← ZMod.natCast_eq_natCast_iff', split,
            Nat.cast_add, Nat.cast_sub constantBound.le, ZMod.natCast_self]
          constructor <;> intro equal
          · rw [equal]
            ring
          · rw [← equal]
            ring
      · exact .refl ⟨sorted, trivial, kind⟩

theorem mkEqLiteral_mod_replaces (value : Nat) (sorted : term.WellSorted) (kind : term.kind = .bits width) :
    Replaces (mkEqLiteral term (value % 2 ^ width)) (binary .eq term (literal width value)) := by
  refine (mkEqLiteral_replaces sorted kind (Nat.mod_lt value (Nat.two_pow_pos width))).trans ?_
  exact eq_replaces ⟨sorted, trivial, kind⟩ fun _ => by simp [eval]

theorem eqTruth_replaces (value : Bool) (sorted : condition.WellSorted) (kind : condition.kind = .condition) :
    Replaces (if value then condition else mkNot condition) (binary .eq (truth value) condition) := by
  cases value with
  | true =>
    show Replaces condition _
    refine condition_replaces sorted kind rfl fun assignment => ?_
    have := eval_lt_two assignment sorted kind
    simp only [eval, apply]
    interval_cases condition.eval assignment <;> rfl
  | false =>
    refine (mkNot_replaces sorted kind).trans ⟨⟨sorted, kind⟩, rfl, fun assignment => ?_⟩
    have := eval_lt_two assignment sorted kind
    simp only [eval, apply, UnaryOp.apply]
    interval_cases condition.eval assignment <;> rfl

theorem eq_swap_replaces {new left right : Term} (replaces : Replaces new (binary .eq left right)) :
    Replaces new (binary .eq right left) := by
  refine ⟨replaces.sorted, replaces.kind, fun assignment => ?_⟩
  rw [replaces.eval]
  simp only [eval, apply, beq_eq_decide, eq_comm]

theorem toSum_of_condition (sorted : term.WellSorted) (kind : term.kind = .condition) :
    term.toSum = ⟨0, 0, [(1, term)]⟩ := by
  have noWord : ∀ {op left right}, op.isWordwise = true → term = binary op left right → False := by
    rintro op left right wordwise rfl
    obtain ⟨width, wordKind, _⟩ := sorted.wordwise wordwise
    exact Kind.noConfusion (wordKind.symm.trans kind)
  unfold toSum
  split
  · exact Kind.noConfusion kind
  · exact (noWord rfl rfl).elim
  · exact (noWord rfl rfl).elim
  · next operand =>
    have taken := sorted.2
    simp only [Term.kind, UnaryOp.kind] at kind
    rw [kind] at taken
    exact taken.elim
  · exact (noWord rfl rfl).elim
  · rw [Term.width, kind, Kind.width]

theorem constantDifference_replaces (sorted : (binary .eq left right).WellSorted) (different : left ≠ right)
    (vanishes : (left.toSum.add (right.toSum.scale (2 ^ right.width - 1))).nonzero = []) :
    Replaces
      (truth ((left.toSum.add (right.toSum.scale (2 ^ right.width - 1))).constant == 0))
      (binary .eq left right) := by
  obtain ⟨leftSorted, rightSorted, sameKind⟩ := sorted
  cases leftKind : left.kind with
  | condition =>
    have rightKind := sameKind.symm.trans leftKind
    rw [toSum_of_condition leftSorted leftKind, toSum_of_condition rightSorted rightKind] at vanishes
    simp [Sum.add, Sum.scale, Sum.insert, Sum.nonzero, different] at vanishes
  | bits width =>
    have rightKind := sameKind.symm.trans leftKind
    have stands := (toSum_standsFor leftSorted leftKind).sub (toSum_standsFor rightSorted rightKind) leftKind rightKind
    have constantBound : (left.toSum.add (right.toSum.scale (2 ^ right.width - 1))).constant < 2 ^ width := by
      rw [← stands.sumWidth]
      exact Nat.mod_lt _ (Nat.two_pow_pos _)
    apply truth_replaces_eq
    intro assignment
    have value := stands.value assignment
    rw [Sum.value, ← Sum.total_nonzero, vanishes, Sum.total_nil, add_zero, Sum.cast_eval_sub leftKind] at value
    have leftBound := eval_lt assignment leftSorted leftKind
    have rightBound := eval_lt assignment rightSorted rightKind
    rw [beq_iff_eq, ← Nat.mod_eq_of_lt constantBound, ← Nat.mod_eq_of_lt leftBound,
      ← Nat.mod_eq_of_lt rightBound, ← ZMod.natCast_eq_natCast_iff', ← Nat.dvd_iff_mod_eq_zero,
      ← ZMod.natCast_eq_zero_iff, value, sub_eq_zero]

theorem mkEq_replaces (sorted : (binary .eq left right).WellSorted) :
    Replaces (mkEq left right) (binary .eq left right) := by
  have plain := Replaces.refl sorted
  obtain ⟨leftSorted, rightSorted, sameKind⟩ := sorted
  unfold mkEq
  split
  · next same =>
    apply truth_replaces_eq
    simp [same]
  · next different =>
    split
    · apply truth_replaces_eq
      intro assignment
      simp [eval]
    · exact eqTruth_replaces _ rightSorted sameKind.symm
    · exact eq_swap_replaces (eqTruth_replaces _ leftSorted sameKind)
    · exact mkEqLiteral_mod_replaces _ leftSorted sameKind
    · exact eq_swap_replaces (mkEqLiteral_mod_replaces _ rightSorted sameKind.symm)
    · next leftPad leftLow rightPad rightLow =>
      obtain ⟨_, leftLowSorted, leftTaken⟩ := leftSorted
      obtain ⟨_, rightLowSorted, rightTaken⟩ := rightSorted
      obtain ⟨_, leftWidth, leftPadKind, leftKind⟩ := takes_concat leftTaken
      obtain ⟨_, rightWidth, rightPadKind, rightKind⟩ := takes_concat rightTaken
      split
      · next samePad =>
        subst samePad
        have lowKind : leftLow.kind = rightLow.kind := by
          simp only [Term.kind] at sameKind
          rw [leftKind, rightKind] at sameKind ⊢
          simpa [BinaryOp.kind, BinaryOp.isTest, BinaryOp.Takes] using sameKind
        split
        · next same =>
          apply truth_replaces_eq
          simp [same]
        · apply eq_replaces
          · exact ⟨leftLowSorted, rightLowSorted, lowKind⟩
          · intro assignment
            rw [eval_padded, eval_padded]
      · exact plain
    · dsimp only
      split
      · next vanishes =>
        exact constantDifference_replaces ⟨leftSorted, rightSorted, sameKind⟩ different vanishes
      · exact plain

theorem mkUle_replaces (sorted : (binary .ule left right).WellSorted) :
    Replaces (mkUle left right) (binary .ule left right) := by
  have plain := Replaces.refl sorted
  obtain ⟨leftSorted, rightSorted, taken⟩ := sorted
  obtain ⟨width, leftKind, rightKind⟩ := takes_order rfl taken
  have leftBound := fun assignment => eval_lt assignment leftSorted leftKind
  have rightBound := fun assignment => eval_lt assignment rightSorted rightKind
  have known : ∀ value : Bool,
      (∀ assignment, value = true ↔ left.eval assignment ≤ right.eval assignment) →
        Replaces (truth value) (binary .ule left right) := by
    intro value same
    refine ⟨trivial, rfl, fun assignment => ?_⟩
    simp only [eval, apply, ← same assignment, Bool.decide_eq_true]
  -- At an end of the range an order is an equation.
  have equation : ∀ term value,
      term.WellSorted → term.kind = .bits width → value < 2 ^ width →
        (∀ assignment, term.eval assignment = value ↔ left.eval assignment ≤ right.eval assignment) →
          Replaces (mkEqLiteral term value) (binary .ule left right) := by
    intro term value termSorted termKind bounded same
    apply (mkEqLiteral_replaces termSorted termKind bounded).trans
    refine ⟨⟨termSorted, trivial, termKind⟩, rfl, fun assignment => ?_⟩
    simp only [eval, apply, beq_eq_decide, Nat.mod_eq_of_lt bounded, same]
  unfold mkUle
  split
  · next same =>
    apply known
    simp [same]
  · rw [width_eq leftKind]
    split
    · next leftFound rightFound =>
      apply known
      simp [eval_of_literal? leftFound, eval_of_literal? rightFound]
    · next leftValue leftFound _ =>
      have leftEval := eval_of_literal? leftFound
      have bounded := lt_of_literal? leftFound leftKind
      split
      · next isZero =>
        apply known
        simp [leftEval, isZero]
      · split
        · apply equation _ _ rightSorted rightKind bounded
          intro assignment
          have := rightBound assignment
          rw [leftEval]
          omega
        · exact plain
    · next rightValue _ rightFound =>
      have rightEval := eval_of_literal? rightFound
      split
      · apply equation _ _ leftSorted leftKind (Nat.two_pow_pos width)
        intro assignment
        rw [rightEval]
        omega
      · split
        · apply known
          intro assignment
          have := leftBound assignment
          rw [rightEval]
          simp only [true_iff]
          omega
        · exact plain
    · exact plain

theorem mkSle_replaces (sorted : (binary .sle left right).WellSorted) :
    Replaces (mkSle left right) (binary .sle left right) := by
  have plain := Replaces.refl sorted
  obtain ⟨leftSorted, rightSorted, taken⟩ := sorted
  obtain ⟨width, leftKind, rightKind⟩ := takes_order rfl taken
  unfold mkSle
  split
  · next same =>
    refine ⟨trivial, rfl, fun assignment => ?_⟩
    simp [eval, apply, same]
  · split
    · next leftFound rightFound =>
      refine ⟨trivial, rfl, fun assignment => ?_⟩
      simp only [eval, apply, eval_of_literal? leftFound, eval_of_literal? rightFound,
        width_eq leftKind, width_eq rightKind]
    · exact plain

theorem literal_replaces (kind : term.kind = .bits width) (bounded : value < 2 ^ width)
    (same : ∀ assignment, term.eval assignment = value) :
    Replaces (literal width value) term := by
  refine ⟨trivial, kind.symm, fun assignment => ?_⟩
  rw [same, eval, Nat.mod_eq_of_lt bounded]

theorem literals_replaces (wordwise : op.isWordwise = true) (sorted : (binary op left right).WellSorted)
    {leftValue rightValue : Nat} (leftFound : left.literal? = some leftValue)
    (rightFound : right.literal? = some rightValue) :
    Replaces (literal left.width (op.apply left.width right.width leftValue rightValue)) (binary op left right) := by
  obtain ⟨width, wordKind, ⟨_, leftKind⟩, _, rightKind⟩ := sorted.wordwise wordwise
  rw [width_eq leftKind, width_eq rightKind]
  apply literal_replaces wordKind
  · exact apply_lt_of_isWordwise wordwise (lt_of_literal? leftFound leftKind) (lt_of_literal? rightFound rightKind)
  · intro assignment
    simp only [eval, eval_of_literal? leftFound, eval_of_literal? rightFound, width_eq leftKind, width_eq rightKind]

theorem mkFolded_replaces (wordwise : op.isWordwise = true) (sorted : (binary op left right).WellSorted) :
    Replaces (mkFolded op left right) (binary op left right) := by
  unfold mkFolded
  split
  · next leftFound rightFound =>
    exact literals_replaces wordwise sorted leftFound rightFound
  · exact .refl sorted

theorem mkAnd_replaces (sorted : (binary .and left right).WellSorted) :
    Replaces (mkAnd left right) (binary .and left right) := by
  obtain ⟨width, wordKind, ⟨leftSorted, leftKind⟩, rightSorted, rightKind⟩ := sorted.wordwise rfl
  unfold mkAnd
  split
  · next leftFound rightFound =>
    exact literals_replaces rfl sorted leftFound rightFound
  · next mask leftFound _ =>
    have bounded := lt_of_literal? leftFound leftKind
    have masked := mkMask_replaces rightSorted rightKind bounded
    refine ⟨masked.sorted, masked.kind.trans wordKind.symm, fun assignment => ?_⟩
    rw [masked.eval]
    simp only [eval, apply, eval_of_literal? leftFound, Nat.mod_eq_of_lt bounded]
  · next mask _ rightFound =>
    have bounded := lt_of_literal? rightFound rightKind
    have masked := mkMask_replaces leftSorted leftKind bounded
    refine ⟨masked.sorted, masked.kind.trans wordKind.symm, fun assignment => ?_⟩
    rw [masked.eval]
    simp only [eval, apply, eval_of_literal? rightFound, Nat.mod_eq_of_lt bounded, Nat.and_comm]
  · split
    · next same =>
      refine ⟨leftSorted, rfl, fun assignment => ?_⟩
      simp only [eval, apply, ← same, Nat.and_self]
    · exact .refl sorted

theorem mkOr_replaces (sorted : (binary .or left right).WellSorted) :
    Replaces (mkOr left right) (binary .or left right) := by
  obtain ⟨width, wordKind, ⟨leftSorted, leftKind⟩, rightSorted, rightKind⟩ := sorted.wordwise rfl
  unfold mkOr
  split
  · next leftFound rightFound =>
    exact literals_replaces rfl sorted leftFound rightFound
  · next leftFound _ =>
    refine ⟨rightSorted, rightKind.trans wordKind.symm, fun assignment => ?_⟩
    simp only [eval, apply, eval_of_literal? leftFound, Nat.zero_or]
  · next _ rightFound =>
    refine ⟨leftSorted, rfl, fun assignment => ?_⟩
    simp only [eval, apply, eval_of_literal? rightFound, Nat.or_zero]
  · split
    · next same =>
      refine ⟨leftSorted, rfl, fun assignment => ?_⟩
      simp only [eval, apply, ← same, Nat.or_self]
    · exact .refl sorted

theorem mkXor_replaces (sorted : (binary .xor left right).WellSorted) :
    Replaces (mkXor left right) (binary .xor left right) := by
  obtain ⟨width, wordKind, ⟨leftSorted, leftKind⟩, rightSorted, rightKind⟩ := sorted.wordwise rfl
  unfold mkXor
  split
  · next leftFound rightFound =>
    exact literals_replaces rfl sorted leftFound rightFound
  · next leftFound _ =>
    refine ⟨rightSorted, rightKind.trans wordKind.symm, fun assignment => ?_⟩
    simp only [eval, apply, eval_of_literal? leftFound, Nat.zero_xor]
  · next _ rightFound =>
    refine ⟨leftSorted, rfl, fun assignment => ?_⟩
    simp only [eval, apply, eval_of_literal? rightFound, Nat.xor_zero]
  · split
    · next same =>
      rw [width_eq leftKind]
      apply literal_replaces wordKind (Nat.two_pow_pos width)
      intro assignment
      simp only [eval, apply, ← same, Nat.xor_self]
    · exact .refl sorted

theorem mkMul_replaces (sorted : (binary .mul left right).WellSorted) :
    Replaces (mkMul left right) (binary .mul left right) := by
  obtain ⟨width, wordKind, ⟨leftSorted, leftKind⟩, rightSorted, rightKind⟩ := sorted.wordwise rfl
  unfold mkMul
  split
  · next factor leftFound =>
    refine Sum.toTerm_replaces ?_ sorted wordKind
    refine (toSum_standsFor rightSorted rightKind).scale factor fun assignment => ?_
    rw [Sum.cast_eval_mul leftKind, eval_of_literal? leftFound, mul_comm]
  · next factor _ rightFound =>
    refine Sum.toTerm_replaces ?_ sorted wordKind
    refine (toSum_standsFor leftSorted leftKind).scale factor fun assignment => ?_
    rw [Sum.cast_eval_mul leftKind, eval_of_literal? rightFound]
  · exact .refl sorted

theorem mkConcat_replaces (sorted : (binary .concat left right).WellSorted) :
    Replaces (mkConcat left right) (binary .concat left right) := by
  have plain := Replaces.refl sorted
  obtain ⟨leftSorted, rightSorted, taken⟩ := sorted
  obtain ⟨leftWidth, rightWidth, leftKind, rightKind⟩ := BinaryOp.takes_concat taken
  have wordKind : (binary .concat left right).kind = .bits (leftWidth + rightWidth) := by
    simp [Term.kind, BinaryOp.kind, BinaryOp.isTest, leftKind, rightKind]
  unfold mkConcat
  split
  · next leftValue rightValue leftFound rightFound =>
    have evaluates : ∀ assignment,
        (binary .concat left right).eval assignment = leftValue * 2 ^ rightWidth + rightValue := by
      intro assignment
      simp only [eval, apply, eval_of_literal? leftFound, eval_of_literal? rightFound, width_eq rightKind]
    rw [width_eq leftKind, width_eq rightKind]
    apply literal_replaces wordKind _ evaluates
    have bound := eval_lt (fun _ _ => 0) plain.sorted wordKind
    rwa [evaluates] at bound
  · exact plain

theorem mkNot_replaces_opposite {new old whole : Term} (replaces : Replaces new old) (oldKind : old.kind = .condition)
    (wholeKind : whole.kind = .condition)
    (opposite : ∀ assignment, whole.eval assignment = (old.eval assignment == 0).toNat) :
    Replaces (mkNot new) whole := by
  have negated := mkNot_replaces replaces.sorted (replaces.kind.trans oldKind)
  refine ⟨negated.sorted, negated.kind.trans wholeKind.symm, fun assignment => ?_⟩
  rw [negated.eval, opposite, eval, replaces.eval]
  rfl

theorem operand_replaces (wordwise : op.isWordwise = true) (sorted : (binary op left right).WellSorted)
    (found : right.literal? = some value)
    (same : ∀ width operand, value < 2 ^ width → operand < 2 ^ width → op.apply width width operand value = operand) :
    Replaces left (binary op left right) := by
  obtain ⟨width, wordKind, ⟨leftSorted, leftKind⟩, _, rightKind⟩ := sorted.wordwise wordwise
  refine ⟨leftSorted, leftKind.trans wordKind.symm, fun assignment => ?_⟩
  rw [eval, eval_of_literal? found, width_eq leftKind, width_eq rightKind]
  exact (same width _ (lt_of_literal? found rightKind) (eval_lt assignment leftSorted leftKind)).symm

theorem ite_mkFolded_replaces (wordwise : op.isWordwise = true) (sorted : (binary op left right).WellSorted)
    (same : ∀ width operand, value < 2 ^ width → operand < 2 ^ width → op.apply width width operand value = operand) :
    Replaces (if right.literal? = some value then left else mkFolded op left right) (binary op left right) := by
  split
  · next found =>
    exact operand_replaces wordwise sorted found same
  · exact mkFolded_replaces wordwise sorted

theorem wrap_signed {width value : Nat} (bounded : value < 2 ^ width) : wrap width (signed width value) = value := by
  unfold signed
  split
  · exact wrap_of_lt bounded
  · unfold wrap
    rw [Int.sub_emod_right]
    exact wrap_of_lt bounded

theorem sdiv_one (one : 1 < 2 ^ width) (bounded : operand < 2 ^ width) :
    sdiv.apply width width operand 1 = operand := by
  simp only [apply, Nat.one_ne_zero, ↓reduceIte]
  by_cases wide : 2 * 1 < 2 ^ width
  · have : signed width 1 = 1 := by simp [signed, wide]
    rw [this, Int.tdiv_one, wrap_signed bounded]
  · -- In a single bit the word one is its own opposite.
    have narrow : 2 ^ width = 2 := by omega
    have : width = 1 := by
      have := Nat.pow_right_injective (le_refl 2) (narrow.trans (pow_one 2).symm)
      exact this
    subst this
    interval_cases operand <;> rfl

theorem shiftRight_zero (bounded : operand < 2 ^ width) : shiftRight.apply width width operand 0 = operand := by
  simp only [apply]
  split
  · next empty =>
    obtain rfl : width = 0 := by omega
    obtain rfl : operand = 0 := by simpa using bounded
    rfl
  · simp only [pow_zero, Nat.cast_one, Int.fdiv_one, wrap_signed bounded]

theorem mkBinary_replaces (sorted : (binary op left right).WellSorted) :
    Replaces (mkBinary op left right) (binary op left right) := by
  have swapped : ∀ other : BinaryOp, other.isOrder = true → op.isOrder = true →
      (binary other right left).WellSorted ∧ (binary other left right).WellSorted := by
    intro other otherOrder order
    obtain ⟨leftSorted, rightSorted, taken⟩ := sorted
    obtain ⟨width, leftKind, rightKind⟩ := takes_order order taken
    have taken : other.Takes (.bits width) (.bits width) := by cases other <;> simp_all [isOrder, BinaryOp.Takes]
    exact ⟨⟨rightSorted, leftSorted, by rwa [leftKind, rightKind]⟩,
      ⟨leftSorted, rightSorted, by rwa [leftKind, rightKind]⟩⟩
  have sameWidth : op.isOrder = true → right.width = left.width := by
    intro order
    obtain ⟨width, leftKind, rightKind⟩ := takes_order order sorted.2.2
    rw [width_eq leftKind, width_eq rightKind]
  cases op with
  | add =>
    obtain ⟨width, wordKind, ⟨leftSorted, leftKind⟩, rightSorted, rightKind⟩ := sorted.wordwise rfl
    refine Sum.toTerm_replaces ?_ sorted wordKind
    exact (toSum_standsFor leftSorted leftKind).add (toSum_standsFor rightSorted rightKind) (Sum.cast_eval_add leftKind)
  | sub =>
    obtain ⟨width, wordKind, ⟨leftSorted, leftKind⟩, rightSorted, rightKind⟩ := sorted.wordwise rfl
    refine Sum.toTerm_replaces ?_ sorted wordKind
    exact (toSum_standsFor leftSorted leftKind).sub (toSum_standsFor rightSorted rightKind) leftKind rightKind
  | mul => exact mkMul_replaces sorted
  | udiv => exact ite_mkFolded_replaces rfl sorted fun width operand _ _ => by simp [apply]
  | urem => exact mkFolded_replaces rfl sorted
  | sdiv => exact ite_mkFolded_replaces rfl sorted fun width operand => sdiv_one
  | smod => exact ite_mkFolded_replaces rfl sorted fun width operand _ _ => by simp [apply]
  | and => exact mkAnd_replaces sorted
  | or => exact mkOr_replaces sorted
  | xor => exact mkXor_replaces sorted
  | shiftLeft =>
    refine ite_mkFolded_replaces rfl sorted fun width operand _ bounded => ?_
    simp only [apply, pow_zero, mul_one, Nat.mod_eq_of_lt bounded]
    split
    · next empty =>
      obtain rfl : width = 0 := by omega
      omega
    · rfl
  | shiftRight => exact ite_mkFolded_replaces rfl sorted fun width operand _ => shiftRight_zero
  | concat => exact mkConcat_replaces sorted
  | eq => exact mkEq_replaces sorted
  | ne =>
    have equation : (binary .eq left right).WellSorted := sorted
    refine mkNot_replaces_opposite (mkEq_replaces equation) rfl rfl fun assignment => ?_
    simp only [eval, apply, bne]
    cases left.eval assignment == right.eval assignment <;> rfl
  | ult =>
    refine mkNot_replaces_opposite (mkUle_replaces (swapped _ rfl rfl).1) rfl rfl fun assignment => ?_
    simp only [eval, apply, ← not_le]
    by_cases right.eval assignment ≤ left.eval assignment <;> simp [*]
  | ule => exact mkUle_replaces sorted
  | ugt =>
    refine mkNot_replaces_opposite (mkUle_replaces (swapped _ rfl rfl).2) rfl rfl fun assignment => ?_
    simp only [eval, apply, ← not_le]
    by_cases left.eval assignment ≤ right.eval assignment <;> simp [*]
  | uge =>
    have order := mkUle_replaces (swapped .ule rfl rfl).1
    exact ⟨order.sorted, order.kind, order.eval⟩
  | slt =>
    refine mkNot_replaces_opposite (mkSle_replaces (swapped _ rfl rfl).1) rfl rfl fun assignment => ?_
    simp only [eval, apply, ← not_le, sameWidth rfl]
    by_cases signed left.width (right.eval assignment) ≤ signed left.width (left.eval assignment) <;> simp [*]
  | sle => exact mkSle_replaces sorted
  | sgt =>
    refine mkNot_replaces_opposite (mkSle_replaces (swapped _ rfl rfl).2) rfl rfl fun assignment => ?_
    simp only [eval, apply, ← not_le]
    by_cases signed left.width (left.eval assignment) ≤ signed left.width (right.eval assignment) <;> simp [*]
  | sge =>
    have order := mkSle_replaces (swapped .sle rfl rfl).1
    refine ⟨order.sorted, order.kind, fun assignment => ?_⟩
    simp only [mkBinary, order.eval]
    simp only [eval, apply, sameWidth rfl]
  | both => exact mkBoth_replaces sorted
  | either => exact mkEither_replaces sorted

theorem mkUnary_replaces {op : UnaryOp} {operand : Term} (sorted : (unary op operand).WellSorted) :
    Replaces (mkUnary op operand) (unary op operand) := by
  have plain := Replaces.refl sorted
  cases op with
  | complement =>
    simp only [mkUnary]
    split
    · next width value =>
      refine ⟨trivial, rfl, fun assignment => ?_⟩
      have := Nat.two_pow_pos width
      simp only [eval, UnaryOp.apply, Term.width, Term.kind, Kind.width]
      exact Nat.mod_eq_of_lt (by omega)
    · next inner =>
      obtain ⟨⟨innerSorted, innerTaken⟩, _⟩ := sorted
      cases innerKind : inner.kind with
      | condition =>
        rw [innerKind] at innerTaken
        exact innerTaken.elim
      | bits width =>
        have complementKind : (unary .complement inner).kind = .bits width := innerKind
        refine ⟨innerSorted, rfl, fun assignment => ?_⟩
        have := eval_lt assignment innerSorted innerKind
        simp only [eval, UnaryOp.apply, width_eq innerKind, width_eq complementKind]
        omega
    · exact plain
  | negate =>
    obtain ⟨operandSorted, taken⟩ := sorted
    cases kind : operand.kind with
    | condition =>
      rw [kind] at taken
      exact taken.elim
    | bits width =>
      refine Sum.toTerm_replaces ?_ plain.sorted kind
      refine (toSum_standsFor operandSorted kind).scale _ fun assignment => ?_
      rw [Sum.cast_eval_negate kind, width_eq kind, cast_allOnes]
      ring
  | negation => exact mkNot_replaces sorted.1 sorted.2
  | extract high low => exact mkExtract_replaces sorted
  | zeroExtend extra => exact mkZeroExtend_replaces sorted

theorem simplify_replaces (sorted : term.WellSorted) : Replaces term.simplify term := by
  induction term with
  | symbol name width => exact .refl trivial
  | literal width value => exact ⟨trivial, rfl, fun _ => Nat.mod_mod _ _⟩
  | truth value => exact .refl trivial
  | unary op operand operandReplaces =>
    obtain ⟨operandSorted, taken⟩ := sorted
    have operands := (operandReplaces operandSorted).unary taken
    exact (mkUnary_replaces operands.sorted).trans operands
  | binary op left right leftReplaces rightReplaces =>
    obtain ⟨leftSorted, rightSorted, taken⟩ := sorted
    have operands := (leftReplaces leftSorted).binary (rightReplaces rightSorted) taken
    exact (mkBinary_replaces operands.sorted).trans operands
  | choice test yes no testReplaces yesReplaces noReplaces =>
    obtain ⟨testSorted, yesSorted, noSorted, testKind, sameKind⟩ := sorted
    have parts := (testReplaces testSorted).choice (yesReplaces yesSorted) (noReplaces noSorted) testKind sameKind
    exact (mkChoice_replaces parts.sorted).trans parts

end Term

end MintAudit
