import MintAudit.Proofs.Machine.SymbolicAlu

namespace MintAudit

/-!
# Where a symbolic result is the right one

The values that are pushed for symbolic words, compared with the values that the instructions are meant to have.
-/

open BitVec hiding mul_zero and_comm

def Reference.signedRemainder (left right : Value) : Value :=
  if right = 0 then 0 else left.srem right

namespace Alu

open Classical
open Reference (Value)

theorem smtUDiv_eq_udiv_iff (left right : Value) : left.smtUDiv right = left / right ↔ right ≠ 0 := by
  rw [smtUDiv_eq]
  by_cases zero : right = 0#256
  · simp [zero]
  · simp [zero]

theorem umod_eq_remainder_iff (left right : Value) :
    left % right = Reference.remainder left right ↔ right ≠ 0 ∨ left = 0 := by
  unfold Reference.remainder
  by_cases zero : right = 0#256
  · simp [zero]
  · simp [zero]

theorem addModulo_iff (first second modulus : Value) :
    BitVec.ofNat 256 ((first.toNat + second.toNat) % modulus.toNat) = Reference.addModulo first second modulus ↔
      modulus ≠ 0 ∨ first + second = 0 := by
  unfold Reference.addModulo
  by_cases zero : modulus = 0#256
  · simp [zero, ofNat_add]
  · simp [zero]

theorem mulModulo_iff (first second modulus : Value) :
    BitVec.ofNat 256 ((first.toNat * second.toNat) % modulus.toNat) = Reference.mulModulo first second modulus ↔
      modulus ≠ 0 ∨ first * second = 0 := by
  unfold Reference.mulModulo
  by_cases zero : modulus = 0#256
  · simp [zero, ofNat_mul]
  · simp [zero]

/-- A word that is not its own magnitude. -/
def Flipped (word : Value) : Prop :=
  word.toInt < 0 ∧ word ≠ BitVec.intMin 256

instance (word : Value) : Decidable (Flipped word) :=
  inferInstanceAs (Decidable (_ ∧ _))

variable {word : Value} {left right : Value} {place : Nat}

theorem abs_eq_of_flipped (flipped : Flipped word) : word.abs = -word := by
  rw [BitVec.abs_eq, msb_eq_toInt, if_pos (by simpa using flipped.1)]

theorem abs_eq_of_not_flipped (same : ¬ Flipped word) : word.abs = word := by
  by_cases least : word = BitVec.intMin 256
  · rw [least, abs_intMin]
  · have positive : ¬ word.toInt < 0 := fun negative => same ⟨negative, least⟩
    rw [BitVec.abs_eq, msb_eq_toInt, if_neg (by simpa using positive)]

theorem abs_sdiv_abs (left right : Value) :
    left.abs.sdiv right.abs =
      if Flipped left ↔ Flipped right then left.sdiv right else -(left.sdiv right) := by
  by_cases leftFlipped : Flipped left
  · by_cases rightFlipped : Flipped right
    · simp [abs_eq_of_flipped leftFlipped, abs_eq_of_flipped rightFlipped, leftFlipped, rightFlipped,
        neg_sdiv leftFlipped.2, sdiv_neg rightFlipped.2]
    · simp [abs_eq_of_flipped leftFlipped, abs_eq_of_not_flipped rightFlipped, leftFlipped, rightFlipped,
        neg_sdiv leftFlipped.2]
  · by_cases rightFlipped : Flipped right
    · simp [abs_eq_of_not_flipped leftFlipped, abs_eq_of_flipped rightFlipped, leftFlipped, rightFlipped,
        sdiv_neg rightFlipped.2]
    · simp [abs_eq_of_not_flipped leftFlipped, abs_eq_of_not_flipped rightFlipped, leftFlipped, rightFlipped]

theorem abs_eq_zero_iff (word : Value) : word.abs = 0 ↔ word = 0 := by
  rw [BitVec.abs_eq]
  split <;> simp

theorem sign_mul_eq_iff (negative : Prop) (size result : Value) :
    sign negative * size = result ↔ if negative then -size = result else size = result := by
  unfold sign
  by_cases holds : negative
  · rw [if_pos holds, if_pos holds, neg_one_mul]
  · rw [if_neg holds, if_neg holds, one_mul]

theorem signed_smtSDiv_iff (negative : Prop) (left right : Value) :
    sign negative * left.abs.smtSDiv right.abs = left.sdiv right ↔
      right ≠ 0 ∧ (left.sdiv right = -(left.sdiv right) ∨ (negative ↔ ¬ (Flipped left ↔ Flipped right))) := by
  rw [sign_mul_eq_iff]
  by_cases zero : right = 0#256
  · -- The quotient of the term language by zero is one or minus one.
    have magnitude : right.abs = 0#256 := (abs_eq_zero_iff right).mpr zero
    have size : left.abs.smtSDiv right.abs ≠ 0#256 := by
      rw [magnitude, smtSDiv_zero]
      split <;> decide
    generalize left.abs.smtSDiv right.abs = quotient at size
    simp [size, zero]
  · have magnitude : right.abs ≠ 0#256 := (abs_eq_zero_iff right).not.mpr zero
    rw [smtSDiv_eq_sdiv _ magnitude, abs_sdiv_abs]
    generalize left.sdiv right = quotient
    by_cases same : Flipped left ↔ Flipped right <;> by_cases holds : negative
    · simp [same, holds, zero, eq_comm]
    · simp [same, holds, zero]
    · simp [same, holds, zero]
    · simp [same, holds, zero, eq_comm]

theorem srem_eq_abs_umod (left right : Value) :
    left.srem right = if left.toInt < 0 then -(left.abs % right.abs) else left.abs % right.abs := by
  rw [srem_eq, BitVec.abs_eq, BitVec.abs_eq, msb_eq_toInt, msb_eq_toInt]
  by_cases leftNegative : left.toInt < 0 <;> by_cases rightNegative : right.toInt < 0 <;>
    simp [leftNegative, rightNegative]

theorem toNat_least : (BitVec.intMin 256).toNat = 2 ^ 255 :=
  toNat_intMin_of_pos (by decide)

theorem abs_lt (notLeast : word ≠ BitVec.intMin 256) : word.abs.toNat < 2 ^ 255 := by
  have positive : word.abs.msb = false := by simp [msb_abs, notLeast]
  have := msb_eq_false_iff_two_mul_lt.mp positive
  omega

theorem abs_pos (nonzero : word ≠ 0) : 0 < word.abs.toNat := by
  rw [Nat.pos_iff_ne_zero]
  exact fun zero => nonzero ((abs_eq_zero_iff word).mp (eq_of_toNat_eq zero))

theorem eq_neg_iff_of_lt (small : word.toNat < 2 ^ 255) : word = -word ↔ word = 0 := by
  rw [← toNat_inj, ← toNat_inj, toNat_neg]
  simp only [ofNat_eq_ofNat, toNat_ofNat]
  omega

theorem abs_smod_abs (leftNotLeast : left ≠ BitVec.intMin 256) (rightNotLeast : right ≠ BitVec.intMin 256) :
    left.abs.smod right.abs = left.abs % right.abs := by
  simp [smod_eq, msb_abs, leftNotLeast, rightNotLeast]

theorem signed_smod_iff_of_ne_least (negative : Prop) (leftNotLeast : left ≠ BitVec.intMin 256)
    (rightNotLeast : right ≠ BitVec.intMin 256) :
    sign negative * left.abs.smod right.abs = left.srem right ↔ left.srem right = 0 ∨ (negative ↔ left.toInt < 0) := by
  have small : (left.abs % right.abs).toNat < 2 ^ 255 := by
    rw [toNat_umod]
    exact (Nat.mod_le _ _).trans_lt (abs_lt leftNotLeast)
  rw [sign_mul_eq_iff, abs_smod_abs leftNotLeast rightNotLeast, srem_eq_abs_umod]
  have opposite := eq_neg_iff_of_lt small
  generalize left.abs % right.abs = size at opposite
  by_cases holds : negative <;> by_cases below : left.toInt < 0
  · simp [holds, below]
  · rw [if_pos holds, if_neg below, eq_comm, opposite]
    simp [holds, below]
  · rw [if_neg holds, if_pos below, opposite]
    simp [holds, below]
  · simp [holds, below]

variable {left : Value} {negative : Prop} {right : Value}

theorem abs_umod_least (notLeast : left ≠ BitVec.intMin 256) : left.abs % BitVec.intMin 256 = left.abs := by
  apply umod_eq_of_lt
  rw [lt_def, toNat_least]
  exact abs_lt notLeast

theorem abs_smod_least (notLeast : left ≠ BitVec.intMin 256) (nonzero : left ≠ 0) :
    left.abs.smod (BitVec.intMin 256).abs = left.abs + BitVec.intMin 256 ∧ left.srem (BitVec.intMin 256) = left := by
  have small := abs_umod_least notLeast
  have positive : left.abs ≠ 0#256 := (abs_eq_zero_iff left).not.mpr nonzero
  refine ⟨?_, ?_⟩
  · simp [smod_eq, msb_abs, notLeast, msb_intMin, neg_intMin, abs_intMin, small, positive]
  · rw [srem_eq_abs_umod, abs_intMin, small, BitVec.abs_eq, msb_eq_toInt]
    by_cases below : left.toInt < 0 <;> simp [below]

theorem signed_smod_least_iff (notLeast : left ≠ BitVec.intMin 256) (nonzero : left ≠ 0)
    (negativeOf : left.toInt < 0 → negative) :
    sign negative * left.abs.smod (BitVec.intMin 256).abs = left.srem (BitVec.intMin 256) ↔
      left = BitVec.ofNat 256 (2 ^ 254) ∧ negative := by
  obtain ⟨size, remainder⟩ := abs_smod_least notLeast nonzero
  have bounded := left.isLt
  rw [sign_mul_eq_iff, size, remainder]
  by_cases below : left.toInt < 0
  · rw [if_pos (negativeOf below), abs_eq_of_flipped ⟨below, notLeast⟩]
    constructor
    · intro same
      have numbers := congrArg BitVec.toNat same
      rw [toNat_neg, toNat_add, toNat_neg, toNat_least] at numbers
      omega
    · rintro ⟨rfl, _⟩
      exact absurd below (by decide)
  · have positive : left.toNat < 2 ^ 255 := by
      rw [toInt_eq_toNat_cond] at below
      split at below <;> omega
    rw [abs_eq_of_not_flipped fun flipped => below flipped.1]
    by_cases holds : negative
    · rw [if_pos holds, ← toNat_inj, ← toNat_inj, toNat_neg, toNat_add, toNat_least, toNat_ofNat]
      simp only [holds, and_true]
      omega
    · rw [if_neg holds, ← toNat_inj, toNat_add, toNat_least]
      simp only [holds, and_false, iff_false]
      omega

theorem two_mul_mod_ne {divisor : Nat} (small : divisor < 2 ^ 255) (positive : 0 < divisor) :
    2 * (2 ^ 255 % divisor) ≠ divisor := by
  intro twice
  -- Otherwise the power of two has the odd factor `2 * (2 ^ 255 / divisor) + 1`.
  have factored : 2 ^ 255 = (2 ^ 255 % divisor) * (2 * (2 ^ 255 / divisor) + 1) := by
    have split := Nat.div_add_mod (2 ^ 255) divisor
    nth_rewrite 1 [← twice] at split
    linarith
  obtain ⟨exponent, _, isPower⟩ :=
    (Nat.dvd_prime_pow Nat.prime_two).mp (Dvd.intro_left (2 ^ 255 % divisor) factored.symm)
  have quotient : 0 < 2 ^ 255 / divisor := Nat.div_pos small.le positive
  cases exponent with
  | zero => omega
  | succ exponent =>
    rw [pow_succ] at isPower
    omega

theorem abs_least_smod (notLeast : right ≠ BitVec.intMin 256) :
    (BitVec.intMin 256).abs.smod right.abs =
      if BitVec.intMin 256 % right.abs = 0#256 then
        BitVec.intMin 256 % right.abs
      else
        right.abs - BitVec.intMin 256 % right.abs := by
  simp [smod_eq, msb_abs, notLeast, msb_intMin, neg_intMin, abs_intMin]

theorem neg_least_smod_iff (notLeast : right ≠ BitVec.intMin 256) (nonzero : right ≠ 0) :
    -(BitVec.intMin 256).abs.smod right.abs = (BitVec.intMin 256).srem right ↔ (BitVec.intMin 256).srem right = 0 := by
  have negative : (BitVec.intMin 256).toInt < 0 := by decide
  have small := abs_lt notLeast
  have positive := abs_pos nonzero
  rw [srem_eq_abs_umod, if_pos negative, abs_least_smod notLeast, abs_intMin]
  by_cases none : BitVec.intMin 256 % right.abs = 0#256
  · simp [none]
  · have rest := Nat.mod_lt (2 ^ 255) positive
    have notTwice := two_mul_mod_ne small positive
    rw [if_neg none, neg_inj, neg_eq_zero, ← toNat_inj, toNat_sub, toNat_umod, toNat_least]
    constructor
    · intro same
      omega
    · intro zero
      exact (none zero).elim

theorem signed_smod_iff (negativeOf : right ≠ 0 → left.toInt < 0 → negative) :
    sign negative * left.abs.smod right.abs = Reference.signedRemainder left right ↔
      left = 0 ∨
        right ≠ 0 ∧
          (left.srem right = 0 ∨ left ≠ BitVec.intMin 256 ∧ right ≠ BitVec.intMin 256 ∧ (negative ↔ left.toInt < 0) ∨
            right = BitVec.intMin 256 ∧ left = BitVec.ofNat 256 (2 ^ 254) ∧ negative) := by
  unfold Reference.signedRemainder
  by_cases zero : right = 0
  · have magnitude : right.abs = 0#256 := (abs_eq_zero_iff right).mpr zero
    rw [if_pos zero, sign_mul_eq_iff, magnitude, smod_zero, neg_eq_zero, ite_self, abs_eq_zero_iff]
    simp only [zero, ne_eq, not_true_eq_false, false_and, or_false]
  rw [if_neg zero]
  by_cases leftLeast : left = BitVec.intMin 256
  · subst leftLeast
    have notZero : BitVec.intMin 256 ≠ 0 := by decide
    have holds : negative := negativeOf zero (by decide)
    by_cases rightLeast : right = BitVec.intMin 256
    · subst rightLeast
      have size : (BitVec.intMin 256).abs.smod (BitVec.intMin 256).abs = 0 := by decide
      rw [size, srem_self]
      simp
    · rw [sign_mul_eq_iff, if_pos holds, neg_least_smod_iff rightLeast zero]
      simp only [notZero, zero, rightLeast, ne_eq, not_true_eq_false, not_false_eq_true, false_and, or_false, false_or,
        true_and]
  · by_cases leftZero : left = 0
    · subst leftZero
      have magnitude : (0 : Value).abs = 0#256 := (abs_eq_zero_iff 0).mpr rfl
      have size : (0#256).smod right.abs = 0 := zero_smod
      have remainder : BitVec.srem 0 right = 0 := zero_srem
      rw [magnitude, size, remainder, mul_zero]
      simp
    · by_cases rightLeast : right = BitVec.intMin 256
      · subst rightLeast
        have remainder := (abs_smod_least leftLeast leftZero).2
        rw [signed_smod_least_iff leftLeast leftZero (negativeOf zero)]
        simp only [remainder, leftZero, zero, ne_eq, not_true_eq_false, not_false_eq_true, false_and, and_false,
          false_or, true_and]
      · rw [signed_smod_iff_of_ne_least negative leftLeast rightLeast]
        simp only [leftZero, leftLeast, rightLeast, zero, ne_eq, not_false_eq_true, false_and, or_false, false_or,
          true_and]

theorem getLsbD_neg_signBit (index : Value) (place : Nat) :
    (-signBit index).getLsbD place = (decide (place < 256) && decide ((8 * index + 7).toNat ≤ place)) := by
  have shifted : -signBit index = BitVec.allOnes 256 <<< (8 * index + 7).toNat := by
    rw [signBit, ← shiftLeft_neg]
    rfl
  rw [shifted, getLsbD_shiftLeft, getLsbD_allOnes, Bool.eq_iff_iff]
  simp only [Bool.and_eq_true, Bool.not_eq_true', decide_eq_true_eq, decide_eq_false_iff_not]
  omega

theorem getLsbD_filled (fill : Prop) (index word : Value) (inside : place < 256) :
    (filled fill index word).getLsbD place =
      if place < (8 * index + 7).toNat then word.getLsbD place else decide fill := by
  unfold filled
  by_cases set : fill
  · rw [if_pos set, getLsbD_or, getLsbD_neg_signBit]
    generalize (8 * index + 7).toNat = first
    by_cases low : place < first
    · simp [low]
    · simp [low, inside, set, Nat.le_of_not_lt low]
  · have low : signBit index - 1 = ~~~(-signBit index) := (not_neg _).symm
    rw [if_neg set, getLsbD_and, low, getLsbD_not, getLsbD_neg_signBit]
    generalize (8 * index + 7).toNat = first
    by_cases low : place < first
    · simp [low, inside]
    · simp [low, inside, set, Nat.le_of_not_lt low]

theorem filled_eq_extendSign_iff (fill : Prop) (index word : Value) :
    filled fill index word = Reference.extendSign index word ↔
      if index.toNat < 32 then
        word.getLsbD (8 * index.toNat + 7) = true ↔ fill
      else
        ∀ place, (8 * index + 7).toNat ≤ place → place < 256 → (word.getLsbD place = true ↔ fill) := by
  unfold Reference.extendSign
  split
  · next inside =>
      have first : (8 * index + 7).toNat = 8 * index.toNat + 7 := by
        have eight : (8 : Value).toNat = 8 := rfl
        have seven : (7 : Value).toNat = 7 := rfl
        rw [toNat_add, toNat_mul, eight, seven]
        omega
      have extended (place : Nat) (below : place < 256) :
          ((word.setWidth (8 * (index.toNat + 1))).signExtend 256).getLsbD place =
            word.getLsbD (min place (8 * index.toNat + 7)) := by
        have bit := getLsbD_signExtend_low word.toNat place inside
        rwa [ofNat_toNat, setWidth_eq, decide_eq_true below, Bool.true_and, testBit_toNat] at bit
      constructor
      · intro same
        have bit := congrArg (fun value : Value => value.getLsbD (8 * index.toNat + 7)) same
        simp only [getLsbD_filled fill index word (show 8 * index.toNat + 7 < 256 by omega), first,
          extended _ (show 8 * index.toNat + 7 < 256 by omega)] at bit
        simp only [Nat.lt_irrefl, ↓reduceIte, Nat.min_self] at bit
        rw [← bit, decide_eq_true_eq]
      · intro bit
        apply eq_of_getLsbD_eq
        intro place below
        rw [getLsbD_filled fill index word below, extended place below, first]
        by_cases low : place < 8 * index.toNat + 7
        · rw [if_pos low, Nat.min_eq_left low.le]
        · rw [if_neg low, Nat.min_eq_right (Nat.le_of_not_lt low), ← Bool.decide_coe (word.getLsbD _)]
          exact decide_eq_decide.mpr bit.symm
  · constructor
    · intro same place high below
      have bit := congrArg (fun value : Value => value.getLsbD place) same
      simp only [getLsbD_filled fill index word below, Nat.not_lt.mpr high, ↓reduceIte] at bit
      rw [← bit, decide_eq_true_eq]
    · intro bits
      apply eq_of_getLsbD_eq
      intro place below
      rw [getLsbD_filled fill index word below]
      split
      · rfl
      · next high =>
          rw [← Bool.decide_coe (word.getLsbD place)]
          exact decide_eq_decide.mpr (bits place (Nat.le_of_not_lt high) below).symm

theorem getLsbD_byteOnes (inside : place < 256) : (255 : Value).getLsbD place = decide (place < 8) := by
  have bit : (BitVec.ofNat 256 (2 ^ 8 - 1)).getLsbD place = _ := getLsbD_ofNat 256 _ _
  rwa [Nat.testBit_two_pow_sub_one, decide_eq_true inside, Bool.true_and] at bit

theorem getLsbD_chosen (index word : Value) (inside : place < 256) :
    (chosen index word).getLsbD place =
      if place < 8 then
        word.getLsbD ((8 * (31 - index)).toNat + place)
      else
        decide ((8 * (31 - index)).toNat = 248) && word.msb := by
  have aligned : (8 * (31 - index)).toNat % 8 = 0 := by
    have eight : (8 : Value).toNat = 8 := rfl
    rw [toNat_mul, eight]
    omega
  unfold chosen
  generalize (8 * (31 - index)).toNat = count at aligned
  have masked (place : Nat) :
      (word &&& (255 : Value) <<< count).getLsbD place =
        (word.getLsbD place && decide (count ≤ place ∧ place < count + 8)) := by
    by_cases outside : 256 ≤ place
    · rw [getLsbD_of_ge _ _ outside, getLsbD_of_ge _ _ outside, Bool.false_and]
    · rw [getLsbD_and, getLsbD_shiftLeft, getLsbD_byteOnes (by omega)]
      congr 1
      rw [Bool.eq_iff_iff]
      simp only [Bool.and_eq_true, Bool.not_eq_true', decide_eq_true_eq, decide_eq_false_iff_not]
      omega
  rw [getLsbD_sshiftRight, msb_eq_getLsbD_last, msb_eq_getLsbD_last, masked, masked, Bool.eq_iff_iff]
  by_cases short : count + place < 256
  · rw [if_pos short]
    by_cases low : place < 8
    · simp [low, inside]
    · have notFirst : count ≠ 248 := by omega
      simp [low, notFirst]
  · have none : word.getLsbD (count + place) = false := getLsbD_of_ge _ _ (by omega)
    have first : (count ≤ 255 ∧ 255 < count + 8) ↔ count = 248 := by omega
    rw [if_neg short]
    by_cases low : place < 8
    · have notFirst : count ≠ 248 := by omega
      simp [low, none, first, notFirst]
    · simp [low, inside, first, and_comm]

theorem getLsbD_byte (word : Value) (count : Nat) (inside : place < 256) :
    (word >>> count &&& (255 : Value)).getLsbD place = (word.getLsbD (count + place) && decide (place < 8)) := by
  rw [getLsbD_and, getLsbD_ushiftRight, getLsbD_byteOnes inside]

theorem chosen_eq_byte_iff (index word : Value) :
    chosen index word = Reference.byte index word ↔
      if index.toNat < 32 then
        ¬ (index = 0 ∧ word.msb = true)
      else
        word >>> (8 * (31 - index)).toNat &&& 255 = 0 := by
  unfold Reference.byte
  split
  · next inside =>
      have count : (8 * (31 - index)).toNat = 8 * (31 - index.toNat) := by
        have eight : (8 : Value).toNat = 8 := rfl
        have thirtyOne : (31 : Value).toNat = 31 := rfl
        rw [toNat_mul, toNat_sub, eight, thirtyOne]
        omega
      have first : index = 0 ↔ 8 * (31 - index.toNat) = 248 := by
        rw [← toNat_inj]
        change index.toNat = 0 ↔ _
        omega
      rw [first]
      constructor
      · rintro same ⟨isFirst, set⟩
        have bit := congrArg (fun value : Value => value.getLsbD 8) same
        simp only [getLsbD_chosen index word (show 8 < 256 by decide), getLsbD_byte _ _ (show 8 < 256 by decide), count,
          isFirst, set] at bit
        simp at bit
      · intro unsigned
        apply eq_of_getLsbD_eq
        intro place below
        rw [getLsbD_chosen index word below, getLsbD_byte _ _ below, count]
        by_cases low : place < 8
        · simp [low]
        · simpa [low] using unsigned
  · have bits (place : Nat) (below : place < 256) := getLsbD_chosen index word below
    generalize (8 * (31 - index)).toNat = count at bits
    constructor
    · intro none
      rw [none] at bits
      apply eq_of_getLsbD_eq
      intro place below
      rw [getLsbD_byte _ _ below]
      by_cases low : place < 8
      · have bit := bits place below
        rw [if_pos low] at bit
        rw [← bit]
        simp
      · simp [low]
    · intro none
      have clear (place : Nat) (low : place < 8) : word.getLsbD (count + place) = false := by
        have bit := getLsbD_byte word count (show place < 256 by omega)
        rw [none, decide_eq_true low, Bool.and_true] at bit
        rw [← bit]
        exact getLsbD_zero
      apply eq_of_getLsbD_eq
      intro place below
      rw [bits place below]
      split
      · next low => exact (clear place low).trans getLsbD_zero.symm
      · by_cases isFirst : count = 248
        · subst isFirst
          have last : word.msb = false := (msb_eq_getLsbD_last word).trans (clear 7 (by decide))
          simp [last]
        · simp [isFirst]

end Alu

end MintAudit
