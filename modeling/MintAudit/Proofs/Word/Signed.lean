import MintAudit.Proofs.Term.Simplify
import MintAudit.Word.Arithmetic

namespace MintAudit

/-!
# Quotients, shifts and signs of words

Quotients, remainders and shifts of terms are those of bit vectors, where a quotient or a remainder by zero is the one
that the term language gives it: all ones or one, and the dividend.
-/

/-! ## Machine words and their values -/

open BitVec

theorem Bitwise.and_allOnes (value : Int) : Bitwise.and value Word.allOnes = value % 2 ^ 256 := by
  have mask : Word.allOnes = Int.ofNat (2 ^ 256 - 1) := rfl
  rw [mask]
  cases value with
  | ofNat value =>
    simp only [Bitwise.and, Nat.and_two_pow_sub_one_eq_mod]
    rfl
  | negSucc value =>
    simp only [Bitwise.and]
    rw [Nat.and_comm, Nat.and_two_pow_sub_one_eq_mod]
    have := Nat.mod_lt value (Nat.two_pow_pos 256)
    simp only [Int.ofNat_eq_natCast, Int.negSucc_eq]
    omega

namespace Term

structure IsWord (term : Term) : Prop where
  sorted : term.WellSorted
  kind : term.kind = .bits 256

def bits (assignment : Assignment) (term : Term) : BitVec 256 :=
  BitVec.ofNat 256 (term.eval assignment)

theorem IsWord.toNat_bits {term : Term} (word : term.IsWord) (assignment : Assignment) :
    (term.bits assignment).toNat = term.eval assignment := by
  rw [bits, toNat_ofNat]
  exact Nat.mod_eq_of_lt (eval_lt assignment word.sorted word.kind)

theorem IsWord.of_replaces {new old : Term} (word : old.IsWord) (replaces : Replaces new old) :
    new.IsWord ∧ ∀ assignment, new.bits assignment = old.bits assignment := by
  refine ⟨⟨replaces.sorted, replaces.kind.trans word.kind⟩, fun assignment => ?_⟩
  rw [bits, bits, replaces.eval]

theorem IsWord.binary {op : BinaryOp} (wordwise : op.isWordwise = true) {left right : Term} (leftWord : left.IsWord)
    (rightWord : right.IsWord) :
    (Term.binary op left right).IsWord where
  sorted := by
    refine ⟨leftWord.sorted, rightWord.sorted, ?_⟩
    rw [leftWord.kind, rightWord.kind]
    cases op <;> simp_all [BinaryOp.isWordwise, BinaryOp.Takes]
  kind := (kind_wordwise wordwise left right).trans leftWord.kind

theorem ofInt_isWord (value : Int) : (ofInt 256 value).IsWord :=
  ⟨trivial, rfl⟩

theorem bits_ofInt (assignment : Assignment) (value : Int) :
    (ofInt 256 value).bits assignment = BitVec.ofInt 256 value := by
  apply eq_of_toNat_eq
  rw [(ofInt_isWord value).toNat_bits]
  simp only [ofInt, eval, wrap, toNat_ofInt]
  exact Nat.mod_eq_of_lt (wrap_lt 256 value)

section Operations

variable {left right : Term} (leftWord : left.IsWord) (rightWord : right.IsWord) (assignment : Assignment)

include leftWord rightWord

theorem bits_add : (binary .add left right).bits assignment = left.bits assignment + right.bits assignment := by
  apply eq_of_toNat_eq
  rw [(leftWord.binary rfl rightWord).toNat_bits, toNat_add, leftWord.toNat_bits, rightWord.toNat_bits]
  simp only [eval, BinaryOp.apply, width_eq leftWord.kind]

theorem bits_sub : (binary .sub left right).bits assignment = left.bits assignment - right.bits assignment := by
  apply eq_of_toNat_eq
  rw [(leftWord.binary rfl rightWord).toNat_bits, toNat_sub, leftWord.toNat_bits, rightWord.toNat_bits]
  have := eval_lt assignment rightWord.sorted rightWord.kind
  simp only [eval, BinaryOp.apply, width_eq leftWord.kind, wrap]
  omega

theorem bits_mul : (binary .mul left right).bits assignment = left.bits assignment * right.bits assignment := by
  apply eq_of_toNat_eq
  rw [(leftWord.binary rfl rightWord).toNat_bits, toNat_mul, leftWord.toNat_bits, rightWord.toNat_bits]
  simp only [eval, BinaryOp.apply, width_eq leftWord.kind]

theorem bits_and : (binary .and left right).bits assignment = left.bits assignment &&& right.bits assignment := by
  apply eq_of_toNat_eq
  rw [(leftWord.binary rfl rightWord).toNat_bits, toNat_and, leftWord.toNat_bits, rightWord.toNat_bits]
  rfl

theorem bits_or : (binary .or left right).bits assignment = left.bits assignment ||| right.bits assignment := by
  apply eq_of_toNat_eq
  rw [(leftWord.binary rfl rightWord).toNat_bits, toNat_or, leftWord.toNat_bits, rightWord.toNat_bits]
  rfl

theorem bits_xor : (binary .xor left right).bits assignment = left.bits assignment ^^^ right.bits assignment := by
  apply eq_of_toNat_eq
  rw [(leftWord.binary rfl rightWord).toNat_bits, toNat_xor, leftWord.toNat_bits, rightWord.toNat_bits]
  rfl

end Operations

end Term

namespace Word

/-- A number below the bound, or a well-sorted term of 256 bits. -/
def IsMachineWord : Word → Prop
  | integer value => 0 ≤ value ∧ value < bound
  | term value => value.IsWord
  | _ => False

def value (assignment : Assignment) : Word → BitVec 256
  | integer value => BitVec.ofInt 256 value
  | term value => value.bits assignment
  | _ => 0

structure Yields (word : Word) (meaning : Assignment → BitVec 256) : Prop where
  machineWord : word.IsMachineWord
  value : ∀ assignment, word.value assignment = meaning assignment

namespace IsMachineWord

theorem kinds {word : Word} (machineWord : word.IsMachineWord) :
    (∃ number : Nat, number < 2 ^ 256 ∧ word = .integer number) ∨ ∃ term : Term, term.IsWord ∧ word = .term term := by
  cases word with
  | integer value =>
    obtain ⟨nonnegative, bounded⟩ := machineWord
    obtain ⟨number, rfl⟩ := Int.eq_ofNat_of_zero_le nonnegative
    refine .inl ⟨number, ?_, rfl⟩
    unfold bound at bounded
    exact_mod_cast bounded
  | term value => exact .inr ⟨value, machineWord, rfl⟩
  | _ => exact machineWord.elim

theorem coerce {word : Word} (machineWord : word.IsMachineWord) :
    ∃ term : Term,
      word.coerce 256 = .ok term ∧ term.IsWord ∧ ∀ assignment, term.bits assignment = word.value assignment := by
  rcases machineWord.kinds with ⟨number, _, rfl⟩ | ⟨term, isWord, rfl⟩
  · exact ⟨Term.ofInt 256 number, rfl, Term.ofInt_isWord _, fun assignment => Term.bits_ofInt _ _⟩
  · refine ⟨term, ?_, isWord, fun assignment => rfl⟩
    simp [Word.coerce, isWord.kind]

theorem of_number {number : Nat} (bounded : number < 2 ^ 256) : (Word.integer number).IsMachineWord := by
  refine ⟨Int.natCast_nonneg number, ?_⟩
  unfold bound
  exact_mod_cast bounded

theorem number {word : Word} (machineWord : word.IsMachineWord) (concrete : word.isConcrete = true) :
    ∃ number : Nat, number < 2 ^ 256 ∧ word = .integer number := by
  rcases machineWord.kinds with found | ⟨term, _, rfl⟩
  · exact found
  · exact Bool.noConfusion concrete

end IsMachineWord

variable {meaning : Assignment → BitVec 256}

theorem yields_number {number : Nat} (bounded : number < 2 ^ 256)
    (same : ∀ assignment, (meaning assignment).toNat = number) :
    (Word.integer number).Yields meaning := by
  refine ⟨.of_number bounded, fun assignment => ?_⟩
  apply eq_of_toNat_eq
  rw [same, value, ofInt_natCast, toNat_ofNat, Nat.mod_eq_of_lt bounded]

theorem yields_term {term : Term} (isWord : term.IsWord)
    (same : ∀ assignment, term.bits assignment = meaning assignment) :
    (Word.term term).Yields meaning :=
  ⟨isWord, same⟩

theorem Yields.simplified {word : Word} (yields : word.Yields meaning) : word.simplified.Yields meaning := by
  obtain ⟨machineWord, same⟩ := yields
  rcases machineWord.kinds with ⟨number, bounded, rfl⟩ | ⟨term, isWord, rfl⟩
  · exact ⟨machineWord, same⟩
  · obtain ⟨simplifiedWord, keeps⟩ := isWord.of_replaces (Term.simplify_replaces isWord.sorted)
    exact ⟨simplifiedWord, fun assignment => (keeps assignment).trans (same assignment)⟩

@[simp] theorem value_number (assignment : Assignment) (number : Nat) :
    (Word.integer number).value assignment = BitVec.ofNat 256 number :=
  ofInt_natCast 256 number

def Operation.onBits : Operation → BitVec 256 → BitVec 256 → BitVec 256
  | .add => (· + ·)
  | .sub => (· - ·)
  | .mul => (· * ·)
  | .and => (· &&& ·)
  | .or => (· ||| ·)
  | .xor => (· ^^^ ·)

theorem Operation.onTerms_isWordwise (op : Operation) : op.onTerms.isWordwise = true := by
  cases op <;> rfl

theorem Operation.bits_onTerms (op : Operation) {left right : Term} (leftWord : left.IsWord) (rightWord : right.IsWord)
    (assignment : Assignment) :
    (Term.binary op.onTerms left right).bits assignment = op.onBits (left.bits assignment) (right.bits assignment) := by
  cases op with
  | add => exact Term.bits_add leftWord rightWord assignment
  | sub => exact Term.bits_sub leftWord rightWord assignment
  | mul => exact Term.bits_mul leftWord rightWord assignment
  | and => exact Term.bits_and leftWord rightWord assignment
  | or => exact Term.bits_or leftWord rightWord assignment
  | xor => exact Term.bits_xor leftWord rightWord assignment

theorem operate_yields (op : Operation) {left right : Word} (leftWord : left.IsMachineWord)
    (rightWord : right.IsMachineWord) (symbolic : left.isConcrete = false ∨ right.isConcrete = false) :
    ∃ term : Term,
      operate op left right = .ok (.term term) ∧ term.IsWord ∧
        ∀ assignment, term.bits assignment = op.onBits (left.value assignment) (right.value assignment) := by
  rcases leftWord.kinds with ⟨leftNumber, _, rfl⟩ | ⟨leftTerm, leftIsWord, rfl⟩
  · rcases rightWord.kinds with ⟨rightNumber, _, rfl⟩ | ⟨rightTerm, rightIsWord, rfl⟩
    · simp [isConcrete, concrete?] at symbolic
    · obtain ⟨operand, coerced, operandWord, operandBits⟩ := leftWord.coerce
      refine ⟨.binary op.onTerms operand rightTerm, ?_,
        operandWord.binary op.onTerms_isWordwise rightIsWord, fun assignment => ?_⟩
      · simp only [operate, operateBeforeTerm, rightIsWord.kind, coerced]
        rfl
      · rw [op.bits_onTerms operandWord rightIsWord, operandBits]
        rfl
  · obtain ⟨operand, coerced, operandWord, operandBits⟩ := rightWord.coerce
    refine ⟨.binary op.onTerms leftTerm operand, ?_,
      leftIsWord.binary op.onTerms_isWordwise operandWord, fun assignment => ?_⟩
    · simp only [operate, operateTerm, leftIsWord.kind, coerced]
      rfl
    · rw [op.bits_onTerms leftIsWord operandWord, operandBits]
      rfl

end Word

open BitVec

theorem signed_toNat (word : BitVec 256) : signed 256 word.toNat = word.toInt := by
  rw [toInt_eq_toNat_cond, signed]

theorem ofNat_wrap (value : Int) : BitVec.ofNat 256 (wrap 256 value) = BitVec.ofInt 256 value := by
  apply eq_of_toNat_eq
  rw [toNat_ofNat, toNat_ofInt, Nat.mod_eq_of_lt (wrap_lt 256 value)]
  rfl

theorem smtSDiv_eq_sdiv (left : BitVec 256) {right : BitVec 256} (nonzero : right ≠ 0#256) :
    left.smtSDiv right = left.sdiv right := by
  have negated : -right ≠ 0#256 := by simpa using nonzero
  simp only [smtSDiv_eq, sdiv_eq, smtUDiv_eq, nonzero, negated, ↓reduceIte]
  rfl

namespace Term

section Operations

variable {left right : Term} (leftWord : left.IsWord) (rightWord : right.IsWord) (assignment : Assignment)

include leftWord in
theorem IsWord.signed_eval : signed 256 (left.eval assignment) = (left.bits assignment).toInt := by
  rw [← signed_toNat, leftWord.toNat_bits]

include rightWord in
theorem IsWord.eval_eq_zero_iff : right.eval assignment = 0 ↔ right.bits assignment = 0#256 := by
  rw [← toNat_inj, rightWord.toNat_bits]
  rfl

include leftWord rightWord

theorem bits_udiv :
    (binary .udiv left right).bits assignment = (left.bits assignment).smtUDiv (right.bits assignment) := by
  apply eq_of_toNat_eq
  rw [(leftWord.binary rfl rightWord).toNat_bits, smtUDiv_eq]
  simp only [eval, BinaryOp.apply, width_eq leftWord.kind, rightWord.eval_eq_zero_iff]
  split
  · rw [toNat_allOnes]
  · rw [toNat_udiv, leftWord.toNat_bits, rightWord.toNat_bits]

theorem bits_urem : (binary .urem left right).bits assignment = left.bits assignment % right.bits assignment := by
  apply eq_of_toNat_eq
  rw [(leftWord.binary rfl rightWord).toNat_bits, toNat_umod, leftWord.toNat_bits, rightWord.toNat_bits]
  simp only [eval, BinaryOp.apply]
  split
  · next zero => rw [zero, Nat.mod_zero]
  · rfl

theorem bits_sdiv :
    (binary .sdiv left right).bits assignment = (left.bits assignment).smtSDiv (right.bits assignment) := by
  rw [bits]
  simp only [eval, BinaryOp.apply, width_eq leftWord.kind, leftWord.signed_eval, rightWord.signed_eval,
    rightWord.eval_eq_zero_iff]
  split
  · next zero =>
      simp only [zero, smtSDiv_zero, slt_iff_toInt_lt, toInt_zero]
      split <;> rfl
  · next nonzero =>
      rw [ofNat_wrap, smtSDiv_eq_sdiv _ nonzero]
      apply eq_of_toInt_eq
      rw [toInt_sdiv, toInt_ofInt]

theorem bits_smod :
    (binary .smod left right).bits assignment = (left.bits assignment).smod (right.bits assignment) := by
  rw [bits]
  simp only [eval, BinaryOp.apply, width_eq leftWord.kind, leftWord.signed_eval, rightWord.signed_eval,
    rightWord.eval_eq_zero_iff]
  split
  · next zero => rw [zero, smod_zero, bits]
  · rw [ofNat_wrap, ← toInt_smod, ofInt_toInt]

theorem bits_shiftLeft :
    (binary .shiftLeft left right).bits assignment = left.bits assignment <<< (right.bits assignment).toNat := by
  apply eq_of_toNat_eq
  rw [(leftWord.binary rfl rightWord).toNat_bits, toNat_shiftLeft, leftWord.toNat_bits, rightWord.toNat_bits,
    Nat.shiftLeft_eq]
  simp only [eval, BinaryOp.apply, width_eq leftWord.kind]
  split
  · next beyond =>
      rw [eq_comm, ← Nat.dvd_iff_mod_eq_zero]
      exact (Nat.pow_dvd_pow 2 beyond).mul_left _
  · rfl

theorem bits_shiftRight :
    (binary .shiftRight left right).bits assignment =
      (left.bits assignment).sshiftRight (right.bits assignment).toNat := by
  rw [bits, BitVec.sshiftRight, Int.shiftRight_eq_div_pow]
  simp only [eval, BinaryOp.apply, width_eq leftWord.kind, leftWord.signed_eval, rightWord.toNat_bits]
  generalize right.eval assignment = count
  split
  · next beyond =>
      have low : -(2 ^ 255 : Int) ≤ (left.bits assignment).toInt := le_toInt _
      have high : (left.bits assignment).toInt < 2 ^ 255 := toInt_lt
      have large : (2 ^ 256 : Int) ≤ ((2 ^ count : Nat) : Int) := by
        exact_mod_cast Nat.pow_le_pow_right (by decide) beyond
      split
      · next negative =>
          have shifted : (left.bits assignment).toInt / ((2 ^ count : Nat) : Int) = -1 := by
            rw [Int.ediv_eq_iff_of_pos (by omega)]
            omega
          rw [shifted]
          decide
      · next positive =>
          rw [Int.ediv_eq_zero_of_lt (by omega) (by omega)]
          rfl
  · rw [ofNat_wrap, Int.fdiv_eq_ediv_of_nonneg _ (Int.natCast_nonneg _)]

end Operations

section Sizes

variable {term : Term} (isWord : term.IsWord)

include isWord

theorem IsWord.negate : (unary .negate term).IsWord := by
  refine ⟨⟨isWord.sorted, ?_⟩, isWord.kind⟩
  rw [isWord.kind]
  trivial

theorem bits_negate (assignment : Assignment) : (unary .negate term).bits assignment = -(term.bits assignment) := by
  apply eq_of_toNat_eq
  rw [isWord.negate.toNat_bits, toNat_neg, isWord.toNat_bits]
  have := eval_lt assignment isWord.sorted isWord.kind
  simp only [eval, UnaryOp.apply, width_eq isWord.kind, wrap]
  omega

end Sizes

end Term

def Word.Relation.onNumbers : Relation → Int → Int → Prop
  | less => (· < ·)
  | atMost => (· ≤ ·)
  | greater => (· > ·)
  | atLeast => (· ≥ ·)

namespace Term

section Conditions

variable {left right : Term} (assignment : Assignment)

theorem holds_eq (leftWord : left.IsWord) (rightWord : right.IsWord) :
    (binary .eq left right).Holds assignment ↔ left.bits assignment = right.bits assignment := by
  rw [← toNat_inj, leftWord.toNat_bits, rightWord.toNat_bits]
  simp [Holds, eval, BinaryOp.apply]

theorem holds_onTerms (relation : Word.Relation) (leftWord : left.IsWord) (rightWord : right.IsWord) :
    (binary relation.onTerms left right).Holds assignment ↔
      relation.onNumbers (left.bits assignment).toInt (right.bits assignment).toInt := by
  rw [← leftWord.signed_eval, ← rightWord.signed_eval]
  cases relation <;>
    simp [Holds, eval, Word.Relation.onTerms, Word.Relation.onNumbers, BinaryOp.apply, width_eq leftWord.kind]

theorem holds_both : (binary .both left right).Holds assignment ↔ left.Holds assignment ∧ right.Holds assignment := by
  simp [Holds, eval, BinaryOp.apply]

theorem holds_either :
    (binary .either left right).Holds assignment ↔ left.Holds assignment ∨ right.Holds assignment := by
  simp [Holds, eval, BinaryOp.apply]
  tauto

end Conditions

/-- The size of a word without its sign: the word itself unless it is negative. -/
def magnitude (term : Term) : Term :=
  .choice (.binary .sge term (.literal 256 0)) term (.unary .negate term)

section Magnitude

variable {term : Term} (isWord : term.IsWord)

include isWord

theorem IsWord.magnitude : term.magnitude.IsWord := by
  refine ⟨⟨⟨isWord.sorted, trivial, ?_⟩, isWord.sorted, isWord.negate.sorted, rfl, rfl⟩, isWord.kind⟩
  rw [isWord.kind]
  rfl

theorem bits_magnitude (assignment : Assignment) : term.magnitude.bits assignment = (term.bits assignment).abs := by
  have zeroWord : (Term.literal 256 0).IsWord := ⟨trivial, rfl⟩
  have zero : (Term.literal 256 0).bits assignment = 0#256 := rfl
  have test := holds_onTerms assignment .atLeast isWord zeroWord
  simp only [Word.Relation.onTerms, Word.Relation.onNumbers, zero, toInt_zero, Holds] at test
  rw [BitVec.abs_eq, msb_eq_toInt, bits, magnitude, eval]
  by_cases negative : (term.bits assignment).toInt < 0
  · rw [if_pos (by omega), if_pos (by simpa using negative), ← bits_negate isWord, bits]
  · rw [if_neg (by omega), if_neg (by simpa using negative), bits]

end Magnitude

end Term

namespace Word

section Computations

variable {left right : Term} (leftWord : left.IsWord) (number : Int)

include leftWord

theorem combine_term (op : BinaryOp) (rightWord : right.IsWord) :
    (Word.term left).combine op (.term right) = .ok (.term (.binary op left right)) := by
  simp only [combine, leftWord.kind, coerce, rightWord.kind, ↓reduceIte]
  rfl

theorem operate_term (op : Operation) (rightWord : right.IsWord) :
    operate op (.term left) (.term right) = .ok (.term (.binary op.onTerms left right)) := by
  simp only [operate, operateTerm, leftWord.kind, coerce, rightWord.kind, ↓reduceIte]
  rfl

theorem operate_before (op : Operation) :
    operate op (.integer number) (.term left) = .ok (.term (.binary op.onTerms (Term.ofInt 256 number) left)) := by
  simp only [operate, operateBeforeTerm, leftWord.kind]
  rfl

theorem operate_behind (op : Operation) :
    operate op (.term left) (.integer number) = .ok (.term (.binary op.onTerms left (Term.ofInt 256 number))) := by
  simp only [operate, operateTerm, leftWord.kind]
  rfl

theorem relate_number (relation : Relation) :
    (Word.term left).relate relation (.integer number) =
      .ok (.condition (.binary relation.onTerms left (Term.ofInt 256 number))) := by
  simp only [relate, leftWord.kind]
  rfl

theorem relate_term (relation : Relation) (rightWord : right.IsWord) :
    (Word.term left).relate relation (.term right) = .ok (.condition (.binary relation.onTerms left right)) := by
  simp only [relate, leftWord.kind, coerce, rightWord.kind, ↓reduceIte]
  rfl

theorem equal_number :
    (Word.term left).equal (.integer number) = .ok (.condition (.binary .eq left (Term.ofInt 256 number))) := by
  simp only [equal, equate, equateTerm, leftWord.kind]
  rfl

theorem magnitude_term : (Word.term left).magnitude = .ok (.term left.magnitude) := by
  simp only [magnitude, leftWord.kind]
  rfl

theorem shiftLeft_term :
    Word.shiftLeft number (.term left) = .ok (.term (.binary .shiftLeft (Term.ofInt 256 number) left)) := by
  simp only [shiftLeft, leftWord.kind]

theorem shiftRight_term (rightWord : right.IsWord) :
    (Word.term left).shiftRight (.term right) = .ok (.term (.binary .shiftRight left right)) := by
  simp only [shiftRight, leftWord.kind, coerce, rightWord.kind, ↓reduceIte]
  rfl

theorem shiftRight_number :
    (Word.term left).shiftRight (.integer number) = .ok (.term (.binary .shiftRight left (Term.ofInt 256 number))) := by
  simp only [shiftRight, leftWord.kind]
  rfl

end Computations

end Word

end MintAudit
