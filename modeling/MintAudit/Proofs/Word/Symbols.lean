import MintAudit.Machine.Memory
import MintAudit.Proofs.Table
import MintAudit.Proofs.Term.Simplify

namespace MintAudit

/-!
# Symbols of terms and words

The operations on words introduce no symbol: what they give speaks only of the symbols of their operands.
-/

/-! ## Symbols of terms -/

namespace Term

/-- Every symbol of the term has an admitted name. -/
def Only (admits : String → Prop) : Term → Prop
  | symbol name _ => admits name
  | literal .. => True
  | truth _ => True
  | unary _ operand => operand.Only admits
  | binary _ left right => left.Only admits ∧ right.Only admits
  | choice test yes no => test.Only admits ∧ yes.Only admits ∧ no.Only admits

attribute [grind =] Only

variable {admits : String → Prop}

variable {term : Term} {left right : Term}

theorem Only.mono {more : String → Prop} (weaker : ∀ name, admits name → more name) (only : term.Only admits) :
    term.Only more := by
  induction term with
  | symbol name width => exact weaker name only
  | literal width value => trivial
  | truth value => trivial
  | unary op operand operandOnly => exact operandOnly only
  | binary op left right leftOnly rightOnly => exact ⟨leftOnly only.1, rightOnly only.2⟩
  | choice test yes no testOnly yesOnly noOnly => exact ⟨testOnly only.1, yesOnly only.2.1, noOnly only.2.2⟩

theorem only_true (term : Term) : term.Only fun _ => True := by
  induction term with
  | symbol name width => trivial
  | literal width value => trivial
  | truth value => trivial
  | unary op operand operandOnly => exact operandOnly
  | binary op left right leftOnly rightOnly => exact ⟨leftOnly, rightOnly⟩
  | choice test yes no testOnly yesOnly noOnly => exact ⟨testOnly, yesOnly, noOnly⟩

theorem eval_congr {first second : Assignment} (agree : ∀ name, admits name → first name = second name)
    (only : term.Only admits) :
    term.eval first = term.eval second := by
  induction term with
  | symbol name width => simp only [eval, agree name only]
  | literal width value => rfl
  | truth value => rfl
  | unary op operand operandSame => simp only [eval, operandSame only]
  | binary op left right leftSame rightSame => simp only [eval, leftSame only.1, rightSame only.2]
  | choice test yes no testSame yesSame noSame => simp only [eval, testSame only.1, yesSame only.2.1, noSame only.2.2]

namespace Sum

def Only (admits : String → Prop) (multiples : List (Nat × Term)) : Prop :=
  ∀ multiple ∈ multiples, multiple.2.Only admits

theorem insert_only (width factor : Nat) {term : Term} (only : term.Only admits) {multiples : List (Nat × Term)}
    (all : Only admits multiples) :
    Only admits (insert width factor term multiples) := by
  induction multiples with
  | nil => simpa [Only, insert] using only
  | cons multiple rest ih =>
    obtain ⟨present, other⟩ := multiple
    obtain ⟨otherOnly, restOnly⟩ := List.forall_mem_cons.mp all
    rw [insert]
    split
    · exact List.forall_mem_cons.mpr ⟨otherOnly, restOnly⟩
    · exact List.forall_mem_cons.mpr ⟨otherOnly, ih restOnly⟩

@[grind ←] theorem add_only {left right : Sum} (leftOnly : Only admits left.multiples)
    (rightOnly : Only admits right.multiples) :
    Only admits (left.add right).multiples := by
  simp only [add]
  generalize left.multiples = sum at leftOnly
  generalize right.multiples = added at rightOnly
  induction added generalizing sum with
  | nil => exact leftOnly
  | cons multiple rest ih =>
    obtain ⟨multipleOnly, restOnly⟩ := List.forall_mem_cons.mp rightOnly
    exact ih _ (insert_only _ _ multipleOnly leftOnly) restOnly

@[grind ←] theorem scale_only (factor : Nat) {sum : Sum} (only : Only admits sum.multiples) :
    Only admits (sum.scale factor).multiples := by
  intro multiple member
  obtain ⟨original, originalMember, rfl⟩ := List.mem_map.mp member
  exact only original originalMember

theorem nonzero_only {sum : Sum} (only : Only admits sum.multiples) : Only admits sum.nonzero :=
  fun multiple member => only multiple (List.mem_of_mem_filter member)

theorem joined_only (width : Nat) {terms : List Term} (all : ∀ term ∈ terms, term.Only admits) :
    (joined width terms).Only admits := by
  fun_induction joined width terms with
  | case1 => trivial
  | case2 term => exact all term (by simp)
  | case3 term rest _ ih =>
    obtain ⟨termOnly, restOnly⟩ := List.forall_mem_cons.mp all
    exact ⟨termOnly, ih restOnly⟩

@[grind ←] theorem toTerm_only {sum : Sum} (only : Only admits sum.multiples) : sum.toTerm.Only admits := by
  have multiplesOnly : ∀ term ∈ sum.nonzero.map (multipleTerm sum.width), term.Only admits := by
    intro term member
    obtain ⟨multiple, multipleMember, rfl⟩ := List.mem_map.mp member
    have := nonzero_only only multiple multipleMember
    unfold multipleTerm
    split
    · exact this
    · exact ⟨trivial, this⟩
  refine joined_only _ ?_
  unfold parts
  split
  · exact multiplesOnly
  · exact List.forall_mem_cons.mpr ⟨trivial, multiplesOnly⟩

end Sum

@[grind ←] theorem toSum_only (only : term.Only admits) : Sum.Only admits term.toSum.multiples := by
  fun_induction toSum term with
  | case1 => simp [Sum.Only]
  | case2 left right leftOnly rightOnly => exact Sum.add_only (leftOnly only.1) (rightOnly only.2)
  | case3 left right leftOnly rightOnly => exact Sum.add_only (leftOnly only.1) (Sum.scale_only _ (rightOnly only.2))
  | case4 operand operandOnly => exact Sum.scale_only _ (operandOnly only)
  | case5 width value right rightOnly => exact Sum.scale_only _ (rightOnly only.2)
  | case6 term => simpa [Sum.Only] using only

@[grind ←] theorem mkNot_only (only : term.Only admits) : (mkNot term).Only admits := by
  unfold mkNot
  split <;> exact only

@[grind ←] theorem mkExtract_only (high low : Nat) (only : term.Only admits) :
    (mkExtract high low term).Only admits := by
  fun_induction mkExtract high low term <;> grind

@[grind ←] theorem mkZeroExtend_only (extra : Nat) (only : term.Only admits) :
    (mkZeroExtend extra term).Only admits := by
  unfold mkZeroExtend
  grind

@[grind ←] theorem mkMask_only (mask : Nat) (only : term.Only admits) : (mkMask mask term).Only admits := by
  unfold mkMask
  grind

theorem choiceEquals?_only {value : Nat} {term test : Term} (only : term.Only admits)
    (found : choiceEquals? value term = some test) :
    test.Only admits := by
  unfold choiceEquals? at found
  grind

@[grind ←] theorem mkEqLiteral_only (only : term.Only admits) (value : Nat) : (mkEqLiteral term value).Only admits := by
  unfold mkEqLiteral
  split
  · next found =>
    exact choiceEquals?_only only found
  · split
    · split
      · exact ⟨only.2, trivial⟩
      · trivial
    · dsimp only
      split
      · next single nonzero =>
        have singleOnly : single.Only admits := Sum.nonzero_only (toSum_only only) (1, single) (by simp [nonzero])
        exact ⟨singleOnly, trivial⟩
      · exact ⟨only, trivial⟩

theorem mkChoice_only {test yes no : Term} (testOnly : test.Only admits) (yesOnly : yes.Only admits)
    (noOnly : no.Only admits) :
    (mkChoice test yes no).Only admits := by
  unfold mkChoice
  grind

section

variable (leftOnly : left.Only admits) (rightOnly : right.Only admits)
include leftOnly rightOnly

@[grind ←] theorem mkEq_only : (mkEq left right).Only admits := by
  unfold mkEq
  grind

@[grind ←] theorem mkUle_only : (mkUle left right).Only admits := by
  unfold mkUle
  grind

@[grind ←] theorem mkSle_only : (mkSle left right).Only admits := by
  unfold mkSle
  grind

@[grind ←] theorem mkBoth_only : (mkBoth left right).Only admits := by
  unfold mkBoth
  grind

@[grind ←] theorem mkEither_only : (mkEither left right).Only admits := by
  unfold mkEither
  grind

@[grind ←] theorem mkAnd_only : (mkAnd left right).Only admits := by
  unfold mkAnd
  grind

@[grind ←] theorem mkOr_only : (mkOr left right).Only admits := by
  unfold mkOr
  grind

@[grind ←] theorem mkXor_only : (mkXor left right).Only admits := by
  unfold mkXor
  grind

@[grind ←] theorem mkMul_only : (mkMul left right).Only admits := by
  unfold mkMul
  grind

@[grind ←] theorem mkFolded_only (op : BinaryOp) : (mkFolded op left right).Only admits := by
  unfold mkFolded
  grind

@[grind ←] theorem mkConcat_only : (mkConcat left right).Only admits := by
  unfold mkConcat
  grind

theorem mkBinary_only (op : BinaryOp) : (mkBinary op left right).Only admits := by
  cases op <;> unfold mkBinary <;> grind

end

theorem mkUnary_only (op : UnaryOp) {operand : Term} (only : operand.Only admits) :
    (mkUnary op operand).Only admits := by
  cases op <;> unfold mkUnary <;> grind

theorem simplify_only (only : term.Only admits) : term.simplify.Only admits := by
  induction term with
  | symbol name width => exact only
  | literal width value => trivial
  | truth value => trivial
  | unary op operand operandOnly => exact mkUnary_only op (operandOnly only)
  | binary op left right leftOnly rightOnly => exact mkBinary_only (leftOnly only.1) (rightOnly only.2) op
  | choice test yes no testOnly yesOnly noOnly =>
    exact mkChoice_only (testOnly only.1) (yesOnly only.2.1) (noOnly only.2.2)

end Term

/-! ## Symbols of words -/

def Gives (holds : α → Prop) : Except Fault α → Prop
  | .ok value => holds value
  | .error _ => True

namespace Gives

variable {onward : β → Prop} {holds : α → Prop} {result : Except Fault α}

theorem bind {first : Except Fault α} {next : α → Except Fault β} (given : Gives holds first)
    (continued : ∀ value, holds value → Gives onward (next value)) :
    Gives onward (first >>= next) := by
  cases first with
  | ok value => exact continued value given
  | error fault => trivial

theorem of_ok (holding : ∀ value, result = .ok value → holds value) : Gives holds result := by
  cases result with
  | ok value => exact holding value rfl
  | error fault => trivial

theorem map {change : α → β} (given : Gives holds result) (changed : ∀ value, holds value → onward (change value)) :
    Gives onward (result.map change) := by
  cases result with
  | ok value => exact changed value given
  | error fault => trivial

theorem anything (result : Except Fault α) : Gives (fun _ => True) result := by
  cases result <;> trivial

theorem and {holds other : α → Prop} (given : Gives holds result) (moreover : Gives other result) :
    Gives (fun value => holds value ∧ other value) result := by
  cases result with
  | ok value => exact ⟨given, moreover⟩
  | error fault => trivial

end Gives

def Word.Only (admits : String → Prop) : Word → Prop
  | term value => value.Only admits
  | _ => True

def Flag.Only (admits : String → Prop) : Flag → Prop
  | condition value => value.Only admits
  | _ => True

attribute [local grind =] Word.Only Flag.Only

variable {admits : String → Prop}

namespace Word

variable {word : Word} {left right : Word}

theorem Only.mono {more : String → Prop} (weaker : ∀ name, admits name → more name) (only : word.Only admits) :
    word.Only more := by
  cases word with
  | term value => exact Term.Only.mono weaker only
  | _ => trivial

theorem only_true (word : Word) : word.Only fun _ => True := by
  cases word with
  | term value => exact value.only_true
  | _ => trivial

@[grind ←] theorem integer_only (value : Int) : (integer value).Only admits := trivial

@[grind ←] theorem real_only (value : Binary64) : (real value).Only admits := trivial

@[grind =] theorem term_only (term : Term) : (Word.term term).Only admits ↔ term.Only admits := .rfl

@[grind ←] theorem symbolic_only (only : word.Only admits) : word.symbolic.Only admits := by
  unfold symbolic
  grind [constant, Term.ofInt]

@[grind ←] theorem simplified_only (only : word.Only admits) : word.simplified.Only admits := by
  cases word with
  | term value => exact Term.simplify_only only
  | _ => trivial

variable {admits : String → Prop}

@[grind =] theorem pure_eq_ok (value : α) : (pure value : Except Fault α) = .ok value := rfl

@[grind =] theorem throw_eq_error (fault : Fault) : (throw fault : Except Fault α) = .error fault := rfl

theorem bind_eq_ok {α β : Type} {first : Except Fault α} {next : α → Except Fault β} {value : β} :
    (first >>= next) = .ok value ↔ ∃ found, first = .ok found ∧ next found = .ok value := by
  constructor
  · exact Effect.of_except_bind_ok
  · rintro ⟨found, rfl, same⟩
    exact same

theorem map_eq_ok {first : Except Fault α} {change : α → β} {value : β} :
    first.map change = .ok value ↔ ∃ found, first = .ok found ∧ change found = value := by
  cases first <;> simp [Except.map]

attribute [local grind =] bind_eq_ok map_eq_ok

attribute [grind =] Term.ofInt constant add sub mul and or xor equal

variable {term : Term} {result : Word} {op : Operation} {flag : Flag}

@[grind ⇐] theorem coerce_only {width : Nat} (only : word.Only admits) (found : word.coerce width = .ok term) :
    term.Only admits := by
  cases word <;> grind [coerce]

theorem operateReals_only {left right : Binary64} (found : operateReals op left right = .ok result) :
    result.Only admits := by
  unfold operateReals at found
  grind

theorem operateNarrow_only {left right : Int} (found : operateNarrow op left right = .ok result) :
    result.Only admits := by
  unfold operateNarrow at found
  grind

theorem operateTerm_only {left : Term} (leftOnly : left.Only admits) (rightOnly : right.Only admits)
    (found : operateTerm op left right = .ok result) :
    result.Only admits := by
  unfold operateTerm at found
  grind

theorem operateBeforeTerm_only {right : Term} (leftOnly : left.Only admits) (rightOnly : right.Only admits)
    (found : operateBeforeTerm op left right = .ok result) :
    result.Only admits := by
  unfold operateBeforeTerm at found
  cases left <;> grind

@[grind ⇐] theorem operate_only (leftOnly : left.Only admits) (rightOnly : right.Only admits)
    (found : operate op left right = .ok result) :
    result.Only admits := by
  unfold operate at found
  split at found
  all_goals grind [operateTerm_only, operateBeforeTerm_only, operateReals_only, operateNarrow_only]

@[grind ⇐] theorem relate_only {relation : Relation} (leftOnly : left.Only admits) (rightOnly : right.Only admits)
    (found : relate relation left right = .ok flag) :
    flag.Only admits := by
  unfold relate at found
  grind [outcome]

@[grind ⇐] theorem equate_only {op : BinaryOp} (leftOnly : left.Only admits) (rightOnly : right.Only admits)
    (found : equate op left right = .ok flag) :
    flag.Only admits := by
  unfold equate equateTerm coerceCondition at found
  grind [outcome]

@[grind ⇐] theorem relateUnsigned_only {op : BinaryOp} (leftOnly : left.Only admits) (rightOnly : right.Only admits)
    (found : relateUnsigned op left right = .ok flag) :
    flag.Only admits := by
  unfold relateUnsigned at found
  grind

@[grind ⇐] theorem combine_only {op : BinaryOp} (leftOnly : left.Only admits) (rightOnly : right.Only admits)
    (found : combine op left right = .ok result) :
    result.Only admits := by
  unfold combine at found
  grind

@[grind ⇐] theorem shiftRight_only (leftOnly : left.Only admits) (rightOnly : right.Only admits)
    (found : left.shiftRight right = .ok result) :
    result.Only admits := by
  unfold shiftRight at found
  grind

@[grind ⇐] theorem complement_only (only : word.Only admits) (found : word.complement = .ok result) :
    result.Only admits := by
  cases word <;> grind [complement]

@[grind ⇐] theorem modulo_only {modulus : Int} (only : word.Only admits) (found : word.modulo modulus = .ok result) :
    result.Only admits := by
  cases word <;> grind [modulo]

@[grind ⇐] theorem divide_only {divisor : Int} (only : word.Only admits) (found : word.divide divisor = .ok result) :
    result.Only admits := by
  cases word <;> grind [divide]

@[grind ⇐] theorem shiftLeft_only {value : Int} (only : word.Only admits) (found : shiftLeft value word = .ok result) :
    result.Only admits := by
  cases word <;> grind [shiftLeft, operateNarrow_only]

@[grind ⇐] theorem magnitude_only (only : word.Only admits) (found : word.magnitude = .ok result) :
    result.Only admits := by
  unfold magnitude at found
  split at found
  · split at found
    · cases found
      exact ⟨⟨only, trivial⟩, only, only⟩
    · cases found
  · cases found

end Word

@[grind ⇐] theorem Flag.toTerm_only {flag : Flag} {term : Term} (only : flag.Only admits) (found : flag.toTerm = .ok term) :
    term.Only admits := by
  cases flag <;> grind [toTerm]

@[grind ←] theorem Flag.toWord_only {flag : Flag} (only : flag.Only admits) : flag.toWord.Only admits := by
  cases flag <;> grind [toWord]

@[grind ⇐] theorem Flag.bit_only {flag : Flag} {word : Word} (only : flag.Only admits) (found : flag.bit = .ok word) :
    word.Only admits := by
  obtain ⟨test, tested, ⟨⟩⟩ := Word.bind_eq_ok.mp found
  exact ⟨toTerm_only only tested, trivial, trivial⟩

end MintAudit
