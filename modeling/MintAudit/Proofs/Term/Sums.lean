import Mathlib
import MintAudit.Term.Simplify

namespace MintAudit

/-!
# Sorts, levels and sums of terms

A sum collected by the simplifier is read in the ring of words of its width.
-/

/-! ## Walks through terms -/

open List

namespace Walk

variable {α : Type} (own : Term → List α) (next : Term → List Term)

def run : Nat → List Term → List α
  | 0, _ => []
  | _, [] => []
  | fuel + 1, term :: rest => own term ++ run fuel (rest ++ next term)

def atDepth : Nat → Term → List α
  | 0, term => own term
  | depth + 1, term => (next term).flatMap (atDepth depth)

def total (terms : List Term) : Nat :=
  (terms.map Term.size).sum

variable {own next}

theorem total_cons (term : Term) (rest : List Term) : total (term :: rest) = term.size + total rest := by
  simp [total]

theorem total_append (first second : List Term) : total (first ++ second) = total first + total second := by
  simp [total]

theorem total_operands_lt (term : Term) : total term.operands < term.size := by
  cases term with
  | choice test yes no =>
    simp only [total, Term.operands, Term.size, map_cons, map_nil, sum_cons, sum_nil]
    omega
  | _ => simp [total, Term.operands, Term.size]

theorem size_le_total {term : Term} {terms : List Term} (member : term ∈ terms) : term.size ≤ total terms :=
  le_sum_of_mem (mem_map_of_mem member)

theorem run_append (fuel : Nat) (front back : List Term) :
    run own next (fuel + front.length) (front ++ back) =
      front.flatMap own ++ run own next fuel (back ++ front.flatMap next) := by
  induction front generalizing back with
  | nil => simp
  | cons term rest ih =>
    rw [length_cons, ← Nat.add_assoc, List.cons_append, run, List.append_assoc, ih,
      flatMap_cons, flatMap_cons, List.append_assoc, List.append_assoc]

section Shrinking

variable (shrinks : ∀ term, total (next term) < term.size)

include shrinks

theorem total_flatMap_le (terms : List Term) : total (terms.flatMap next) + terms.length ≤ total terms := by
  induction terms with
  | nil => rfl
  | cons term rest ih =>
    have smaller := shrinks term
    rw [flatMap_cons, total_append, total_cons, length_cons]
    omega

theorem run_eq_levels {bound fuel : Nat} {queue : List Term} (bounded : ∀ term ∈ queue, term.size ≤ bound)
    (enough : total queue < fuel) :
    run own next fuel queue = (List.range bound).flatMap fun depth => queue.flatMap (atDepth own next depth) := by
  induction bound generalizing fuel queue with
  | zero =>
    have none : queue = [] := by
      refine eq_nil_iff_forall_not_mem.mpr fun term member => ?_
      have smaller := shrinks term
      have nothing := bounded term member
      omega
    subst none
    cases fuel <;> rfl
  | succ bound ih =>
    have fewer := total_flatMap_le shrinks queue
    obtain ⟨remaining, rfl⟩ := Nat.exists_eq_add_of_le (show queue.length ≤ fuel by omega)
    have below : ∀ term ∈ queue.flatMap next, term.size ≤ bound := by
      intro term member
      obtain ⟨parent, queued, isNext⟩ := mem_flatMap.mp member
      have smaller := (size_le_total isNext).trans_lt (shrinks parent)
      have := bounded parent queued
      omega
    have onward := ih below (show total (queue.flatMap next) < remaining by omega)
    calc run own next (queue.length + remaining) queue
        = run own next (remaining + queue.length) (queue ++ []) := by rw [Nat.add_comm, append_nil]
      _ = queue.flatMap own ++ run own next remaining (queue.flatMap next) := run_append remaining queue []
      _ = queue.flatMap own ++
            (List.range bound).flatMap fun depth => (queue.flatMap next).flatMap (atDepth own next depth) := by
          rw [onward]
      _ = (List.range (bound + 1)).flatMap fun depth => queue.flatMap (atDepth own next depth) := by
          simp [range_succ_eq_map, flatMap_map, flatMap_assoc, atDepth]

theorem atDepth_eq_nil {term : Term} {depth : Nat} (deep : term.size ≤ depth) : atDepth own next depth term = [] := by
  induction depth generalizing term with
  | zero =>
    have := shrinks term
    omega
  | succ depth ih =>
    rw [atDepth, flatMap_eq_nil_iff]
    intro child isNext
    have smaller := (size_le_total isNext).trans_lt (shrinks term)
    exact ih (by omega)

theorem mem_run_iff {fuel : Nat} {queue : List Term} {found : α} (enough : total queue < fuel) :
    found ∈ run own next fuel queue ↔ ∃ term ∈ queue, ∃ depth, found ∈ atDepth own next depth term := by
  rw [run_eq_levels shrinks (fun term member => size_le_total member) enough]
  simp only [mem_flatMap, mem_range]
  constructor
  · rintro ⟨depth, _, term, member, present⟩
    exact ⟨term, member, depth, present⟩
  · rintro ⟨term, member, depth, present⟩
    have shallow : depth < term.size := by
      by_contra deep
      rw [atDepth_eq_nil shrinks (not_lt.mp deep)] at present
      cases present
    exact ⟨depth, shallow.trans_le (size_le_total member), term, member, present⟩

end Shrinking

end Walk

/-! ## Well-sorted terms -/

def Kind.count : Kind → Nat
  | condition => 2
  | bits width => 2 ^ width

/-- Whether the operation has a meaning on an operand of this kind. -/
def UnaryOp.Takes : UnaryOp → Kind → Prop
  | negation, kind => kind = .condition
  | extract high low, .bits width => low ≤ high ∧ high < width
  | _, .bits _ => True
  | _, .condition => False

theorem UnaryOp.takes_extract {high low : Nat} {kind : Kind} (taken : (extract high low).Takes kind) :
    ∃ width, kind = .bits width ∧ low ≤ high ∧ high < width := by
  cases kind with
  | condition => exact taken.elim
  | bits width => exact ⟨width, rfl, taken⟩

namespace BinaryOp

/-- Whether the operation has a meaning on operands of these kinds. -/
def Takes : BinaryOp → Kind → Kind → Prop
  | eq, left, right => left = right
  | ne, left, right => left = right
  | both, left, right => left = .condition ∧ right = .condition
  | either, left, right => left = .condition ∧ right = .condition
  | concat, .bits _, .bits _ => True
  | concat, _, _ => False
  | _, .bits left, .bits right => left = right
  | _, _, _ => False

def isWordwise : BinaryOp → Bool
  | add | sub | mul | udiv | urem | sdiv | smod | and | or | xor | shiftLeft | shiftRight => true
  | _ => false

def isOrder : BinaryOp → Bool
  | ult | ule | ugt | uge | slt | sle | sgt | sge => true
  | _ => false

variable {left right : Kind} {op : BinaryOp}

theorem takes_wordwise (wordwise : op.isWordwise = true) (taken : op.Takes left right) :
    ∃ width, left = .bits width ∧ right = .bits width := by
  cases op <;> cases left <;> cases right <;> simp_all [isWordwise, Takes]

theorem takes_order (order : op.isOrder = true) (taken : op.Takes left right) :
    ∃ width, left = .bits width ∧ right = .bits width := by
  cases op <;> cases left <;> cases right <;> simp_all [isOrder, Takes]

theorem takes_concat (taken : concat.Takes left right) :
    ∃ leftWidth rightWidth, left = .bits leftWidth ∧ right = .bits rightWidth := by
  cases left with
  | condition => exact taken.elim
  | bits leftWidth =>
    cases right with
    | condition => exact taken.elim
    | bits rightWidth => exact ⟨leftWidth, rightWidth, rfl, rfl⟩

end BinaryOp

theorem wrap_lt (width : Nat) (value : Int) : wrap width value < 2 ^ width := by
  have positive : (0 : Int) < (2 ^ width : Nat) := by exact_mod_cast Nat.two_pow_pos width
  have nonnegative := Int.emod_nonneg value positive.ne'
  have bounded := Int.emod_lt_of_pos value positive
  unfold wrap
  omega

theorem wrap_natCast (width value : Nat) : wrap width (value : Int) = value % 2 ^ width := by
  unfold wrap
  rw [← Int.natCast_mod, Int.toNat_natCast]

theorem wrap_of_lt {width value : Nat} (bounded : value < 2 ^ width) : wrap width (value : Int) = value := by
  rw [wrap_natCast, Nat.mod_eq_of_lt bounded]

theorem toNat_lt_two (value : Bool) : value.toNat < 2 := by
  cases value <;> decide

namespace BinaryOp

theorem apply_lt_of_isWordwise {op : BinaryOp} (wordwise : op.isWordwise = true) {width rightWidth left right : Nat}
    (leftBound : left < 2 ^ width) (rightBound : right < 2 ^ width) :
    op.apply width rightWidth left right < 2 ^ width := by
  have positive := Nat.two_pow_pos width
  cases op with
  | add => exact Nat.mod_lt _ positive
  | sub => exact wrap_lt _ _
  | mul => exact Nat.mod_lt _ positive
  | udiv =>
    simp only [apply]
    split
    · omega
    · exact (Nat.div_le_self _ _).trans_lt leftBound
  | urem =>
    simp only [apply]
    split
    · exact leftBound
    · exact (Nat.mod_le _ _).trans_lt leftBound
  | sdiv =>
    simp only [apply]
    split
    · split
      · next negative =>
        -- A negative word needs at least one bit.
        have : 1 < 2 ^ width := by
          by_contra small
          have : left = 0 := by omega
          simp [this, signed] at negative
        exact this
      · omega
    · exact wrap_lt _ _
  | smod =>
    simp only [apply]
    split
    · exact leftBound
    · exact wrap_lt _ _
  | and => exact Nat.and_lt_two_pow _ rightBound
  | or => exact Nat.or_lt_two_pow leftBound rightBound
  | xor => exact Nat.xor_lt_two_pow leftBound rightBound
  | shiftLeft =>
    simp only [apply]
    split
    · exact positive
    · exact Nat.mod_lt _ positive
  | shiftRight =>
    simp only [apply]
    split
    · split <;> omega
    · exact wrap_lt _ _
  | _ => simp [isWordwise] at wordwise

theorem apply_lt_two_of_isTest {op : BinaryOp} (test : op.isTest = true) (width rightWidth left right : Nat) :
    op.apply width rightWidth left right < 2 := by
  cases op <;> simp only [isTest, Bool.false_eq_true] at test <;> exact toNat_lt_two _

end BinaryOp

namespace Term

/-- Every operation in the term has operands of the kinds that it takes. -/
def WellSorted : Term → Prop
  | symbol .. => True
  | literal .. => True
  | truth _ => True
  | unary op operand => operand.WellSorted ∧ op.Takes operand.kind
  | binary op left right => left.WellSorted ∧ right.WellSorted ∧ op.Takes left.kind right.kind
  | choice test yes no => test.WellSorted ∧ yes.WellSorted ∧ no.WellSorted ∧ test.kind = .condition ∧ yes.kind = no.kind

variable {term : Term} {width : Nat}

theorem width_eq (kind : term.kind = .bits width) : term.width = width := by
  simp [Term.width, kind, Kind.width]

variable {op : BinaryOp} (assignment : Assignment)

theorem kind_wordwise (wordwise : op.isWordwise = true) (left right : Term) :
    (binary op left right).kind = left.kind := by
  cases op <;> simp_all [Term.kind, BinaryOp.kind, BinaryOp.isTest, BinaryOp.isWordwise]

theorem WellSorted.wordwise {left right : Term} (sorted : (binary op left right).WellSorted)
    (wordwise : op.isWordwise = true) :
    ∃ width, (binary op left right).kind = .bits width ∧ (left.WellSorted ∧ left.kind = .bits width) ∧
      right.WellSorted ∧ right.kind = .bits width := by
  obtain ⟨leftSorted, rightSorted, taken⟩ := sorted
  obtain ⟨width, leftKind, rightKind⟩ := BinaryOp.takes_wordwise wordwise taken
  exact ⟨width, (kind_wordwise wordwise left right).trans leftKind, ⟨leftSorted, leftKind⟩, rightSorted, rightKind⟩

theorem unary_lt_count {op : UnaryOp} {operand : Term} {value : Nat} (taken : op.Takes operand.kind)
    (bounded : value < operand.kind.count) :
    op.apply operand.width value < (op.kind operand.kind).count := by
  rw [Term.width]
  revert taken bounded
  generalize operand.kind = kind
  intro taken bounded
  cases op with
  | complement =>
    cases kind with
    | condition => exact taken.elim
    | bits width =>
      have positive := Nat.two_pow_pos width
      simp only [UnaryOp.apply, UnaryOp.kind, Kind.count, Kind.width]
      omega
  | negate =>
    cases kind with
    | condition => exact taken.elim
    | bits width => exact wrap_lt _ _
  | negation => exact toNat_lt_two _
  | extract high low => exact Nat.mod_lt _ (Nat.two_pow_pos _)
  | zeroExtend extra =>
    cases kind with
    | condition => exact taken.elim
    | bits width => exact bounded.trans_le (Nat.pow_le_pow_right (by decide) (by omega))

theorem binary_lt_count {left right : Term} {leftValue rightValue : Nat} (taken : op.Takes left.kind right.kind)
    (leftBound : leftValue < left.kind.count) (rightBound : rightValue < right.kind.count) :
    op.apply left.width right.width leftValue rightValue < (op.kind left.kind right.kind).count := by
  rw [Term.width, Term.width]
  revert taken leftBound rightBound
  generalize left.kind = leftKind, right.kind = rightKind
  intro taken leftBound rightBound
  by_cases test : op.isTest = true
  · simp only [BinaryOp.kind, test, ↓reduceIte]
    exact BinaryOp.apply_lt_two_of_isTest test _ _ _ _
  · by_cases wordwise : op.isWordwise = true
    · obtain ⟨width, rfl, rfl⟩ := BinaryOp.takes_wordwise wordwise taken
      have kind : op.kind (.bits width) (.bits width) = .bits width := by
        cases op <;> simp_all [BinaryOp.kind, BinaryOp.isTest, BinaryOp.isWordwise]
      rw [kind]
      exact BinaryOp.apply_lt_of_isWordwise wordwise leftBound rightBound
    · -- What is neither a test nor wordwise joins the bits of two words.
      have isConcat : op = .concat := by cases op <;> simp_all [BinaryOp.isTest, BinaryOp.isWordwise]
      subst isConcat
      cases leftKind with
      | condition => exact taken.elim
      | bits leftWidth =>
        cases rightKind with
        | condition => exact taken.elim
        | bits rightWidth =>
          simp only [BinaryOp.kind, BinaryOp.isTest, Bool.false_eq_true,
            ↓reduceIte, BinaryOp.apply, Kind.count, Kind.width] at *
          calc
            leftValue * 2 ^ rightWidth + rightValue < (leftValue + 1) * 2 ^ rightWidth := by
              rw [Nat.add_mul]
              omega
            _ ≤ 2 ^ leftWidth * 2 ^ rightWidth := Nat.mul_le_mul_right _ leftBound
            _ = 2 ^ (leftWidth + rightWidth) := (Nat.pow_add 2 leftWidth rightWidth).symm

theorem eval_lt_count (sorted : term.WellSorted) : term.eval assignment < term.kind.count := by
  induction term with
  | symbol name width => exact Nat.mod_lt _ (Nat.two_pow_pos width)
  | literal width value => exact Nat.mod_lt _ (Nat.two_pow_pos width)
  | truth value => exact toNat_lt_two value
  | unary op operand operandBound => exact unary_lt_count sorted.2 (operandBound sorted.1)
  | binary op left right leftBound rightBound =>
    obtain ⟨leftSorted, rightSorted, taken⟩ := sorted
    exact binary_lt_count taken (leftBound leftSorted) (rightBound rightSorted)
  | choice test yes no testBound yesBound noBound =>
    obtain ⟨_, yesSorted, noSorted, _, sameKind⟩ := sorted
    simp only [eval, kind]
    split
    · rw [sameKind]
      exact noBound noSorted
    · exact yesBound yesSorted

theorem eval_lt (sorted : term.WellSorted) (kind : term.kind = .bits width) : term.eval assignment < 2 ^ width := by
  simpa [kind, Kind.count] using eval_lt_count assignment sorted

theorem eval_lt_two (sorted : term.WellSorted) (kind : term.kind = .condition) : term.eval assignment < 2 := by
  simpa [kind, Kind.count] using eval_lt_count assignment sorted

end Term

/-! ## The value of a sum -/

namespace Term

structure Replaces (new old : Term) : Prop where
  sorted : new.WellSorted
  kind : new.kind = old.kind
  eval : ∀ assignment, new.eval assignment = old.eval assignment

theorem Replaces.refl {term : Term} (sorted : term.WellSorted) : Replaces term term :=
  ⟨sorted, rfl, fun _ => rfl⟩

theorem Replaces.trans {first second third : Term} (left : Replaces first second) (right : Replaces second third) :
    Replaces first third :=
  ⟨left.sorted, left.kind.trans right.kind, fun assignment => (left.eval assignment).trans (right.eval assignment)⟩

theorem Replaces.width {new old : Term} (replaces : Replaces new old) : new.width = old.width := by
  simp [Term.width, replaces.kind]

theorem eval_eq_of_cast {left right : Term} {width : Nat} (leftSorted : left.WellSorted)
    (rightSorted : right.WellSorted) (leftKind : left.kind = .bits width) (rightKind : right.kind = .bits width)
    {assignment : Assignment}
    (same : (left.eval assignment : ZMod (2 ^ width)) = right.eval assignment) :
    left.eval assignment = right.eval assignment := by
  have remainders := (ZMod.natCast_eq_natCast_iff' _ _ _).mp same
  rwa [Nat.mod_eq_of_lt (eval_lt assignment leftSorted leftKind),
    Nat.mod_eq_of_lt (eval_lt assignment rightSorted rightKind)] at remainders

theorem cast_allOnes (width : Nat) : ((2 ^ width - 1 : Nat) : ZMod (2 ^ width)) = -1 := by
  rw [Nat.cast_sub (Nat.one_le_two_pow)]
  simp only [ZMod.natCast_self, Nat.cast_one, zero_sub]

theorem cast_wrap (width : Nat) (value : Int) : (wrap width value : ZMod (2 ^ width)) = value := by
  have positive : (0 : Int) < (2 ^ width : Nat) := by exact_mod_cast Nat.two_pow_pos width
  have nonnegative := Int.emod_nonneg value positive.ne'
  have asInteger : ((wrap width value : Nat) : Int) = value % (2 ^ width : Nat) := Int.toNat_of_nonneg nonnegative
  rw [← Int.cast_natCast, asInteger]
  exact ZMod.intCast_mod value (2 ^ width)

namespace Sum

def total (assignment : Assignment) (width : Nat) (multiples : List (Nat × Term)) : ZMod (2 ^ width) :=
  (multiples.map fun multiple =>
    (multiple.1 : ZMod (2 ^ width)) * multiple.2.eval assignment).sum

def value (assignment : Assignment) (width : Nat) (sum : Sum) : ZMod (2 ^ width) :=
  sum.constant + total assignment width sum.multiples

def OfWidth (width : Nat) (multiples : List (Nat × Term)) : Prop :=
  ∀ multiple ∈ multiples, multiple.2.WellSorted ∧ multiple.2.kind = .bits width

structure StandsFor (width : Nat) (sum : Sum) (term : Term) : Prop where
  sumWidth : sum.width = width
  ofWidth : OfWidth width sum.multiples
  value : ∀ assignment, sum.value assignment width = term.eval assignment

variable (assignment : Assignment)

@[simp] theorem total_nil (width : Nat) : total assignment width [] = 0 := rfl

@[simp] theorem total_cons (width factor : Nat) (term : Term) (rest : List (Nat × Term)) :
    total assignment width ((factor, term) :: rest) = factor * term.eval assignment + total assignment width rest := by
  simp [total]

theorem total_insert (width factor : Nat) (term : Term) (multiples : List (Nat × Term)) :
    total assignment width (insert width factor term multiples) =
      factor * term.eval assignment + total assignment width multiples := by
  induction multiples with
  | nil => simp [insert]
  | cons multiple rest ih =>
    obtain ⟨present, other⟩ := multiple
    simp only [insert]
    split
    · next same =>
      subst same
      simp only [total_cons, ZMod.natCast_mod, Nat.cast_add]
      ring
    · simp only [total_cons, ih]
      ring

theorem ofWidth_insert {width factor : Nat} {term : Term} {multiples : List (Nat × Term)} (sorted : term.WellSorted)
    (kind : term.kind = .bits width) (ofWidth : OfWidth width multiples) :
    OfWidth width (insert width factor term multiples) := by
  induction multiples with
  | nil =>
    intro multiple member
    simp only [insert, mem_singleton] at member
    subst member
    exact ⟨sorted, kind⟩
  | cons first rest ih =>
    obtain ⟨present, other⟩ := first
    have restOfWidth : OfWidth width rest := fun multiple member => ofWidth multiple (mem_cons_of_mem _ member)
    have otherOfWidth := ofWidth (present, other) (by simp)
    intro multiple member
    simp only [insert] at member
    split at member
    · rcases mem_cons.mp member with rfl | inRest
      · exact otherOfWidth
      · exact restOfWidth multiple inRest
    · rcases mem_cons.mp member with rfl | inRest
      · exact otherOfWidth
      · exact ih restOfWidth multiple inRest

theorem total_foldl_insert (width : Nat) (added multiples : List (Nat × Term)) :
    total assignment width (added.foldl (fun sum multiple => insert width multiple.1 multiple.2 sum) multiples) =
      total assignment width multiples + total assignment width added := by
  induction added generalizing multiples with
  | nil => simp
  | cons multiple rest ih =>
    obtain ⟨factor, term⟩ := multiple
    rw [foldl_cons, ih, total_insert, total_cons]
    ring

variable {width : Nat} {sum : Sum} {left right : Term}

theorem ofWidth_foldl_insert {added multiples : List (Nat × Term)} (addedOfWidth : OfWidth width added)
    (ofWidth : OfWidth width multiples) :
    OfWidth width (added.foldl (fun sum multiple => insert width multiple.1 multiple.2 sum) multiples) := by
  induction added generalizing multiples with
  | nil => exact ofWidth
  | cons multiple rest ih =>
    have first := addedOfWidth multiple (by simp)
    rw [foldl_cons]
    exact ih
      (fun other member => addedOfWidth other (mem_cons_of_mem _ member))
      (ofWidth_insert first.1 first.2 ofWidth)

theorem value_add {left : Sum} (leftWidth : left.width = width) (right : Sum) :
    (left.add right).value assignment width = left.value assignment width + right.value assignment width := by
  subst leftWidth
  simp only [value, add, total_foldl_insert, ZMod.natCast_mod, Nat.cast_add]
  ring

theorem value_scale (factor : Nat) (sumWidth : sum.width = width) :
    (sum.scale factor).value assignment width = sum.value assignment width * factor := by
  subst sumWidth
  obtain ⟨width, constant, multiples⟩ := sum
  simp only [value, scale, ZMod.natCast_mod, Nat.cast_mul, add_mul]
  congr 1
  induction multiples with
  | nil => simp
  | cons multiple rest ih =>
    obtain ⟨present, term⟩ := multiple
    simp only [map_cons, total_cons, ih, ZMod.natCast_mod, Nat.cast_mul]
    ring

theorem ofWidth_scale {width factor : Nat} (ofWidth : OfWidth width sum.multiples) :
    OfWidth width (sum.scale factor).multiples := by
  intro multiple member
  obtain ⟨before, beforeMember, rfl⟩ := mem_map.mp member
  exact ofWidth before beforeMember

namespace StandsFor

variable {width : Nat} {left right sum : Sum} {leftTerm rightTerm term new : Term}

theorem add (leftStands : StandsFor width left leftTerm) (rightStands : StandsFor width right rightTerm)
    (evaluates :
      ∀ assignment, (new.eval assignment : ZMod (2 ^ width)) = leftTerm.eval assignment + rightTerm.eval assignment) :
    StandsFor width (left.add right) new where
  sumWidth := leftStands.sumWidth
  ofWidth := by
    have widths := leftStands.sumWidth
    subst widths
    exact ofWidth_foldl_insert rightStands.ofWidth leftStands.ofWidth
  value assignment := by rw [value_add assignment leftStands.sumWidth, leftStands.value, rightStands.value, evaluates]

theorem scale (factor : Nat) (stands : StandsFor width sum term)
    (evaluates : ∀ assignment, (new.eval assignment : ZMod (2 ^ width)) = term.eval assignment * factor) :
    StandsFor width (sum.scale factor) new where
  sumWidth := stands.sumWidth
  ofWidth := ofWidth_scale stands.ofWidth
  value assignment := by rw [value_scale assignment factor stands.sumWidth, stands.value, evaluates]

theorem single (sorted : term.WellSorted) (kind : term.kind = .bits width) :
    StandsFor width ⟨term.width, 0, [(1, term)]⟩ term where
  sumWidth := width_eq kind
  ofWidth := by
    intro multiple member
    rw [mem_singleton] at member
    subst member
    exact ⟨sorted, kind⟩
  value assignment := by simp [Sum.value]

end StandsFor

theorem cast_eval_add (leftKind : left.kind = .bits width) (assignment : Assignment) :
    ((binary .add left right).eval assignment : ZMod (2 ^ width)) = left.eval assignment + right.eval assignment := by
  simp [Term.eval, BinaryOp.apply, width_eq leftKind]

theorem cast_eval_sub (leftKind : left.kind = .bits width) (assignment : Assignment) :
    ((binary .sub left right).eval assignment : ZMod (2 ^ width)) = left.eval assignment - right.eval assignment := by
  simp [Term.eval, BinaryOp.apply, width_eq leftKind, cast_wrap]

theorem cast_eval_mul (leftKind : left.kind = .bits width) (assignment : Assignment) :
    ((binary .mul left right).eval assignment : ZMod (2 ^ width)) = left.eval assignment * right.eval assignment := by
  simp [Term.eval, BinaryOp.apply, width_eq leftKind]

theorem cast_eval_negate {operand : Term} (kind : operand.kind = .bits width) (assignment : Assignment) :
    ((unary .negate operand).eval assignment : ZMod (2 ^ width)) = -(operand.eval assignment) := by
  simp [Term.eval, UnaryOp.apply, width_eq kind, cast_wrap]

theorem StandsFor.negate (stands : StandsFor width sum right) (kind : right.kind = .bits width) :
    StandsFor width (sum.scale (2 ^ right.width - 1)) (unary .negate right) := by
  refine stands.scale _ fun assignment => ?_
  rw [cast_eval_negate kind, width_eq kind, cast_allOnes]
  ring

theorem StandsFor.sub {first : Sum} (leftStands : StandsFor width first left) (rightStands : StandsFor width sum right)
    (leftKind : left.kind = .bits width) (rightKind : right.kind = .bits width) :
    StandsFor width (first.add (sum.scale (2 ^ right.width - 1))) (binary .sub left right) := by
  refine leftStands.add (rightStands.negate rightKind) fun assignment => ?_
  rw [cast_eval_sub leftKind, cast_eval_negate rightKind]
  ring

def termTotal (assignment : Assignment) (width : Nat) (terms : List Term) : ZMod (2 ^ width) :=
  (terms.map fun term => (term.eval assignment : ZMod (2 ^ width))).sum

theorem joined_spec {terms : List Term} (words : ∀ term ∈ terms, term.WellSorted ∧ term.kind = .bits width) :
    (joined width terms).WellSorted ∧ (joined width terms).kind = .bits width ∧
      ∀ assignment, ((joined width terms).eval assignment : ZMod (2 ^ width)) = termTotal assignment width terms := by
  induction terms with
  | nil => simp [joined, WellSorted, Term.kind, Term.eval, termTotal]
  | cons first rest ih =>
    obtain ⟨firstSorted, firstKind⟩ := words first (by simp)
    cases rest with
    | nil =>
      refine ⟨firstSorted, firstKind, fun assignment => ?_⟩
      simp [joined, termTotal]
    | cons second others =>
      obtain ⟨restSorted, restKind, restEval⟩ := ih fun term member => words term (mem_cons_of_mem _ member)
      refine ⟨⟨firstSorted, restSorted, ?_⟩, ?_, fun assignment => ?_⟩
      · rw [firstKind, restKind]
        rfl
      · simp only [joined, Term.kind, BinaryOp.kind, BinaryOp.isTest, Bool.false_eq_true, ↓reduceIte]
        exact firstKind
      · rw [joined, cast_eval_add firstKind, restEval]
        · simp [termTotal]
        · simp

theorem multipleTerm_spec {multiple : Nat × Term} (sorted : multiple.2.WellSorted)
    (kind : multiple.2.kind = .bits width) :
    (multipleTerm width multiple).WellSorted ∧ (multipleTerm width multiple).kind = .bits width ∧
      ∀ assignment,
        ((multipleTerm width multiple).eval assignment : ZMod (2 ^ width)) =
          multiple.1 * multiple.2.eval assignment := by
  unfold multipleTerm
  split
  · next isOne =>
    refine ⟨sorted, kind, fun assignment => ?_⟩
    simp [isOne]
  · refine ⟨⟨trivial, sorted, ?_⟩, rfl, fun assignment => ?_⟩
    · rw [kind]
      rfl
    · have literalKind : (literal width multiple.1).kind = .bits width := rfl
      rw [cast_eval_mul literalKind]
      simp [Term.eval]

theorem total_nonzero (width : Nat) (sum : Sum) :
    total assignment width sum.nonzero = total assignment width sum.multiples := by
  unfold nonzero
  induction sum.multiples with
  | nil => rfl
  | cons multiple rest ih =>
    obtain ⟨factor, term⟩ := multiple
    by_cases vanishes : factor = 0
    · simpa [vanishes] using ih
    · simpa [vanishes] using ih

theorem ofWidth_nonzero (ofWidth : OfWidth width sum.multiples) : OfWidth width sum.nonzero :=
  fun multiple member => ofWidth multiple (mem_of_mem_filter member)

theorem parts_spec (sumWidth : sum.width = width) (ofWidth : OfWidth width sum.multiples) :
    (∀ term ∈ sum.parts, term.WellSorted ∧ term.kind = .bits width) ∧
      ∀ assignment, termTotal assignment width sum.parts = sum.value assignment width := by
  have multiplesOfWidth := ofWidth_nonzero ofWidth
  have multiplesTotal : ∀ assignment,
      termTotal assignment width (sum.nonzero.map (multipleTerm width)) = total assignment width sum.multiples := by
    intro assignment
    rw [← total_nonzero, termTotal, total, map_map]
    congr 1
    apply map_congr_left
    intro multiple member
    obtain ⟨sorted, kind⟩ := multiplesOfWidth multiple member
    exact (multipleTerm_spec sorted kind).2.2 assignment
  have multiplesWords : ∀ term ∈ sum.nonzero.map (multipleTerm width), term.WellSorted ∧ term.kind = .bits width := by
    intro term member
    obtain ⟨multiple, multipleMember, rfl⟩ := mem_map.mp member
    obtain ⟨sorted, kind⟩ := multiplesOfWidth multiple multipleMember
    have spec := multipleTerm_spec sorted kind
    exact ⟨spec.1, spec.2.1⟩
  unfold parts
  simp only [sumWidth]
  split
  · next isZero =>
    refine ⟨multiplesWords, fun assignment => ?_⟩
    simp [multiplesTotal, value, isZero]
  · refine ⟨fun term member => ?_, fun assignment => ?_⟩
    · rcases mem_cons.mp member with rfl | inMultiples
      · exact ⟨trivial, rfl⟩
      · exact multiplesWords term inMultiples
    · have := multiplesTotal assignment
      simp only [termTotal, map_cons, sum_cons, value] at this ⊢
      rw [this]
      simp [Term.eval]

theorem toTerm_replaces {term : Term} (stands : StandsFor width sum term) (sorted : term.WellSorted)
    (kind : term.kind = .bits width) :
    Replaces sum.toTerm term := by
  obtain ⟨partWords, partTotal⟩ := parts_spec stands.sumWidth stands.ofWidth
  obtain ⟨joinedSorted, joinedKind, joinedEval⟩ := joined_spec partWords
  have shape : sum.toTerm = joined width sum.parts := by rw [toTerm, stands.sumWidth]
  rw [shape]
  refine ⟨joinedSorted, joinedKind.trans kind.symm, fun assignment => ?_⟩
  apply eval_eq_of_cast joinedSorted sorted joinedKind kind
  rw [joinedEval, partTotal, stands.value]

end Sum

theorem toSum_standsFor {term : Term} {width : Nat} (sorted : term.WellSorted) (kind : term.kind = .bits width) :
    Sum.StandsFor width term.toSum term := by
  fun_induction toSum term with
  | case1 literalWidth value =>
    obtain rfl : literalWidth = width := by simpa [Term.kind] using kind
    refine ⟨rfl, fun multiple member => by simp at member, fun assignment => ?_⟩
    simp [Sum.value, eval]
  | case2 left right leftStands rightStands =>
    obtain ⟨_, shared, ⟨leftSorted, leftKind⟩, rightSorted, rightKind⟩ := sorted.wordwise rfl
    obtain rfl := Kind.bits.inj (shared.symm.trans kind)
    exact (leftStands leftSorted leftKind).add (rightStands rightSorted rightKind) (Sum.cast_eval_add leftKind)
  | case3 left right leftStands rightStands =>
    obtain ⟨_, shared, ⟨leftSorted, leftKind⟩, rightSorted, rightKind⟩ := sorted.wordwise rfl
    obtain rfl := Kind.bits.inj (shared.symm.trans kind)
    exact (leftStands leftSorted leftKind).sub (rightStands rightSorted rightKind) leftKind rightKind
  | case4 operand operandStands =>
    have operandKind : operand.kind = .bits width := by simpa [Term.kind, UnaryOp.kind] using kind
    exact (operandStands sorted.1 operandKind).negate operandKind
  | case5 literalWidth value right rightStands =>
    obtain ⟨_, shared, ⟨_, literalKind⟩, rightSorted, rightKind⟩ := sorted.wordwise rfl
    obtain rfl := Kind.bits.inj (shared.symm.trans kind)
    obtain rfl := Kind.bits.inj literalKind
    refine (rightStands rightSorted rightKind).scale _ fun assignment => ?_
    rw [Sum.cast_eval_mul literalKind]
    simp only [eval]
    ring
  | case6 term => exact Sum.StandsFor.single sorted kind

end Term

end MintAudit
