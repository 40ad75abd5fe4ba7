namespace MintAudit

/-!
# Terms and their simplification

Constants are folded, sums are collected with the constant in front, masks with low ones become extractions, and a
test of a choice between constants becomes the condition that decides it.
-/

/-! ## Terms -/

-- Powers are those of the core library, whatever else is imported.
attribute [local instance (high)] instPowNat

inductive UnaryOp where
  | complement
  | negate
  | negation
  | extract (high low : Nat)
  | zeroExtend (extra : Nat)
  deriving DecidableEq, Repr, Inhabited

inductive BinaryOp where
  | add | sub | mul
  | udiv
  | urem
  | sdiv
  | smod
  | and | or | xor
  | shiftLeft
  | shiftRight
  | concat
  | eq | ne
  | ult | ule | ugt | uge
  | slt | sle | sgt | sge
  | both
  | either
  deriving DecidableEq, Repr, Inhabited

inductive Term where
  | symbol (name : String) (width : Nat)
  | literal (width value : Nat)
  | truth (value : Bool)
  | unary (op : UnaryOp) (operand : Term)
  | binary (op : BinaryOp) (left right : Term)
  | choice (test yes no : Term)
  deriving DecidableEq, Repr, Inhabited

inductive Kind where
  | condition
  | bits (width : Nat)
  deriving DecidableEq, Repr, Inhabited

abbrev Assignment := String → Nat → Nat

def signed (width value : Nat) : Int :=
  if 2 * value < 2 ^ width then value else (value : Int) - (2 ^ width : Nat)

def wrap (width : Nat) (value : Int) : Nat :=
  (value % (2 ^ width : Nat)).toNat

def BinaryOp.isTest : BinaryOp → Bool
  | eq | ne | ult | ule | ugt | uge | slt | sle | sgt | sge | both | either => true
  | _ => false

def BinaryOp.kind (op : BinaryOp) (left right : Kind) : Kind :=
  if op.isTest then
    .condition
  else
    match op, left, right with
    | concat, .bits first, .bits second => .bits (first + second)
    | _, kind, _ => kind

def BinaryOp.apply (op : BinaryOp) (width rightWidth : Nat) (left right : Nat) : Nat :=
  match op with
  | add => (left + right) % 2 ^ width
  | sub => wrap width ((left : Int) - (right : Int))
  | mul => (left * right) % 2 ^ width
  | udiv => if right = 0 then 2 ^ width - 1 else left / right
  | urem => if right = 0 then left else left % right
  | sdiv =>
    if right = 0 then
      if signed width left < 0 then 1 else 2 ^ width - 1
    else
      wrap width (Int.tdiv (signed width left) (signed width right))
  | smod =>
    if right = 0 then
      left
    else
      wrap width (Int.fmod (signed width left) (signed width right))
  | and => left &&& right
  | or => left ||| right
  | xor => left ^^^ right
  | shiftLeft => if width ≤ right then 0 else (left * 2 ^ right) % 2 ^ width
  | shiftRight =>
    if width ≤ right then
      if signed width left < 0 then 2 ^ width - 1 else 0
    else
      wrap width (Int.fdiv (signed width left) (2 ^ right : Nat))
  | concat => left * 2 ^ rightWidth + right
  | eq => (left == right).toNat
  | ne => (left != right).toNat
  | ult => (decide (left < right)).toNat
  | ule => (decide (left ≤ right)).toNat
  | ugt => (decide (right < left)).toNat
  | uge => (decide (right ≤ left)).toNat
  | slt => (decide (signed width left < signed width right)).toNat
  | sle => (decide (signed width left ≤ signed width right)).toNat
  | sgt => (decide (signed width right < signed width left)).toNat
  | sge => (decide (signed width right ≤ signed width left)).toNat
  | both => (left != 0 && right != 0).toNat
  | either => (left != 0 || right != 0).toNat

def UnaryOp.kind : UnaryOp → Kind → Kind
  | negation, _ => .condition
  | extract high low, _ => .bits (high + 1 - low)
  | zeroExtend extra, .bits width => .bits (extra + width)
  | _, kind => kind

def UnaryOp.apply (op : UnaryOp) (width : Nat) (operand : Nat) : Nat :=
  match op with
  | complement => 2 ^ width - 1 - operand
  | negate => wrap width (-(operand : Int))
  | negation => (operand == 0).toNat
  | extract high low => operand / 2 ^ low % 2 ^ (high + 1 - low)
  | zeroExtend _ => operand

def Kind.width : Kind → Nat
  | condition => 0
  | bits width => width

namespace Term

def kind : Term → Kind
  | symbol _ width => .bits width
  | literal width _ => .bits width
  | truth _ => .condition
  | unary op operand => op.kind operand.kind
  | binary op left right => op.kind left.kind right.kind
  | choice _ yes _ => yes.kind

def width (term : Term) : Nat :=
  term.kind.width

def eval (assignment : Assignment) : Term → Nat
  | symbol name width => assignment name width % 2 ^ width
  | literal width value => value % 2 ^ width
  | truth value => value.toNat
  | unary op operand => op.apply operand.width (operand.eval assignment)
  | binary op left right => op.apply left.width right.width (left.eval assignment) (right.eval assignment)
  | choice test yes no => if test.eval assignment = 0 then no.eval assignment else yes.eval assignment

def Holds (assignment : Assignment) (condition : Term) : Prop :=
  condition.eval assignment ≠ 0

instance (assignment : Assignment) (condition : Term) : Decidable (condition.Holds assignment) :=
  inferInstanceAs (Decidable (_ ≠ _))

def operands : Term → List Term
  | symbol .. => []
  | literal .. => []
  | truth _ => []
  | unary _ operand => [operand]
  | binary _ left right => [left, right]
  | choice test yes no => [test, yes, no]

def size : Term → Nat
  | symbol .. => 1
  | literal .. => 1
  | truth _ => 1
  | unary _ operand => operand.size + 1
  | binary _ left right => left.size + right.size + 1
  | choice test yes no => test.size + yes.size + no.size + 1

def symbolsOnto : Term → List (String × Nat) → List (String × Nat)
  | symbol name width, seen => if seen.contains (name, width) then seen else seen ++ [(name, width)]
  | literal .., seen => seen
  | truth _, seen => seen
  | unary _ operand, seen => operand.symbolsOnto seen
  | binary _ left right, seen => right.symbolsOnto (left.symbolsOnto seen)
  | choice test yes no, seen => no.symbolsOnto (yes.symbolsOnto (test.symbolsOnto seen))

def symbols (term : Term) : List (String × Nat) :=
  term.symbolsOnto []

def names (term : Term) : List String :=
  term.symbols.map Prod.fst

def ofInt (width : Nat) (value : Int) : Term :=
  .literal width (wrap width value)

def literal? : Term → Option Nat
  | literal width value => some (value % 2 ^ width)
  | _ => none

end Term

/-! ## The text of a term -/

/-- How an operation is written: between its operands, or as a function before them. -/
inductive BinaryOp.Spelling where
  | between (sign : String)
  | call (name : String)

def BinaryOp.spelling : BinaryOp → Spelling
  | add => .between " + "
  | sub => .between " - "
  | mul => .between "*"
  | udiv => .call "UDiv"
  | urem => .call "URem"
  | sdiv => .between "/"
  | smod => .between "%"
  | and => .between " & "
  | or => .between " | "
  | xor => .between " ^ "
  | shiftLeft => .between " << "
  | shiftRight => .between " >> "
  | concat => .call "Concat"
  | eq => .between " == "
  | ne => .between " != "
  | ult => .call "ULT"
  | ule => .call "ULE"
  | ugt => .call "UGT"
  | uge => .call "UGE"
  | slt => .between " < "
  | sle => .between " <= "
  | sgt => .between " > "
  | sge => .between " >= "
  | both => .call "And"
  | either => .call "Or"

def BinaryOp.looseness : BinaryOp → Nat
  | mul | sdiv | smod => 3
  | add | sub => 4
  | shiftLeft | shiftRight => 5
  | and => 6
  | xor => 7
  | or => 8
  | _ => 9

def Term.needsParentheses (outer : Nat) (onRight : Bool) : Term → Bool
  | binary op _ _ =>
    match op.spelling with
    | .between _ => if onRight then outer ≤ op.looseness else outer < op.looseness
    | .call _ => false
  | _ => false

def Term.chains : BinaryOp → Term → Bool
  | .add, binary .add _ _ => true
  | .mul, binary .mul _ _ => true
  | .and, binary .and _ _ => true
  | .or, binary .or _ _ => true
  | .xor, binary .xor _ _ => true
  | _, _ => false

def Term.enclosed (needed : Bool) (inner : String) : String :=
  if needed then "(" ++ inner ++ ")" else inner

def Term.textWithin (levels : Nat) : Term → String
  | symbol name _ => if levels = 0 then "..." else name
  | literal width value => if levels = 0 then "..." else toString (value % 2 ^ width)
  | truth value => if levels = 0 then "..." else if value then "True" else "False"
  | unary op operand =>
    if levels = 0 then
      "..."
    else
      let inner := operand.textWithin (levels - 1)
      match op with
      | .complement => "~" ++ enclosed (operand.needsParentheses 2 true) inner
      | .negate => "-" ++ enclosed (operand.needsParentheses 2 true) inner
      | .negation => "Not(" ++ inner ++ ")"
      | .extract high low => "Extract(" ++ toString high ++ ", " ++ toString low ++ ", " ++ inner ++ ")"
      | .zeroExtend extra => "ZeroExt(" ++ toString extra ++ ", " ++ inner ++ ")"
  | binary op left right =>
    if levels = 0 then
      "..."
    else
      let leftText := left.textWithin (if chains op left then levels else levels - 1)
      let rightText := right.textWithin (if chains op right then levels else levels - 1)
      match op.spelling with
      | .between sign =>
        enclosed (left.needsParentheses op.looseness false) leftText
          ++ sign
          ++ enclosed (right.needsParentheses op.looseness true && !chains op right) rightText
      | .call name => name ++ "(" ++ leftText ++ ", " ++ rightText ++ ")"
  | choice test yes no =>
    if levels = 0 then
      "..."
    else
      "If(" ++ test.textWithin (levels - 1) ++ ", " ++ yes.textWithin (levels - 1) ++ ", "
        ++ no.textWithin (levels - 1) ++ ")"

def Term.text (term : Term) : String :=
  term.textWithin 21

/-! ## Simplification -/

namespace Term

structure Sum where
  width : Nat
  constant : Nat
  multiples : List (Nat × Term)
  deriving DecidableEq, Repr, Inhabited

namespace Sum

def insert (width factor : Nat) (term : Term) : List (Nat × Term) → List (Nat × Term)
  | [] => [(factor, term)]
  | (present, other) :: rest =>
    if other = term then
      ((present + factor) % 2 ^ width, other) :: rest
    else
      (present, other) :: insert width factor term rest

def add (left right : Sum) : Sum where
  width := left.width
  constant := (left.constant + right.constant) % 2 ^ left.width
  multiples := right.multiples.foldl (fun sum multiple => insert left.width multiple.1 multiple.2 sum) left.multiples

def scale (factor : Nat) (sum : Sum) : Sum where
  width := sum.width
  constant := (sum.constant * factor) % 2 ^ sum.width
  multiples := sum.multiples.map fun multiple => ((multiple.1 * factor) % 2 ^ sum.width, multiple.2)

def nonzero (sum : Sum) : List (Nat × Term) :=
  sum.multiples.filter fun multiple => multiple.1 ≠ 0

def multipleTerm (width : Nat) (multiple : Nat × Term) : Term :=
  if multiple.1 = 1 then
    multiple.2
  else
    .binary .mul (.literal width multiple.1) multiple.2

def parts (sum : Sum) : List Term :=
  let multiples := sum.nonzero.map (multipleTerm sum.width)
  if sum.constant = 0 then multiples else .literal sum.width sum.constant :: multiples

def joined (width : Nat) : List Term → Term
  | [] => .literal width 0
  | [term] => term
  | term :: rest => .binary .add term (joined width rest)

def toTerm (sum : Sum) : Term :=
  joined sum.width sum.parts

end Sum

def toSum : Term → Sum
  | literal width value => ⟨width, value % 2 ^ width, []⟩
  | binary .add left right => left.toSum.add right.toSum
  | binary .sub left right => left.toSum.add (right.toSum.scale (2 ^ right.width - 1))
  | unary .negate operand => operand.toSum.scale (2 ^ operand.width - 1)
  | binary .mul (literal width value) right => right.toSum.scale (value % 2 ^ width)
  | term => ⟨term.width, 0, [(1, term)]⟩

def mkNot : Term → Term
  | truth value => .truth (!value)
  | unary .negation operand => operand
  | term => .unary .negation term

def lowOnes? (mask : Nat) : Option Nat :=
  if mask ≠ 0 ∧ mask &&& (mask + 1) = 0 then some (mask.log2 + 1) else none

def mkExtract (high low : Nat) : Term → Term
  | literal width value => .literal (high + 1 - low) ((value % 2 ^ width) / 2 ^ low % 2 ^ (high + 1 - low))
  | unary (.extract innerHigh innerLow) operand =>
    if innerLow + high ≤ innerHigh then
      .unary (.extract (high + innerLow) (low + innerLow)) operand
    else
      .unary (.extract high low) (.unary (.extract innerHigh innerLow) operand)
  | binary .concat left right =>
    if high < right.width then
      mkExtract high low right
    else if right.width ≤ low then
      mkExtract (high - right.width) (low - right.width) left
    else
      .unary (.extract high low) (.binary .concat left right)
  | term => if low = 0 ∧ high + 1 = term.width then term else .unary (.extract high low) term

def mkZeroExtend (extra : Nat) (term : Term) : Term :=
  if extra = 0 then
    term
  else
    match term with
    | literal width value => .literal (extra + width) (value % 2 ^ width)
    | term => .binary .concat (.literal extra 0) term

def mkMask (mask : Nat) (term : Term) : Term :=
  if mask = 0 then
    .literal term.width 0
  else
    match lowOnes? mask with
    | some count =>
      if term.width ≤ count then term else mkZeroExtend (term.width - count) (mkExtract (count - 1) 0 term)
    | none => .binary .and (.literal term.width mask) term

def choiceEquals? (value : Nat) : Term → Option Term
  | choice test (literal width yes) (literal _ no) =>
    match decide (yes % 2 ^ width = value), decide (no % 2 ^ width = value) with
    | true, true => some (.truth true)
    | true, false => some test
    | false, true => some (mkNot test)
    | false, false => some (.truth false)
  | _ => none

def mkEqLiteral (term : Term) (value : Nat) : Term :=
  match choiceEquals? value term with
  | some test => test
  | none =>
    match term with
    | binary .concat (literal _ 0) low =>
      if value < 2 ^ low.width then
        .binary .eq low (.literal low.width value)
      else
        .truth false
    | term =>
      let sum := term.toSum
      match sum.nonzero with
      | [(1, single)] =>
        .binary .eq single (.literal term.width ((value + (2 ^ term.width - sum.constant)) % 2 ^ term.width))
      | _ => .binary .eq term (.literal term.width value)

def mkEq (left right : Term) : Term :=
  if left = right then
    .truth true
  else
    match left, right with
    | literal leftWidth leftValue, literal rightWidth rightValue =>
      .truth (leftValue % 2 ^ leftWidth == rightValue % 2 ^ rightWidth)
    | truth value, condition => if value then condition else mkNot condition
    | condition, truth value => if value then condition else mkNot condition
    | term, literal width value => mkEqLiteral term (value % 2 ^ width)
    | literal width value, term => mkEqLiteral term (value % 2 ^ width)
    | binary .concat (literal leftPad 0) leftLow, binary .concat (literal rightPad 0) rightLow =>
      if leftPad = rightPad then
        if leftLow = rightLow then .truth true else .binary .eq leftLow rightLow
      else
        .binary .eq left right
    | _, _ =>
      let difference := left.toSum.add (right.toSum.scale (2 ^ right.width - 1))
      match difference.nonzero with
      | [] => .truth (difference.constant == 0)
      | _ => .binary .eq left right

def mkUle (left right : Term) : Term :=
  if left = right then
    .truth true
  else
    match left.literal?, right.literal? with
    | some leftValue, some rightValue => .truth (leftValue ≤ rightValue)
    | some leftValue, none =>
      if leftValue = 0 then
        .truth true
      else if leftValue + 1 = 2 ^ left.width then
        mkEqLiteral right leftValue
      else
        .binary .ule left right
    | none, some rightValue =>
      if rightValue = 0 then
        mkEqLiteral left 0
      else if rightValue + 1 = 2 ^ left.width then
        .truth true
      else
        .binary .ule left right
    | none, none => .binary .ule left right

def mkSle (left right : Term) : Term :=
  if left = right then
    .truth true
  else
    match left.literal?, right.literal? with
    | some leftValue, some rightValue => .truth (signed left.width leftValue ≤ signed right.width rightValue)
    | _, _ => .binary .sle left right

def mkBoth : Term → Term → Term
  | truth true, right => right
  | truth false, _ => .truth false
  | left, truth true => left
  | _, truth false => .truth false
  | left, right => if left = right then left else .binary .both left right

def mkEither : Term → Term → Term
  | truth true, _ => .truth true
  | truth false, right => right
  | _, truth true => .truth true
  | left, truth false => left
  | left, right => if left = right then left else .binary .either left right

def mkChoice (test yes no : Term) : Term :=
  match test with
  | truth true => yes
  | truth false => no
  | unary .negation opposite => if yes = no then yes else .choice opposite no yes
  | test => if yes = no then yes else .choice test yes no

def mkAnd (left right : Term) : Term :=
  match left.literal?, right.literal? with
  | some leftValue, some rightValue => .literal left.width (leftValue &&& rightValue)
  | some mask, none => mkMask mask right
  | none, some mask => mkMask mask left
  | none, none => if left = right then left else .binary .and left right

def mkOr (left right : Term) : Term :=
  match left.literal?, right.literal? with
  | some leftValue, some rightValue => .literal left.width (leftValue ||| rightValue)
  | some 0, none => right
  | none, some 0 => left
  | _, _ => if left = right then left else .binary .or left right

def mkXor (left right : Term) : Term :=
  match left.literal?, right.literal? with
  | some leftValue, some rightValue => .literal left.width (leftValue ^^^ rightValue)
  | some 0, none => right
  | none, some 0 => left
  | _, _ => if left = right then .literal left.width 0 else .binary .xor left right

def mkMul (left right : Term) : Term :=
  match left.literal?, right.literal? with
  | some factor, _ => (right.toSum.scale factor).toTerm
  | none, some factor => (left.toSum.scale factor).toTerm
  | none, none => .binary .mul left right

def mkFolded (op : BinaryOp) (left right : Term) : Term :=
  match left.literal?, right.literal? with
  | some leftValue, some rightValue => .literal left.width (op.apply left.width right.width leftValue rightValue)
  | _, _ => .binary op left right

def mkConcat (left right : Term) : Term :=
  match left.literal?, right.literal? with
  | some leftValue, some rightValue => .literal (left.width + right.width) (leftValue * 2 ^ right.width + rightValue)
  | _, _ => .binary .concat left right

def mkBinary (op : BinaryOp) (left right : Term) : Term :=
  match op with
  | .add => (left.toSum.add right.toSum).toTerm
  | .sub => (left.toSum.add (right.toSum.scale (2 ^ right.width - 1))).toTerm
  | .mul => mkMul left right
  | .udiv => if right.literal? = some 1 then left else mkFolded .udiv left right
  | .urem => mkFolded .urem left right
  | .sdiv => if right.literal? = some 1 then left else mkFolded .sdiv left right
  | .smod => if right.literal? = some 0 then left else mkFolded .smod left right
  | .and => mkAnd left right
  | .or => mkOr left right
  | .xor => mkXor left right
  | .shiftLeft => if right.literal? = some 0 then left else mkFolded .shiftLeft left right
  | .shiftRight => if right.literal? = some 0 then left else mkFolded .shiftRight left right
  | .concat => mkConcat left right
  | .eq => mkEq left right
  | .ne => mkNot (mkEq left right)
  | .ult => mkNot (mkUle right left)
  | .ule => mkUle left right
  | .ugt => mkNot (mkUle left right)
  | .uge => mkUle right left
  | .slt => mkNot (mkSle right left)
  | .sle => mkSle left right
  | .sgt => mkNot (mkSle left right)
  | .sge => mkSle right left
  | .both => mkBoth left right
  | .either => mkEither left right

def mkUnary (op : UnaryOp) (operand : Term) : Term :=
  match op with
  | .complement =>
    match operand with
    | literal width value => .literal width (2 ^ width - 1 - value % 2 ^ width)
    | unary .complement inner => inner
    | operand => .unary .complement operand
  | .negate => (operand.toSum.scale (2 ^ operand.width - 1)).toTerm
  | .negation => mkNot operand
  | .extract high low => mkExtract high low operand
  | .zeroExtend extra => mkZeroExtend extra operand

def simplify : Term → Term
  | symbol name width => .symbol name width
  | literal width value => .literal width (value % 2 ^ width)
  | truth value => .truth value
  | unary op operand => mkUnary op operand.simplify
  | binary op left right => mkBinary op left.simplify right.simplify
  | choice test yes no => mkChoice test.simplify yes.simplify no.simplify

end Term

end MintAudit
