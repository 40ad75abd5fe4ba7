import MintAudit.Machine.State
import Std.Data.HashMap

namespace MintAudit

/-!
# Deciding conditions

A few assignments are tried first.
-/

/-! ## Satisfiability of clauses -/

namespace Clauses

def opposite (literal : Nat) : Nat :=
  if literal % 2 = 0 then literal + 1 else literal - 1

inductive Value where
  | free
  | true
  | false
  deriving DecidableEq, Repr, Inhabited

structure Search where
  clauses : Array (Array Nat)
  watches : Array (Array Nat)
  values : Array Value
  phases : Array Value
  levels : Array Nat
  reasons : Array Nat
  stamps : Array Nat
  trail : Array Nat
  limits : Array Nat
  head : Nat
  deriving Inhabited

def literalValue (values : Array Value) (literal : Nat) : Value :=
  match values.getD (literal / 2) .free with
  | .free => .free
  | .true => if literal % 2 = 0 then .true else .false
  | .false => if literal % 2 = 0 then .false else .true

def assign (literal reason : Nat) (search : Search) : Search :=
  let number := literal / 2
  let value := if literal % 2 = 0 then Value.true else Value.false
  { search with
    values := search.values.setIfInBounds number value
    levels := search.levels.setIfInBounds number search.limits.size
    reasons := search.reasons.setIfInBounds number reason
    trail := search.trail.push literal }

def replacement? (values : Array Value) (clause : Array Nat) : Option Nat :=
  (List.range (clause.size - 2)).findSome? fun offset =>
    if literalValue values (clause.getD (offset + 2) 0) = .false then none else some (offset + 2)

def visitWatches (failed : Nat) (kept : Array Nat) : List Nat → Search → Search × Option Nat
  | [], search => ({ search with watches := search.watches.setIfInBounds failed kept }, none)
  | number :: pending, search =>
    let clause := search.clauses.getD number #[]
    let first := clause.getD 0 0
    let second := clause.getD 1 0
    -- The failed literal is moved to the second place.
    let other := if first = failed then second else first
    if literalValue search.values other = .true then
      visitWatches failed (kept.push number) pending search
    else
      match replacement? search.values clause with
      | some index =>
        let chosen := clause.getD index 0
        let clause := ((clause.setIfInBounds 0 other).setIfInBounds 1 chosen).setIfInBounds index failed
        let search :=
          { search with
            clauses := search.clauses.setIfInBounds number clause
            watches := search.watches.modify chosen (·.push number) }
        visitWatches failed kept pending search
      | none =>
        let clause := (clause.setIfInBounds 0 other).setIfInBounds 1 failed
        let search := { search with clauses := search.clauses.setIfInBounds number clause }
        if literalValue search.values other = .false then
          let kept := (kept.push number) ++ pending.toArray
          ({ search with watches := search.watches.setIfInBounds failed kept }, some number)
        else
          visitWatches failed (kept.push number) pending (assign other (number + 1) search)

def propagate (search : Search) : Search × Option Nat := Id.run do
  let mut search := search
  for _ in [0:search.values.size + 1] do
    match search.trail[search.head]? with
    | none => return (search, none)
    | some literal =>
      let failed := opposite literal
      let watching := search.watches.getD failed #[]
      let (next, conflict) :=
        visitWatches failed #[] watching.toList
          { search with head := search.head + 1, watches := search.watches.setIfInBounds failed #[] }
      search := next
      if conflict.isSome then
        return (search, conflict)
  return (search, none)

def backjump (level : Nat) (search : Search) : Search := Id.run do
  let keep := search.limits.getD level search.trail.size
  let mut values := search.values
  let mut phases := search.phases
  for index in [keep:search.trail.size] do
    let literal := search.trail.getD index 0
    phases := phases.setIfInBounds (literal / 2) (values.getD (literal / 2) .free)
    values := values.setIfInBounds (literal / 2) .free
  return { search with
    values := values
    phases := phases
    trail := search.trail.extract 0 keep
    limits := search.limits.extract 0 level
    head := keep }

def learn (conflict : Nat) (search : Search) : Array Nat × Nat × Array Nat := Id.run do
  let current := search.limits.size
  let mut seen : Array Bool := Array.replicate search.values.size false
  let mut learned : Array Nat := #[]
  let mut touched : Array Nat := #[]
  let mut count := 0
  let mut clause := search.clauses.getD conflict #[]
  let mut position := search.trail.size
  let mut resolved : Option Nat := none
  for _ in [0:search.trail.size + 1] do
    for literal in clause do
      let number := literal / 2
      if resolved ≠ some literal && !seen.getD number true && search.levels.getD number 0 > 0 then
        seen := seen.setIfInBounds number true
        touched := touched.push number
        if search.levels.getD number 0 = current then
          count := count + 1
        else
          learned := learned.push literal
    -- The last literal of the trail that takes part is resolved next.
    let mut found : Option Nat := none
    for _ in [0:position] do
      if found.isNone then
        position := position - 1
        let literal := search.trail.getD position 0
        if seen.getD (literal / 2) false then
          found := some literal
      else
        break
    match found with
    | none => return (learned, 0, touched)
    | some literal =>
      seen := seen.setIfInBounds (literal / 2) false
      count := count - 1
      if count = 0 then
        let asserted := opposite literal
        let level := learned.foldl (fun level literal => max level (search.levels.getD (literal / 2) 0)) 0
        -- A literal of that level stands second, so that it is watched.
        let place := (learned.findIdx? fun literal => search.levels.getD (literal / 2) 0 = level).getD 0
        let ordered := learned.swapIfInBounds 0 place
        return (#[asserted] ++ ordered, level, touched)
      resolved := some literal
      clause := search.clauses.getD (search.reasons.getD (literal / 2) 1 - 1) #[]
  return (learned, 0, touched)

def addClause (clause : Array Nat) (search : Search) : Search :=
  let number := search.clauses.size
  { search with
    clauses := search.clauses.push clause
    watches :=
      (search.watches.modify (clause.getD 0 0) (·.push number)).modify (clause.getD 1 0) (·.push number) }

def decision? (search : Search) : Option Nat := Id.run do
  let mut best : Option Nat := none
  let mut stamp := 0
  for number in [0:search.values.size] do
    if search.values.getD number .true = .free then
      let current := search.stamps.getD number 0
      if best.isNone || stamp < current then
        best := some number
        stamp := current
  return best

inductive Answer where
  | model (values : Array Value)
  | none
  | open
  deriving Inhabited

def run (fuel : Nat) (search : Search) : Answer := Id.run do
  let mut search := search
  for round in [0:fuel] do
    let (next, conflict) := propagate search
    search := next
    match conflict with
    | some number =>
      if search.limits.isEmpty then
        return .none
      let (clause, level, touched) := learn number search
      let stamps := touched.foldl (fun stamps number => stamps.setIfInBounds number (round + 1)) search.stamps
      search := backjump level { search with stamps := stamps }
      match clause.toList with
      | [] => return .none
      | [literal] => search := assign literal 0 search
      | literal :: _ =>
        search := addClause clause search
        search := assign literal search.clauses.size search
    | none =>
      match decision? search with
      | none => return .model search.values
      | some number =>
        let literal := if search.phases.getD number .false = .true then 2 * number else 2 * number + 1
        search := assign literal 0 { search with limits := search.limits.push search.trail.size }
  return .open

def start? (count : Nat) (clauses : Array (Array Nat)) : Option Search := Id.run do
  let mut search : Search :=
    { clauses := #[]
      watches := Array.replicate (2 * count) #[]
      values := Array.replicate count .free
      phases := Array.replicate count .free
      levels := Array.replicate count 0
      reasons := Array.replicate count 0
      stamps := Array.replicate count 0
      trail := #[]
      limits := #[]
      head := 0 }
  for clause in clauses do
    if clause.size = 1 then
      let literal := clause.getD 0 0
      match literalValue search.values literal with
      | .true => pure ()
      | .false => return Option.none
      | .free => search := assign literal 0 search
    else
      search := addClause clause search
  return some search

def solve (fuel count : Nat) (clauses : Array (Array Nat)) : Answer :=
  match start? count clauses with
  | some search => run fuel search
  | none => .none

end Clauses

/-! ## Circuits -/

attribute [local instance (high)] instPowNat

namespace Circuit

abbrev Wire := Nat

def invert (wire : Wire) : Wire :=
  if wire % 2 = 0 then wire + 1 else wire - 1

def low : Wire := 0

def high : Wire := 1

inductive Gate where
  | constant
  | input
  | and (left right : Wire)
  | xor (left right : Wire)
  deriving DecidableEq, Repr, Inhabited

structure Board where
  gates : Array Gate := #[.constant]
  known : Std.HashMap (Bool × Nat × Nat) Nat := {}
  symbols : List ((String × Nat) × Nat) := []
  required : List Wire := []
  abstract : Bool := false

abbrev Build := StateM Board

abbrev Bits := Array Wire

def newInput : Build Wire := modifyGet fun board =>
  (2 * board.gates.size, { board with gates := board.gates.push .input })

def newWord (width : Nat) : Build Bits := do
  let mut bits := #[]
  for _ in [0:width] do
    bits := bits.push (← newInput)
  return bits

def gate (isXor : Bool) (left right : Wire) : Build Wire := modifyGet fun board =>
  let (first, second) := if left ≤ right then (left, right) else (right, left)
  match board.known[(isXor, first, second)]? with
  | some number => (2 * number, board)
  | none =>
    let number := board.gates.size
    let built := if isXor then Gate.xor first second else Gate.and first second
    (2 * number,
      { board with gates := board.gates.push built, known := board.known.insert (isXor, first, second) number })

def both (left right : Wire) : Build Wire :=
  if left = low || right = low then
    return low
  else if left = high then
    return right
  else if right = high || left = right then
    return left
  else if left = invert right then
    return low
  else
    gate false left right

def either (left right : Wire) : Build Wire :=
  return invert (← both (invert left) (invert right))

def differ (left right : Wire) : Build Wire :=
  if left = low then
    return right
  else if right = low then
    return left
  else if left = high then
    return invert right
  else if right = high then
    return invert left
  else if left = right then
    return low
  else if left = invert right then
    return high
  else do
    let wire ← gate true (left / 2 * 2) (right / 2 * 2)
    return if (left + right) % 2 = 0 then wire else invert wire

def select (test yes no : Wire) : Build Wire :=
  if yes = no then
    return yes
  else if test = high then
    return yes
  else if test = low then
    return no
  else do
    either (← both test yes) (← both (invert test) no)

def constantBits (width value : Nat) : Bits :=
  Array.ofFn fun (index : Fin width) => if value.testBit index.val then high else low

def bitAt (bits : Bits) (index : Nat) : Wire :=
  bits.getD index low

def zipBits (op : Wire → Wire → Build Wire) (left right : Bits) : Build Bits := do
  let mut result := #[]
  for index in [0:left.size] do
    result := result.push (← op (bitAt left index) (bitAt right index))
  return result

def addBits (left right : Bits) (carry : Wire) : Build Bits := do
  let mut result := #[]
  let mut carry := carry
  for index in [0:left.size] do
    let first := bitAt left index
    let second := bitAt right index
    let half ← differ first second
    result := result.push (← differ half carry)
    carry ← either (← both first second) (← both half carry)
  return result

def invertBits (bits : Bits) : Bits :=
  bits.map invert

def negateBits (bits : Bits) : Build Bits :=
  addBits (invertBits bits) (constantBits bits.size 0) high

def subBits (left right : Bits) : Build Bits :=
  addBits left (invertBits right) high

def selectBits (test : Wire) (yes no : Bits) : Build Bits :=
  zipBits (select test) yes no

def equalBits (left right : Bits) : Build Wire := do
  let mut equal := high
  for index in [0:left.size] do
    equal ← both equal (invert (← differ (bitAt left index) (bitAt right index)))
  return equal

def belowBits (left right : Bits) : Build Wire := do
  let mut below := low
  for index in [0:left.size] do
    let first := bitAt left index
    let second := bitAt right index
    below ← select (← differ first second) second below
  return below

def flipSign (bits : Bits) : Bits :=
  bits.modify (bits.size - 1) invert

def shiftBits (count : Nat) (bits : Bits) : Bits :=
  Array.ofFn fun (index : Fin bits.size) => if index.val < count then low else bitAt bits (index.val - count)

def scaleOnto (bits : Bits) (factor : Nat) : Build Bits := do
  let mut sum := constantBits bits.size 0
  for index in [0:bits.size] do
    if factor.testBit index then
      sum ← addBits sum (shiftBits index bits) low
  return sum

def ones (width factor : Nat) : Nat :=
  (List.range width).countP fun index => factor.testBit index

def scaleBits (bits : Bits) (factor : Nat) : Build Bits := do
  let width := bits.size
  let factor := factor % 2 ^ width
  if ones width factor * 2 ≤ width then
    scaleOnto bits factor
  else
    negateBits (← scaleOnto bits (2 ^ width - factor))

def widen (width : Nat) (bits : Bits) : Bits :=
  bits ++ constantBits (width - bits.size) 0

def require (wire : Wire) : Build Unit :=
  modify fun board => { board with required := wire :: board.required }

def divideBits (bits : Bits) (divisor : Nat) : Build (Bits × Bits) := do
  let width := bits.size
  if divisor = 2 ^ divisor.log2 then
    let count := divisor.log2
    let quotient := Array.ofFn fun (index : Fin width) => bitAt bits (index.val + count)
    let remainder := Array.ofFn fun (index : Fin width) => if index.val < count then bitAt bits index.val else low
    return (quotient, remainder)
  else
    let wide := width + divisor.log2 + 1
    let quotient ← newWord width
    let remainder := widen width (← newWord (min width (divisor.log2 + 1)))
    let product ← scaleOnto (widen wide quotient) divisor
    let total ← addBits product (widen wide remainder) low
    require (← equalBits total (widen wide bits))
    require (← belowBits remainder (constantBits width divisor))
    return (quotient, remainder)

def sizeBits (bits : Bits) : Build Bits := do
  selectBits (bitAt bits (bits.size - 1)) (← negateBits bits) bits

def signedDivideBits (bits : Bits) (divisor : Nat) : Build Bits := do
  let width := bits.size
  let negativeDivisor := decide (signed width divisor < 0)
  let (quotient, _) ← divideBits (← sizeBits bits) (signed width divisor).natAbs
  let negative ← differ (bitAt bits (width - 1)) (if negativeDivisor then high else low)
  selectBits negative (← negateBits quotient) quotient

def signedModuloBits (bits : Bits) (divisor : Nat) : Build Bits := do
  let width := bits.size
  let size := (signed width divisor).natAbs
  let negativeDivisor := decide (signed width divisor < 0)
  let (_, remainder) ← divideBits (← sizeBits bits) size
  let isZero ← equalBits remainder (constantBits width 0)
  let negative := bitAt bits (width - 1)
  -- The remainder of the sizes takes the sign of the dividend and is then moved to the sign of the divisor.
  let signedRemainder ← selectBits negative (← negateBits remainder) remainder
  let moved ← addBits signedRemainder (constantBits width divisor) low
  let sameSign ← if negativeDivisor then pure negative else pure (invert negative)
  selectBits (← either isZero sameSign) signedRemainder moved

def shiftByWord (toLeft : Bool) (fill : Wire) (bits count : Bits) : Build Bits := do
  let width := bits.size
  let mut result := bits
  let mut overflow := low
  for stage in [0:count.size] do
    let test := bitAt count stage
    if 2 ^ stage < width then
      let distance : Nat := 2 ^ stage
      let current := result
      let moved := Array.ofFn fun (index : Fin width) =>
        if toLeft then
          (if index.val < distance then fill else bitAt current (index.val - distance))
        else if index.val + distance < width then
          bitAt current (index.val + distance)
        else
          fill
      result ← selectBits test moved current
    else
      overflow ← either overflow test
  selectBits overflow (Array.replicate width fill) result

def unknownBits (width : Nat) : Build Bits := do
  modify fun board => { board with abstract := true }
  newWord width

def symbolBits (name : String) (width : Nat) : Build Bits := do
  match (← get).symbols.lookup (name, width) with
  | some first => return Array.ofFn fun (index : Fin width) => first + 2 * index.val
  | none =>
    let first := 2 * (← get).gates.size
    let bits ← newWord width
    modify fun board => { board with symbols := ((name, width), first) :: board.symbols }
    return bits

def binaryBits (op : BinaryOp) (left right : Bits) (literalLeft literalRight : Option Nat) : Build Bits := do
  let width := left.size
  match op with
  | .add => addBits left right low
  | .sub => subBits left right
  | .mul =>
    match literalLeft, literalRight with
    | some factor, _ => scaleBits right factor
    | none, some factor => scaleBits left factor
    | none, none => unknownBits width
  | .udiv =>
    match literalRight with
    | some 0 => return constantBits width (2 ^ width - 1)
    | some divisor => return (← divideBits left divisor).1
    | none => unknownBits width
  | .urem =>
    match literalRight with
    | some 0 => return left
    | some divisor => return (← divideBits left divisor).2
    | none => unknownBits width
  | .sdiv =>
    match literalRight with
    | some 0 => selectBits (bitAt left (width - 1)) (constantBits width 1) (constantBits width (2 ^ width - 1))
    | some divisor => signedDivideBits left divisor
    | none => unknownBits width
  | .smod =>
    match literalRight with
    | some 0 => return left
    | some divisor => signedModuloBits left divisor
    | none => unknownBits width
  | .and => zipBits both left right
  | .or => zipBits either left right
  | .xor => zipBits differ left right
  | .shiftLeft => shiftByWord true low left right
  | .shiftRight => shiftByWord false (bitAt left (width - 1)) left right
  | .concat => return right ++ left
  | .eq => return #[← equalBits left right]
  | .ne => return #[invert (← equalBits left right)]
  | .ult => return #[← belowBits left right]
  | .ule => return #[invert (← belowBits right left)]
  | .ugt => return #[← belowBits right left]
  | .uge => return #[invert (← belowBits left right)]
  | .slt => return #[← belowBits (flipSign left) (flipSign right)]
  | .sle => return #[invert (← belowBits (flipSign right) (flipSign left))]
  | .sgt => return #[← belowBits (flipSign right) (flipSign left)]
  | .sge => return #[invert (← belowBits (flipSign left) (flipSign right))]
  | .both => return #[← both (bitAt left 0) (bitAt right 0)]
  | .either => return #[← either (bitAt left 0) (bitAt right 0)]

def ofTerm : Term → Build Bits
  | .symbol name width => symbolBits name width
  | .literal width value => return constantBits width (value % 2 ^ width)
  | .truth value => return #[if value then high else low]
  | .unary op operand => do
      let bits ← ofTerm operand
      match op with
      | .complement => return invertBits bits
      | .negate => negateBits bits
      | .negation => return #[invert (bitAt bits 0)]
      | .extract last first => return bits.extract first (last + 1)
      | .zeroExtend extra => return widen (bits.size + extra) bits
  | .binary op left right => do
      let leftBits ← ofTerm left
      let rightBits ← ofTerm right
      binaryBits op leftBits rightBits left.literal? right.literal?
  | .choice test yes no => do
      let testBits ← ofTerm test
      let yesBits ← ofTerm yes
      let noBits ← ofTerm no
      selectBits (bitAt testBits 0) yesBits noBits

def requireAll (conditions : List Term) : Build Unit :=
  conditions.forM fun condition => do
    require (bitAt (← ofTerm condition) 0)

def clauses (board : Board) : Array (Array Wire) := Id.run do
  let mut clauses := #[#[high]]
  for number in [0:board.gates.size] do
    let wire := 2 * number
    match board.gates.getD number .input with
    | .and left right =>
      clauses := clauses.push #[invert wire, left]
      clauses := clauses.push #[invert wire, right]
      clauses := clauses.push #[wire, invert left, invert right]
    | .xor left right =>
      clauses := clauses.push #[invert wire, left, right]
      clauses := clauses.push #[invert wire, invert left, invert right]
      clauses := clauses.push #[wire, invert left, right]
      clauses := clauses.push #[wire, left, invert right]
    | _ => pure ()
  for wire in board.required do
    clauses := clauses.push #[wire]
  return clauses

end Circuit

namespace Decide

def holdsAll (assignment : Assignment) (conditions : List Term) : Bool :=
  conditions.all fun condition => decide (condition.Holds assignment)

def conjuncts (fuel : Nat) : List Term → List Term
  | [] => []
  | condition :: rest =>
    match condition with
    | .truth true => conjuncts fuel rest
    | .binary .both left right =>
      match fuel with
      | 0 => condition :: conjuncts 0 rest
      | fuel + 1 => conjuncts fuel [left, right] ++ conjuncts (fuel + 1) rest
    | condition => condition :: conjuncts fuel rest

def contradicts (conditions : List Term) : Bool :=
  conditions.any fun condition =>
    condition == .truth false || conditions.contains (.unary .negation condition)

def literals : Term → List Nat
  | .symbol .. => []
  | .literal width value => [value % 2 ^ width]
  | .truth _ => []
  | .unary _ operand => literals operand
  | .binary _ left right => literals left ++ literals right
  | .choice test yes no => literals test ++ literals yes ++ literals no

def uniform (value : Nat) : Assignment := fun _ _ => value

def spreadOut (symbols : List (String × Nat)) (first stride : Nat) : Assignment := fun name width =>
  match symbols.findIdx? (· == (name, width)) with
  | some index => first + stride * index
  | none => first

/-- Assignments worth trying: constants of the conditions and their neighbours, for all symbols at once or spread. -/
def guesses (conditions : List Term) : List Assignment :=
  let symbols := (conditions.foldl (fun seen condition => condition.symbolsOnto seen) [])
  let constants := ((conditions.flatMap literals).eraseDups).take 12
  let values := [0, 1, 2, 2 ^ (255 : Nat) - 1, 2 ^ (159 : Nat)] ++ constants.flatMap fun value => [value, value + 1, value - 1]
  values.map uniform ++ [spreadOut symbols 1 1, spreadOut symbols 64 1000, spreadOut symbols 3 0x1000000001]

def wordIn (values : Array Clauses.Value) (first width : Nat) : Nat :=
  (List.range width).foldl
    (fun word index => if values.getD (first / 2 + index) .free = .true then word + 2 ^ index else word) 0

def assignmentOf (symbols : List ((String × Nat) × Nat)) (values : Array Clauses.Value) : Assignment :=
  let words := symbols.map fun entry => (entry.1, wordIn values entry.2 entry.1.2)
  fun name width => (words.lookup (name, width)).getD 0

def rounds : Nat := 200000

def byClauses (conditions : List Term) : Verdict :=
  let board := ((Circuit.requireAll conditions).run {}).2
  match Clauses.solve rounds board.gates.size (Circuit.clauses board) with
  | .none => .unsatisfiable
  | .model values => if holdsAll (assignmentOf board.symbols values) conditions then .satisfiable else .undecided
  | .open => .undecided

def verdict : Decider := fun conditions =>
  let simplified := conjuncts 64 (conditions.map Term.simplify)
  if contradicts simplified then
    .unsatisfiable
  else if (guesses simplified).any fun assignment => holdsAll assignment conditions then
    .satisfiable
  else
    byClauses simplified

def answer : Decider := fun conditions =>
  match verdict conditions with
  | .unsatisfiable => .unsatisfiable
  | _ => .satisfiable

end Decide

end MintAudit
