namespace MintAudit

/-!
# Exact double-precision numbers

A finite number is a sign, a whole significand below `2 ^ 53` and a power of two, so every operation is computed in
whole numbers and rounded once, to the nearest number and to the even significand on a tie.
-/

-- Powers are those of the core library, whatever else is imported.
attribute [local instance (high)] instPowNat

inductive Binary64 where
  | finite (negative : Bool) (significand : Nat) (exponent : Int)
  | infinite (negative : Bool)
  | notANumber
  deriving DecidableEq, Repr, Inhabited

namespace Binary64

def leastExponent : Int := -1074

def greatestExponent : Int := 971

def roundDivide (numerator denominator : Nat) : Nat :=
  let quotient := numerator / denominator
  let remainder := numerator % denominator
  if 2 * remainder < denominator then
    quotient
  else if denominator < 2 * remainder then
    quotient + 1
  else
    quotient + quotient % 2

def scaled (numerator denominator : Nat) (exponent : Int) : Nat :=
  roundDivide (numerator * 2 ^ (-exponent).toNat) (denominator * 2 ^ exponent.toNat)

def exponentFor (numerator denominator : Nat) : Int :=
  let guess : Int := (numerator.log2 : Int) - (denominator.log2 : Int) - 52
  let floored := (numerator * 2 ^ (-guess).toNat) / (denominator * 2 ^ guess.toNat)
  max leastExponent (if floored < 2 ^ (52 : Nat) then guess - 1 else guess)

/-- The double nearest to `numerator / denominator`; beyond the largest finite number, an infinity. -/
def nearest (negative : Bool) (numerator denominator : Nat) : Binary64 :=
  if numerator = 0 then
    .finite negative 0 leastExponent
  else
    let exponent := exponentFor numerator denominator
    let significand := scaled numerator denominator exponent
    let (significand, exponent) :=
      if significand = 2 ^ (53 : Nat) then (2 ^ (52 : Nat), exponent + 1) else (significand, exponent)
    if greatestExponent < exponent then
      .infinite negative
    else
      .finite negative significand exponent

def ofInt (value : Int) : Binary64 :=
  nearest (value < 0) value.natAbs 1

def ofQuotient (dividend divisor : Int) : Binary64 :=
  nearest ((dividend < 0) != (divisor < 0)) dividend.natAbs divisor.natAbs

def isFinite : Binary64 → Bool
  | .finite .. => true
  | _ => false

def negate : Binary64 → Binary64
  | .finite negative significand exponent => .finite (!negative) significand exponent
  | .infinite negative => .infinite (!negative)
  | .notANumber => .notANumber

def units (negative : Bool) (significand : Nat) (exponent unit : Int) : Int :=
  let size : Int := (significand * 2 ^ (exponent - unit).toNat : Nat)
  if negative then -size else size

def ofUnits (value unit : Int) (zeroNegative : Bool) : Binary64 :=
  if value = 0 then
    .finite zeroNegative 0 leastExponent
  else
    nearest (value < 0) (value.natAbs * 2 ^ unit.toNat) (2 ^ (-unit).toNat)

def add : Binary64 → Binary64 → Binary64
  | .notANumber, _ => .notANumber
  | _, .notANumber => .notANumber
  | .infinite left, .infinite right => if left = right then .infinite left else .notANumber
  | .infinite left, _ => .infinite left
  | _, .infinite right => .infinite right
  | .finite leftNegative leftSize leftExponent, .finite rightNegative rightSize rightExponent =>
    let unit := min leftExponent rightExponent
    ofUnits
      (units leftNegative leftSize leftExponent unit + units rightNegative rightSize rightExponent unit)
      unit (leftNegative && rightNegative)

def sub (left right : Binary64) : Binary64 :=
  add left right.negate

def mul : Binary64 → Binary64 → Binary64
  | .notANumber, _ => .notANumber
  | _, .notANumber => .notANumber
  | .infinite left, .infinite right => .infinite (left != right)
  | .infinite left, .finite right size _ => if size = 0 then .notANumber else .infinite (left != right)
  | .finite left size _, .infinite right => if size = 0 then .notANumber else .infinite (left != right)
  | .finite leftNegative leftSize leftExponent, .finite rightNegative rightSize rightExponent =>
    let exponent := leftExponent + rightExponent
    nearest (leftNegative != rightNegative) (leftSize * rightSize * 2 ^ exponent.toNat) (2 ^ (-exponent).toNat)

def div? : Binary64 → Binary64 → Option Binary64
  | .notANumber, .finite _ size _ => if size = 0 then none else some .notANumber
  | .notANumber, _ => some .notANumber
  | _, .notANumber => some .notANumber
  | .infinite _, .infinite _ => some .notANumber
  | .infinite left, .finite right size _ => if size = 0 then none else some (.infinite (left != right))
  | .finite left _ _, .infinite right => some (.finite (left != right) 0 leastExponent)
  | .finite leftNegative leftSize leftExponent, .finite rightNegative rightSize rightExponent =>
    if rightSize = 0 then
      none
    else
      let exponent := leftExponent - rightExponent
      some (nearest (leftNegative != rightNegative) (leftSize * 2 ^ exponent.toNat) (rightSize * 2 ^ (-exponent).toNat))

def mod? : Binary64 → Binary64 → Option Binary64
  | .notANumber, .finite _ size _ => if size = 0 then none else some .notANumber
  | .notANumber, _ => some .notANumber
  | _, .notANumber => some .notANumber
  | .infinite _, .finite _ size _ => if size = 0 then none else some .notANumber
  | .infinite _, .infinite _ => some .notANumber
  | .finite leftNegative leftSize leftExponent, .infinite rightNegative =>
    if leftSize = 0 then
      some (.finite rightNegative 0 leastExponent)
    else if leftNegative = rightNegative then
      some (.finite leftNegative leftSize leftExponent)
    else
      some (.infinite rightNegative)
  | .finite leftNegative leftSize leftExponent, .finite rightNegative rightSize rightExponent =>
    if rightSize = 0 then
      none
    else
      let unit := min leftExponent rightExponent
      let left := units leftNegative leftSize leftExponent unit
      let right := units rightNegative rightSize rightExponent unit
      let exact := Int.tmod left right
      if exact = 0 then
        some (.finite rightNegative 0 leastExponent)
      else if (exact < 0) = (right < 0) then
        some (ofUnits exact unit false)
      else
        some (add (ofUnits exact unit false) (ofUnits right unit false))

def compare? : Binary64 → Binary64 → Option Ordering
  | .notANumber, _ => none
  | _, .notANumber => none
  | .infinite left, .infinite right => some (compare (!left) (!right))
  | .infinite left, _ => some (if left then .lt else .gt)
  | _, .infinite right => some (if right then .gt else .lt)
  | .finite leftNegative leftSize leftExponent, .finite rightNegative rightSize rightExponent =>
    let unit := min leftExponent rightExponent
    some (compare
      (units leftNegative leftSize leftExponent unit)
      (units rightNegative rightSize rightExponent unit))

def compareInt? (left : Binary64) (right : Int) : Option Ordering :=
  match left with
  | .notANumber => none
  | .infinite negative => some (if negative then .lt else .gt)
  | .finite negative size exponent =>
    let unit := min exponent 0
    some (compare (units negative size exponent unit) (right * 2 ^ (-unit).toNat))

def truncate? : Binary64 → Option Int
  | .finite negative size exponent =>
    let whole : Int := (size * 2 ^ exponent.toNat / 2 ^ (-exponent).toNat : Nat)
    some (if negative then -whole else whole)
  | _ => none

def ceiling? : Binary64 → Option Int
  | .finite negative size exponent =>
    let value : Int := (size * 2 ^ exponent.toNat : Nat)
    some (-(Int.fdiv (if negative then value else -value) (2 ^ (-exponent).toNat)))
  | _ => none

def bits : Binary64 → Nat
  | .notANumber => 0x7ff8000000000000
  | .infinite negative => (if negative then 2 ^ (63 : Nat) else 0) + 0x7ff0000000000000
  | .finite negative size exponent =>
    (if negative then 2 ^ (63 : Nat) else 0) +
      (if size < 2 ^ (52 : Nat) then size else (exponent + 1075).toNat * 2 ^ (52 : Nat) + (size - 2 ^ (52 : Nat)))

def ofBits (word : Nat) : Binary64 :=
  let negative := decide (2 ^ (63 : Nat) ≤ word)
  let exponent : Nat := word / 2 ^ (52 : Nat) % 2 ^ (11 : Nat)
  let fraction := word % 2 ^ (52 : Nat)
  if exponent = 2047 then
    if fraction = 0 then .infinite negative else .notANumber
  else if exponent = 0 then
    .finite negative fraction leastExponent
  else
    .finite negative (2 ^ (52 : Nat) + fraction) ((exponent : Int) - 1075)

def powerOfTenAtMost (power : Int) (numerator denominator : Nat) : Bool :=
  decide (denominator * 10 ^ power.toNat ≤ numerator * 10 ^ (-power).toNat)

def decimalExponent (numerator denominator : Nat) : Int :=
  let guess := ((numerator.log2 : Int) - (denominator.log2 : Int)) * 30103 / 100000
  let candidates := [guess + 2, guess + 1, guess, guess - 1, guess - 2]
  (candidates.find? fun power => powerOfTenAtMost power numerator denominator).getD (guess - 3)

def readsBack (significand : Nat) (exponent : Int) (digits : Nat) (power : Int) : Bool :=
  nearest false (digits * 10 ^ power.toNat) (10 ^ (-power).toNat) == .finite false significand exponent

def decimal? (significand : Nat) (exponent leading : Int) (count : Nat) : Option (Nat × Int) :=
  let power := leading - (count : Int) + 1
  let numerator := significand * 2 ^ exponent.toNat * 10 ^ (-power).toNat
  let denominator := 2 ^ (-exponent).toNat * 10 ^ power.toNat
  let below := numerator / denominator
  let closest := roundDivide numerator denominator
  let other := if closest = below then below + 1 else below
  if readsBack significand exponent closest power then
    some (closest, power)
  else if readsBack significand exponent other power then
    some (other, power)
  else
    none

def shortest (significand : Nat) (exponent : Int) : Nat × Int :=
  let leading := decimalExponent (significand * 2 ^ exponent.toNat) (2 ^ (-exponent).toNat)
  let counts := (List.range 17).map (· + 1)
  (counts.findSome? (decimal? significand exponent leading)).getD (0, 0)

def positional (digits : List Char) (leading : Int) : List Char :=
  if leading < 0 then
    '0' :: '.' :: List.replicate (-leading - 1).toNat '0' ++ digits
  else
    let before := leading.toNat + 1
    let whole := digits.take before ++ List.replicate (before - digits.length) '0'
    let fraction := digits.drop before
    whole ++ '.' :: (if fraction.isEmpty then ['0'] else fraction)

def exponential (digits : List Char) (leading : Int) : List Char :=
  let fraction := digits.drop 1
  let exponentDigits := Nat.toDigits 10 leading.natAbs
  digits.take 1
    ++ (if fraction.isEmpty then [] else '.' :: fraction)
    ++ 'e' :: (if leading < 0 then '-' else '+')
    :: List.replicate (2 - exponentDigits.length) '0' ++ exponentDigits

def text : Binary64 → String
  | .notANumber => "nan"
  | .infinite negative => if negative then "-inf" else "inf"
  | .finite negative 0 _ => if negative then "-0.0" else "0.0"
  | .finite negative significand exponent =>
    let (decimal, power) := shortest significand exponent
    let written := Nat.toDigits 10 decimal
    let leading := power + (written.length : Int) - 1
    let digits := (written.reverse.dropWhile (· == '0')).reverse
    let size :=
      if -4 ≤ leading ∧ leading < 16 then positional digits leading else exponential digits leading
    String.ofList (if negative then '-' :: size else size)

def tenths (value : Binary64) : String :=
  match value with
  | .finite _ significand exponent =>
    let count := roundDivide (significand * 10 * 2 ^ exponent.toNat) (2 ^ (-exponent).toNat)
    toString (count / 10) ++ "." ++ toString (count % 10)
  | value => value.text

end Binary64

/-! ## Natural logarithms -/

namespace Binary64

def logarithmPlaces : Nat := 200

def oddSeries (square : Nat) : Nat → Nat → Nat → Nat
  | 0, _, _ => 0
  | count + 1, odd, power => power / odd + oddSeries square count (odd + 2) (power * square / 2 ^ logarithmPlaces)

def logarithmUnits (numerator denominator : Nat) : Nat :=
  let ratio := (numerator - denominator) * 2 ^ logarithmPlaces / (numerator + denominator)
  2 * oddSeries (ratio * ratio / 2 ^ logarithmPlaces) 70 1 ratio

def logarithmOfTwo : Nat :=
  logarithmUnits 2 1

def logarithm : Binary64 → Binary64
  | .finite _ significand exponent =>
    let top : Nat := significand.log2
    let units : Int := logarithmUnits significand (2 ^ top) + (exponent + (top : Int)) * (logarithmOfTwo : Int)
    ofUnits units (-(logarithmPlaces : Int)) false
  | other => other

/-- The logarithm of a positive whole number. Beyond the doubles it is put together from the logarithms of the leading
digits and of the power of two behind them. -/
def logarithmOfNat (value : Nat) : Binary64 :=
  match ofInt value with
  | .finite negative significand exponent => logarithm (.finite negative significand exponent)
  | _ =>
    let places : Nat := value.log2 + 1
    let leading := nearest false value (2 ^ places)
    add (logarithm leading) (mul (logarithm (ofInt 2)) (ofInt places))

def wholeLogarithm (base value : Nat) : Int :=
  match (logarithmOfNat value).div? (logarithmOfNat base) with
  | some quotient => quotient.truncate?.getD 0
  | none => 0

end Binary64

end MintAudit
