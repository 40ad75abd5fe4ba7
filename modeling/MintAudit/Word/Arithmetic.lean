import MintAudit.Json.Basic
import MintAudit.Term.Simplify

namespace MintAudit

/-!
# Machine words

Two whole numbers give a whole number, a double draws a whole number to the doubles, and a term draws numbers to
constants of its width, doubles without their fraction.
-/

/-! ## Machine words -/

-- Powers are those of the core library, whatever else is imported.
attribute [local instance (high)] instPowNat

inductive Word where
  | absent
  | integer (value : Int)
  | truth (value : Bool)
  | real (value : Binary64)
  | narrow (value : Int)
  | term (value : Term)
  | text (value : String)
  deriving DecidableEq, Repr, Inhabited

/-- The outcome of a comparison: known, known as the result of a 64-bit comparison, or a condition. -/
inductive Flag where
  | known (value : Bool)
  | narrow (value : Bool)
  | condition (value : Term)
  deriving DecidableEq, Repr, Inhabited

namespace Word

def size : Nat := 256

def bound : Int := 2 ^ (256 : Nat)

def allOnes : Int := 2 ^ (256 : Nat) - 1

def symbol (name : String) : Word :=
  .term (.symbol name size)

def constant (value : Int) : Word :=
  .term (Term.ofInt size value)

def concrete? : Word → Option Int
  | integer value => some value
  | truth value => some (if value then 1 else 0)
  | _ => none

def isConcrete (word : Word) : Bool :=
  word.concrete?.isSome

def symbolic (word : Word) : Word :=
  match word.concrete? with
  | some value => constant value
  | none => word

def term? : Word → Option Term
  | term value => some value
  | _ => none

def render : Word → String
  | absent => "None"
  | integer value => toString value
  | truth value => if value then "True" else "False"
  | real value => value.text
  | narrow value => toString value
  | term value => value.text
  | text value => value

end Word

/-! ## Keys -/

inductive Key where
  | number (value : Int)
  | label (text : String)
  deriving DecidableEq, Repr, Inhabited

def Key.ofWord (word : Word) : Key :=
  match word.concrete? with
  | some value => .number value
  | none => .label word.render

/-! ## Written words -/

namespace Word

def operations : Table String BinaryOp :=
  [("add", .add), ("sub", .sub), ("mul", .mul), ("and", .and), ("or", .or), ("xor", .xor), ("udiv", .udiv),
    ("urem", .urem), ("eq", .eq), ("ne", .ne), ("ult", .ult), ("ugt", .ugt), ("slt", .slt), ("sgt", .sgt),
    ("sge", .sge), ("land", .both), ("lor", .either)]

def operand : Word → Except Fault Term
  | term value => .ok value
  | truth value => .ok (.truth value)
  | word =>
    match word.concrete? with
    | some value => .ok (Term.ofInt size value)
    | none => .error .illSorted

def compound (operation : String) (arguments : List Word) : Except Fault Term := do
  match operation, arguments with
  | "extract", [.integer high, .integer low, word] => return .unary (.extract high.toNat low.toNat) (← word.operand)
  | "simplify", [word] => return (← word.operand).simplify
  | _, _ =>
    match operation, ← arguments.mapM operand with
    | "not", [inner] => return .unary .negation inner
    | "bit", [test] => return .choice test (.literal size 1) (.literal size 0)
    | "if", [test, yes, no] => return .choice test yes no
    | _, [left, right] =>
      match Table.get? operation operations with
      | some op => return .binary op left right
      | none => throw .missingKey
    | _, _ => throw .missingKey

def read : Nat → Json → Except Fault Word
  | 0, _ => .error .wrongKind
  | depth + 1, value =>
    match value with
    | .null => .ok .absent
    | .bool value => .ok (.truth value)
    | .integer value => .ok (.integer value)
    | .real value => .ok (.real value)
    | .string value => .ok (.text value)
    | .object [("int", .string digits)] => .ok (.integer ((Numeral.read? 10 digits).getD 0))
    | .object [("float", .string digits)] => .ok (.real (Binary64.ofBits ((Numeral.read? 16 digits).getD 0).toNat))
    | .object [("var", .string name)] => .ok (symbol name)
    | .object [("const", .string digits)] => .ok (constant ((Numeral.read? 10 digits).getD 0))
    | .object [("e", .array (.string operation :: arguments))] => do
        return .term (← compound operation (← arguments.mapM (read depth)))
    | .object [("e", _)] => .error .missingKey
    | _ => .error .wrongKind

def ofJson (value : Json) : Except Fault Word :=
  read value.depth value

def listOfJson (values : List Json) : Except Fault (List Word) :=
  values.mapM ofJson

def ofMember (value : Json) (name : String) : Except Fault Word :=
  match value.given? name with
  | some found => ofJson found
  | none => .ok .absent

end Word

def Term.ofJson (value : Json) : Except Fault Term := do
  (← Word.ofJson value).operand

def Key.ofJson (value : Json) : Except Fault Key := do
  match ← Word.ofJson value with
  | .text text => return .label text
  | word => return Key.ofWord word

def Word.tableOf (entries : List (Json × Json)) : Except Fault (List (Key × Word)) :=
  entries.mapM fun entry => do return (← Key.ofJson entry.1, ← Word.ofJson entry.2)

/-! ## Renaming symbols -/

def Term.rename (old new : String) : Term → Term
  | symbol name width => if name = old ∧ width = Word.size then symbol new width else symbol name width
  | literal width value => literal width value
  | truth value => truth value
  | unary op operand => unary op (rename old new operand)
  | binary op left right => binary op (rename old new left) (rename old new right)
  | choice test yes no => choice (rename old new test) (rename old new yes) (rename old new no)

namespace Renaming

def isStorage (name : String) : Bool :=
  Text.startsWith name "Ia_store"

def field (index : Nat) (name : String) : Except Fault String :=
  match (Text.splitOnChar '-' name)[index]? with
  | some found => .ok found
  | none => .error .outOfRange

def storagePosition (name : String) : Except Fault Key := do
  let written ← field 1 name
  match Numeral.read? 10 written with
  | some position => return .number position
  | none => return .label written

def storageVariable (name : String) : Except Fault String :=
  field 2 name

def lastPosition (name : String) : Except Fault Key :=
  match Numeral.read? 10 ((Text.splitOnChar '_' name).getLast?.getD "") with
  | some position => .ok (.number position)
  | none => .error .wrongValue

abbrev Names := Table String String

def positionInCondition (name : String) : Except Fault (Option Key) :=
  if isStorage name then some <$> storagePosition name else .ok none

def positionInStorage (name : String) : Except Fault (Option Key) :=
  if Text.startsWith name "Ia_store_" then some <$> lastPosition name else .ok none

def renameSymbol (positionOf : String → Except Fault (Option Key)) (written : List Key) (state : Term × Names)
    (name : String) : Except Fault (Term × Names) := do
  match Table.get? name state.2 with
  | some new => return (state.1.rename name new, state.2)
  | none =>
    match ← positionOf name with
    | some position =>
      if !written.contains position then
        return state
    | none => pure ()
    let new := name ++ "_old"
    return (state.1.rename name new, Table.put name new state.2)

def renameWord (positionOf : String → Except Fault (Option Key)) (written : List Key) (names : Names) (word : Word) :
    Except Fault (Word × Names) :=
  match word with
  | .term value => do
      let (value, names) ← value.names.foldlM (renameSymbol positionOf written) (value, names)
      return (.term value, names)
  | word => .ok (word, names)

def renameWords (positionOf : String → Except Fault (Option Key)) (written : List Key) :
    Names → List Word → Except Fault (List Word × Names)
  | names, [] => .ok ([], names)
  | names, word :: rest => do
      let (word, names) ← renameWord positionOf written names word
      let (rest, names) ← renameWords positionOf written names rest
      return (word :: rest, names)

def renamePath (conditions : List Word) (storage : Table Key Word) : Except Fault (List Word × Table Key Word) := do
  let written := Table.keys storage
  let (conditions, names) ← renameWords positionInCondition written [] conditions
  let (words, _) ← renameWords positionInStorage written names (Table.values storage)
  return (conditions, written.zip words)

end Renaming

/-! ## Bitwise operations on whole numbers -/

def Bitwise.complement (value : Int) : Int :=
  -1 - value

def Bitwise.and : Int → Int → Int
  | .ofNat left, .ofNat right => .ofNat (left &&& right)
  | .ofNat left, .negSucc right => .ofNat (left - (left &&& right))
  | .negSucc left, .ofNat right => .ofNat (right - (right &&& left))
  | .negSucc left, .negSucc right => .negSucc (left ||| right)

def Bitwise.or : Int → Int → Int
  | .ofNat left, .ofNat right => .ofNat (left ||| right)
  | .ofNat left, .negSucc right => .negSucc (right - (right &&& left))
  | .negSucc left, .ofNat right => .negSucc (left - (left &&& right))
  | .negSucc left, .negSucc right => .negSucc (left &&& right)

def Bitwise.xor : Int → Int → Int
  | .ofNat left, .ofNat right => .ofNat (left ^^^ right)
  | .ofNat left, .negSucc right => .negSucc (left ^^^ right)
  | .negSucc left, .ofNat right => .negSucc (left ^^^ right)
  | .negSucc left, .negSucc right => .ofNat (left ^^^ right)

/-! ## Arithmetic on words of mixed kinds -/

namespace Word

def fitsNarrow (value : Int) : Bool :=
  decide (-(2 ^ (63 : Nat)) ≤ value ∧ value < 2 ^ (63 : Nat))

def wrapNarrow (value : Int) : Int :=
  Int.bmod value (2 ^ (64 : Nat))

def truncated (value : Binary64) : Except Fault Int :=
  match value with
  | .infinite _ => .error .overflow
  | .notANumber => .error .wrongValue
  | value =>
    match value.truncate? with
    | some whole => .ok whole
    | none => .error .wrongValue

def coerce (width : Nat) : Word → Except Fault Term
  | term value => if value.kind = .bits width then .ok value else .error .illSorted
  | integer value => .ok (Term.ofInt width value)
  | truth value => .ok (Term.ofInt width (if value then 1 else 0))
  | real value => (truncated value).map (Term.ofInt width)
  | _ => .error .illSorted

def realOf (value : Int) : Except Fault Binary64 :=
  let nearest := Binary64.ofInt value
  if nearest.isFinite then .ok nearest else .error .overflow

inductive Operation where
  | add | sub | mul | and | or | xor
  deriving DecidableEq, Repr

namespace Operation

def onTerms : Operation → BinaryOp
  | add => .add
  | sub => .sub
  | mul => .mul
  | and => .and
  | or => .or
  | xor => .xor

def onIntegers : Operation → Int → Int → Int
  | add => (· + ·)
  | sub => (· - ·)
  | mul => (· * ·)
  | and => Bitwise.and
  | or => Bitwise.or
  | xor => Bitwise.xor

def onReals : Operation → Option (Binary64 → Binary64 → Binary64)
  | add => some Binary64.add
  | sub => some Binary64.sub
  | mul => some Binary64.mul
  | _ => none

def onTruths : Operation → Option (Bool → Bool → Bool)
  | and => some Bool.and
  | or => some Bool.or
  | xor => some Bool.xor
  | _ => none

end Operation

def operateReals (op : Operation) (left right : Binary64) : Except Fault Word :=
  match op.onReals with
  | some compute => .ok (.real (compute left right))
  | none => .error .wrongKind

def operateNarrow (op : Operation) (left right : Int) : Except Fault Word :=
  if fitsNarrow left && fitsNarrow right then
    .ok (.narrow (wrapNarrow (op.onIntegers left right)))
  else
    .error .overflow

def operateTerm (op : Operation) (left : Term) (right : Word) : Except Fault Word :=
  match left.kind with
  | .condition => .error .wrongKind
  | .bits width => do
      let operand ← right.coerce width
      return .term (.binary op.onTerms left operand)

def operateBeforeTerm (op : Operation) (left : Word) (right : Term) : Except Fault Word :=
  match right.kind with
  | .condition => .error .wrongKind
  | .bits width => do
      let left : Word := match left with
        | .narrow value => .integer value
        | other => other
      let operand ← left.coerce width
      return .term (.binary op.onTerms operand right)

def operate (op : Operation) : Word → Word → Except Fault Word
  | term left, right => operateTerm op left right
  | left, term right => operateBeforeTerm op left right
  | truth left, truth right =>
    match op.onTruths with
    | some compute => .ok (.truth (compute left right))
    | none => .ok (.integer (op.onIntegers (if left then 1 else 0) (if right then 1 else 0)))
  | real left, real right => operateReals op left right
  | real left, narrow right => do operateReals op left (← realOf right)
  | narrow left, real right => do operateReals op (← realOf left) right
  | narrow left, narrow right => operateNarrow op left right
  | left, right =>
    match left, left.concrete?, right, right.concrete? with
    | _, some leftValue, _, some rightValue => .ok (.integer (op.onIntegers leftValue rightValue))
    | real left, _, _, some rightValue => do operateReals op left (← realOf rightValue)
    | _, some leftValue, real right, _ => do operateReals op (← realOf leftValue) right
    | narrow left, _, _, some rightValue => operateNarrow op left rightValue
    | _, some leftValue, narrow right, _ => operateNarrow op leftValue right
    | _, _, _, _ => .error .wrongKind

def add (left right : Word) : Except Fault Word := operate .add left right

def sub (left right : Word) : Except Fault Word := operate .sub left right

def mul (left right : Word) : Except Fault Word := operate .mul left right

def and (left right : Word) : Except Fault Word := operate .and left right

def or (left right : Word) : Except Fault Word := operate .or left right

def xor (left right : Word) : Except Fault Word := operate .xor left right

def complement : Word → Except Fault Word
  | integer value => .ok (.integer (Bitwise.complement value))
  | truth value => .ok (.integer (Bitwise.complement (if value then 1 else 0)))
  | narrow value => .ok (.narrow (Bitwise.complement value))
  | term value =>
    match value.kind with
    | .bits _ => .ok (.term (.unary .complement value))
    | .condition => .error .wrongKind
  | _ => .error .wrongKind

def modulo (modulus : Int) : Word → Except Fault Word
  | integer value => .ok (.integer (Int.fmod value modulus))
  | truth value => .ok (.integer (Int.fmod (if value then 1 else 0) modulus))
  | real value => do
      match value.mod? (← realOf modulus) with
      | some remainder => return .real remainder
      | none => throw .divisionByZero
  | narrow value => if fitsNarrow modulus then .ok (.narrow (Int.fmod value modulus)) else .error .overflow
  | term value =>
    match value.kind with
    | .bits width => .ok (.term (.binary .smod value (Term.ofInt width modulus)))
    | .condition => .error .wrongKind
  | _ => .error .wrongKind

def quotient (dividend divisor : Int) : Except Fault Binary64 :=
  if divisor = 0 then
    .error .divisionByZero
  else
    let value := Binary64.ofQuotient dividend divisor
    if value.isFinite then .ok value else .error .overflow

def divide (divisor : Int) : Word → Except Fault Word
  | integer value => (quotient value divisor).map .real
  | truth value => (quotient (if value then 1 else 0) divisor).map .real
  | narrow value => (quotient value divisor).map .real
  | real value => do
      match value.div? (← realOf divisor) with
      | some result => return .real result
      | none => throw .divisionByZero
  | term value =>
    match value.kind with
    | .bits width => .ok (.term (.binary .sdiv value (Term.ofInt width divisor)))
    | .condition => .error .wrongKind
  | _ => .error .wrongKind

def shiftLeft (value : Int) : Word → Except Fault Word
  | integer count => if count < 0 then .error .wrongValue else .ok (.integer (value * 2 ^ count.toNat))
  | truth count => .ok (.integer (value * 2 ^ (if count then 1 else 0 : Nat)))
  | narrow count => operateNarrow .mul value (2 ^ count.toNat)
  | term count =>
    match count.kind with
    | .bits width => .ok (.term (.binary .shiftLeft (Term.ofInt width value) count))
    | .condition => .error .wrongKind
  | _ => .error .wrongKind

def shiftRight (word count : Word) : Except Fault Word :=
  match word, word.concrete?, count, count.concrete? with
  | term value, _, count, _ =>
    match value.kind with
    | .bits width => do return .term (.binary .shiftRight value (← count.coerce width))
    | .condition => .error .wrongKind
  | _, some value, _, some count =>
    if count < 0 then .error .wrongValue else .ok (.integer (Int.fdiv value (2 ^ count.toNat)))
  | word, some _, term count, _ =>
    match count.kind with
    | .bits width => do return .term (.binary .shiftRight (← word.coerce width) count)
    | .condition => .error .wrongKind
  | _, _, _, _ => .error .wrongKind

def simplified : Word → Word
  | term value => .term value.simplify
  | word => word

end Word

/-! ## Comparing words -/

namespace Word

inductive Relation where
  | less | atMost | greater | atLeast
  deriving DecidableEq, Repr

namespace Relation

def onTerms : Relation → BinaryOp
  | less => .slt
  | atMost => .sle
  | greater => .sgt
  | atLeast => .sge

def flipped : Relation → Relation
  | less => greater
  | atMost => atLeast
  | greater => less
  | atLeast => atMost

def admits : Relation → Ordering → Bool
  | less, .lt => true
  | atMost, .lt => true
  | atMost, .eq => true
  | greater, .gt => true
  | atLeast, .gt => true
  | atLeast, .eq => true
  | _, _ => false

def admits? (relation : Relation) (order : Option Ordering) : Bool :=
  match order with
  | some order => relation.admits order
  | none => false

end Relation

def numericOrder? : Word → Word → Option (Option Ordering)
  | real left, real right => some (left.compare? right)
  | real left, right =>
    match right with
    | narrow value => some (left.compareInt? value)
    | other => other.concrete?.map left.compareInt?
  | left, real right =>
    let reversed (value : Int) := (right.compareInt? value).map Ordering.swap
    match left with
    | narrow value => some (reversed value)
    | other => other.concrete?.map reversed
  | left, right =>
    let value? (word : Word) : Option Int := match word with
      | narrow value => some value
      | other => other.concrete?
    match value? left, value? right with
    | some leftValue, some rightValue => some (some (compare leftValue rightValue))
    | _, _ => none

def involvesNarrow : Word → Word → Bool
  | narrow _, _ => true
  | _, narrow _ => true
  | _, _ => false

def outcome (left right : Word) (value : Bool) : Flag :=
  if involvesNarrow left right then .narrow value else .known value

def relate (relation : Relation) (left right : Word) : Except Fault Flag :=
  match left, right with
  | term leftTerm, right =>
    match leftTerm.kind with
    | .condition => .error .wrongKind
    | .bits width => do
        return .condition (.binary relation.onTerms leftTerm (← right.coerce width))
  | left, term rightTerm =>
    match rightTerm.kind with
    | .condition => .error .wrongKind
    | .bits width => do
        return .condition (.binary relation.flipped.onTerms rightTerm (← left.coerce width))
  | left, right =>
    match numericOrder? left right with
    | some order => .ok (outcome left right (relation.admits? order))
    | none =>
      match left, right with
      | text leftText, text rightText => .ok (.known (relation.admits (compare leftText rightText)))
      | _, _ => .error .wrongKind

def coerceCondition : Word → Except Fault Term
  | truth value => .ok (.truth value)
  | term value => if value.kind = .condition then .ok value else .error .illSorted
  | _ => .error .illSorted

def equateTerm (op : BinaryOp) (left : Term) (right : Word) : Except Fault Term :=
  match left.kind with
  | .condition => do return .binary op left (← right.coerceCondition)
  | .bits width => do return .binary op left (← right.coerce width)

def equate (op : BinaryOp) (left right : Word) : Except Fault Flag :=
  let plain (equal : Bool) : Bool := if op = .eq then equal else !equal
  match left, right with
  | absent, absent => .ok (.known (plain true))
  | absent, _ => .ok (.known (plain false))
  | _, absent => .ok (.known (plain false))
  | term leftTerm, right => do return .condition (← equateTerm op leftTerm right)
  | left, term rightTerm => do return .condition (← equateTerm op rightTerm left)
  | left, right =>
    match numericOrder? left right with
    | some order => .ok (outcome left right (plain (order == some .eq)))
    | none => .ok (.known (plain (left == right)))

def equal (left right : Word) : Except Fault Flag :=
  equate .eq left right

def differ (left right : Word) : Except Fault Flag :=
  equate .ne left right

end Word

def Flag.toTerm : Flag → Except Fault Term
  | known value => .ok (.truth value)
  | condition value => .ok value
  | narrow _ => .error .illSorted

/-- The flag as a truth value: an equation holds when both sides are the same term. -/
def Flag.decided : Flag → Except Fault Bool
  | known value => .ok value
  | narrow value => .ok value
  | condition (.truth value) => .ok value
  | condition (.binary .eq left right) => .ok (left == right)
  | condition _ => .error .illSorted

def Flag.toWord : Flag → Word
  | known value => .truth value
  | narrow value => .narrow (if value then 1 else 0)
  | condition value => .term value

def Flag.opposite (flag : Flag) : Except Fault Term := do
  return .unary .negation (← flag.toTerm)

def Flag.bit (flag : Flag) : Except Fault Word := do
  return .term (.choice (← flag.toTerm) (.literal Word.size 1) (.literal Word.size 0))

def Word.same (left right : Word) : Except Fault Bool := do
  (← equal left right).decided

def Word.memberOf (word : Word) : List Word → Except Fault Bool
  | [] => .ok false
  | other :: rest => do
      if ← other.same word then
        return true
      else
        memberOf word rest

def Word.relateUnsigned (op : BinaryOp) (left right : Word) : Except Fault Flag :=
  match left, right with
  | term leftTerm, right =>
    match leftTerm.kind with
    | .condition => .error .illSorted
    | .bits width => do return .condition (.binary op leftTerm (← right.coerce width))
  | left, term rightTerm =>
    match rightTerm.kind with
    | .condition => .error .illSorted
    | .bits width => do return .condition (.binary op (← left.coerce width) rightTerm)
  | _, _ => .error .illSorted

def Word.combine (op : BinaryOp) (left right : Word) : Except Fault Word :=
  match left, right with
  | term leftTerm, right =>
    match leftTerm.kind with
    | .condition => .error .illSorted
    | .bits width => do return .term (.binary op leftTerm (← right.coerce width))
  | left, term rightTerm =>
    match rightTerm.kind with
    | .condition => .error .illSorted
    | .bits width => do return .term (.binary op (← left.coerce width) rightTerm)
  | _, _ => .error .illSorted

def Word.magnitude (word : Word) : Except Fault Word := do
  match word with
  | term value =>
    match value.kind with
    | .bits width => return .term (.choice (.binary .sge value (.literal width 0)) value (.unary .negate value))
    | .condition => throw .wrongKind
  | _ => throw .illSorted

/-! ## Signs and sizes of words -/

namespace Word

def roundedUp (word : Word) : Except Fault Word := do
  let rest ← modulo 32 word
  if ← same rest (.integer 0) then
    return word
  else
    sub (← add word (.integer 32)) rest

def unsigned (word : Word) : Except Fault Word := do
  if ← (← relate .less word (.integer 0)).decided then
    add word (.integer bound)
  else
    return word

def signed (word : Word) : Except Fault Word := do
  if ← (← relate .greater word (.integer (2 ^ (255 : Nat)))).decided then
    mul (← sub (.integer bound) word) (.integer (-1))
  else
    return word

def headName : Word → Except Fault String
  | text name => .ok name
  | term (.symbol name _) => .ok name
  | term _ => .ok ""
  | _ => .error .missingMember

def symbols : Word → Except Fault (List (String × Nat))
  | term value => .ok value.symbols
  | _ => .error .notATerm

def mentions (name : Word) (word : Word) : Except Fault Bool := do
  let symbols ← word.symbols
  return match name with
    | text name => symbols.any fun symbol => symbol.1 == name
    | _ => false

def mentionsAny (others : List Word) (word : Word) : Except Fault Bool := do
  (← word.symbols).anyM fun symbol => memberOf (.term (.symbol symbol.1 symbol.2)) others

def symbolsOfAll (words : List Word) : List Word :=
  words.flatMap fun word =>
    match word with
    | term value => value.symbols.map fun symbol => .term (.symbol symbol.1 symbol.2)
    | _ => []

end Word

end MintAudit
