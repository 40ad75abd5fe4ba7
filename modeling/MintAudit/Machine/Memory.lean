import MintAudit.Machine.State
import MintAudit.Opcode.Instruction

namespace MintAudit

/-!
# Arithmetic, memory, storage and gas

Memory is kept twice: as words by address, for loading, and as bytes, for hashing.
-/

/-! ## Arithmetic and logic instructions -/

attribute [local instance (high)] instPowNat

namespace Alu

open Exec

def matched (left right : Word) : Word × Word :=
  match left.isConcrete, right.isConcrete with
  | true, false => (left.symbolic, right)
  | false, true => (left, right.symbolic)
  | _, _ => (left, right)

/-- The sum or the difference: reduced, unless one operand is concrete and the other symbolic. -/
def additive (op : Word.Operation) (left right : Word) : Except Fault Word := do
  let (first, second) := matched left right
  let result ← Word.operate op first second
  if left.isConcrete == right.isConcrete then
    return (← result.modulo Word.bound).simplified
  else
    return result.simplified

def product (left right : Word) : Except Fault Word := do
  let (first, second) := matched left right
  return (← (← first.mul second).and (.integer Word.allOnes)).simplified

def unsigned (value : Int) : Int :=
  if value < 0 then value + Word.bound else value

def asSigned (value : Int) : Int :=
  if 2 ^ (255 : Nat) < value then -(Word.bound - value) else value

def quotient (first second : Int) : Except Fault Word :=
  if second = 0 then
    .ok (.integer 0)
  else
    (Word.quotient (unsigned first) (unsigned second)).map .real

def signedQuotient (first second : Int) : Except Fault Word := do
  let first := asSigned first
  let second := asSigned second
  if second = 0 then
    return .integer 0
  else if first = -(2 ^ (255 : Nat)) ∧ second = -1 then
    return .integer (-(2 ^ (255 : Nat)))
  else
    let exact ← Word.quotient first second
    let negative := exact.compareInt? 0 == some .lt
    let size ← Word.quotient first.natAbs second.natAbs
    return .real (if negative then size.negate else size)

def remainder (first second : Int) : Word :=
  if second = 0 then
    .integer 0
  else
    .integer (Bitwise.and (Int.fmod (unsigned first) (unsigned second)) Word.allOnes)

def signedRemainder (first second : Int) : Word :=
  if second = 0 then
    .integer 0
  else
    let first := asSigned first
    let second := asSigned second
    let size : Int := Int.fmod first.natAbs second.natAbs
    .integer (if first < 0 then -size else size)

def power (base exponent : Int) : Except Fault Word :=
  let modulus : Nat := 2 ^ (256 : Nat)
  let reduced := (base % (modulus : Int)).toNat
  if 0 ≤ exponent then
    .ok (.integer (powerModulo modulus reduced exponent.toNat : Nat))
  else if reduced % 2 = 0 then
    .error .wrongValue
  else
    -- The odd words form a group of order `2 ^ 255`.
    let inverse := powerModulo modulus reduced (2 ^ (255 : Nat) - 1)
    .ok (.integer (powerModulo modulus inverse exponent.natAbs : Nat))
where
  powerModulo (modulus base exponent : Nat) : Nat :=
    if positive : 0 < exponent then
      let half := powerModulo modulus (base * base % modulus) (exponent / 2)
      if exponent % 2 = 1 then half * base % modulus else half
    else
      1 % modulus
  termination_by exponent

def extendSign (first second : Int) : Int :=
  if 32 ≤ first ∨ first < 0 then
    second
  else
    let sign : Int := 2 ^ (8 * first + 7).toNat
    if Bitwise.and second sign ≠ 0 then
      Bitwise.or second (Word.bound - sign)
    else
      Bitwise.and second (sign - 1)

def bit (value : Bool) : Word :=
  .integer (if value then 1 else 0)

variable (decider : Decider)

/-- A quotient or remainder of symbolic words: zero if the divisor cannot differ from zero. -/
def guarded (divisor : Word) (compute : Exec Word) : Exec Word := do
  enterScope
  assumeNot (← lift (divisor.equal (.integer 0)))
  let result ← if ← feasible decider then compute else pure (.integer 0)
  leaveScope
  return result

def signedQuotientTerm (first second : Word) : Exec Word := do
  enterScope
  let least ← lift (first.equal (.integer (-(2 ^ (255 : Nat)))))
  let minusOne ← lift (second.equal (.integer (-1)))
  assume (.unary .negation (.binary .both (← lift least.toTerm) (← lift minusOne.toTerm)))
  let result ←
    if ← feasible decider then do
      enterScope
      let exact ← lift (first.combine .sdiv second)
      assumeFlag (← lift (exact.relate .less (.integer 0)))
      let negative ← feasible decider
      let size ← lift ((← lift first.magnitude).combine .sdiv (← lift second.magnitude))
      let result ← lift (Word.mul (.integer (if negative then -1 else 1)) size)
      leaveScope
      pure result
    else
      pure (.integer (-(2 ^ (255 : Nat))))
  leaveScope
  return result

def signedRemainderTerm (first second : Word) : Exec Word := do
  enterScope
  assumeFlag (← lift (first.relate .less (.integer 0)))
  let negative ← feasible decider
  leaveScope
  let size ← lift ((← lift first.magnitude).combine .smod (← lift second.magnitude))
  lift ((Word.constant (if negative then -1 else 1)).mul size)

def extended (word : Word) : Except Fault Word :=
  match word with
  | .term value =>
    match value.kind with
    | .bits _ => .ok (.term (.unary (.zeroExtend 256) value))
    | .condition => .error .illSorted
  | _ => .error .illSorted

def lowBits (word : Word) : Except Fault Word :=
  match word with
  | .term value => .ok (.term (.unary (.extract 255 0) value))
  | _ => .error .illSorted

def moduloThird (concrete : Int → Int → Int) (op last : BinaryOp) (first second third : Word) : Exec Word := do
  match first.concrete?, second.concrete?, third.concrete? with
  | some firstValue, some secondValue, some thirdValue =>
    return .integer (if thirdValue = 0 then 0 else Int.fmod (concrete firstValue secondValue) thirdValue)
  | _, _, _ =>
    guarded decider third do
      let first ← lift (extended first.symbolic)
      let second ← lift (extended second.symbolic)
      let third ← lift (extended third)
      let combined ← lift (first.combine op second)
      lift (lowBits (← lift (combined.combine last third)))

def assumeInside (index : Word) : Exec Unit := do
  let beyond ← lift (index.relate .atLeast (.integer 32))
  let before ← lift (index.relate .less (.integer 0))
  assume (.unary .negation (.binary .either (← lift beyond.toTerm) (← lift before.toTerm)))

def extendSignTerm (first second : Word) : Exec Word := do
  enterScope
  assumeInside first
  let result ←
    if ← feasible decider then do
      let index ← lift ((← lift (Word.mul (.integer 8) first)).add (.integer 7))
      enterScope
      let masked ← lift (second.and (← lift (Word.shiftLeft 1 index)))
      assumeFlag (← lift (masked.equal (.integer 0)))
      let result ←
        if ← feasible decider then do
          lift (second.and (← lift ((← lift (Word.shiftLeft 1 index)).sub (.integer 1))))
        else do
          lift (second.or (← lift (Word.sub (.integer Word.bound) (← lift (Word.shiftLeft 1 index)))))
      leaveScope
      pure result
    else
      pure second
  leaveScope
  return result

def byteFromRight (index word : Word) : Except Fault Word := do
  let count ← Word.mul (.integer 8) index
  (← word.and (← Word.shiftLeft 255 count)).shiftRight count

/-- The sum that stands for a shift to the right: exact only in its kind. -/
def shiftedRight (first second : Word) : Except Fault Word := do
  if first.isConcrete != second.isConcrete then
    let (left, right) := matched first second
    return (← left.add right).simplified
  else
    let mixed ← (← second.add (.integer 2)).xor first
    match mixed with
    | .integer value => if Word.fitsNarrow value then return .narrow (Int.fmod value 258) else throw .overflow
    | mixed => return (← mixed.modulo 258).simplified

def checkRevert (block : Int) : Exec Unit := do
  let graph := (← session).graph
  let some kind := Table.get? block graph.kinds | throw .missingKey
  if kind = .conditional then
    let current ← lift (graph.block block)
    let fallsTo ← lift current.getFallsTo
    let reverts (target : Block) : Bool := target.lines.any (Text.startsWith · "REVERT")
    if !reverts (← lift (graph.block current.jumpTarget)) then
      match fallsTo with
      | some next => discard (lift (graph.block next))
      | none => throw .missingKey

def binary (compute : Word → Word → Exec Word) : Exec Unit := do
  need 2
  advance 1
  let first ← pop
  let second ← pop
  push (← compute first second).simplified

def comparison (concrete : Int → Int → Bool) (symbolic : Word → Word → Except Fault Flag) : Exec Unit :=
  binary fun first second =>
    match first.concrete?, second.concrete? with
    | some firstValue, some secondValue => pure (bit (concrete firstValue secondValue))
    | _, _ => do lift (← lift (symbolic first second)).bit

def additiveIn (block : Int) (op : Word.Operation) : Exec Unit :=
  binary fun first second => do
    let result ← lift (additive op first second)
    checkRevert block
    pure result

def division (concrete : Int → Int → Except Fault Word) (symbolic : Word → Word → Exec Word) : Exec Unit :=
  binary fun first second =>
    match first.concrete?, second.concrete? with
    | some firstValue, some secondValue => lift (concrete firstValue secondValue)
    | _, _ => do
        let first := first.symbolic
        let second := second.symbolic
        guarded decider second (symbolic first second)

def modular (concrete : Int → Int → Int) (op last : BinaryOp) : Exec Unit := do
  need 3
  advance 1
  let first ← pop
  let second ← pop
  let third ← pop
  push (← moduloThird decider concrete op last first second third).simplified

def exponentiation : Exec Unit :=
  binary fun base exponent =>
    match base.concrete?, exponent.concrete? with
    | some baseValue, some exponentValue => lift (power baseValue exponentValue)
    | _, _ => freshSymbol Names.anything

def signExtension : Exec Unit :=
  binary fun first second =>
    match first.concrete?, second.concrete? with
    | some firstValue, some secondValue =>
      if 32 ≤ firstValue ∨ firstValue < 0 then pure second else pure (.integer (extendSign firstValue secondValue))
    | _, _ => extendSignTerm decider first.symbolic second.symbolic

def isZero : Exec Unit := do
  need 1
  advance 1
  let first ← pop
  match first.concrete? with
  | some value => push (bit (value == 0))
  | none => push (← lift (← lift (first.equal (.integer 0))).bit).simplified

def complement : Exec Unit := do
  need 1
  advance 1
  let first ← pop
  push (← lift ((← lift first.complement).and (.integer Word.allOnes))).simplified

def byte : Exec Unit := do
  need 2
  advance 1
  let first ← pop
  let index ← lift ((← lift (Word.sub (.integer 32) first)).sub (.integer 1))
  let second ← pop
  match first.concrete?, second.concrete? with
  | some firstValue, some _ =>
    if 32 ≤ firstValue ∨ firstValue < 0 then
      push (.integer 0)
    else
      push (← lift (byteFromRight index second))
  | _, _ =>
    enterScope
    assumeInside first.symbolic
    let result ←
      if ← feasible decider then lift (byteFromRight index second.symbolic) else pure (.integer 0)
    leaveScope
    push result.simplified

def scaleTop (factor : Word) : Exec Unit := do
  let second ← pop
  let (factor, matchedSecond) := matched factor second
  let result := (← lift ((← lift (factor.mul matchedSecond)).and (.integer Word.allOnes))).simplified
  push result
  let selector := (← session).settings.receiverSelector
  if ← lift (matchedSecond.same (.integer selector)) then
    modifySession fun session =>
      { session with settings := { session.settings with shiftedReceiverSelector := result } }

def shiftLeft : Exec Unit := do
  need 2
  advance 1
  let count ← pop
  let factor ← match count.concrete? with
    | some value => lift (power 2 value)
    | none => freshSymbol Names.anything
  scaleTop factor

def shiftRight : Exec Unit :=
  binary fun first second => lift (shiftedRight first second)

end Alu

/-! ## Memory and storage instructions -/

namespace Memory

open Exec

def wordsCovering (count : Int) : Except Fault Int := do
  let words ← Word.realOf count
  match words.div? (Binary64.ofInt 32) with
  | some quotient =>
    match quotient.ceiling? with
    | some value => return value
    | none => throw .overflow
  | none => throw .divisionByZero

def roundUp (count : Int) : Int :=
  if Int.fmod count 32 = 0 then count else count + 32 - Int.fmod count 32

def wordsBehind (address : Word) : Except Fault Word := do
  (← (← address.add (.integer 31)).divide 32).add (.integer 1)

def chooseTouched (test : Term) (yes no : Word) : Except Fault Word :=
  match yes, no with
  | .term yesTerm, no => do return .term (.choice test yesTerm (← no.coerce yesTerm.width))
  | yes, .term noTerm => do return .term (.choice test (← yes.coerce noTerm.width) noTerm)
  | _, _ => .error .illSorted

variable (decider : Decider)

def touch (touched reached : Word) : Exec Word := do
  let grows ← lift (touched.relate .less reached)
  enterScope
  assumeFlag grows
  let result ←
    if (← session).asksMemorySize then do
      if ← feasible decider then
        lift (chooseTouched (← lift grows.toTerm) reached touched)
      else
        pure touched
    else
      pure touched
  leaveScope
  return result

def setTouched (touched : Word) : Exec Unit :=
  modifyPath fun path => { path with touched := touched }

def putWord (key : Key) (word : Word) : Exec Unit :=
  modifyPath fun path => { path with memory := Table.put key word path.memory }

def putOnly (address word : Word) : Exec Unit :=
  modifyPath fun path => { path with memory := [(.label address.render, word)] }

def atLeast (touched : Int) (bytes : Int) : Except Fault Word := do
  let reached ← wordsCovering bytes
  return .integer (max touched reached)

def load : Exec Unit := do
  need 1
  advance 1
  let address ← pop
  let { touched, memory, .. } ← path
  let present := do
    let value ← address.concrete?
    let count ← touched.concrete?
    let word ← Table.get? (Key.number value) memory
    return (value, count, word)
  match present with
  | some (value, count, word) =>
    let touched ← lift (atLeast count (value + 32))
    push word
    setTouched touched
  | none =>
    let touched ← touch decider touched.symbolic (← lift (wordsBehind address))
    let word ← symbolNamed (Names.memoryWord address)
    push word
    putWord (Key.ofWord address) word
    setTouched touched

/-- The most cells that memory can gain in one step. It stands for the host's own memory, which gives out somewhere below
the longest array there can be; no statement depends on the number. -/
def capacity : Int := 2 ^ (32 : Nat)

def extend (address : Int) : Exec Unit := do
  let present : Int := (← path).bytes.size
  let missing := (Int.fdiv (roundUp (address + 32)) 32 - Int.fdiv present 32) * 32
  if 2 ^ (63 : Nat) ≤ missing then
    throw .overflow
  if capacity < missing then
    throw .outOfMemory
  modifyPath fun path => { path with bytes := path.bytes ++ Array.replicate missing.toNat (.integer 0) }

def putByte (position : Int) (byte : Word) : Exec Unit := do
  match Sequence.index? (← path).bytes.size position with
  | some index => modifyPath fun path => { path with bytes := path.bytes.setIfInBounds index byte }
  | none => throw .outOfRange

/-- Write the bytes of a word from the last one on; each is the remainder of what the ones behind it left. -/
def putBytes (address : Int) : Nat → Word → Exec Unit
  | 0, _ => pure ()
  | count + 1, word => do
      putByte (address + count) (← lift (word.modulo 256))
      putBytes address count (← lift (word.divide 256))

def keepWord (address word touched : Word) : Exec Unit := do
  match address.concrete?, touched.concrete? with
  | some value, some count =>
    let touched ← lift (atLeast count (value + 32))
    putWord (.number value) word
    setTouched touched
  | _, _ =>
    let touched ← touch decider touched (← lift (wordsBehind address))
    putOnly address word
    setTouched touched

def store : Exec Unit := do
  need 2
  advance 1
  let address ← pop
  let word ← pop
  let touched := (← path).touched
  if let some value := address.concrete? then
    extend value
    putBytes value 32 word
  keepWord decider address word touched

def storeByte : Exec Unit := do
  need 2
  advance 1
  let address ← pop
  let word ← pop
  let byte ← lift (word.modulo 256)
  let touched := (← path).touched
  match address.concrete?, touched.concrete? with
  | some value, some count =>
    let touched ← lift (atLeast count (value + 1))
    putWord (.number value) byte
    setTouched touched
  | _, _ =>
    let reached ← lift ((← lift (address.divide 32)).add (.integer 1))
    let touched ← touch decider touched.symbolic reached
    putOnly address byte
    setTouched touched

def codeDigits : Exec String := do
  match (← session).code with
  | some text => return String.ofList text.toList.dropLast
  | none => throw .missingFile

def copyUnknown (name : String) (address count : Word) : Exec Unit := do
  let word ← symbolNamed name
  let reached ← lift ((← lift ((← lift (address.add count)).divide 32)).add (.integer 1))
  let touched ← touch decider (← path).touched.symbolic reached
  putOnly address word
  setTouched touched

def copyCode : Exec Unit := do
  need 3
  advance 1
  let address ← pop
  let position ← pop
  let count ← pop
  match address.concrete?, (← path).touched.concrete?, position.concrete?, count.concrete? with
  | some addressValue, some touched, some first, some length =>
    let touched ← lift (atLeast touched (addressValue + length))
    let digits := Text.slice (← codeDigits) (first * 2) (first * 2 + length * 2)
    match Numeral.read? 16 digits with
    | some value =>
      putWord (.number addressValue) (.integer value)
      setTouched touched
    | none => throw .wrongValue
  | _, _, _, _ => copyUnknown decider (Names.code (.text "Ia") position count) address count

def copyForeignCode : Exec Unit := do
  need 4
  advance 1
  let account ← pop
  let address ← pop
  let position ← pop
  let count ← pop
  copyUnknown decider (Names.code account position count) address count

def codeSize : Exec Unit := do
  advance 1
  let digits ← codeDigits
  push (.real (← lift (Word.quotient digits.length 2)))

def size : Exec Unit := do
  advance 1
  push (← lift (Word.mul (.integer 32) (← path).touched))

def hashKey (bytes : List Word) : Except Fault String :=
  let text := (String.join (bytes.map Word.render)).toList.filter fun character =>
    !Text.isBlank character && character ≠ '+'
  if text.all (·.toNat < 256) then .ok (String.ofList text) else .error .unencodable

def noteHash (hash : Word) (gates : Gates) : Gates :=
  if gates.mint.secondStored then
    { gates with mint := { gates.mint with hash := hash, secondStored := false } }
  else if gates.approve.secondStored then
    { gates with approve := { gates.approve with hash := hash, secondStored := false } }
  else if gates.approve.ownerStored then
    { gates with approve := { gates.approve with ownerHash := hash, ownerStored := false } }
  else if gates.burn.secondStored then
    { gates with burn := { gates.burn with hash := hash, secondStored := false } }
  else if gates.operator.thirdStored then
    { gates with operator := { gates.operator with hash := hash, thirdStored := false } }
  else if gates.transfer.ownerStored then
    { gates with transfer := { gates.transfer with ownerHash := hash, ownerStored := false } }
  else if gates.transfer.secondStored then
    { gates with
      approve := { gates.approve with hash := hash }
      transfer := { gates.transfer with secondStored := false } }
  else
    gates

def hashSymbol (first length : Word) : Exec Word := do
  match first.concrete?, length.concrete? with
  | some firstValue, some lengthValue =>
    let bytes := (← path).bytes
    let piece := Sequence.sliceArray bytes firstValue (firstValue + lengthValue)
    if bytes.size < 64 then
      throw .outOfRange
    let key ← lift (hashKey piece.toList)
    match Table.get? key (← path).hashes with
    | some word => return word
    | none =>
      let word ← freshSymbol Names.anything
      modifyPath fun path => { path with hashes := Table.put key word path.hashes }
      return word
  | _, _ => symbolNamed (← freshName Names.anything)

def hash : Exec Unit := do
  need 2
  advance 1
  let first ← pop
  let length ← pop
  let word ← hashSymbol first length
  push word
  modifyPath fun path => { path with gates := noteHash word path.gates }

def isOperator (character : Char) : Bool :=
  "-+*/%|&^!><=".toList.contains character

def loadedVariable : Exec String := do
  match (← session).source with
  | some source =>
    let code ← lift (source.codeAt ((← path).pc - 1))
    let expression := Text.strip ((Text.splitAt isOperator code).headD "")
    return (source.knownVariable? expression).getD ""
  | none => return ""

def loadStorage : Exec Unit := do
  need 1
  advance 1
  let position ← pop
  let storage := (← path).storage
  let kept :=
    (position.concrete?.bind fun value => Table.get? (Key.number value) storage)
      <|> Table.get? (Key.label position.render) storage
  match kept with
  | some word => push word
  | none =>
    let position := position.simplified
    let word ← symbolNamed (Names.storageWord position (← loadedVariable))
    push word
    modifyPath fun path => { path with storage := Table.put (Key.ofWord position) word path.storage }
  modifyPath fun path =>
    if path.gates.burn.hash = .absent then
      path
    else
      { path with
        gates := { path.gates with burn := { path.gates.burn with loaded := path.stack.headD .absent } } }

def storeStorage : Exec Unit := do
  modifySession fun session => { session with watch := { session.watch with stored := true } }
  need 2
  let calls := (← path).calls
  modifySession fun session =>
    { session with
      callsAffect := calls.foldl (fun table call => Table.put call true table) session.callsAffect }
  advance 1
  let position ← pop
  let word ← pop
  modifyPath fun path => { path with storage := Table.put (Key.ofWord position) word path.storage }

end Memory

/-! ## Gas -/

namespace Gas

open Exec

def loggedByte : Int := 8

def exponentByte : Int := 10

def copiedWord : Int := 3

def storageSet : Int := 20000

def storageReset : Int := 5000

def newAccount : Int := 25000

def call : Int := 40

def callWithValue : Int := 9000

def memory (words : Nat) : Int :=
  ((3 * words + words ^ (2 : Nat) / 512 : Nat) : Int)

def wordsFor (count : Int) : Except Fault Int :=
  match (Binary64.ofQuotient count 32).ceiling? with
  | some words => .ok words
  | none => .error .overflow

def copying (count : Word) : Except Fault Int :=
  match count.concrete? with
  | some bytes => return copiedWord * (← wordsFor bytes)
  | none => .ok 0

def positionOf? : Word → Option Int
  | .real value => value.truncate?
  | .narrow value => some value
  | .text value => Numeral.read? 10 value
  | word => word.concrete?

def storedAt? (position : Word) (storage : Table Key Word) : Option Word :=
  match (positionOf? position).bind fun number => Table.get? (.number number) storage with
  | some word => some word
  | none => Table.get? (.label position.render) storage

def overwriting (stored : Option Word) (value : Int) : Int :=
  let certain : Except Fault Bool :=
    match stored with
    | some word => do return (← word.same (.integer 0)) && value ≠ 0
    | none => .ok (value ≠ 0)
  match certain with
  | .ok true => storageSet
  | .ok false => storageReset
  | .error _ => if value ≠ 0 then storageSet else storageReset

def forced (decider : Decider) (condition : Except Fault Term) : Exec Bool := do
  enterScope
  assume (.unary .negation (← lift condition))
  let verdict := decider (← session).scopes.assertions
  leaveScope
  return verdict = .unsatisfiable

def fillsZero (stored value : Word) : Except Fault Term := do
  return .binary .both (← (← stored.equal (.integer 0)).toTerm) (← (← value.differ (.integer 0)).toTerm)

def overwritingSymbol (decider : Decider) (stored : Option Word) (value : Word) : Exec Int := do
  let nonzero : Except Fault Term := do (← value.differ (.integer 0)).toTerm
  let certain ← match stored with
    | some word =>
      try forced decider (fillsZero word value)
      catch _ => forced decider nonzero
    | none => forced decider nonzero
  return if certain then storageSet else storageReset

def takenNames : List String :=
  ["balance", "pc", "Ia", "miu_i", "value", "sender_address", "receiver_address", "gas_price", "origin",
    "currentCoinbase", "currentTimestamp", "currentNumber", "currentDifficulty", "currentGasLimit", "currentChainId",
    "currentSelfBalance", "currentBaseFee", "ERC721_reentrancy", "standard_violation", "unlimited_minting", "mint",
    "approve", "transfer", "setApprovalForAll", "burn"]

def heir (account : Word) (path : Path) : Int :=
  let taken :=
    !account.isConcrete &&
      (takenNames.contains account.render ||
        (account.render == "invalid_approval" && path.gates.invalidApprovalPcs.isSome))
  if taken then 0 else newAccount

def sending (decider : Decider) (value : Word) : Exec Int := do
  match value.concrete? with
  | some known => return if known ≠ 0 then callWithValue else 0
  | none =>
    enterScope
    assumeNot (← lift (value.differ (.integer 0)))
    let certain := !(← feasible decider)
    leaveScope
    return if certain then callWithValue else 0

def operandPart (decider : Decider) (name : String) : Exec Int := do
  let stack := (← path).stack
  match name, stack with
  | "EXP", _ :: exponent :: _ =>
    match exponent.concrete? with
    | some value => return if 0 < value then exponentByte * (1 + Binary64.wholeLogarithm 256 value.toNat) else 0
    | none => return 0
  | "EXTCODECOPY", _ :: _ :: count :: _ => lift (copying count)
  | "CALLDATACOPY", _ :: _ :: _ :: count :: _ => lift (copying count)
  | "CODECOPY", _ :: _ :: _ :: count :: _ => lift (copying count)
  | "SSTORE", position :: value :: _ =>
    let stored := storedAt? position (← path).storage
    match value.concrete? with
    | some known => return overwriting stored known
    | none => overwritingSymbol decider stored value
  | "SUICIDE", _ :: account :: _ => return heir account (← path)
  | name, stack =>
    if ["LOG0", "LOG1", "LOG2", "LOG3", "LOG4"].contains name then
      return loggedByte * ((stack[1]?.bind Word.concrete?).getD 0)
    else if ["CALL", "CALLCODE", "DELEGATECALL"].contains name then
      match stack[2]? with
      | some value => return call + (← sending decider value)
      | none => return 0
    else if ["SHA3", "KECCAK256"].contains name && stack.length < 2 then
      throw .outOfRange
    else
      return 0

def charge (decider : Decider) (name : String) : Exec (Int × Int) := do
  let operands ← operandPart decider name
  let path ← path
  let price := memory path.memory.length
  return (Opcode.price name + operands + (price - path.gas.memory), price)

def pay (decider : Decider) (name : String) : Exec Unit := do
  let (increment, price) ← charge decider name
  modifyPath fun path => { path with gas := { total := path.gas.total + increment, memory := price } }

end Gas

end MintAudit
