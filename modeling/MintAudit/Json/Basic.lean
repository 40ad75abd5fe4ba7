import MintAudit.Number.Binary64
import MintAudit.Text.Pattern

namespace MintAudit

/-!
# JSON values

Values of the data format in which compilers describe a contract.
-/

inductive Json where
  | null
  | bool (value : Bool)
  | integer (value : Int)
  | real (value : Binary64)
  | string (value : String)
  | array (items : List Json)
  | object (members : List (String × Json))
  deriving Inhabited

namespace Json

def integer? : Json → Option Int
  | bool value => some (if value then 1 else 0)
  | integer value => some value
  | _ => none

def string? : Json → Option String
  | string value => some value
  | _ => none

def array? : Json → Option (List Json)
  | array items => some items
  | _ => none

def object? : Json → Option (List (String × Json))
  | object members => some members
  | _ => none

def sameScalar (left right : Json) : Bool :=
  match left, right with
  | null, null => true
  | string first, string second => first == second
  | real first, real second => first.compare? second == some .eq
  | real first, other =>
    match other.integer? with
    | some value => first.compareInt? value == some .eq
    | none => false
  | other, real second =>
    match other.integer? with
    | some value => second.compareInt? value == some .eq
    | none => false
  | first, second =>
    match first.integer?, second.integer? with
    | some value, some other => value == other
    | _, _ => false

mutual

/-- Whether two values are equal: numbers by value, objects regardless of the order of their members. -/
def same : Json → Json → Bool
  | array left, other =>
    match other with
    | array right => sameItems left right
    | _ => false
  | object left, other =>
    match other with
    | object right => left.length == right.length && sameMembers left right
    | _ => false
  | null, other => sameScalar null other
  | bool value, other => sameScalar (bool value) other
  | integer value, other => sameScalar (integer value) other
  | real value, other => sameScalar (real value) other
  | string value, other => sameScalar (string value) other

def sameItems : List Json → List Json → Bool
  | [], [] => true
  | left :: leftRest, right :: rightRest => same left right && sameItems leftRest rightRest
  | _, _ => false

def sameMembers : List (String × Json) → List (String × Json) → Bool
  | [], _ => true
  | (name, value) :: rest, others =>
    (match Table.get? name others with
      | some other => same value other
      | none => false) && sameMembers rest others

end

instance : BEq Json := ⟨same⟩

def isTrue : Json → Bool
  | null => false
  | bool value => value
  | integer value => value ≠ 0
  | real value => value.compareInt? 0 != some .eq
  | string value => !value.isEmpty
  | array items => !items.isEmpty
  | object members => !members.isEmpty

def isNull : Json → Bool
  | null => true
  | _ => false

def isNested : Json → Bool
  | array _ => true
  | object _ => true
  | _ => false

def member (name : String) : Json → Except Fault Json
  | object members =>
    match Table.get? name members with
    | some value => .ok value
    | none => .error .missingKey
  | _ => .error .wrongKind

def member? (name : String) (value : Json) : Option Json :=
  match value with
  | object members => Table.get? name members
  | _ => none

def item (position : Int) : Json → Except Fault Json
  | array items =>
    match Sequence.at? items position with
    | some value => .ok value
    | none => .error .outOfRange
  | string text =>
    match Sequence.at? text.toList position with
    | some character => .ok (string (String.singleton character))
    | none => .error .outOfRange
  | object _ => .error .missingKey
  | _ => .error .wrongKind

def part (value key : Json) : Except Fault Json :=
  match value, key with
  | object members, string name => member name (object members)
  | object _, array _ => .error .wrongKind
  | object _, object _ => .error .wrongKind
  | object _, _ => .error .missingKey
  | value, key =>
    match key.integer? with
    | some position => item position value
    | none => .error .wrongKind

def follow (names : List String) (value : Json) : Except Fault Json :=
  names.foldlM (fun value name => member name value) value

def elements : Json → Except Fault (List Json)
  | array items => .ok items
  | object members => .ok (members.map fun entry => string entry.1)
  | string text => .ok (text.toList.map fun character => string (String.singleton character))
  | _ => .error .wrongKind

def holds (name : String) : Json → Except Fault Bool
  | object members => .ok (Table.has name members)
  | array items => .ok (items.any (same (string name)))
  | string text => .ok (Text.contains text name)
  | _ => .error .wrongKind

def isText (text : String) (value : Json) : Bool :=
  match value with
  | string found => found == text
  | _ => false

def text : Json → Except Fault String
  | string value => .ok value
  | _ => .error .wrongKind

mutual

def count : Json → Nat
  | array items => 1 + countItems items
  | object members => 1 + countMembers members
  | _ => 1

def countItems : List Json → Nat
  | [] => 0
  | value :: rest => count value + countItems rest

def countMembers : List (String × Json) → Nat
  | [] => 0
  | (_, value) :: rest => count value + countMembers rest

end

mutual

def depth : Json → Nat
  | array items => 1 + depthOfItems items
  | object members => 1 + depthOfMembers members
  | _ => 1

def depthOfItems : List Json → Nat
  | [] => 0
  | value :: rest => max (depth value) (depthOfItems rest)

def depthOfMembers : List (String × Json) → Nat
  | [] => 0
  | (_, value) :: rest => max (depth value) (depthOfMembers rest)

end

/-! ## Fields of written values -/

def given? (value : Json) (name : String) : Option Json :=
  match value.member? name with
  | some null => none
  | found => found

def given (value : Json) (name : String) : Json :=
  (value.member? name).getD null

def textAt (value : Json) (name otherwise : String) : String :=
  ((value.given? name).bind string?).getD otherwise

def numberAt? (value : Json) (name : String) : Option Int :=
  (value.given? name).bind integer?

def numberAt (value : Json) (name : String) (otherwise : Int) : Int :=
  (value.numberAt? name).getD otherwise

def flagAt (value : Json) (name : String) : Bool :=
  ((value.given? name).map isTrue).getD false

def itemsAt (value : Json) (name : String) : List Json :=
  ((value.given? name).bind array?).getD []

def textsAt (value : Json) (name : String) : List String :=
  (value.itemsAt name).filterMap string?

def numbersAt (value : Json) (name : String) : List Int :=
  (value.itemsAt name).filterMap integer?

def membersAt (value : Json) (name : String) : List (String × Json) :=
  ((value.given? name).bind object?).getD []

def items (value : Json) : List Json :=
  value.array?.getD []

def nth (value : Json) (position : Nat) : Json :=
  (value.items[position]?).getD null

def entries : Json → List (Json × Json)
  | object [("map", array pairs)] => pairs.map fun pair => (pair.nth 0, pair.nth 1)
  | object members => members.map fun entry => (string entry.1, entry.2)
  | _ => []

def listOf (write : α → Json) (values : List α) : Json :=
  array (values.map write)

def pairs (entries : List (Json × Json)) : Json :=
  object [("pairs", array (entries.map fun entry => array [entry.1, entry.2]))]

def row (entries : List (String × Json)) : Json :=
  pairs (entries.map fun entry => (string entry.1, entry.2))

def replaceAt (value new : Json) : List String → Json
  | [] => new
  | name :: names =>
    match value with
    | .object members => .object (members.map fun entry =>
      if entry.1 == name then (name, entry.2.replaceAt new names) else entry)
    | other => other

end Json

/-! ## Reading JSON -/

attribute [local instance (high)] instPowNat

namespace Json

def isGap (character : Char) : Bool :=
  character == ' ' || character == '\t' || character == '\n' || character == '\r'

def skipGaps (text : List Char) : List Char :=
  text.dropWhile isGap

def hexDigit? (character : Char) : Option Nat :=
  if '0' ≤ character ∧ character ≤ '9' then
    some (character.toNat - '0'.toNat)
  else if 'a' ≤ character ∧ character ≤ 'f' then
    some (character.toNat - 'a'.toNat + 10)
  else if 'A' ≤ character ∧ character ≤ 'F' then
    some (character.toNat - 'A'.toNat + 10)
  else
    none

def unit? : List Char → Option (Nat × List Char)
  | first :: second :: third :: fourth :: rest => do
      let value := ((← hexDigit? first) * 16 + (← hexDigit? second)) * 16 + (← hexDigit? third)
      return (value * 16 + (← hexDigit? fourth), rest)
  | _ => none

def unitCharacter (value : Nat) : Char :=
  if 0xD800 ≤ value ∧ value ≤ 0xDFFF then Char.ofNat 0xFFFD else Char.ofNat value

def escapedUnit? (text : List Char) : Option (Char × List Char) := do
  let (high, rest) ← unit? text
  if 0xD800 ≤ high ∧ high ≤ 0xDBFF then
    match rest with
    | '\\' :: 'u' :: more =>
      match unit? more with
      | some (low, after) =>
        if 0xDC00 ≤ low ∧ low ≤ 0xDFFF then
          return (Char.ofNat (0x10000 + (high - 0xD800) * 0x400 + (low - 0xDC00)), after)
        else
          return (unitCharacter high, rest)
      | none => return (unitCharacter high, rest)
    | _ => return (unitCharacter high, rest)
  else
    return (unitCharacter high, rest)

def escape? : List Char → Option (Char × List Char)
  | '"' :: rest => some ('"', rest)
  | '\\' :: rest => some ('\\', rest)
  | '/' :: rest => some ('/', rest)
  | 'b' :: rest => some ('\x08', rest)
  | 'f' :: rest => some ('\x0c', rest)
  | 'n' :: rest => some ('\n', rest)
  | 'r' :: rest => some ('\r', rest)
  | 't' :: rest => some ('\t', rest)
  | 'u' :: rest => escapedUnit? rest
  | _ => none

def stringOnto (fuel : Nat) (read : List Char) (text : List Char) : Option (String × List Char) :=
  match fuel, text with
  | 0, _ => none
  | _, [] => none
  | fuel + 1, character :: rest =>
    if character == '"' then
      some (String.ofList read.reverse, rest)
    else if character == '\\' then
      match escape? rest with
      | some (found, more) => stringOnto fuel (found :: read) more
      | none => none
    else if character.toNat < 0x20 then
      none
    else
      stringOnto fuel (character :: read) rest

def isDigit (character : Char) : Bool :=
  decide ('0' ≤ character ∧ character ≤ '9')

def digitsValue (digits : List Char) : Nat :=
  digits.foldl (fun value character => value * 10 + (character.toNat - '0'.toNat)) 0

def fraction (text : List Char) : Option (List Char × List Char) :=
  match text with
  | '.' :: rest =>
    let digits := rest.takeWhile isDigit
    if digits.isEmpty then none else some (digits, rest.dropWhile isDigit)
  | _ => none

def exponent (text : List Char) : Option (Int × List Char) :=
  match text with
  | mark :: rest =>
    if mark == 'e' || mark == 'E' then
      let (negative, rest) := match rest with
        | '-' :: more => (true, more)
        | '+' :: more => (false, more)
        | _ => (false, rest)
      let digits := rest.takeWhile isDigit
      if digits.isEmpty then
        none
      else
        let value : Int := digitsValue digits
        some (if negative then -value else value, rest.dropWhile isDigit)
    else
      none
  | [] => none

def scaledReal (negative : Bool) (digits : Nat) (power : Int) : Binary64 :=
  -- Beyond these powers the result is zero or infinite whatever the digits are.
  if power < -5000 then
    Binary64.nearest negative 0 1
  else if power < 0 then
    Binary64.nearest negative digits (10 ^ power.natAbs)
  else
    Binary64.nearest negative (if digits = 0 then 0 else digits * 10 ^ (min power.natAbs 5000)) 1

def number? (text : List Char) : Option (Json × List Char) :=
  let (negative, text) := match text with
    | '-' :: rest => (true, rest)
    | _ => (false, text)
  let digits := match text with
    | '0' :: _ => ['0']
    | _ => text.takeWhile isDigit
  if digits.isEmpty then
    none
  else
    let rest := text.drop digits.length
    let whole := digitsValue digits
    let (fractionDigits, rest, hasFraction) := match fraction rest with
      | some (digits, more) => (digits, more, true)
      | none => ([], rest, false)
    let (power, rest, hasExponent) := match exponent rest with
      | some (power, more) => (power, more, true)
      | none => (0, rest, false)
    if hasFraction || hasExponent then
      let mantissa := digitsValue (digits ++ fractionDigits)
      some (real (scaledReal negative mantissa (power - fractionDigits.length)), rest)
    else
      some (integer (if negative then -(whole : Int) else whole), rest)

def behind? (word : String) (text : List Char) : Option (List Char) :=
  if Text.startsWithChars text word.toList then some (text.drop word.length) else none

def word? (text : List Char) : Option (Json × List Char) :=
  let words : List (String × Json) :=
    [("null", null), ("true", bool true), ("false", bool false), ("NaN", real .notANumber),
      ("Infinity", real (.infinite false)), ("-Infinity", real (.infinite true))]
  words.findSome? fun entry => (behind? entry.1 text).map fun rest => (entry.2, rest)

mutual

def value? (fuel : Nat) (text : List Char) : Option (Json × List Char) :=
  match fuel, text with
  | 0, _ => none
  | _, [] => none
  | fuel + 1, character :: rest =>
    if character == '"' then
      (stringOnto (rest.length + 1) [] rest).map fun found => (string found.1, found.2)
    else if character == '[' then
      match skipGaps rest with
      | ']' :: more => some (array [], more)
      | text => itemsOnto fuel [] text
    else if character == '\x7b' then
      match skipGaps rest with
      | '\x7d' :: more => some (object [], more)
      | text => membersOnto fuel [] text
    else
      match word? text with
      | some found => some found
      | none => number? text

def itemsOnto (fuel : Nat) (read : List Json) (text : List Char) : Option (Json × List Char) :=
  match fuel with
  | 0 => none
  | fuel + 1 =>
    match value? fuel text with
    | none => none
    | some (value, rest) =>
      match skipGaps rest with
      | ',' :: more => itemsOnto fuel (value :: read) (skipGaps more)
      | ']' :: more => some (array (value :: read).reverse, more)
      | _ => none

def membersOnto (fuel : Nat) (read : List (String × Json)) (text : List Char) : Option (Json × List Char) :=
  match fuel, text with
  | 0, _ => none
  | fuel + 1, '"' :: rest =>
    match stringOnto (rest.length + 1) [] rest with
    | none => none
    | some (name, rest) =>
      match skipGaps rest with
      | ':' :: rest =>
        match value? fuel (skipGaps rest) with
        | none => none
        | some (value, rest) =>
          match skipGaps rest with
          | ',' :: more => membersOnto fuel ((name, value) :: read) (skipGaps more)
          | '\x7d' :: more => some (object (Table.ofEntries ((name, value) :: read).reverse), more)
          | _ => none
      | _ => none
  | _, _ => none

end

def read? (text : String) : Option Json :=
  let characters := text.toList
  match value? (characters.length + 1) (skipGaps characters) with
  | some (value, rest) => if (skipGaps rest).isEmpty then some value else none
  | none => none

def read (text : String) : Except Fault Json :=
  match read? text with
  | some value => .ok value
  | none => .error .malformedJson

end Json

/-! ## Writing JSON -/

namespace Json

def unitText (value : Nat) : String :=
  let digits := Nat.toDigits 16 value
  String.ofList ('\\' :: 'u' :: (List.replicate (4 - digits.length) '0' ++ digits))

def characterText (character : Char) : String :=
  let code := character.toNat
  if character == '"' then "\\\""
  else if character == '\\' then "\\\\"
  else if character == '\n' then "\\n"
  else if character == '\r' then "\\r"
  else if character == '\t' then "\\t"
  else if code = 8 then "\\b"
  else if code = 12 then "\\f"
  else if code < 0x20 || 0x7F ≤ code && code < 0x10000 then unitText code
  else if 0x10000 ≤ code then
    unitText (0xD800 + (code - 0x10000) / 0x400) ++ unitText (0xDC00 + (code - 0x10000) % 0x400)
  else String.singleton character

def quoted (text : String) : String :=
  "\"" ++ String.join (text.toList.map characterText) ++ "\""

def realText (value : Binary64) : String :=
  match value with
  | .notANumber => "NaN"
  | .infinite false => "Infinity"
  | .infinite true => "-Infinity"
  | value => value.text

mutual

def render : Json → String
  | null => "null"
  | bool value => if value then "true" else "false"
  | integer value => toString value
  | real value => realText value
  | string value => quoted value
  | array items => "[" ++ ", ".intercalate (renderItems items) ++ "]"
  | object members => "\x7b" ++ ", ".intercalate (renderMembers members) ++ "\x7d"

def renderItems : List Json → List String
  | [] => []
  | value :: rest => render value :: renderItems rest

def renderMembers : List (String × Json) → List String
  | [] => []
  | (name, value) :: rest => (quoted name ++ ": " ++ render value) :: renderMembers rest

end

end Json

end MintAudit
