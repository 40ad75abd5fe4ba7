import MintAudit.Fault
import MintAudit.Table

namespace MintAudit

/-!
# Texts, numerals and patterns

Patterns of characters with classes, groups, alternatives and repetitions.
-/

/-! ## Texts -/

namespace Text

def isBlank (character : Char) : Bool :=
  let code := character.toNat
  (9 ≤ code && code ≤ 13) || (28 ≤ code && code ≤ 32) || code == 0x85 || code == 0xA0 || code == 0x1680
    || (0x2000 ≤ code && code ≤ 0x200A) || code == 0x2028 || code == 0x2029 || code == 0x202F
    || code == 0x205F || code == 0x3000

def dropFront (test : Char → Bool) (text : String) : String :=
  String.ofList (text.toList.dropWhile test)

def dropBack (test : Char → Bool) (text : String) : String :=
  String.ofList (text.toList.reverse.dropWhile test).reverse

def stripWhile (test : Char → Bool) (text : String) : String :=
  dropBack test (dropFront test text)

def strip (text : String) : String :=
  stripWhile isBlank text

def cutsAt (test : Char → Bool) : List Char → List (List Char)
  | [] => [[]]
  | character :: rest =>
    if test character then
      [] :: cutsAt test rest
    else
      match cutsAt test rest with
      | [] => [[character]]
      | piece :: pieces => (character :: piece) :: pieces

def splitAt (test : Char → Bool) (text : String) : List String :=
  (cutsAt test text.toList).map String.ofList

def splitOnChar (separator : Char) (text : String) : List String :=
  splitAt (· == separator) text

def words (text : String) : List String :=
  (splitAt isBlank text).filter (· ≠ "")

def linesOf : List Char → List (List Char)
  | [] => []
  | '\n' :: rest => ['\n'] :: linesOf rest
  | character :: rest =>
    match linesOf rest with
    | [] => [[character]]
    | line :: lines => (character :: line) :: lines

def lines (text : String) : List String :=
  (linesOf text.toList).map String.ofList

def startsWithChars : List Char → List Char → Bool
  | _, [] => true
  | [], _ :: _ => false
  | character :: text, wanted :: start => character == wanted && startsWithChars text start

def startsWith (text start : String) : Bool :=
  startsWithChars text.toList start.toList

def endsWith (text ending : String) : Bool :=
  startsWithChars text.toList.reverse ending.toList.reverse

def containsChars (wanted : List Char) : List Char → Bool
  | [] => wanted.isEmpty
  | character :: rest => startsWithChars (character :: rest) wanted || containsChars wanted rest

def contains (text wanted : String) : Bool :=
  containsChars wanted.toList text.toList

def partsBetween (separator : List Char) (part : List Char) : Nat → List Char → List (List Char)
  | _, [] => [part.reverse]
  | skip + 1, _ :: rest => partsBetween separator part skip rest
  | 0, character :: rest =>
    if startsWithChars (character :: rest) separator then
      part.reverse :: partsBetween separator [] (separator.length - 1) rest
    else
      partsBetween separator (character :: part) 0 rest

def splitOn (separator text : String) : List String :=
  (partsBetween separator.toList [] 0 text.toList).map String.ofList

def slice (text : String) (first last : Int) : String :=
  String.ofList (Sequence.slice text.toList first last)

/-! ## Upper and lower case -/

def specialCapitals : List (Char × String) :=
  [('ß', "SS"), ('ı', "I"), ('ſ', "S"), ('ŉ', "ʼN"), ('ǰ', "J̌"), ('ẖ', "H̱"), ('ẗ', "T̈"), ('ẘ', "W̊"), ('ẙ', "Y̊"),
    ('ẚ', "Aʾ"), ('ﬀ', "FF"), ('ﬁ', "FI"), ('ﬂ', "FL"), ('ﬃ', "FFI"), ('ﬄ', "FFL"), ('ﬅ', "ST"), ('ﬆ', "ST")]

def capital (character : Char) : String :=
  (specialCapitals.lookup character).getD (String.singleton character.toUpper)

def upper (text : String) : String :=
  String.join (text.toList.map capital)

def lower (text : String) : String :=
  String.ofList (text.toList.map Char.toLower)

/-! ## Quoted texts -/

def hexDigits (width value : Nat) : String :=
  let digits := Nat.toDigits 16 value
  String.ofList (List.replicate (width - digits.length) '0' ++ digits)

def isVisible (code : Nat) : Bool :=
  let hidden : List (Nat × Nat) :=
    [(0x7F, 0xA0), (0xAD, 0xAD), (0x600, 0x605), (0x61C, 0x61C), (0x6DD, 0x6DD), (0x70F, 0x70F), (0x1680, 0x1680),
      (0x180E, 0x180E), (0x2000, 0x200F), (0x2028, 0x202F), (0x205F, 0x206F), (0x3000, 0x3000), (0xE000, 0xF8FF),
      (0xFEFF, 0xFEFF), (0xFFF0, 0xFFFB), (0xFFFE, 0xFFFF), (0xE0000, 0x10FFFF)]
  hidden.all fun range => code < range.1 || range.2 < code

def quotedCharacter (mark character : Char) : String :=
  let code := character.toNat
  if character == '\\' then "\\\\"
  else if character == mark then String.ofList ['\\', mark]
  else if character == '\t' then "\\t"
  else if character == '\n' then "\\n"
  else if character == '\r' then "\\r"
  else if code < 0x20 || !isVisible code then
    if code < 0x100 then "\\x" ++ hexDigits 2 code
    else if code < 0x10000 then "\\u" ++ hexDigits 4 code
    else "\\U" ++ hexDigits 8 code
  else String.singleton character

def quoted (text : String) : String :=
  let characters := text.toList
  let mark := if characters.contains '\'' && !characters.contains '"' then '"' else '\''
  String.singleton mark ++ String.join (characters.map (quotedCharacter mark)) ++ String.singleton mark

def listText (texts : List String) : String :=
  "[" ++ ", ".intercalate (texts.map quoted) ++ "]"

def rowField (field : String) : String :=
  if field.toList.any fun character => [',', '"', '\r', '\n'].contains character then
    "\"" ++ String.join (field.toList.map fun c => if c == '"' then "\"\"" else String.singleton c) ++ "\""
  else
    field

def row (fields : List String) : String :=
  ",".intercalate (fields.map rowField) ++ "\r\n"

end Text

/-! ## Path names -/

def PathName.withoutEnd (characters : List Char) : List Char :=
  let kept := (characters.reverse.dropWhile (· == '/')).reverse
  if kept.isEmpty then characters else kept

def PathName.splitLast (path : String) : String × String :=
  let reversed := path.toList.reverse
  let step := (reversed.takeWhile (· ≠ '/')).reverse
  let front := (reversed.dropWhile (· ≠ '/')).reverse
  (String.ofList (withoutEnd front), String.ofList step)

def PathName.join (path step : String) : String :=
  if Text.startsWith step "/" then step
  else if path.isEmpty || Text.endsWith path "/" then path ++ step
  else path ++ "/" ++ step

/-! ## Reading numerals -/

namespace Numeral

def zeros : List Nat :=
  [0x30, 0x660, 0x6F0, 0x7C0, 0x966, 0x9E6, 0xA66, 0xAE6, 0xB66, 0xBE6, 0xC66, 0xCE6, 0xD66, 0xDE6, 0xE50, 0xED0,
    0xF20, 0x1040, 0x1090, 0x17E0, 0x1810, 0x1946, 0x19D0, 0x1A80, 0x1A90, 0x1B50, 0x1BB0, 0x1C40, 0x1C50, 0xA620,
    0xA8D0, 0xA900, 0xA9D0, 0xA9F0, 0xAA50, 0xABF0, 0xFF10, 0x104A0, 0x10D30, 0x11066, 0x110F0, 0x11136, 0x111D0,
    0x112F0, 0x11450, 0x114D0, 0x11650, 0x116C0, 0x11730, 0x118E0, 0x11950, 0x11C50, 0x11D50, 0x11DA0, 0x16A60,
    0x16AC0, 0x16B50, 0x1D7CE, 0x1D7D8, 0x1D7E2, 0x1D7EC, 0x1D7F6, 0x1E140, 0x1E2F0, 0x1E950, 0x1FBF0]

def decimalDigit? (character : Char) : Option Nat :=
  let code := character.toNat
  (zeros.find? fun first => first ≤ code && code < first + 10).map (code - ·)

def digit? (base : Nat) (character : Char) : Option Nat :=
  let code := character.toNat
  let value? :=
    if 97 ≤ code ∧ code ≤ 122 then
      some (code - 87)
    else if 65 ≤ code ∧ code ≤ 90 then
      some (code - 55)
    else
      decimalDigit? character
  value?.filter (· < base)

def digitsOnto (base : Nat) (read : Nat) : List Char → Option Nat
  | [] => some read
  | '_' :: character :: rest =>
    match digit? base character with
    | some digit => digitsOnto base (read * base + digit) rest
    | none => none
  | character :: rest =>
    match digit? base character with
    | some digit => digitsOnto base (read * base + digit) rest
    | none => none

def digits? (base : Nat) : List Char → Option Nat
  | [] => none
  | '_' :: _ => none
  | characters => digitsOnto base 0 characters

def unsigned? (base : Nat) (characters : List Char) : Option Nat :=
  match base, characters with
  | 16, '0' :: 'x' :: '_' :: rest => digits? 16 rest
  | 16, '0' :: 'X' :: '_' :: rest => digits? 16 rest
  | 16, '0' :: 'x' :: rest => digits? 16 rest
  | 16, '0' :: 'X' :: rest => digits? 16 rest
  | base, characters => digits? base characters

def read? (base : Nat) (text : String) : Option Int :=
  match (Text.strip text).toList with
  | '-' :: rest => (unsigned? base rest).map fun size => -(size : Int)
  | '+' :: rest => (unsigned? base rest).map fun size => (size : Int)
  | characters => (unsigned? base characters).map fun size => (size : Int)

end Numeral

/-! ## Letters and word characters -/

namespace Text

def isPlainLetter (character : Char) : Bool :=
  ('a' ≤ character && character ≤ 'z') || ('A' ≤ character && character ≤ 'Z')

def isPlainDigit (character : Char) : Bool :=
  '0' ≤ character && character ≤ '9'

def letterless : List (Nat × Nat) :=
  [(0x80, 0xA9), (0xAB, 0xB4), (0xB6, 0xB9), (0xBB, 0xBF), (0xD7, 0xD7), (0xF7, 0xF7), (0x2C2, 0x2C5),
    (0x2D2, 0x2DF), (0x2E5, 0x2EB), (0x2ED, 0x2ED), (0x2EF, 0x36F), (0x375, 0x375), (0x378, 0x379),
    (0x37E, 0x37E), (0x380, 0x385), (0x387, 0x387), (0x482, 0x489), (0x55A, 0x55F), (0x589, 0x5CF),
    (0x600, 0x61F), (0x64B, 0x66D), (0x2000, 0x2070), (0x2072, 0x207E), (0x2080, 0x208F), (0x20A0, 0x2101),
    (0x2190, 0x2BFF), (0x2E00, 0x2E2E), (0x2E30, 0x3004), (0x3007, 0x3007), (0x3008, 0x3030), (0xD800, 0xF8FF),
    (0xFE00, 0xFE6F), (0xFEFF, 0xFF20), (0xFF3B, 0xFF40), (0xFF5B, 0xFF65), (0xFFE0, 0xFFFF),
    (0x1F000, 0x1FAFF), (0xE0000, 0x10FFFF)]

def isLetter (character : Char) : Bool :=
  isPlainLetter character ||
    (0x80 ≤ character.toNat && (Numeral.decimalDigit? character).isNone &&
      letterless.all fun range => character.toNat < range.1 || range.2 < character.toNat)

def startsName (character : Char) : Bool :=
  character == '_' || isLetter character

def isNumberSign (character : Char) : Bool :=
  [0xB2, 0xB3, 0xB9, 0xBC, 0xBD, 0xBE].contains character.toNat ||
    (0x2070 ≤ character.toNat && character.toNat ≤ 0x2079) || (0x2080 ≤ character.toNat && character.toNat ≤ 0x2089)
    || (0x2150 ≤ character.toNat && character.toNat ≤ 0x2189)

def isWordCharacter (character : Char) : Bool :=
  startsName character || (Numeral.decimalDigit? character).isSome || isNumberSign character

end Text

/-! ## Patterns -/

inductive Pattern where
  | empty
  | any
  | literal (character : Char)
  | range (negated : Bool) (ranges : List (Char × Char)) (classes : List (Bool × Char))
  | lineStart
  | lineEnd
  | sequence (first second : Pattern)
  | alternative (first second : Pattern)
  | repeated (inner : Pattern) (least : Nat) (most : Option Nat) (greedy : Bool)
  deriving Repr, Inhabited

namespace Pattern

def inClass (name character : Char) : Bool :=
  if name == 'd' then Text.isPlainDigit character
  else if name == 's' then Text.isBlank character
  else Text.isWordCharacter character

def inRanges (ranges : List (Char × Char)) (classes : List (Bool × Char)) (character : Char) : Bool :=
  ranges.any (fun range => range.1 ≤ character && character ≤ range.2)
    || classes.any fun entry => inClass entry.2 character != entry.1

def iterate (step : Nat → List Nat) (greedy : Bool) : Nat → Nat → Option Nat → Nat → List Nat
  | 0, _, _, position => [position]
  | fuel + 1, least, most, position =>
    let more :=
      if most = some 0 then
        []
      else
        (step position).flatMap fun next =>
          -- A repetition that stays in its place is not repeated once the least number is reached.
          if next = position && least = 0 then []
          else iterate step greedy fuel (least - 1) (most.map (· - 1)) next
    if 0 < least then more
    else if greedy then more ++ [position]
    else position :: more

def ends (text : Array Char) : Pattern → Nat → List Nat
  | .empty, position => [position]
  | .any, position =>
    match text[position]? with
    | some character => if character == '\n' then [] else [position + 1]
    | none => []
  | .literal wanted, position => if text[position]? == some wanted then [position + 1] else []
  | .range negated ranges classes, position =>
    match text[position]? with
    | some character => if inRanges ranges classes character != negated then [position + 1] else []
    | none => []
  | .lineStart, position => if position = 0 then [position] else []
  | .lineEnd, position =>
    if position = text.size || (position + 1 = text.size && text[position]? == some '\n') then [position] else []
  | .sequence first second, position => (ends text first position).flatMap (ends text second)
  | .alternative first second, position => ends text first position ++ ends text second position
  | .repeated inner least most greedy, position =>
    iterate (ends text inner) greedy (text.size + least + 1) least most position

def eraseFrom (pattern : Pattern) (text : Array Char) : Nat → Nat → List Char
  | 0, _ => []
  | fuel + 1, position =>
    match text[position]? with
    | none => []
    | some character =>
      match (ends text pattern position).find? (position < ·) with
      | some stop => eraseFrom pattern text fuel stop
      | none => character :: eraseFrom pattern text fuel (position + 1)

def erase (pattern : Pattern) (text : String) : String :=
  let characters := text.toList.toArray
  String.ofList (eraseFrom pattern characters (characters.size + 1) 0)

def searchFrom (pattern : Pattern) (text : Array Char) : Nat → Nat → Option (Nat × Nat)
  | 0, _ => none
  | fuel + 1, position =>
    match (ends text pattern position).head? with
    | some stop => some (position, stop)
    | none => searchFrom pattern text fuel (position + 1)

def search? (pattern : Pattern) (text : String) : Option (Nat × Nat) :=
  let characters := text.toList.toArray
  searchFrom pattern characters (characters.size + 1) 0

def number (text : List Char) : Option Nat × List Char :=
  let digits := text.takeWhile Text.isPlainDigit
  (if digits.isEmpty then none
    else some (digits.foldl (fun value digit => value * 10 + (digit.toNat - '0'.toNat)) 0),
    text.drop digits.length)

def bounds? (text : List Char) : Option ((Nat × Option Nat) × List Char) :=
  let (least, rest) := number text
  match rest with
  | '\x7d' :: rest => least.map fun count => ((count, some count), rest)
  | ',' :: rest =>
    let (most, rest) := number rest
    match rest with
    | '\x7d' :: rest => some ((least.getD 0, most), rest)
    | _ => none
  | _ => none

def mark? : List Char → Option ((Nat × Option Nat) × List Char)
  | '*' :: rest => some ((0, none), rest)
  | '+' :: rest => some ((1, none), rest)
  | '?' :: rest => some ((0, some 1), rest)
  | '\x7b' :: rest => bounds? rest
  | _ => none

inductive Last where
  | nothing
  | piece (pattern : Pattern)
  | repetition (pattern : Pattern)

def Last.pattern : Last → Pattern
  | nothing => .empty
  | piece pattern => pattern
  | repetition pattern => pattern

def escaped? : List Char → Option (Pattern × List Char)
  | [] => none
  | character :: rest =>
    if ['d', 's', 'w'].contains character then
      some (.range false [] [(false, character)], rest)
    else if ['D', 'S', 'W'].contains character then
      some (.range false [] [(true, character.toLower)], rest)
    else if character == 'n' then
      some (.literal '\n', rest)
    else if character == 't' then
      some (.literal '\t', rest)
    else if character == 'r' then
      some (.literal '\r', rest)
    else if Text.isPlainLetter character || Text.isPlainDigit character then
      none
    else
      some (.literal character, rest)

def members? (fuel : Nat) (first : Bool) (ranges : List (Char × Char)) (classes : List (Bool × Char)) :
    List Char → Option ((List (Char × Char) × List (Bool × Char)) × List Char)
  | [] => none
  | ']' :: rest =>
    if first then continueWith fuel ranges classes ']' rest else some ((ranges, classes), rest)
  | '\\' :: rest =>
    match escaped? rest, fuel with
    | some (.range _ _ found, rest), fuel + 1 => members? fuel false ranges (classes ++ found) rest
    | some (.literal character, rest), fuel => continueWith fuel ranges classes character rest
    | _, _ => none
  | character :: rest => continueWith fuel ranges classes character rest
where
  continueWith (fuel : Nat) (ranges : List (Char × Char)) (classes : List (Bool × Char)) (low : Char)
      (rest : List Char) : Option ((List (Char × Char) × List (Bool × Char)) × List Char) :=
    match fuel, rest with
    | 0, _ => none
    | _ + 1, '-' :: ']' :: rest => some ((ranges ++ [(low, low), ('-', '-')], classes), rest)
    | fuel + 1, '-' :: high :: rest =>
      if high < low then none else members? fuel false (ranges ++ [(low, high)]) classes rest
    | fuel + 1, rest => members? fuel false (ranges ++ [(low, low)]) classes rest

/-- Read a pattern up to its end or to a closing parenthesis: `before` are the finished alternatives, `done` the finished
pieces of the current one. -/
def read? (fuel : Nat) (nested : Bool) (before : Option Pattern) (done : Pattern) (last : Last) (text : List Char) :
    Option (Pattern × List Char) :=
  let finished :=
    let current := Pattern.sequence done last.pattern
    match before with
    | some other => Pattern.alternative other current
    | none => current
  match fuel with
  | 0 => none
  | fuel + 1 =>
    match mark? text with
    | some ((least, most), rest) =>
      match last with
      | .piece pattern =>
        if most.any (· < least) then
          none
        else
          let (greedy, rest) := match rest with
            | '?' :: rest => (false, rest)
            | _ => (true, rest)
          read? fuel nested before done (.repetition (.repeated pattern least most greedy)) rest
      | _ => none
    | none =>
      let next := fun piece rest => read? fuel nested before (.sequence done last.pattern) (.piece piece) rest
      match text with
      | [] => if nested then none else some (finished, [])
      | ')' :: rest => if nested then some (finished, rest) else none
      | '|' :: rest => read? fuel nested (some finished) .empty .nothing rest
      | '(' :: rest =>
        let rest := match rest with
          | '?' :: ':' :: rest => some rest
          | '?' :: _ => none
          | rest => some rest
        match rest.bind (read? fuel true none .empty .nothing) with
        | some (inner, rest) => next inner rest
        | none => none
      | '[' :: '^' :: rest =>
        match members? (rest.length + 1) true [] [] rest with
        | some ((ranges, classes), rest) => next (.range true ranges classes) rest
        | none => none
      | '[' :: rest =>
        match members? (rest.length + 1) true [] [] rest with
        | some ((ranges, classes), rest) => next (.range false ranges classes) rest
        | none => none
      | '\\' :: rest =>
        match escaped? rest with
        | some (piece, rest) => next piece rest
        | none => none
      | '^' :: rest => next .lineStart rest
      | '$' :: rest => next .lineEnd rest
      | '.' :: rest => next .any rest
      | character :: rest => next (.literal character) rest

def ofText (text : String) : Except Fault Pattern :=
  match read? (2 * text.length + 2) false none .empty .nothing text.toList with
  | some (pattern, []) => .ok pattern
  | _ => .error .malformedPattern

end Pattern

end MintAudit
