import MintAudit.Proofs.Number.Numeral

namespace MintAudit

/-!
# Scanning a listing in normal form

A line of a listing in normal form is an address, the name of an instruction and perhaps further words and constants,
the last constant behind an arrow.
-/

open Text List

namespace Text

def isPlain (character : Char) : Bool :=
  isPlainLetter character || isPlainDigit character

variable {character : Char}

theorem isWordCharacter_of_isPlain (plain : isPlain character = true) : isWordCharacter character = true := by
  rcases Bool.or_eq_true_iff.mp plain with letter | digit
  · simp [isWordCharacter, startsName, isLetter, letter]
  · simp [isWordCharacter, Numeral.decimalDigit?_of_isPlainDigit digit]

theorem isPlain_ne {character other : Char} (plain : isPlain character = true) (different : isPlain other = false) :
    character ≠ other := by
  rintro rfl
  rw [plain] at different
  cases different

theorem isPlain_of_isHexDigit (digit : Token.isHexDigit character = true) : isPlain character = true := by
  rw [Token.isHexDigit_iff] at digit
  simp [isPlain, isPlainLetter, isPlainDigit, Char.le_def, UInt32.le_iff_toNat_le]
  omega

theorem not_mem_of_isPlain {characters : List Char} (plain : ∀ character ∈ characters, isPlain character = true)
    {control : Char} (noPlain : isPlain control = false) :
    control ∉ characters :=
  fun member => isPlain_ne (plain control member) noPlain rfl

theorem isPlain_of_isPlainDigit (digit : isPlainDigit character = true) : isPlain character = true := by
  simp [isPlain, digit]

theorem isGap_of_isPlain (plain : isPlain character = true) : ¬Token.isGap character = true := by
  have noBlank : character ≠ ' ' := isPlain_ne plain (by decide)
  have noTab : character ≠ '\t' := isPlain_ne plain (by decide)
  have noFeed : character ≠ '\x0c' := isPlain_ne plain (by decide)
  simp [Token.isGap, noBlank, noTab, noFeed]

theorem isPlain_of_isPlainLetter (letter : isPlainLetter character = true) : isPlain character = true := by
  simp [isPlain, letter]

theorem isPlainDigit_of_isPlainLetter (letter : isPlainLetter character = true) : isPlainDigit character = false := by
  have bounds : (97 ≤ character.toNat ∧ character.toNat ≤ 122) ∨ (65 ≤ character.toNat ∧ character.toNat ≤ 90) := by
    simpa [isPlainLetter, Char.le_def, UInt32.le_iff_toNat_le] using letter
  rw [Bool.eq_false_iff, ne_eq, isPlainDigit_iff]
  omega

end Text

namespace Token

variable {digits : List Char} {isDigit : Char → Bool} {stop : Char} {first : Char}

theorem moreDigits_append (noUnderscore : isDigit '_' = false) (all : ∀ digit ∈ digits, isDigit digit = true)
    (stops : isDigit stop = false) (underscored : stop ≠ '_') (rest : List Char) :
    moreDigits isDigit (digits ++ stop :: rest) = (digits, stop :: rest) := by
  have different : ∀ digit, isDigit digit = true → digit ≠ '_' := by
    rintro digit isOne rfl
    rw [noUnderscore] at isOne
    cases isOne
  induction digits with
  | nil =>
    rw [nil_append, moreDigits]
    · simp [stops]
    · intro character more same
      exact (underscored same).elim
  | cons first others ih =>
    obtain ⟨isOne, remaining⟩ := forall_mem_cons.mp all
    rw [List.cons_append, moreDigits]
    · simp [isOne, ih remaining]
    · intro character more same
      exact (different first isOne same).elim

theorem digitRun_append (noUnderscore : isDigit '_' = false) (some : digits ≠ [])
    (all : ∀ digit ∈ digits, isDigit digit = true) (stops : isDigit stop = false) (underscored : stop ≠ '_')
    (rest : List Char) :
    digitRun isDigit (digits ++ stop :: rest) = .some (digits, stop :: rest) := by
  cases digits with
  | nil => exact (some rfl).elim
  | cons first others =>
    obtain ⟨isOne, remaining⟩ := forall_mem_cons.mp all
    simp [digitRun, isOne, moreDigits_append noUnderscore remaining stops underscored]

theorem head_toDigits_ne_zero {number : Nat} (positive : 0 < number) : (Nat.toDigits 10 number).head? ≠ some '0' := by
  induction number using Nat.strongRecOn with
  | ind number ih =>
    rcases Nat.lt_or_ge number 10 with small | large
    · rw [Nat.toDigits_of_lt_base small]
      simpa using positive.ne'
    · rw [Nat.toDigits_of_base_le (by decide) large, head?_append_of_ne_nil _ Nat.toDigits_ne_nil]
      exact ih (number / 10) (by omega) (by omega)

theorem marked_of_ne (different : first ≠ '0') (lower upper : Char) (isDigit : Char → Bool) (rest : List Char) :
    marked lower upper isDigit (first :: rest) = none := by
  rw [marked]
  rintro mark more same
  exact different (List.cons.inj same).1

theorem number_decimal (address : Nat) (rest : List Char) :
    number (Nat.toDigits 10 address ++ ' ' :: rest) = some (Nat.toDigits 10 address, ' ' :: rest) := by
  have digits : ∀ character ∈ Nat.toDigits 10 address, isPlainDigit character = true :=
    fun _ => Numeral.isPlainDigit_of_mem_toDigits
  have run : digitRun isPlainDigit (Nat.toDigits 10 address ++ ' ' :: rest) =
      some (Nat.toDigits 10 address, ' ' :: rest) :=
    digitRun_append (by decide) Nat.toDigits_ne_nil digits (by decide) (by decide) rest
  have noFloat : floatNumber (Nat.toDigits 10 address ++ ' ' :: rest) = none := by simp [floatNumber, run, exponent]
  have whole : wholeNumber (Nat.toDigits 10 address ++ ' ' :: rest) = some (Nat.toDigits 10 address, ' ' :: rest) := by
    rcases Nat.eq_zero_or_pos address with rfl | positive
    · simp [wholeNumber, marked, digitRun, moreDigits]
    · have noZero := head_toDigits_ne_zero positive
      cases shape : Nat.toDigits 10 address with
      | nil => exact (Nat.toDigits_ne_nil shape).elim
      | cons first others =>
        rw [shape] at noZero run
        have different : first ≠ '0' := by simpa using noZero
        rw [List.cons_append] at run ⊢
        simp [wholeNumber, marked_of_ne different, run, different]
  simp [number, run, imaginary, noFloat, whole]

theorem number_hex (some : digits ≠ []) (hex : ∀ digit ∈ digits, isHexDigit digit = true)
    (stops : isHexDigit stop = false) (underscored : stop ≠ '_') (rest : List Char) :
    number ('0' :: 'x' :: (digits ++ stop :: rest)) = .some ('0' :: 'x' :: digits, stop :: rest) := by
  have stopped : moreDigits isPlainDigit ([] ++ 'x' :: (digits ++ stop :: rest)) =
      ([], 'x' :: (digits ++ stop :: rest)) :=
    moreDigits_append (by decide) (forall_mem_nil _) (by decide) (by decide) _
  have run : digitRun isPlainDigit ('0' :: 'x' :: (digits ++ stop :: rest)) =
      .some (['0'], 'x' :: (digits ++ stop :: rest)) := by
    rw [nil_append] at stopped
    simp [digitRun, show isPlainDigit '0' = true from rfl, stopped]
  have noFloat : floatNumber ('0' :: 'x' :: (digits ++ stop :: rest)) = none := by simp [floatNumber, run, exponent]
  have more : moreDigits isHexDigit (digits ++ stop :: rest) = (digits, stop :: rest) :=
    moreDigits_append (by decide) hex stops underscored rest
  have whole : wholeNumber ('0' :: 'x' :: (digits ++ stop :: rest)) = .some ('0' :: 'x' :: digits, stop :: rest) := by
    cases digits with
    | nil => exact (some rfl).elim
    | cons first others =>
      rw [List.cons_append] at more
      simp [wholeNumber, marked, more]
  simp [number, run, imaginary, noFloat, whole]

theorem number_of_isPlainLetter (letter : isPlainLetter first = true) (rest : List Char) :
    number (first :: rest) = none := by
  have noDigit := isPlainDigit_of_isPlainLetter letter
  have noPoint : first ≠ '.' := by
    rintro rfl
    cases letter
  have noZero : first ≠ '0' := by
    rintro rfl
    cases letter
  simp [number, digitRun, noDigit, imaginary, floatNumber, noPoint, wholeNumber, marked_of_ne noZero, noZero]

theorem sign_of_isPlainLetter (letter : isPlainLetter first = true) (rest : List Char) :
    sign (first :: rest) = none := by
  have unlike : ∀ sign ∈ signs, sign.toList.head?.map isPlainLetter = some false := by decide
  have none : signs.find? (fun sign => startsWithChars (first :: rest) sign.toList) = none := by
    refine find?_eq_none.mpr fun sign member begins => ?_
    have different := unlike sign member
    cases shape : sign.toList with
    | nil =>
      rw [shape] at different
      cases different
    | cons head tail =>
      rw [shape] at different begins
      simp only [startsWithChars, Bool.and_eq_true, beq_iff_eq] at begins
      rw [begins.1] at letter
      simp [letter] at different
  simp [sign, none]

section Steps

variable {fuel : Nat} {depth : Int} {characters rest : List Char} {first : Char}

theorem scanLine_number (front : characters.dropWhile isGap = first :: rest) (digit : isPlainDigit first = true)
    {taken left : List Char} (found : number (first :: rest) = some (taken, left)) :
    scanLine (fuel + 1) depth characters =
      (⟨.number, String.ofList taken⟩ :: (scanLine fuel depth left).1, (scanLine fuel depth left).2) := by
  have noBackslash : first ≠ '\\' := isPlainDigit_ne digit (by decide)
  have noHash : first ≠ '#' := isPlainDigit_ne digit (by decide)
  have noLineFeed : first ≠ '\n' := isPlainDigit_ne digit (by decide)
  cases characters with
  | nil => cases front
  | cons head others => simp [scanLine, front, found, noBackslash]

theorem scanLine_name (front : characters.dropWhile isGap = first :: rest) (letter : isPlainLetter first = true) :
    scanLine (fuel + 1) depth characters =
      (⟨.name, String.ofList ((first :: rest).takeWhile isWordCharacter)⟩ ::
          (scanLine fuel depth ((first :: rest).dropWhile isWordCharacter)).1,
        (scanLine fuel depth ((first :: rest).dropWhile isWordCharacter)).2) := by
  have plain := isPlain_of_isPlainLetter letter
  have noBackslash : first ≠ '\\' := isPlain_ne plain (by decide)
  have noHash : first ≠ '#' := isPlain_ne plain (by decide)
  have noLineFeed : first ≠ '\n' := isPlain_ne plain (by decide)
  have word := isWordCharacter_of_isPlain plain
  have starts : startsName first = true := by simp [startsName, isLetter, letter]
  cases characters with
  | nil => cases front
  | cons head others =>
    simp [scanLine, front, number_of_isPlainLetter letter, sign_of_isPlainLetter letter, noBackslash, word, starts]

end Steps

theorem scanLine_lineFeed (fuel : Nat) : scanLine (fuel + 2) 0 ['\n'] = ([⟨.lineEnd, "\n"⟩], 0, false) := by
  rfl

end Token

namespace Listing

def isName (text : String) : Bool :=
  match text.toList with
  | first :: rest => Text.isPlainLetter first && rest.all Text.isPlain
  | [] => false

def isInert (name : String) : Bool :=
  !("JUMPDEST" :: "JUMP" :: "JUMPI" :: terminals).contains name && !Text.startsWith name "PUSH"

inductive Part where
  | word (text : String)
  | arrow
  | constant (digits : List Char)
  deriving DecidableEq, Repr

def Part.isFitting : Part → Bool
  | word text => isName text && isInert text
  | arrow => true
  | constant digits => digits ≠ [] && digits.all Token.isHexDigit

def Part.characters : Part → List Char
  | word text => text.toList
  | arrow => ['=', '>']
  | constant digits => '0' :: 'x' :: digits

def Part.tokens : Part → List Token
  | word text => [⟨.name, text⟩]
  | arrow => [⟨.other, "="⟩, ⟨.other, ">"⟩]
  | constant digits => [⟨.number, String.ofList ('0' :: 'x' :: digits)⟩]

/-- Whether a constant follows the name of a push; it lacks only where zero is pushed. -/
def takesConstant (name : String) : List Part → Bool
  | [] => name == "PUSH0"
  | [.arrow, .constant _] => true
  | _ => false

structure Line where
  address : Nat
  name : String
  parts : List Part := []
  named : isName name = true := by decide
  fitting : ∀ part ∈ parts, part.isFitting = true := by decide
  pushes : Text.startsWith name "PUSH" = true → takesConstant name parts = true := by decide

def Line.writtenParts (parts : List Part) : List Char :=
  parts.flatMap (fun part => ' ' :: part.characters) ++ ['\n']

def Line.characters (line : Line) : List Char :=
  Nat.toDigits 10 line.address ++ ' ' :: (line.name.toList ++ writtenParts line.parts)

def Line.tokens (line : Line) : List Token :=
  ⟨.number, String.ofList (Nat.toDigits 10 line.address)⟩ :: ⟨.name, line.name⟩ ::
    (line.parts.flatMap Part.tokens ++ [⟨.lineEnd, "\n"⟩])

end Listing

namespace Token

open Listing

theorem exists_of_isName {text : String} (named : isName text = true) :
    ∃ first rest, text.toList = first :: rest ∧ isPlainLetter first = true ∧
      ∀ character ∈ text.toList, isPlain character = true := by
  unfold isName at named
  split at named
  · next first rest shape =>
    obtain ⟨letter, plain⟩ := Bool.and_eq_true_iff.mp named
    refine ⟨first, rest, shape, letter, ?_⟩
    rw [shape]
    exact forall_mem_cons.mpr ⟨isPlain_of_isPlainLetter letter, all_eq_true.mp plain⟩
  · cases named

section Parts

variable {stop : Char} (stops : stop = ' ' ∨ stop = '\n') (fuel : Nat) (rest : List Char)

include stops

theorem scanLine_written_name {name : String} (named : isName name = true) :
    scanLine (fuel + 1) 0 (' ' :: (name.toList ++ stop :: rest)) =
      (⟨.name, name⟩ :: (scanLine fuel 0 (stop :: rest)).1, (scanLine fuel 0 (stop :: rest)).2) := by
  obtain ⟨first, others, shape, letter, plain⟩ := exists_of_isName named
  have word : ∀ character ∈ name.toList, isWordCharacter character = true :=
    fun character member => isWordCharacter_of_isPlain (plain character member)
  have noWord : ¬isWordCharacter stop = true := by rcases stops with rfl | rfl <;> decide
  have taken : (name.toList ++ stop :: rest).takeWhile isWordCharacter = name.toList := by
    rw [takeWhile_append_of_pos word, takeWhile_cons_of_neg noWord, append_nil]
  have left : (name.toList ++ stop :: rest).dropWhile isWordCharacter = stop :: rest := by
    rw [dropWhile_append_of_pos word, dropWhile_cons_of_neg noWord]
  have noGap := isGap_of_isPlain (isPlain_of_isPlainLetter letter)
  have front : (' ' :: (name.toList ++ stop :: rest)).dropWhile isGap = first :: (others ++ stop :: rest) := by
    rw [dropWhile_cons_of_pos (by decide), shape, List.cons_append, dropWhile_cons_of_neg noGap]
  rw [scanLine_name front letter, ← List.cons_append, ← shape, taken, left, String.ofList_toList]

theorem scanLine_part {part : Part} (fitting : part.isFitting = true) :
    scanLine (fuel + part.tokens.length) 0 (' ' :: (part.characters ++ stop :: rest)) =
      (part.tokens ++ (scanLine fuel 0 (stop :: rest)).1, (scanLine fuel 0 (stop :: rest)).2) := by
  cases part with
  | word text => exact scanLine_written_name stops fuel rest (Bool.and_eq_true_iff.mp fitting).1
  | arrow => rcases stops with rfl | rfl <;> rfl
  | constant digits =>
    obtain ⟨some, hex⟩ := Bool.and_eq_true_iff.mp fitting
    have front : (' ' :: ('0' :: 'x' :: (digits ++ stop :: rest))).dropWhile isGap =
        '0' :: 'x' :: (digits ++ stop :: rest) := rfl
    have noHex : isHexDigit stop = false := by rcases stops with rfl | rfl <;> decide
    have noUnderscore : stop ≠ '_' := by rcases stops with rfl | rfl <;> decide
    exact scanLine_number front (by decide)
      (number_hex (of_decide_eq_true some) (all_eq_true.mp hex) noHex noUnderscore rest)

end Parts

theorem exists_stop (parts : List Part) :
    ∃ stop rest, Line.writtenParts parts = stop :: rest ∧ (stop = ' ' ∨ stop = '\n') := by
  cases parts with
  | nil => exact ⟨'\n', [], rfl, .inr rfl⟩
  | cons part more => exact ⟨' ', _, rfl, .inl rfl⟩

theorem scanLine_parts {parts : List Part} (fitting : ∀ part ∈ parts, part.isFitting = true) (fuel : Nat) :
    scanLine (fuel + 2 + (parts.flatMap Part.tokens).length) 0 (Line.writtenParts parts) =
      (parts.flatMap Part.tokens ++ [⟨.lineEnd, "\n"⟩], 0, false) := by
  induction parts with
  | nil => exact scanLine_lineFeed fuel
  | cons part more ih =>
    obtain ⟨isOne, others⟩ := forall_mem_cons.mp fitting
    obtain ⟨stop, rest, shape, stops⟩ := exists_stop more
    have onward := ih others
    have written : Line.writtenParts (part :: more) = ' ' :: (part.characters ++ stop :: rest) := by
      rw [← shape]
      simp [Line.writtenParts]
    have steps : fuel + 2 + ((part :: more).flatMap Part.tokens).length =
        fuel + 2 + (more.flatMap Part.tokens).length + part.tokens.length := by
      rw [flatMap_cons, length_append]
      omega
    rw [shape] at onward
    rw [written, steps, scanLine_part stops _ rest isOne, onward, flatMap_cons, List.append_assoc]

theorem scanLine_characters (line : Line) (fuel : Nat) :
    scanLine (fuel + 1 + line.tokens.length) 0 line.characters = (line.tokens, 0, false) := by
  have digits : ∀ character ∈ Nat.toDigits 10 line.address, isPlainDigit character = true :=
    fun _ => Numeral.isPlainDigit_of_mem_toDigits
  obtain ⟨stop, rest, shape, stops⟩ := exists_stop line.parts
  have further := scanLine_parts line.fitting fuel
  rw [shape] at further
  have name := scanLine_written_name stops (fuel + 2 + (line.parts.flatMap Part.tokens).length) rest line.named
  rw [further] at name
  unfold Line.characters
  rw [shape]
  cases address : Nat.toDigits 10 line.address with
  | nil => exact (Nat.toDigits_ne_nil address).elim
  | cons first others =>
    have digit := digits first (address ▸ mem_cons_self)
    have noGap := isGap_of_isPlain (isPlain_of_isPlainDigit digit)
    have front : (first :: others ++ ' ' :: (line.name.toList ++ stop :: rest)).dropWhile isGap =
        first :: (others ++ ' ' :: (line.name.toList ++ stop :: rest)) := by
      rw [List.cons_append, dropWhile_cons_of_neg noGap]
    have found := number_decimal line.address (line.name.toList ++ stop :: rest)
    rw [address, List.cons_append] at found
    have steps : fuel + 1 + line.tokens.length = fuel + 2 + (line.parts.flatMap Part.tokens).length + 1 + 1 := by
      simp only [Line.tokens, length_cons, length_append, length_nil]
      omega
    rw [steps, scanLine_number front digit found, name, ← address]
    rfl

end Token

theorem Text.linesOf_append {front : List Char} (within : '\n' ∉ front) (rest : List Char) :
    linesOf (front ++ '\n' :: rest) = (front ++ ['\n']) :: linesOf rest := by
  induction front with
  | nil => rfl
  | cons first others ih =>
    obtain ⟨different, remaining⟩ : '\n' ≠ first ∧ '\n' ∉ others := by simpa using within
    rw [List.cons_append, linesOf, ih remaining]
    · rfl
    · exact fun same => different same.symm

theorem Text.linesOf_flatMap {view : α → List Char} (within : ∀ item, '\n' ∉ view item) (items : List α) :
    linesOf (items.flatMap fun item => view item ++ ['\n']) = items.map fun item => view item ++ ['\n'] := by
  induction items with
  | nil => rfl
  | cons item rest ih =>
    rw [flatMap_cons, List.append_assoc, singleton_append, linesOf_append (within item), ih]
    rfl

theorem Text.flatten_linesOf (characters : List Char) : (linesOf characters).flatten = characters := by
  induction characters with
  | nil => rfl
  | cons first rest ih =>
    by_cases same : first = '\n'
    · subst same
      simp [linesOf, ih]
    · rw [linesOf]
      · cases shape : linesOf rest with
        | nil =>
          rw [shape] at ih
          simp [← ih]
        | cons line lines =>
          rw [shape] at ih
          simp [← ih]
      · exact same

namespace Listing

theorem unixLineEnds_of_not_mem {characters : List Char} (absent : '\r' ∉ characters) :
    unixLineEnds characters = characters := by
  induction characters with
  | nil => rfl
  | cons first rest ih =>
    obtain ⟨different, remaining⟩ : '\r' ≠ first ∧ '\r' ∉ rest := by simpa using absent
    rw [unixLineEnds, ih remaining]
    · exact fun _ same _ => different same.symm
    · exact fun same => different same.symm

def Line.front (line : Line) : List Char :=
  Nat.toDigits 10 line.address ++ ' ' :: (line.name.toList ++ line.parts.flatMap (fun part => ' ' :: part.characters))

theorem Line.characters_eq (line : Line) : line.characters = line.front ++ ['\n'] := by
  simp [characters, front, writtenParts]

theorem Line.not_mem_front (line : Line) {control : Char} (ends : control = '\n' ∨ control = '\r') :
    control ∉ line.front := by
  have noHex : Token.isHexDigit control = false := by rcases ends with rfl | rfl <;> rfl
  have noPlain : isPlain control = false := by rcases ends with rfl | rfl <;> rfl
  have noSign : control ∉ [' ', '=', '>', '0', 'x'] := by rcases ends with rfl | rfl <;> decide
  have notNamed : ∀ text, isName text = true → control ∉ text.toList := by
    intro text named member
    obtain ⟨_, _, _, _, plain⟩ := Token.exists_of_isName named
    exact isPlain_ne (plain control member) noPlain rfl
  intro member
  simp only [front, mem_append, mem_cons, mem_flatMap] at member
  rcases member with address | blank | name | ⟨part, inParts, blank | inPart⟩
  · have digit := Numeral.isPlainDigit_of_mem_toDigits address
    exact isPlain_ne (isPlain_of_isPlainDigit digit) noPlain rfl
  · exact noSign (by simp [blank])
  · exact notNamed _ line.named name
  · exact noSign (by simp [blank])
  · have fitting := line.fitting part inParts
    cases part with
    | word text => exact notNamed text (Bool.and_eq_true_iff.mp fitting).1 inPart
    | arrow => exact noSign (by simp only [Part.characters, mem_cons] at inPart ⊢; tauto)
    | constant digits =>
      have hex := all_eq_true.mp (Bool.and_eq_true_iff.mp fitting).2
      have inDigits : control ∈ digits := by
        simp only [Part.characters, mem_cons, not_mem_nil, or_false] at inPart noSign
        tauto
      exact Token.isHexDigit_ne (hex control inDigits) noHex rfl

def written (code : List Char) (lines : List Line) : String :=
  String.ofList (code ++ '\n' :: lines.flatMap Line.characters)

theorem body_written {code : List Char} (oneLine : '\n' ∉ code ∧ '\r' ∉ code) (lines : List Line) :
    (body (readText (written code lines))).toList = lines.flatMap Line.characters := by
  have absent : '\r' ∉ code ++ '\n' :: lines.flatMap Line.characters := by
    intro member
    rcases mem_append.mp member with inCode | behind
    · exact oneLine.2 inCode
    · rcases mem_cons.mp behind with same | inLines
      · exact absurd same (by decide)
      · obtain ⟨line, _, inLine⟩ := mem_flatMap.mp inLines
        rw [line.characters_eq] at inLine
        rcases mem_append.mp inLine with front | last
        · exact line.not_mem_front (.inr rfl) front
        · exact absurd (mem_singleton.mp last) (by decide)
  simp only [body, readText, written, String.toList_ofList]
  rw [unixLineEnds_of_not_mem absent, linesOf_append oneLine.1, drop_succ_cons, List.drop_zero, flatten_linesOf]

end Listing

namespace Token

open Listing

theorem length_tokens_le (line : Line) : line.tokens.length ≤ line.characters.length := by
  have parts : (line.parts.flatMap Part.tokens).length + 1 ≤ (Line.writtenParts line.parts).length := by
    induction line.parts with
    | nil => exact Nat.le_refl 1
    | cons part more ih =>
      have one : part.tokens.length ≤ (' ' :: part.characters).length := by
        cases part <;> simp [Part.tokens, Part.characters]
      simp only [Line.writtenParts, flatMap_cons, length_append, length_cons, length_nil] at ih one ⊢
      omega
  have address : 0 < (Nat.toDigits 10 line.address).length := length_pos_of_ne_nil Nat.toDigits_ne_nil
  simp only [Line.tokens, Line.characters, length_append, length_cons, length_nil] at parts ⊢
  omega

theorem scanLines_characters (lines : List Line) {last : List Char}
    (ended : last.getLast? = none ∨ last.getLast? = some '\n') :
    scanLines ⟨[0], 0, false⟩ last (lines.map Line.characters) =
      (lines.flatMap Line.tokens ++ [⟨.other, ""⟩], none) := by
  induction lines generalizing last with
  | nil => rcases ended with none | feed <;> simp [scanLines, ending, *]
  | cons line rest ih =>
    obtain ⟨fuel, enough⟩ := Nat.exists_eq_add_of_le (length_tokens_le line)
    have scanned := scanLine_characters line fuel
    have fuelOf : fuel + 1 + line.tokens.length = line.characters.length + 1 := by omega
    rw [fuelOf] at scanned
    have onward := ih (.inr (show line.characters.getLast? = some '\n' by simp [line.characters_eq]))
    obtain ⟨first, others, shape, digit⟩ : ∃ first others, line.characters = first :: others ∧
        isPlainDigit first = true := by
      unfold Line.characters
      cases address : Nat.toDigits 10 line.address with
      | nil => exact (Nat.toDigits_ne_nil address).elim
      | cons first others => exact ⟨first, _, rfl, Numeral.isPlainDigit_of_mem_toDigits (address ▸ mem_cons_self)⟩
    have noBlank : first ≠ ' ' := isPlainDigit_ne digit (by decide)
    have noTab : first ≠ '\t' := isPlainDigit_ne digit (by decide)
    have noFeed : first ≠ '\x0c' := isPlainDigit_ne digit (by decide)
    have noLineFeed : first ≠ '\n' := isPlainDigit_ne digit (by decide)
    have noHash : first ≠ '#' := isPlainDigit_ne digit (by decide)
    have noGap := isGap_of_isPlain (isPlain_of_isPlainDigit digit)
    have column : indentation 0 (first :: others) = 0 := by rw [indentation] <;> simp [noBlank, noTab, noFeed]
    rw [shape] at scanned onward
    rw [map_cons, shape, scanLines, dropWhile_cons_of_neg noGap]
    simp only [ne_eq, not_true_eq_false, decide_false, Bool.or_self, Bool.false_eq_true, if_false]
    split
    · next empty =>
      cases empty
    · next feed =>
      exact (noLineFeed (List.cons.inj feed).1).elim
    · next hash =>
      exact (noHash (List.cons.inj hash).1).elim
    · rw [length_cons] at scanned
      simp [column, indentTokens, closeTo, scanned, onward]

theorem scan_written {code : List Char} (oneLine : '\n' ∉ code ∧ '\r' ∉ code) (lines : List Line) :
    scan (body (readText (written code lines))) = (lines.flatMap Line.tokens ++ [⟨.other, ""⟩], none) := by
  have cut : linesOf (lines.flatMap Line.characters) = lines.map Line.characters := by
    rw [show Line.characters = fun line => line.front ++ ['\n'] from funext Line.characters_eq]
    exact linesOf_flatMap (fun line => line.not_mem_front (.inl rfl)) lines
  rw [scan, body_written oneLine, cut, scanLines_characters lines (.inl rfl)]

end Token

end MintAudit
