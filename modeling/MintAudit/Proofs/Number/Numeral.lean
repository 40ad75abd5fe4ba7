import Mathlib
import Mathlib.Data.List.Infix
import MintAudit.Graph.Basic

namespace MintAudit

/-!
# Numerals and pieces of texts

The digits of a number read as that number, with zeros in front as well, and hexadecimal digits behind their mark read as
some number.
-/

/-! ## Pieces of texts and lists -/

open List

theorem Text.splitOnChar_ne_nil (separator : Char) (text : String) : splitOnChar separator text ≠ [] := by
  have cut : cutsAt (· == separator) text.toList ≠ [] := by
    cases text.toList with
    | nil => exact cons_ne_nil _ _
    | cons first rest =>
      rw [cutsAt]
      split
      · exact cons_ne_nil _ _
      · split <;> exact cons_ne_nil _ _
  simpa [splitOnChar, splitAt] using cut

theorem Text.splitOnChar_of_not_mem {separator : Char} {characters : List Char} (within : separator ∉ characters) :
    splitOnChar separator (String.ofList characters) = [String.ofList characters] := by
  have cut : cutsAt (· == separator) characters = [characters] := by
    induction characters with
    | nil => rfl
    | cons first others ih =>
      obtain ⟨different, remaining⟩ : separator ≠ first ∧ separator ∉ others := by simpa using within
      simp [cutsAt, different.symm, ih remaining]
  simp [splitOnChar, splitAt, cut]

theorem Text.splitOnChar_append {separator : Char} {front : List Char} (within : separator ∉ front) (rest : List Char) :
    splitOnChar separator (String.ofList (front ++ separator :: rest)) =
      String.ofList front :: splitOnChar separator (String.ofList rest) := by
  have cut : cutsAt (· == separator) (front ++ separator :: rest) = front :: cutsAt (· == separator) rest := by
    induction front with
    | nil => simp [cutsAt]
    | cons first others ih =>
      obtain ⟨different, remaining⟩ : separator ≠ first ∧ separator ∉ others := by simpa using within
      simp [cutsAt, different.symm, ih remaining]
  simp [splitOnChar, splitAt, cut]

theorem Text.getLast?_splitOnChar (separator : Char) (characters : List Char) :
    (splitOnChar separator (String.ofList characters)).getLast? =
      some (String.ofList (characters.rtakeWhile (· ≠ separator))) := by
  generalize length : characters.length = size
  induction size using Nat.strongRecOn generalizing characters with
  | ind size ih =>
    by_cases within : separator ∈ characters
    · obtain ⟨front, rest, shape, outside⟩ := eq_append_cons_of_mem within
      have shorter : rest.length < size := by
        rw [← length, shape, length_append, length_cons]
        omega
      have last : characters.rtakeWhile (· ≠ separator) = rest.rtakeWhile (· ≠ separator) := by
        rw [shape, List.rtakeWhile, List.rtakeWhile, List.reverse_append, reverse_cons, List.append_assoc,
          takeWhile_append, singleton_append, takeWhile_cons_of_neg (by simp), append_nil]
        split
        · next whole =>
          rw [(List.takeWhile_prefix _).eq_of_length whole]
        · rfl
      rw [shape, splitOnChar_append outside, getLast?_cons, ih _ shorter rest rfl, ← shape, last]
      rfl
    · have whole : characters.rtakeWhile (· ≠ separator) = characters := by
        rw [rtakeWhile_eq_self_iff]
        intro character member
        simpa using ne_of_mem_of_not_mem member within
      rw [splitOnChar_of_not_mem within, whole]
      rfl

/-! ## Texts in texts -/

theorem Text.startsWithChars_iff (text start : List Char) : startsWithChars text start = true ↔ start <+: text := by
  fun_induction startsWithChars text start with
  | case1 => simp
  | case2 => simp
  | case3 character text wanted start ih =>
    rw [Bool.and_eq_true, beq_iff_eq, ih, cons_prefix_cons, eq_comm]

theorem Text.containsChars_iff (wanted text : List Char) : containsChars wanted text = true ↔ wanted <:+: text := by
  induction text with
  | nil => simp [containsChars]
  | cons character rest ih =>
    rw [containsChars, Bool.or_eq_true, startsWithChars_iff, ih, infix_cons_iff]

theorem Text.contains_iff (text wanted : String) : contains text wanted = true ↔ wanted.toList <:+: text.toList :=
  containsChars_iff wanted.toList text.toList

/-! ## Positions inside of a list -/

namespace Sequence

theorem index?_natCast {length index : Nat} (inside : index < length) : index? length index = some index := by
  have front : ¬ ((index : Int) < 0) := by omega
  simp only [index?, front, if_false]
  rw [if_pos (by omega), Int.toNat_natCast]

theorem index?_last {length : Nat} (some : 0 < length) : index? length (-1) = .some (length - 1) := by
  have last : (-1 + (length : Int)).toNat = length - 1 := by omega
  simp only [index?, show (-1 : Int) < 0 by decide, if_true]
  rw [if_pos (by omega), last]

theorem clamp_natCast (length position : Nat) : clamp length position = min position length := by
  have front : ¬ ((position : Int) < 0) := by omega
  simp only [clamp, front, if_false]
  omega

theorem toList_sliceArray (members : List α) (first last : Nat) :
    (sliceArray members.toArray first last).toList = (members.take last).drop first := by
  rw [sliceArray, clamp_natCast, clamp_natCast, List.size_toArray, Array.toList_extract, extract_eq_take_drop,
    ← drop_take, ← take_eq_take_min]
  rcases Nat.le_total first members.length with inside | beyond
  · rw [Nat.min_eq_left inside]
  · rw [Nat.min_eq_right beyond, drop_of_length_le, drop_of_length_le]
    · exact (length_take_le' _ _).trans beyond
    · exact length_take_le' _ _

end Sequence

/-! ## Numerals read back -/

open Token

theorem Text.isPlainDigit_iff (character : Char) :
    isPlainDigit character = true ↔ 48 ≤ character.toNat ∧ character.toNat ≤ 57 := by
  simp [isPlainDigit, Char.le_def, UInt32.le_iff_toNat_le]

theorem Text.isPlainDigit_ne {character other : Char} (digit : isPlainDigit character = true)
    (different : isPlainDigit other = false) :
    character ≠ other := by
  rintro rfl
  rw [digit] at different
  cases different

theorem Text.strip_ofList {characters : List Char} (full : ∀ character ∈ characters, isBlank character = false) :
    strip (String.ofList characters) = String.ofList characters := by
  have front : characters.dropWhile isBlank = characters := by
    cases characters with
    | nil => rfl
    | cons first rest => simp [full first mem_cons_self]
  have back : characters.reverse.dropWhile isBlank = characters.reverse := by
    cases shape : characters.reverse with
    | nil => rfl
    | cons last rest =>
      have member : last ∈ characters := mem_reverse.mp (shape ▸ mem_cons_self)
      simp [full last member]
  simp [strip, stripWhile, dropFront, dropBack, front, back]

theorem Token.isHexDigit_iff (character : Char) :
    isHexDigit character = true ↔
      (48 ≤ character.toNat ∧ character.toNat ≤ 57) ∨ (97 ≤ character.toNat ∧ character.toNat ≤ 102) ∨
        (65 ≤ character.toNat ∧ character.toNat ≤ 70) := by
  simp [isHexDigit, Text.isPlainDigit, Char.le_def, UInt32.le_iff_toNat_le, or_assoc]

theorem Token.isHexDigit_ne {character other : Char} (digit : isHexDigit character = true)
    (different : isHexDigit other = false) :
    character ≠ other := by
  rintro rfl
  rw [digit] at different
  cases different

theorem Token.isBlank_of_isHexDigit {character : Char} (digit : isHexDigit character = true) :
    Text.isBlank character = false := by
  have bounds := (isHexDigit_iff character).mp digit
  simp only [Text.isBlank, Bool.or_eq_false_iff, Bool.and_eq_false_iff, decide_eq_false_iff_not, beq_eq_false_iff_ne]
  omega

namespace Numeral

variable {character : Char}

theorem decimalDigit?_of_isPlainDigit (digit : Text.isPlainDigit character = true) :
    decimalDigit? character = some (character.toNat - 48) := by
  obtain ⟨least, most⟩ := (Text.isPlainDigit_iff character).mp digit
  have first : zeros.find? (fun first => first ≤ character.toNat && character.toNat < first + 10) = some 48 := by
    rw [zeros, find?_cons_of_pos]
    simp only [Bool.and_eq_true, decide_eq_true_eq]
    omega
  simp only [decimalDigit?, first, Option.map_some]

variable {base number : Nat}

theorem digit?_of_isPlainDigit (many : 10 ≤ base) (digit : Text.isPlainDigit character = true) :
    digit? base character = some (character.toNat - 48) := by
  obtain ⟨least, most⟩ := (Text.isPlainDigit_iff character).mp digit
  have small : ¬ (97 ≤ character.toNat ∧ character.toNat ≤ 122) := by omega
  have large : ¬ (65 ≤ character.toNat ∧ character.toNat ≤ 90) := by omega
  have below : character.toNat - 48 < base := by omega
  simp [digit?, small, large, decimalDigit?_of_isPlainDigit digit, Option.filter, below]

theorem digit?_of_isHexDigit (digit : isHexDigit character = true) : ∃ value, digit? 16 character = some value := by
  rcases (isHexDigit_iff character).mp digit with plain | small | large
  · exact ⟨_, digit?_of_isPlainDigit (by omega) ((Text.isPlainDigit_iff character).mpr plain)⟩
  · have range : 97 ≤ character.toNat ∧ character.toNat ≤ 122 := by omega
    have below : character.toNat - 87 < 16 := by omega
    exact ⟨character.toNat - 87, by simp [digit?, range, Option.filter, below]⟩
  · have outside : ¬ (97 ≤ character.toNat ∧ character.toNat ≤ 122) := by omega
    have range : 65 ≤ character.toNat ∧ character.toNat ≤ 90 := by omega
    have below : character.toNat - 55 < 16 := by omega
    exact ⟨character.toNat - 55, by simp [digit?, outside, range, Option.filter, below]⟩

theorem digit?_digitChar {digit : Nat} (most : base ≤ 16) (below : digit < base) :
    isHexDigit digit.digitChar = true ∧ digit? base digit.digitChar = some digit := by
  have found : ∀ value < 16, isHexDigit (Nat.digitChar value) = true ∧
      digit? 16 (Nat.digitChar value) = some value := by decide
  obtain ⟨isOne, value⟩ := found digit (by omega)
  refine ⟨isOne, ?_⟩
  unfold digit? at value ⊢
  rw [Option.filter_eq_some_iff] at value ⊢
  exact ⟨value.1, decide_eq_true below⟩

theorem digitsOnto_cons {value : Nat} {digit : Char} (hex : isHexDigit digit = true)
    (found : digit? base digit = some value) (read : Nat) (rest : List Char) :
    digitsOnto base read (digit :: rest) = digitsOnto base (read * base + value) rest := by
  have noUnderscore : digit ≠ '_' := isHexDigit_ne hex (by decide)
  rw [digitsOnto, found]
  intro character more same
  exact (noUnderscore same).elim

theorem digitsOnto_hex {characters : List Char} (digits : ∀ character ∈ characters, isHexDigit character = true)
    (read : Nat) :
    ∃ value, digitsOnto 16 read characters = some value := by
  induction characters generalizing read with
  | nil => exact ⟨read, rfl⟩
  | cons first rest ih =>
    obtain ⟨digit, others⟩ := forall_mem_cons.mp digits
    obtain ⟨value, found⟩ := digit?_of_isHexDigit digit
    rw [digitsOnto_cons digit found]
    exact ih others _

theorem isPlainDigit_of_mem_toDigits (member : character ∈ Nat.toDigits 10 number) :
    Text.isPlainDigit character = true := by
  have digit := Nat.isDigit_of_mem_toDigits (by decide) (by decide) member
  simpa [Char.isDigit, Text.isPlainDigit, Char.le_def] using digit

theorem ne_toString_of_mem {text : String} (member : character ∈ text.toList)
    (noDigit : Text.isPlainDigit character = false) :
    text ≠ toString number := by
  rintro rfl
  have digit := isPlainDigit_of_mem_toDigits (by simpa [Nat.repr] using member)
  rw [noDigit] at digit
  cases digit

theorem exists_of_mem_toDigits (some : 1 < base) (member : character ∈ Nat.toDigits base number) :
    ∃ digit < base, character = Nat.digitChar digit := by
  induction number using Nat.strongRecOn with
  | ind number ih =>
    rcases Nat.lt_or_ge number base with small | large
    · rw [Nat.toDigits_of_lt_base small, mem_singleton] at member
      exact ⟨number, small, member⟩
    · rw [Nat.toDigits_of_base_le some large, mem_append, mem_singleton] at member
      rcases member with front | last
      · exact ih _ (Nat.div_lt_self (by omega) some) front
      · exact ⟨_, Nat.mod_lt _ (by omega), last⟩

theorem digitsOnto_toDigits (some : 1 < base) (most : base ≤ 16) (number : Nat) (rest : List Char) :
    digitsOnto base 0 (Nat.toDigits base number ++ rest) = digitsOnto base number rest := by
  induction number using Nat.strongRecOn generalizing rest with
  | ind number ih =>
    rcases Nat.lt_or_ge number base with small | large
    · obtain ⟨hex, found⟩ := digit?_digitChar most small
      rw [Nat.toDigits_of_lt_base small, singleton_append, digitsOnto_cons hex found, Nat.zero_mul, Nat.zero_add]
    · obtain ⟨hex, found⟩ := digit?_digitChar most (Nat.mod_lt number (Nat.zero_lt_of_lt some))
      rw [Nat.toDigits_of_base_le some large, List.append_assoc, singleton_append,
        ih _ (Nat.div_lt_self (by omega) some), digitsOnto_cons hex found, Nat.div_add_mod']

theorem read?_eq_digitsOnto (base : Nat) {digits : List Char} (some : digits ≠ [])
    (hex : ∀ digit ∈ digits, isHexDigit digit = true) :
    read? base (String.ofList digits) = (digitsOnto base 0 digits).map fun size => (size : Int) := by
  have different : ∀ other, isHexDigit other = false → other ∉ digits :=
    fun other noDigit member => isHexDigit_ne (hex other member) noDigit rfl
  have unmarked : unsigned? base digits = digits? base digits := by
    have noSmall := different 'x' (by decide)
    have noLarge := different 'X' (by decide)
    unfold unsigned?
    split <;> simp_all
  have plain : digits? base digits = digitsOnto base 0 digits := by
    have noUnderscore := different '_' (by decide)
    unfold digits?
    split <;> simp_all
  have noMinus := different '-' (by decide)
  have noPlus := different '+' (by decide)
  unfold read?
  rw [Text.strip_ofList fun digit member => isBlank_of_isHexDigit (hex digit member), String.toList_ofList]
  split
  · simp_all
  · simp_all
  · rw [unmarked, plain]

theorem isHexDigit_of_mem_toDigits (some : 1 < base) (most : base ≤ 16) :
    ∀ digit ∈ Nat.toDigits base number, isHexDigit digit = true := by
  intro character member
  obtain ⟨digit, below, rfl⟩ := exists_of_mem_toDigits some member
  exact (digit?_digitChar most below).1

theorem read?_toDigits (number : Nat) : read? 10 (String.ofList (Nat.toDigits 10 number)) = some (number : Int) := by
  rw [read?_eq_digitsOnto 10 Nat.toDigits_ne_nil (isHexDigit_of_mem_toDigits (by decide) (by decide)),
    ← append_nil (Nat.toDigits 10 number), digitsOnto_toDigits (by decide) (by decide)]
  rfl

def padded (zeros number : Nat) : List Char :=
  List.replicate zeros '0' ++ Nat.toDigits 16 number

theorem isHexDigit_of_mem_padded {zeros : Nat} : ∀ digit ∈ padded zeros number, isHexDigit digit = true := by
  intro digit member
  rcases mem_append.mp member with zero | behind
  · rw [eq_of_mem_replicate zero]
    decide
  · exact isHexDigit_of_mem_toDigits (by decide) (by decide) digit behind

theorem read?_padded (zeros number : Nat) : read? 16 (String.ofList (padded zeros number)) = some (number : Int) := by
  have zero : digit? 16 '0' = some 0 := by decide
  have passed : digitsOnto 16 0 (padded zeros number) = digitsOnto 16 0 (Nat.toDigits 16 number) := by
    unfold padded
    induction zeros with
    | zero => rfl
    | succ zeros ih =>
      rw [List.replicate_succ, List.cons_append, digitsOnto_cons (by decide) zero 0]
      exact ih
  have filled : padded zeros number ≠ [] := by simp [padded, Nat.toDigits_ne_nil]
  rw [read?_eq_digitsOnto 16 filled isHexDigit_of_mem_padded, passed, ← append_nil (Nat.toDigits 16 number),
    digitsOnto_toDigits (by decide) (by decide)]
  rfl

theorem read?_hex {digits : List Char} (some : digits ≠ []) (hex : ∀ digit ∈ digits, isHexDigit digit = true) :
    (read? 16 (String.ofList ('0' :: 'x' :: digits))).isSome := by
  have full : ∀ character ∈ '0' :: 'x' :: digits, Text.isBlank character = false := by
    refine forall_mem_cons.mpr ⟨by decide, forall_mem_cons.mpr ⟨by decide, ?_⟩⟩
    exact fun digit member => isBlank_of_isHexDigit (hex digit member)
  unfold read?
  rw [Text.strip_ofList full, String.toList_ofList]
  cases digits with
  | nil => exact (some rfl).elim
  | cons first rest =>
    have noUnderscore : first ≠ '_' := isHexDigit_ne (hex first mem_cons_self) (by decide)
    obtain ⟨value, found⟩ := digitsOnto_hex hex 0
    simp [unsigned?, digits?, noUnderscore, found]

end Numeral

end MintAudit
