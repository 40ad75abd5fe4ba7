import MintAudit.Compiler.Query
import MintAudit.Proofs.Number.Numeral
import MintAudit.Proofs.Table

namespace MintAudit

/-!
# The order of versions

A version is a row of numbers with points between them.
-/

open List

namespace Version

def IsPart (part : String) : Prop :=
  part.toList ≠ [] ∧ ∀ digit ∈ part.toList, Text.isPlainDigit digit = true

def Dotted (version : String) : Prop :=
  ∀ part ∈ Text.splitOnChar '.' version, IsPart part

def readOnto (value : Nat) (digits : List Char) : Nat :=
  digits.foldl (fun value digit => value * 10 + (digit.toNat - 48)) value

def components (version : String) : List Nat :=
  (Text.splitOnChar '.' version).map fun part => readOnto 0 part.toList

def filled (length : Nat) (numbers : List Nat) : List Nat :=
  numbers ++ replicate (length - numbers.length) 0

def filledOrder (left right : List Nat) : Ordering :=
  let length := max left.length right.length
  compare (filled length left) (filled length right)

def AtMost (left right : String) : Prop :=
  ∃ answer, order left right = .ok answer ∧ sign answer ≤ 0

def trimmed (numbers : List Nat) : List Nat :=
  numbers.rdropWhile (· = 0)

theorem trimmed_cons (number : Nat) (rest : List Nat) :
    trimmed (number :: rest) = if number = 0 ∧ trimmed rest = [] then [] else number :: trimmed rest := by
  unfold trimmed
  induction rest using List.reverseRecOn with
  | nil => simp [rdropWhile_singleton]
  | append_singleton rest last ih =>
    rw [← cons_append, rdropWhile_concat, rdropWhile_concat]
    by_cases zero : last = 0
    · simpa [zero] using ih
    · simp [zero]

theorem compare_trimmed_cons (first second : Nat) (others more : List Nat) :
    compare (trimmed (first :: others)) (trimmed (second :: more)) =
      compare (first :: trimmed others) (second :: trimmed more) := by
  rw [trimmed_cons, trimmed_cons]
  generalize trimmed others = others, trimmed more = more
  cases first <;> cases others <;> cases second <;> cases more <;> rfl

theorem compare_trimmed {length : Nat} {left right : List Nat} (leftFits : left.length ≤ length)
    (rightFits : right.length ≤ length) :
    compare (trimmed left) (trimmed right) = compare (filled length left) (filled length right) := by
  have apart (length : Nat) (numbers : List Nat) :
      filled (length + 1) numbers = numbers.headD 0 :: filled length numbers.tail ∧
        trimmed numbers = trimmed (numbers.headD 0 :: numbers.tail) := by
    cases numbers <;> simp [filled, replicate_succ, trimmed]
  induction length generalizing left right with
  | zero =>
    obtain rfl := length_eq_zero_iff.mp (Nat.le_zero.mp leftFits)
    obtain rfl := length_eq_zero_iff.mp (Nat.le_zero.mp rightFits)
    rfl
  | succ length ih =>
    have tails := @ih left.tail right.tail (by simpa using leftFits) (by simpa using rightFits)
    rw [(apart length left).1, (apart length right).1, (apart 0 left).2, (apart 0 right).2, compare_trimmed_cons]
    exact (List.compareLex_cons_cons.trans (congrArg _ tails)).trans List.compareLex_cons_cons.symm

theorem trimmed_append_zeros (numbers : List Nat) (zeros : Nat) :
    trimmed (numbers ++ replicate zeros 0) = trimmed numbers := by
  induction zeros with
  | zero => simp
  | succ zeros ih =>
    rw [replicate_succ', ← append_assoc, trimmed, rdropWhile_concat_pos _ _ _ (by simp)]
    exact ih

theorem trimmed_eq_iff (left right : List Nat) :
    trimmed left = trimmed right ↔ ∃ more fewer, left ++ replicate more 0 = right ++ replicate fewer 0 := by
  constructor
  · intro same
    have equal := compare_trimmed (le_max_left left.length right.length) (le_max_right _ _)
    rw [same, Std.ReflOrd.compare_self] at equal
    exact ⟨_, _, Std.LawfulEqOrd.compare_eq_iff_eq.mp equal.symm⟩
  · rintro ⟨more, fewer, same⟩
    rw [← trimmed_append_zeros left more, same, trimmed_append_zeros]

variable {digits : List Char} (plain : ∀ digit ∈ digits, Text.isPlainDigit digit = true)

include plain in
theorem digitsOnto_plain (value : Nat) : Numeral.digitsOnto 10 value digits = some (readOnto value digits) := by
  induction digits generalizing value with
  | nil => rfl
  | cons digit rest ih =>
    obtain ⟨here, later⟩ := forall_mem_cons.mp plain
    rw [Numeral.digitsOnto_cons (by simp [Token.isHexDigit, here]) (Numeral.digit?_of_isPlainDigit le_rfl here),
      ih later]
    rfl

include plain in
theorem readOnto_eq_zero_iff (value : Nat) :
    readOnto value digits = 0 ↔ value = 0 ∧ ∀ digit ∈ digits, digit = '0' := by
  induction digits generalizing value with
  | nil => simp [readOnto]
  | cons digit rest ih =>
    obtain ⟨here, later⟩ := forall_mem_cons.mp plain
    obtain ⟨least, _⟩ := (Text.isPlainDigit_iff digit).mp here
    have zero : digit = '0' ↔ digit.toNat = 48 := Char.toNat_inj.symm
    rw [readOnto, foldl_cons, ← readOnto, ih later, forall_mem_cons, zero, ← and_assoc]
    refine and_congr_left fun _ => ?_
    omega

theorem isZeros_part {part : String} (isPart : IsPart part) : isZeros part = decide (readOnto 0 part.toList = 0) := by
  rw [Bool.eq_iff_iff, decide_eq_true_iff, readOnto_eq_zero_iff isPart.2]
  simp [isZeros, isPart.1]

theorem fields_dotted {version : String} (dotted : Dotted version) : fields version = Text.splitOnChar '.' version := by
  have noLineEnd : version.toList.getLast? ≠ some '\n' := by
    intro last
    obtain ⟨front, shape⟩ := getLast?_eq_some_iff.mp last
    have found := Text.getLast?_splitOnChar '.' version.toList
    rw [String.ofList_toList, shape, rtakeWhile_concat_pos _ _ _ (by decide)] at found
    exact Text.isPlainDigit_ne ((dotted _ (mem_of_getLast? found)).2 '\n' (by simp)) (by decide) rfl
  rw [fields, if_neg noLineEnd, String.ofList_toList]

theorem read?_part {part : String} (isPart : IsPart part) :
    Numeral.read? 10 part = some (readOnto 0 part.toList : Int) := by
  have hex : ∀ digit ∈ part.toList, Token.isHexDigit digit = true :=
    fun digit member => by simp [Token.isHexDigit, isPart.2 digit member]
  have read := Numeral.read?_eq_digitsOnto 10 isPart.1 hex
  rwa [digitsOnto_plain isPart.2, String.ofList_toList] at read

theorem trimmed_values {parts : List String} (areParts : ∀ part ∈ parts, IsPart part) :
    (parts.rdropWhile isZeros).map (fun part => readOnto 0 part.toList) =
      trimmed (parts.map fun part => readOnto 0 part.toList) := by
  unfold trimmed
  induction parts using List.reverseRecOn with
  | nil => rfl
  | append_singleton parts last ih =>
    obtain ⟨front, isPart⟩ := forall_mem_append.mp areParts
    rw [rdropWhile_concat, map_append, map_singleton, rdropWhile_concat, isZeros_part (isPart last mem_cons_self)]
    split
    · exact ih front
    · simp

theorem orderOf_natCast (left right : List Nat) :
    orderOf (left.map (Nat.cast : Nat → Int)) (right.map Nat.cast) = compare left right := by
  induction left generalizing right with
  | nil => cases right <;> rfl
  | cons number rest ih =>
    cases right with
    | nil => rfl
    | cons other more =>
      have cast : compare (number : Int) other = compare number other := by simp [compare, compareOfLessAndEq]
      rw [map_cons, map_cons, orderOf, cast, ih]
      exact List.compareLex_cons_cons.symm

theorem numbers_dotted {version : String} (dotted : Dotted version) :
    ∃ first rest, components version = first :: rest ∧ numbers version = .ok ((first :: trimmed rest).map Nat.cast) := by
  unfold numbers
  rw [fields_dotted dotted]
  unfold Dotted components at *
  cases Text.splitOnChar_ne_nil '.' version |> exists_cons_of_ne_nil with
  | intro first shape =>
    obtain ⟨rest, parts⟩ := shape
    rw [parts] at dotted ⊢
    obtain ⟨here, later⟩ := forall_mem_cons.mp dotted
    have kept : ∀ part ∈ first :: rest.rdropWhile isZeros, IsPart part :=
      forall_mem_cons.mpr ⟨here, fun part member => later part ((List.rdropWhile_prefix _ _).subset member)⟩
    refine ⟨_, _, map_cons, ?_⟩
    rw [← trimmed_values later]
    refine (@Effect.mapM_of_forall _ _ _ _ (fun part => (readOnto 0 part.toList : Int)) (first :: rest.rdropWhile isZeros)
      fun part member => ?_).trans (by simp)
    rw [read?_part (kept part member)]

theorem order_dotted {left right : String} (leftDotted : Dotted left) (rightDotted : Dotted right) :
    order left right = .ok (compare (trimmed (components left)) (trimmed (components right))) := by
  obtain ⟨first, others, leftParts, leftRead⟩ := numbers_dotted leftDotted
  obtain ⟨second, more, rightParts, rightRead⟩ := numbers_dotted rightDotted
  rw [leftParts, rightParts, compare_trimmed_cons, order, leftRead, rightRead, ← orderOf_natCast]
  rfl

theorem atMost_iff {left right : String} (leftDotted : Dotted left) (rightDotted : Dotted right) :
    AtMost left right ↔ (compare (trimmed (components left)) (trimmed (components right))).isLE = true := by
  rw [AtMost, order_dotted leftDotted rightDotted]
  cases compare (trimmed (components left)) (trimmed (components right)) <;> simp [sign]

theorem readOnto_zeros (zeros : Nat) (digits : List Char) :
    readOnto 0 (replicate zeros '0' ++ digits) = readOnto 0 digits := by
  induction zeros with
  | zero => rfl
  | succ zeros ih => exact ih

/-- Versions are ordered as their numbers are, filled with zeros to the same length. -/
theorem order_filled {first left right : String} (firstDotted : Dotted first) (leftDotted : Dotted left)
    (rightDotted : Dotted right) :
    (order left right).map sign = .ok (sign (filledOrder (components left) (components right))) ∧
      (AtMost left right ∨ AtMost right left) ∧
      (AtMost first left → AtMost left right → AtMost first right) ∧
      (AtMost left right ∧ AtMost right left ↔
        ∃ more fewer, components left ++ replicate more 0 = components right ++ replicate fewer 0) ∧
      (Forall₂ (fun longer part => ∃ zeros, longer.toList = replicate zeros '0' ++ part.toList)
          (Text.splitOnChar '.' first) (Text.splitOnChar '.' left) →
        order first right = order left right ∧ order right first = order right left) := by
  have swapped : (compare (trimmed (components right)) (trimmed (components left))).isLE = true ↔
      (compare (trimmed (components left)) (trimmed (components right))).isGE = true :=
    Std.OrientedCmp.isGE_iff_isLE.symm
  rw [atMost_iff leftDotted rightDotted, atMost_iff rightDotted leftDotted, atMost_iff firstDotted leftDotted,
    atMost_iff firstDotted rightDotted, swapped, ← trimmed_eq_iff, order_dotted leftDotted rightDotted]
  refine ⟨?_, ?_, Std.TransOrd.isLE_trans, ?_, fun longer => ?_⟩
  · rw [compare_trimmed (le_max_left _ _) (le_max_right _ _)]
    rfl
  · cases compare (trimmed (components left)) (trimmed (components right)) <;> decide
  · rw [← @Std.LawfulEqOrd.compare_eq_iff_eq (List Nat)]
    cases compare (trimmed (components left)) (trimmed (components right)) <;> decide
  · have same : components first = components left := by
      refine forall₂_eq_eq_eq ▸ forall₂_map_left_iff.mpr (forall₂_map_right_iff.mpr (longer.imp ?_))
      rintro part other ⟨zeros, same⟩
      rw [same, readOnto_zeros]
    rw [order_dotted firstDotted rightDotted, order_dotted rightDotted firstDotted, order_dotted rightDotted leftDotted,
      same]
    exact ⟨rfl, rfl⟩

theorem order_filled_zeros :
    Dotted "0.08.0" ∧ Dotted "0.8.0" ∧ Dotted "0.8" ∧ (order "0.8.0" "0.8").map sign = .ok 0 ∧
      AtMost "0.8.0" "0.8" ∧ AtMost "0.8" "0.8.0" ∧ order "0.08.0" "0.8" = order "0.8.0" "0.8" := by
  have first : Text.splitOnChar '.' "0.08.0" = ["0", "08", "0"] := by decide +kernel
  have left : Text.splitOnChar '.' "0.8.0" = ["0", "8", "0"] := by decide +kernel
  have right : Text.splitOnChar '.' "0.8" = ["0", "8"] := by decide +kernel
  have firstDotted : Dotted "0.08.0" := by simp [Dotted, first, IsPart]; decide
  have leftDotted : Dotted "0.8.0" := by simp [Dotted, left, IsPart]; decide
  have rightDotted : Dotted "0.8" := by simp [Dotted, right, IsPart]; decide
  obtain ⟨ordered, -, -, same, longer⟩ := order_filled firstDotted leftDotted rightDotted
  have both := same.mpr ⟨0, 1, by simp [components, left, right, readOnto]⟩
  rw [first, left] at longer
  refine ⟨firstDotted, leftDotted, rightDotted, ?_, both.1, both.2, (longer ?_).1⟩
  · rw [ordered, components, components, left, right]
    rfl
  · exact .cons ⟨0, rfl⟩ (.cons ⟨1, rfl⟩ (.cons ⟨0, rfl⟩ .nil))

end Version

end MintAudit
