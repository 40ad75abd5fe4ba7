import MintAudit.Proofs.Listing.Ends

namespace MintAudit

/-!
# Listings of a disassembler

A disassembler prints the code on one line and then each instruction on its own: the address in hexadecimal digits, a
colon, the name, and behind a push its constant.
-/

open Text List

theorem Text.dropWhile_of_not_mem {stop : Char} {characters : List Char} (absent : stop ∉ characters) :
    characters.dropWhile (· == stop) = characters := by
  cases characters with
  | nil => rfl
  | cons first others =>
    have different : first ≠ stop := fun same => absent (same ▸ mem_cons_self)
    exact dropWhile_cons_of_neg (by simpa using different)

theorem Text.stripWhile_lineFeed {front : List Char} (within : '\n' ∉ front) :
    stripWhile (· == '\n') (String.ofList (front ++ ['\n'])) = String.ofList front := by
  have back : (front ++ ['\n']).reverse.dropWhile (· == '\n') = front.reverse := by
    rw [reverse_concat, dropWhile_cons_of_pos rfl, dropWhile_of_not_mem (by simpa using within)]
  cases front with
  | nil => rfl
  | cons first others =>
    have different : first ≠ '\n' := fun same => within (same ▸ mem_cons_self)
    have ahead : (first :: others ++ ['\n']).dropWhile (· == '\n') = first :: others ++ ['\n'] :=
      dropWhile_cons_of_neg (by simpa using different)
    simp only [stripWhile, dropFront, dropBack, String.toList_ofList, ahead, back, reverse_reverse]

theorem Text.intercalate_lines (first : String) (rest : List String) :
    String.intercalate "\n" (first :: rest) ++ "\n" =
      String.ofList (first.toList ++ '\n' :: rest.flatMap fun line => line.toList ++ ['\n']) := by
  induction rest generalizing first with
  | nil => simp [String.ofList_append]
  | cons second others ih =>
    rw [String.intercalate_cons_cons, String.append_assoc, ih]
    simp [String.ofList_append, String.append_assoc]

namespace Listing

inductive Operation where
  | plain (name : String) (named : isName name = true) (noPush : Text.startsWith name "PUSH" = false)
  | pushZero
  | push (width : Fin 32) (digits : List Char) (filled : digits ≠ [])
      (hex : ∀ digit ∈ digits, Token.isHexDigit digit = true)

namespace Operation

def name : Operation → String
  | plain name _ _ => name
  | pushZero => "PUSH0"
  | push width .. => "PUSH" ++ toString (width.val + 1)

def constants : Operation → List (List Char)
  | push _ digits .. => ['0' :: 'x' :: digits]
  | _ => []

def recorded : Operation → String
  | plain name _ _ => name ++ " "
  | pushZero => "PUSH0 0 "
  | push width digits .. => "PUSH" ++ toString (width.val + 1) ++ " " ++ String.ofList ('0' :: 'x' :: digits) ++ " "

def characters (operation : Operation) : List Char :=
  operation.name.toList ++ operation.constants.flatMap (' ' :: ·)

theorem pushName :
    ∀ width : Fin 32, isName ("PUSH" ++ toString (width.val + 1)) = true ∧
      startsWith ("PUSH" ++ toString (width.val + 1)) "PUSH" = true := by
  decide +kernel

theorem noParts : ∀ part ∈ [], Part.isFitting part := forall_mem_nil _

def line (address : Nat) : Operation → Line
  | plain name named noPush =>
    { address, name, named, fitting := noParts, pushes := fun push => by simp [noPush] at push }
  | pushZero => { address, name := "PUSH0", fitting := noParts }
  | push width digits filled hex =>
    { address
      name := "PUSH" ++ toString (width.val + 1)
      parts := [.arrow, .constant digits]
      named := (pushName width).1
      fitting := by simpa [Part.isFitting, filled] using hex
      pushes := fun _ => rfl }

theorem entry_line (address : Nat) (operation : Operation) :
    (operation.line address).entry = ((address : Int), operation.recorded) := by
  cases operation with
  | plain name named noPush => simp [line, Line.entry, Line.content, Line.isPush, noPush, recorded]
  | pushZero =>
    have push : (line address pushZero).isPush = true := (by decide : startsWith "PUSH0" "PUSH" = true)
    rw [Line.entry, Line.content, if_pos push]
    rfl
  | push width digits filled hex =>
    have push : (line address (.push width digits filled hex)).isPush = true := (pushName width).2
    rw [Line.entry, Line.content, if_pos push, ← String.append_assoc]
    rfl

theorem named (operation : Operation) : isName operation.name = true := by
  cases operation with
  | plain name named noPush => exact named
  | pushZero => decide
  | push width digits filled hex => exact (pushName width).1

theorem isPlain_of_printed (operation : Operation) :
    ∀ field ∈ operation.name.toList :: operation.constants, ∀ character ∈ field, isPlain character = true := by
  refine forall_mem_cons.mpr ⟨?_, fun field constant => ?_⟩
  · obtain ⟨_, _, _, _, plain⟩ := Token.exists_of_isName operation.named
    exact plain
  · cases operation with
    | plain name named noPush => cases constant
    | pushZero => cases constant
    | push width digits filled hex =>
      obtain rfl := mem_singleton.mp constant
      refine forall_mem_cons.mpr ⟨rfl, forall_mem_cons.mpr ⟨rfl, fun digit member => ?_⟩⟩
      exact isPlain_of_isHexDigit (hex digit member)

def operand? : Operation → Option String
  | plain .. => none
  | pushZero => some "0"
  | push _ digits .. => some (String.ofList ('0' :: 'x' :: digits))

def constant? (operation : Operation) : Option Int :=
  operation.operand?.bind (Numeral.read? 16)

def selector (operation : Operation) : String :=
  String.ofList ((operation.operand?.getD "").toList.drop 2)

variable {operation : Operation} {written : String}

theorem recorded_eq (operation : Operation) :
    operation.recorded.toList =
      operation.name.toList ++ ' ' :: operation.operand?.elim [] fun written => written.toList ++ [' '] := by
  cases operation with
  | pushZero => rfl
  | _ => simp [recorded, Operation.name, operand?]

theorem startsWith_recorded {start : String} (solid : ' ' ∉ start.toList) (operation : Operation) :
    startsWith operation.recorded start = startsWith operation.name start := by
  rw [Bool.eq_iff_iff, startsWith, startsWith, startsWithChars_iff, startsWithChars_iff, recorded_eq]
  refine ⟨fun opens => ?_, fun opens => opens.trans (prefix_append _ _)⟩
  obtain within | ⟨tail, same⟩ := prefix_or_prefix_of_prefix opens (prefix_append _ _)
  · exact within
  · rw [← same] at opens solid ⊢
    cases tail with
    | nil => rw [append_nil]
    | cons first others =>
      obtain ⟨rfl, -⟩ := cons_prefix_cons.mp ((prefix_append_right_inj _).mp opens)
      simp at solid

theorem operand_recorded (operand : operation.operand? = some written) :
    (splitOnChar ' ' operation.recorded)[1]? = some written := by
  have solid : ∀ field ∈ [operation.name.toList, written.toList], ' ' ∉ field := by
    cases operation with
    | plain => cases operand
    | pushZero =>
      cases operand
      decide
    | push width digits filled hex =>
      cases operand
      intro field member
      refine not_mem_of_isPlain ((push width digits filled hex).isPlain_of_printed field ?_) (by decide)
      simpa [constants] using member
  rw [← String.ofList_toList (s := operation.recorded), recorded_eq, operand, Option.elim_some,
    splitOnChar_append (solid _ (by simp)), splitOnChar_append (solid _ (by simp))]
  simp

theorem startsWith_constant (operation : Operation) :
    startsWith operation.name "PUSH" = operation.operand?.isSome ∧
      operation.constant?.isSome = operation.operand?.isSome := by
  cases operation with
  | plain name named noPush => exact ⟨noPush, rfl⟩
  | pushZero => exact ⟨by decide, by decide +kernel⟩
  | push width digits filled hex =>
    rw [constant?, operand?, Option.bind_some]
    exact ⟨(pushName width).2, Numeral.read?_hex filled hex⟩

theorem startsWith_selector (operation : Operation) :
    startsWith operation.name "PUSH4" = true ↔ operation.name = "PUSH4" := by
  refine ⟨fun opens => ?_, fun named => by rw [named]; rfl⟩
  cases operation with
  | plain name named noPush =>
    rw [startsWith, startsWithChars_iff] at opens
    have push := (startsWithChars_iff name.toList _).mpr ((by decide : "PUSH".toList <+: "PUSH4".toList).trans opens)
    exact absurd (noPush.symm.trans push) (by decide)
  | pushZero => exact absurd opens (by decide)
  | push width digits filled hex =>
    have four : ∀ width : Fin 32, startsWith ("PUSH" ++ toString (width.val + 1)) "PUSH4" = true →
        "PUSH" ++ toString (width.val + 1) = "PUSH4" := by
      decide +kernel
    exact four width opens

theorem operand_of_selector (named : operation.name = "PUSH4") :
    operation.operand? = some ("0x" ++ operation.selector) := by
  cases operation with
  | plain name isName noPush =>
    obtain rfl : name = "PUSH4" := named
    exact absurd noPush (by decide)
  | pushZero => exact absurd named (by decide)
  | push width digits filled hex =>
    have marked : String.ofList (['0', 'x'] ++ digits) = "0x" ++ String.ofList digits := String.ofList_append
    simpa [operand?, selector] using marked

end Operation

/-- A line as a disassembler prints it: the address in at least five hexadecimal digits, a colon and the instruction. -/
def printed (address : Nat) (operation : Operation) : List Char :=
  Numeral.padded (5 - (Nat.toDigits 16 address).length) address ++ ':' :: ' ' :: operation.characters

def disassembly (code : List Char) (instructions : List (Nat × Operation)) : String :=
  String.ofList (code ++ '\n' :: instructions.flatMap fun entry => printed entry.1 entry.2 ++ ['\n'])

theorem trimmedLast_cons (first : String) {fields : List String} (more : fields ≠ []) :
    trimmedLast (first :: fields) = first :: trimmedLast fields := by
  obtain ⟨second, rest, rfl⟩ := exists_cons_of_ne_nil more
  unfold trimmedLast
  rw [getLast?_cons_cons]
  cases last : (second :: rest).getLast? with
  | none => rfl
  | some last => rfl

theorem trimmedLast_fields (first : List Char) (rest : List (List Char))
    (plain : ∀ field ∈ first :: rest, ∀ character ∈ field, isPlain character = true) :
    trimmedLast (splitOnChar ' ' (String.ofList (first ++ (rest.flatMap (' ' :: ·) ++ ['\n'])))) =
      (first :: rest).map String.ofList := by
  induction rest generalizing first with
  | nil =>
    have within := plain first mem_cons_self
    have whole : ' ' ∉ first ++ ['\n'] := by simpa using not_mem_of_isPlain within (by decide)
    rw [flatMap_nil, nil_append, splitOnChar_of_not_mem whole]
    exact congrArg (fun last => [last]) (stripWhile_lineFeed (not_mem_of_isPlain within (by decide)))
  | cons second others ih =>
    obtain ⟨within, remaining⟩ := forall_mem_cons.mp plain
    have onward := ih second remaining
    rw [flatMap_cons, List.cons_append, List.cons_append, List.append_assoc,
      splitOnChar_append (not_mem_of_isPlain within (by decide)), trimmedLast_cons _ (splitOnChar_ne_nil _ _), onward]
    rfl

variable (address : Nat) (operation : Operation)

theorem formatLine_fields :
    formatLine (String.ofList (printed address operation ++ ['\n'])) =
      String.intercalate " "
        (withArrow (toString address :: operation.name :: operation.constants.map String.ofList)) := by
  have plain := operation.isPlain_of_printed
  have fields := trimmedLast_fields operation.name.toList operation.constants plain
  generalize zeros : 5 - (Nat.toDigits 16 address).length = count at *
  have digits : ∀ digit ∈ Numeral.padded count address, isPlain digit = true :=
    fun digit member => isPlain_of_isHexDigit (Numeral.isHexDigit_of_mem_padded digit member)
  have noColon : ∀ field : List Char, (∀ character ∈ field, isPlain character = true) → field.filter (· ≠ ':') = field :=
    fun field all => filter_eq_self.mpr fun character member =>
      decide_eq_true (isPlain_ne (all character member) (by decide))
  have uncolored : (printed address operation ++ ['\n']).filter (· ≠ ':') =
      Numeral.padded count address ++ ' ' :: (operation.characters ++ ['\n']) := by
    have constants : (operation.constants.flatMap (' ' :: ·)).filter (· ≠ ':') =
        operation.constants.flatMap (' ' :: ·) := by
      rw [filter_flatMap]
      refine flatMap_congr fun constant member => ?_
      exact congrArg (' ' :: ·) (noColon constant (plain constant (mem_cons_of_mem _ member)))
    simp only [printed, zeros, Operation.characters, filter_append, noColon _ digits, constants,
      noColon _ (plain _ mem_cons_self), filter_cons]
    simp
  have number : decimalAddress (String.ofList (Numeral.padded count address)) = toString address := by
    rw [decimalAddress, Numeral.read?_padded]
    rfl
  rw [formatLine, String.toList_ofList, uncolored, splitOnChar_append (not_mem_of_isPlain digits (by decide))]
  simp only [number]
  rw [trimmedLast_cons _ (splitOnChar_ne_nil _ _), Operation.characters, List.append_assoc, fields]
  simp

theorem formatLine_printed :
    formatLine (String.ofList (printed address operation ++ ['\n'])) = String.ofList (operation.line address).front := by
  -- Without a constant a line has two fields, and the arrow needs three.
  have two : ∀ first second, withArrow [first, second] = [first, second] := by simp [withArrow]
  have three : ∀ first second third, (Numeral.read? 16 third).isSome →
      withArrow [first, second, third] = [first, second, "=>", third] := by
    intro first second third number
    simp [withArrow, number]
  have short : ∀ name : String, String.intercalate " " (withArrow [toString address, name]) =
      String.ofList (Nat.toDigits 10 address ++ ' ' :: (name.toList ++ [])) := by
    intro name
    rw [two, String.intercalate_cons_cons, String.intercalate_singleton, Nat.toString_eq_ofList_toDigits]
    simp [String.ofList_append, String.append_assoc]
  have long : ∀ (name : String) (digits : List Char), (Numeral.read? 16 (String.ofList ('0' :: 'x' :: digits))).isSome →
      String.intercalate " " (withArrow [toString address, name, String.ofList ('0' :: 'x' :: digits)]) =
        String.ofList (Nat.toDigits 10 address ++ ' ' ::
          (name.toList ++ [Part.arrow, .constant digits].flatMap fun part => ' ' :: part.characters)) := by
    intro name digits number
    rw [three _ _ _ number, String.intercalate_cons_cons, String.intercalate_cons_cons, String.intercalate_cons_cons,
      String.intercalate_singleton, Nat.toString_eq_ofList_toDigits]
    refine String.toList_injective ?_
    simp [Part.characters]
  rw [formatLine_fields]
  cases operation with
  | plain name named noPush => exact short name
  | pushZero => exact short "PUSH0"
  | push width digits filled hex => exact long _ digits (Numeral.read?_hex filled hex)

theorem not_mem_printed {control : Char} (ends : control = '\n' ∨ control = '\r') :
    control ∉ printed address operation := by
  have noPlain : isPlain control = false := by rcases ends with rfl | rfl <;> rfl
  have noSign : control ≠ ':' ∧ control ≠ ' ' := by rcases ends with rfl | rfl <;> decide
  have plain := operation.isPlain_of_printed
  simp only [printed, mem_append, mem_cons, Operation.characters, mem_flatMap, noSign, false_or, not_or,
    not_exists, not_and]
  refine ⟨not_mem_of_isPlain (fun digit member =>
      isPlain_of_isHexDigit (Numeral.isHexDigit_of_mem_padded digit member)) noPlain,
    not_mem_of_isPlain (plain _ mem_cons_self) noPlain, fun constant member => ?_⟩
  exact not_mem_of_isPlain (plain constant (mem_cons_of_mem _ member)) noPlain

theorem format_disassembly {code : List Char} (oneLine : '\n' ∉ code ∧ '\r' ∉ code)
    (instructions : List (Nat × Operation)) :
    format (disassembly code instructions) =
      .ok (written code (instructions.map fun entry => entry.2.line entry.1)) := by
  have absent : '\r' ∉ code ++ '\n' :: instructions.flatMap fun entry => printed entry.1 entry.2 ++ ['\n'] := by
    simp [oneLine.2, not_mem_printed]
  have within : ∀ entry : Nat × Operation, '\n' ∉ printed entry.1 entry.2 :=
    fun entry => not_mem_printed entry.1 entry.2 (.inl rfl)
  have cut : lines (readText (disassembly code instructions)) =
      String.ofList (code ++ ['\n']) ::
        instructions.map fun entry => String.ofList (printed entry.1 entry.2 ++ ['\n']) := by
    rw [readText, disassembly, String.toList_ofList, unixLineEnds_of_not_mem absent, lines, String.toList_ofList,
      linesOf_append oneLine.1, linesOf_flatMap within, map_cons, map_map]
    rfl
  unfold format
  rw [cut]
  dsimp only
  rw [stripWhile_lineFeed oneLine.1, intercalate_lines, written, String.toList_ofList, map_map,
    flatMap_map, flatMap_map]
  simp only [Function.comp_apply, formatLine_printed, String.toList_ofList, Line.characters_eq]

/-- The listing that a disassembler prints is read back: an entry for each instruction, in order. -/
theorem collect_disassembly {code : List Char} (oneLine : '\n' ∉ code ∧ '\r' ∉ code)
    {instructions : List (Nat × Operation)}
    (ascending : instructions.Pairwise fun earlier later => earlier.1 < later.1) :
    ∃ formatted collected,
      format (disassembly code instructions) = .ok formatted ∧ collect none formatted = (collected, none) ∧
        collected.instructions = instructions.map fun entry => ((entry.1 : Int), entry.2.recorded) := by
  obtain ⟨collected, read, graph⟩ := @collect_written none
    (instructions.map fun entry => entry.2.line entry.1) code oneLine nofun
  refine ⟨_, collected, format_disassembly oneLine instructions, read, ?_⟩
  have same := congrArg Graph.instructions graph
  change collected.instructions = (List.foldl readLine {} _).instructions at same
  have folded : ∀ (lines : List Line) (state : Collected), (lines.foldl readLine state).instructions =
      (lines.map Line.entry).foldl (fun table entry => Table.put entry.1 entry.2 table) state.instructions := by
    intro lines
    induction lines with
    | nil => exact fun _ => rfl
    | cons line rest hypothesis => exact fun state => hypothesis (readLine state line)
  have entries : (instructions.map fun entry => entry.2.line entry.1).map Line.entry =
      instructions.map fun entry => ((entry.1 : Int), entry.2.recorded) := by
    rw [map_map]
    exact map_congr_left fun entry _ => entry.2.entry_line entry.1
  have distinct : (Table.keys ([] ++ instructions.map fun entry => ((entry.1 : Int), entry.2.recorded))).Nodup := by
    rw [nil_append, Table.keys, map_map]
    exact pairwise_map.mpr (ascending.imp fun less same => by simp at same; omega)
  rw [same, folded, entries, Table.putAll_of_new distinct]
  rfl

theorem isName_add : isName "ADD" = true := by decide

def addition : List (Nat × Operation) :=
  [(0, .pushZero), (1, .push 0 ['0', 'a'] (by decide) (by simp [Token.isHexDigit, Text.isPlainDigit])),
    (3, .plain "ADD" isName_add (by decide)), (16, .plain "MSTORE" (by decide) (by decide))]

theorem collect_disassembly_addition :
    ('\n' ∉ ['5', 'f'] ∧ '\r' ∉ ['5', 'f']) ∧ (addition.Pairwise fun earlier later => earlier.1 < later.1) ∧
      disassembly ['5', 'f'] addition = "5f\n00000: PUSH0\n00001: PUSH1 0x0a\n00003: ADD\n00010: MSTORE\n" ∧
      ∃ formatted collected,
        format (disassembly ['5', 'f'] addition) = .ok formatted ∧ collect none formatted = (collected, none) ∧
          collected.instructions = [(0, "PUSH0 0 "), (1, "PUSH1 0x0a "), (3, "ADD "), (16, "MSTORE ")] := by
  have oneLine : '\n' ∉ ['5', 'f'] ∧ '\r' ∉ ['5', 'f'] := by decide
  have ascending : addition.Pairwise fun earlier later => earlier.1 < later.1 := by decide
  exact ⟨oneLine, ascending, by decide +kernel, collect_disassembly oneLine ascending⟩

end Listing

/-! ## The dispatcher -/

namespace Graph

open Listing (Operation)

structure Row where
  selector : String
  target : Int
  deriving DecidableEq, Repr

def row? (first second third : Operation) : Option Row :=
  if first.name = "PUSH4" ∧ second.name = "EQ" then third.constant?.map (⟨first.selector, ·⟩) else none

def allRows : List Operation → List Row
  | first :: second :: third :: rest => (row? first second third).toList ++ allRows (second :: third :: rest)
  | _ => []

/-- The rows that are recognised: what follows the beginning of a row is passed over. -/
def rows : List Operation → List Row
  | [] => []
  | first :: rest =>
    if first.name ≠ "PUSH4" then
      rows rest
    else
      match rest with
      | [] => []
      | second :: rest =>
        if second.name ≠ "EQ" then
          rows rest
        else
          match rest with
          | [] => []
          | third :: rest => (row? first second third).toList ++ rows rest

/-- The code does not end in what begins a row. -/
structure Ended (code : List Operation) : Prop where
  single : ∀ last, [last] <:+ code → last.name ≠ "PUSH4"
  pair : ∀ last next, [last, next] <:+ code → ¬ (last.name = "PUSH4" ∧ next.name = "EQ")

variable {code : List Operation} {operation : Operation}

theorem allRows_sublist_cons (operation : Operation) (code : List Operation) :
    (allRows code).Sublist (allRows (operation :: code)) := by
  rcases code with _ | ⟨second, _ | ⟨third, rest⟩⟩
  · exact .refl _
  · exact .refl _
  · exact sublist_append_right _ _

theorem rows_sublist (code : List Operation) : (rows code).Sublist (allRows code) := by
  fun_induction rows code with
  | case1 => exact .refl _
  | case2 first rest other ih => exact ih.trans (allRows_sublist_cons _ _)
  | case3 => exact nil_sublist _
  | case4 first selects second rest other ih =>
    exact (ih.trans (allRows_sublist_cons _ _)).trans (allRows_sublist_cons _ _)
  | case5 => exact nil_sublist _
  | case6 first selects second compares third rest ih =>
    exact ((ih.trans (allRows_sublist_cons _ _)).trans (allRows_sublist_cons _ _)).append_left _

theorem Ended.of_cons (ended : Ended (operation :: code)) : Ended code where
  single last closes := ended.single last (closes.trans (suffix_cons _ _))
  pair last next close := ended.pair last next (close.trans (suffix_cons _ _))

theorem rows_append {front : List Operation} (ended : Ended front) (rest : List Operation) :
    rows (front ++ rest) = rows front ++ rows rest := by
  fun_induction rows front with
  | case1 => rfl
  | case2 first others other ih =>
    rw [cons_append, rows.eq_def]
    dsimp only
    rw [if_pos other]
    exact ih ended.of_cons
  | case3 first selects => exact (selects (ended.single first (suffix_refl _))).elim
  | case4 first selects second others other ih =>
    rw [cons_append, cons_append, rows.eq_def]
    dsimp only
    rw [if_neg selects, if_pos other]
    exact ih ended.of_cons.of_cons
  | case5 first selects second compares =>
    exact (ended.pair first second (suffix_refl _) ⟨not_not.mp selects, not_not.mp compares⟩).elim
  | case6 first selects second compares third others ih =>
    rw [cons_append, cons_append, cons_append, rows.eq_def]
    dsimp only
    rw [if_neg selects, if_neg compares, ih ended.of_cons.of_cons.of_cons, append_assoc]

section Search

variable {entry : Int × String} {rest entries : List (Int × String)} {starts : Table Int String} {selector : String}

theorem functionStartsFrom_start (recorded : entry.2 = operation.recorded) :
    functionStartsFrom .start (entry :: rest) starts =
      functionStartsFrom (if operation.name = "PUSH4" then .selector operation.selector else .start) rest starts := by
  rw [functionStartsFrom, recorded, Operation.startsWith_recorded (by decide)]
  by_cases named : operation.name = "PUSH4"
  · have operand := Operation.operand_of_selector named
    rw [if_pos (operation.startsWith_selector.mpr named), if_pos named, Operation.operand_recorded operand]
    simp
  · rw [if_neg (mt operation.startsWith_selector.mp named), if_neg named]

theorem functionStartsFrom_selector (recorded : entry.2 = operation.recorded)
    (single : Text.startsWith operation.name "EQ" = true → operation.name = "EQ") :
    functionStartsFrom (.selector selector) (entry :: rest) starts =
      functionStartsFrom (if operation.name = "EQ" then .compared selector else .start) rest starts := by
  rw [functionStartsFrom, recorded, Operation.startsWith_recorded (by decide)]
  by_cases named : operation.name = "EQ"
  · rw [if_pos named, named]
    rfl
  · rw [if_neg (mt single named), if_neg named]

theorem functionStartsFrom_compared (recorded : entry.2 = operation.recorded) :
    functionStartsFrom (.compared selector) (entry :: rest) starts =
      functionStartsFrom .start rest (operation.constant?.elim starts fun target => Table.put target selector starts) := by
  obtain ⟨opens, readable⟩ := operation.startsWith_constant
  rw [functionStartsFrom, recorded, Operation.startsWith_recorded (by decide), opens]
  cases operand : operation.operand? with
  | none =>
    rw [Operation.constant?, operand]
    rfl
  | some written =>
    obtain ⟨target, constant⟩ := Option.isSome_iff_exists.mp (readable.trans (by rw [operand]; rfl))
    have read : Numeral.read? 16 written = some target := by
      rwa [Operation.constant?, operand, Option.bind_some] at constant
    rw [Operation.operand_recorded operand, constant]
    simp [read]

theorem functionStartsFrom_eq
    (recorded : List.Forall₂ (fun entry operation => entry.2 = operation.recorded) entries code)
    (single : ∀ operation ∈ code, Text.startsWith operation.name "EQ" = true → operation.name = "EQ") :
    functionStartsFrom .start entries starts =
      .ok ((rows code).foldl (fun table row => Table.put row.target row.selector table) starts) := by
  fun_induction rows code generalizing entries starts with
  | case1 =>
    cases recorded
    rfl
  | case2 first rest other ih =>
    obtain _ | ⟨firstRecorded, remaining⟩ := recorded
    rw [functionStartsFrom_start firstRecorded, if_neg other]
    exact ih remaining (forall_mem_cons.mp single).2
  | case3 first selects =>
    obtain _ | ⟨firstRecorded, _ | _⟩ := recorded
    rw [functionStartsFrom_start firstRecorded]
    rfl
  | case4 first selects second rest other ih =>
    obtain _ | ⟨firstRecorded, _ | ⟨secondRecorded, remaining⟩⟩ := recorded
    rw [functionStartsFrom_start firstRecorded, if_pos (not_not.mp selects),
      functionStartsFrom_selector secondRecorded (single second (by simp)), if_neg other]
    exact ih remaining fun operation member => single operation (by simp [member])
  | case5 first selects second compares =>
    obtain _ | ⟨firstRecorded, _ | ⟨secondRecorded, _ | _⟩⟩ := recorded
    rw [functionStartsFrom_start firstRecorded, if_pos (not_not.mp selects),
      functionStartsFrom_selector secondRecorded (single second (by simp))]
    rfl
  | case6 first selects second compares third rest ih =>
    obtain _ | ⟨firstRecorded, _ | ⟨secondRecorded, _ | ⟨thirdRecorded, remaining⟩⟩⟩ := recorded
    have isRow : first.name = "PUSH4" ∧ second.name = "EQ" := ⟨not_not.mp selects, not_not.mp compares⟩
    rw [functionStartsFrom_start firstRecorded, if_pos isRow.1,
      functionStartsFrom_selector secondRecorded (single second (by simp)), if_pos isRow.2,
      functionStartsFrom_compared thirdRecorded, row?, if_pos isRow, foldl_append,
      ih remaining fun operation member => single operation (by simp [member])]
    cases third.constant? <;> rfl

theorem get?_foldl_rows (rows : List Row) (target : Int) :
    Table.get? target (rows.foldl (fun table row => Table.put row.target row.selector table) []) =
      (rows.filter (·.target = target)).getLast?.map Row.selector := by
  induction rows using List.reverseRecOn with
  | nil => rfl
  | append_singleton rows row ih =>
    rw [foldl_append, foldl_cons, foldl_nil, filter_append]
    by_cases same : row.target = target
    · simp [same, Table.get?_put_self]
    · rw [Table.get?_put_of_ne (Ne.symm same), ih]
      simp [same]

end Search

/-- The table of functions, whatever the code around the rows is. -/
theorem functionStarts_rows {graph : Graph}
    (recorded : List.Forall₂ (fun entry operation => entry.2 = operation.recorded) graph.instructions code)
    (single : ∀ operation ∈ code, Text.startsWith operation.name "EQ" = true → operation.name = "EQ") :
    (∃ starts, graph.functionStarts = .ok starts ∧ ∀ target,
      Table.get? target starts = ((rows code).filter (·.target = target)).getLast?.map Row.selector) ∧
    (rows code).Sublist (allRows code) ∧
    ∀ front first second third rest row, code = front ++ first :: second :: third :: rest →
      row? first second third = some row → Ended front → rows code = rows front ++ row :: rows rest := by
  refine ⟨⟨_, functionStartsFrom_eq recorded single, get?_foldl_rows _⟩, rows_sublist code, ?_⟩
  rintro front first second third rest row rfl found ended
  have isRow : first.name = "PUSH4" ∧ second.name = "EQ" := by
    by_contra other
    simp [row?, other] at found
  rw [rows_append ended, rows.eq_def (first :: _)]
  simp [isRow, found]

def transferRow : List Operation :=
  [.push 3 "23b872dd".toList (by decide) (by simp [Token.isHexDigit, Text.isPlainDigit]), .plain "EQ" (by decide) (by decide),
    .push 1 "0010".toList (by decide) (by simp [Token.isHexDigit, Text.isPlainDigit])]

def transferGraph : Graph :=
  { instructions := [(0, "PUSH4 0x23b872dd "), (5, "EQ "), (6, "PUSH2 0x0010 ")] }

theorem functionStarts_rows_transferGraph :
    List.Forall₂ (fun entry operation => entry.2 = operation.recorded) transferGraph.instructions transferRow ∧
      (∀ operation ∈ transferRow, Text.startsWith operation.name "EQ" = true → operation.name = "EQ") ∧
      ∃ starts, transferGraph.functionStarts = .ok starts ∧ Table.get? 16 starts = some "23b872dd" := by
  have recorded : List.Forall₂ (fun entry operation => entry.2 = operation.recorded) transferGraph.instructions transferRow :=
    .cons (by decide +kernel) (.cons (by decide +kernel) (.cons (by decide +kernel) .nil))
  have single : ∀ operation ∈ transferRow, Text.startsWith operation.name "EQ" = true → operation.name = "EQ" := by
    decide +kernel
  obtain ⟨⟨starts, found, targets⟩, -⟩ := functionStarts_rows recorded single
  exact ⟨recorded, single, starts, found, (targets 16).trans (by decide +kernel)⟩

end Graph

end MintAudit
