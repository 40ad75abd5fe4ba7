import MintAudit.Proofs.Listing.Scan
import MintAudit.Proofs.Table

namespace MintAudit

/-!
# Reading a listing line by line

The reader works on tokens.
-/

namespace Listing

def Part.content : Part → String
  | word text => text ++ " "
  | arrow => ""
  | constant digits => String.ofList ('0' :: 'x' :: digits) ++ " "

def Line.isPush (line : Line) : Bool :=
  Text.startsWith line.name "PUSH"

def Line.operand (line : Line) : String :=
  match line.parts with
  | [.arrow, .constant digits] => String.ofList ('0' :: 'x' :: digits)
  | _ => "0"

def Line.content (line : Line) : String :=
  line.name ++ " " ++ if line.isPush then line.operand ++ " " else String.join (line.parts.map Part.content)

def Suits (place : Place) (name : String) (line : Line) : Prop :=
  if line.isPush then
    Text.startsWith name "PUSH" = true ∧
      (name = "PUSH" → ∃ written, place.value = some written ∧ Numeral.read? 16 written = Numeral.read? 16 line.operand)
  else
    name = line.name ∨ (name, line.name) ∈ [("INVALID", "ASSERTFAIL"), ("KECCAK256", "SHA3"), ("SELFDESTRUCT", "SUICIDE")]

/-- The places of the compiler run in step with the lines; the marks of jump labels have no lines of their own. -/
inductive Tracks : List (Option Place) → List Line → Prop where
  | atEnd (places : List (Option Place)) : Tracks places []
  | usedUp (lines : List Line) : Tracks [] lines
  | void {places : List (Option Place)} {line : Line} {lines : List Line} :
      Tracks places lines → Tracks (none :: places) (line :: lines)
  | mark {place : Place} {name : String} {places : List (Option Place)} {line : Line} {lines : List Line} :
      place.name = some name → Text.startsWith name "tag" = true → Tracks places (line :: lines) →
      Tracks (some place :: places) (line :: lines)
  | suits {place : Place} {name : String} {places : List (Option Place)} {line : Line} {lines : List Line} :
      place.name = some name → Text.startsWith name "tag" = false → Suits place name line → Tracks places lines →
      Tracks (some place :: places) (line :: lines)

def Matches (guide : Guide) (used : Nat) (lines : List Line) : Prop :=
  ∀ places ∈ guide, Tracks (places.drop used) lines

def Collected.bare (state : Collected) : Collected :=
  { state with used := 0, places := [] }

structure Collected.AtLine (state : Collected) : Prop where
  atLineStart : state.atLineStart = true
  reading : state.reading = .line
  content : state.content = ""

def moveTo (address : Int) (state : Collected) : Collected :=
  { state with
    lastAddress := state.address
    address := address
    atLineStart := false
    block := if state.atBlockStart then address else state.block
    atBlockStart := false }

def readLine (state : Collected) (line : Line) : Collected :=
  { noteName line.name (moveTo line.address state) with
    instructions := Table.put (line.address : Int) line.content state.instructions
    atLineStart := true
    reading := .line
    content := "" }

theorem noteName_eq (name : String) (state : Collected) :
    ∃ ends kinds block atBlockStart,
      noteName name state =
        { state with
          ends := ends, kinds := kinds, block := block, atBlockStart := atBlockStart
          atLineStart := false
          reading := if Text.startsWith name "PUSH" then .beforeOperand else state.reading } := by
  have different : ∀ other, Text.startsWith other "PUSH" = false → Text.startsWith name "PUSH" = true → name ≠ other := by
    rintro other noPush push rfl
    rw [push] at noPush
    cases noPush
  by_cases push : Text.startsWith name "PUSH" = true
  · have noLabel : name ≠ "JUMPDEST" := different _ (by decide) push
    have noJump : name ≠ "JUMP" := different _ (by decide) push
    have noBranch : name ≠ "JUMPI" := different _ (by decide) push
    have noTerminal : terminals.contains name = false := by
      rw [Bool.eq_false_iff]
      intro member
      have none : ∀ other ∈ terminals, Text.startsWith other "PUSH" = false := by decide
      exact different name (none name (List.contains_iff_mem.mp member)) push rfl
    simp only [noteName, noLabel, noTerminal, noJump, noBranch, push, if_false, if_true, Bool.false_eq_true]
    exact ⟨_, _, _, _, rfl⟩
  · simp only [noteName, endBlock, if_neg push]
    split_ifs <;> exact ⟨_, _, _, _, rfl⟩

theorem noteName_of_isInert {name : String} (inert : isInert name = true) (state : Collected) :
    noteName name state = { state with atLineStart := false } := by
  obtain ⟨noBlock, noPush⟩ := Bool.and_eq_true_iff.mp inert
  simp only [Bool.not_eq_true', List.contains_cons, Bool.or_eq_false_iff, beq_eq_false_iff_ne] at noBlock noPush
  obtain ⟨noLabel, noJump, noBranch, noTerminal⟩ := noBlock
  simp only [noteName, noLabel, noTerminal, noJump, noBranch, noPush, if_false, Bool.false_eq_true]

theorem ne_of_isName {text sign : String} (named : isName text = true) (noName : isName sign = false) :
    text ≠ sign := by
  rintro rfl
  rw [named] at noName
  cases noName

theorem append_of_isName {text : String} (named : isName text = true) (state : Collected) :
    append text state = { state with content := state.content ++ text ++ " " } := by
  have noEqual : text ≠ "=" := ne_of_isName named (by decide)
  have noGreater : text ≠ ">" := ne_of_isName named (by decide)
  simp [append, noEqual, noGreater]

section Tokens

variable (guide : Guide) {state : Collected}

variable {read : Token → Reader Unit} {next : Collected} {token : Token} {tokens : List Token}

theorem forM_cons_of_ok (first : read token state = .ok () next) (rest : List Token) :
    (token :: rest).forM read state = rest.forM read next := by
  simp [List.forM, bind, EStateM.bind, first]

theorem forM_append_of_ok (first : tokens.forM read state = .ok () next) (rest : List Token) :
    (tokens ++ rest).forM read state = rest.forM read next := by
  have parted : (tokens ++ rest).forM read = tokens.forM read >>= fun _ => rest.forM read := List.forM_append
  rw [parted, Effect.bind_apply, first]

theorem forM_append_of_error {fault : Fault} (first : tokens.forM read state = .error fault next) (rest : List Token) :
    (tokens ++ rest).forM read state = .error fault next := by
  have parted : (tokens ++ rest).forM read = tokens.forM read >>= fun _ => rest.forM read := List.forM_append
  rw [parted, Effect.bind_apply, first]

theorem forM_singleton (read : Token → Reader Unit) (token : Token) : [token].forM read state = read token state := by
  simp [List.forM]

theorem readToken_of_line (reading : state.reading = .line) (token : Token) :
    readToken guide token state = readInLine guide token state := by
  cases state
  cases reading
  rfl

theorem readInLine_address (address : Nat) (atLineStart : state.atLineStart = true) :
    readInLine guide ⟨.number, String.ofList (Nat.toDigits 10 address)⟩ state = .ok () (moveTo address state) := by
  cases state
  cases atLineStart
  simp only [readInLine, Numeral.read?_toDigits]
  rfl

theorem readInLine_name (name : String) :
    readInLine guide ⟨.name, name⟩ state = .ok () (append name (noteName name state)) := by
  cases state with
  | mk _ _ _ _ _ _ _ _ atLineStart => cases atLineStart <;> rfl

theorem readInLine_other (within : state.atLineStart = false) (number : token.kind = .number ∨ token.kind = .other) :
    readInLine guide token state = .ok () (append token.text state) := by
  cases state
  cases within
  obtain ⟨kind, text⟩ := token
  rcases number with rfl | rfl <;> rfl

theorem readInLine_lineEnd (text : String) :
    readInLine guide ⟨.lineEnd, text⟩ state = record guide (fun _ name content => admitsOther name content) state := by
  cases state with
  | mk _ _ _ _ _ _ _ _ atLineStart => cases atLineStart <;> rfl

theorem forM_part {part : Part} (fitting : part.isFitting = true) (within : state.atLineStart = false)
    (reading : state.reading = .line) :
    part.tokens.forM (readToken guide) state = .ok () { state with content := state.content ++ part.content } := by
  cases part with
  | word text =>
    obtain ⟨named, inert⟩ := Bool.and_eq_true_iff.mp fitting
    have read : readToken guide ⟨.name, text⟩ state =
        .ok () { state with content := state.content ++ text ++ " " } := by
      rw [readToken_of_line guide reading, readInLine_name, noteName_of_isInert inert, append_of_isName named, within]
    rw [Part.tokens, forM_cons_of_ok read, Part.content, String.append_assoc]
    rfl
  | arrow =>
    have passed : ∀ text, text = "=" ∨ text = ">" → readToken guide ⟨.other, text⟩ state = .ok () state := by
      intro text sign
      rw [readToken_of_line guide reading, readInLine_other guide within (.inr rfl)]
      rcases sign with rfl | rfl <;> rfl
    rw [Part.tokens, forM_cons_of_ok (passed _ (.inl rfl)), forM_cons_of_ok (passed _ (.inr rfl)), Part.content,
      String.append_empty]
    rfl
  | constant digits =>
    have written : append (String.ofList ('0' :: 'x' :: digits)) state =
        { state with content := state.content ++ String.ofList ('0' :: 'x' :: digits) ++ " " } := by
      have noEqual : String.ofList ('0' :: 'x' :: digits) ≠ "=" := by
        intro same
        simpa using congrArg String.toList same
      have noGreater : String.ofList ('0' :: 'x' :: digits) ≠ ">" := by
        intro same
        simpa using congrArg String.toList same
      simp only [append, noEqual, noGreater, decide_false, Bool.or_self, Bool.false_eq_true, if_false]
    have read : readToken guide ⟨.number, String.ofList ('0' :: 'x' :: digits)⟩ state =
        .ok () { state with content := state.content ++ String.ofList ('0' :: 'x' :: digits) ++ " " } := by
      rw [readToken_of_line guide reading, readInLine_other guide within (.inl rfl), written]
    rw [Part.tokens, forM_cons_of_ok read, Part.content, String.append_assoc]
    rfl

theorem forM_parts {parts : List Part} (fitting : ∀ part ∈ parts, part.isFitting = true)
    (within : state.atLineStart = false) (reading : state.reading = .line) :
    (parts.flatMap Part.tokens).forM (readToken guide) state =
      .ok () { state with content := state.content ++ String.join (parts.map Part.content) } := by
  induction parts generalizing state with
  | nil =>
    rw [List.map_nil, String.join_nil, String.append_empty]
    rfl
  | cons part more ih =>
    obtain ⟨isOne, others⟩ := List.forall_mem_cons.mp fitting
    have onward := @ih { state with content := state.content ++ part.content } others within reading
    rw [List.flatMap_cons, forM_append_of_ok (forM_part guide isOne within reading), onward, List.map_cons,
      String.join_cons, String.append_assoc]

end Tokens

section Places

def isMark (entry : Option Place) : Bool :=
  (entry.bind Place.name).any (Text.startsWith · "tag")

def entries (places : List (Option Place)) : List (Option Place) :=
  places.filter fun entry => !isMark entry

def left (guide : Guide) (used : Nat) : List (Option Place) :=
  entries ((guide.getD []).drop used)

/-- Nothing is told of the line, or something of its own instruction. -/
def Fits (line : Line) (entry : Option Place) : Prop :=
  ∀ place ∈ entry, ∃ name, place.name = some name ∧ Suits place name line

theorem entries_of_isMark {entry : Option Place} (mark : isMark entry = true) (places : List (Option Place)) :
    entries (entry :: places) = entries places := by
  simp [entries, mark]

theorem entries_of_not_isMark {entry : Option Place} (noMark : isMark entry = false) (places : List (Option Place)) :
    entries (entry :: places) = entry :: entries places := by
  simp [entries, noMark]

theorem fits_of_tracks {places : List (Option Place)} {lines : List Line} (tracks : Tracks places lines) :
    ∀ pair ∈ lines.zip (entries places), Fits pair.1 pair.2 := by
  induction tracks with
  | atEnd => simp
  | usedUp => simp [entries]
  | void _ ih =>
    rw [entries_of_not_isMark rfl, List.zip_cons_cons]
    exact List.forall_mem_cons.mpr ⟨nofun, ih⟩
  | mark named tagged _ ih => rwa [entries_of_isMark (by simp [isMark, named, tagged])]
  | suits named untagged suits _ ih =>
    rw [entries_of_not_isMark (by simp [isMark, named, untagged]), List.zip_cons_cons]
    refine List.forall_mem_cons.mpr ⟨?_, ih⟩
    rintro _ ⟨⟩
    exact ⟨_, named, suits⟩

def foundAt (used : Nat) : Option (Option Place) → Except Fault Next
  | none => .ok (.finished used)
  | some none => .ok (.void used)
  | some (some place) =>
    match place.name with
    | none => .error .missingKey
    | some name => .ok (.at place name used)

theorem nextPlace_cons (used : Nat) (entry : Option Place) (places : List (Option Place)) :
    nextPlace used (entry :: places) =
      if isMark entry then nextPlace (used + 1) places else foundAt (used + 1) (some entry) := by
  cases entry with
  | none => rfl
  | some place =>
    cases named : place.name with
    | none => simp [nextPlace, foundAt, isMark, named]
    | some name => simp [nextPlace, foundAt, isMark, named]

theorem nextPlace_eq (places : List (Option Place)) (used : Nat) :
    ∃ count, nextPlace used places = foundAt (used + count) (entries places).head? ∧
      entries (places.drop count) = (entries places).tail := by
  induction places generalizing used with
  | nil => exact ⟨0, rfl, rfl⟩
  | cons entry rest ih =>
    rw [nextPlace_cons]
    cases mark : isMark entry with
    | true =>
      rw [entries_of_isMark mark]
      obtain ⟨count, found, later⟩ := ih (used + 1)
      exact ⟨count + 1, by rw [if_pos rfl, found, Nat.add_assoc, Nat.add_comm 1], later⟩
    | false =>
      rw [entries_of_not_isMark mark]
      exact ⟨1, rfl, rfl⟩

end Places

namespace Line

variable {line : Line}

theorem parts_of_isPush (push : line.isPush = true) :
    (line.parts = [] ∧ line.name = "PUSH0") ∨ ∃ digits, line.parts = [.arrow, .constant digits] := by
  have takes := line.pushes push
  unfold takesConstant at takes
  split at takes
  · next empty =>
    exact .inl ⟨empty, eq_of_beq takes⟩
  · next digits shape =>
    exact .inr ⟨digits, shape⟩
  · cases takes

theorem not_mem_name (line : Line) : ' ' ∉ line.name.toList := by
  intro member
  obtain ⟨_, _, _, _, plain⟩ := Token.exists_of_isName line.named
  exact Text.isPlain_ne (plain ' ' member) (by decide : Text.isPlain ' ' = false) rfl

theorem operand_of_isPush (push : line.isPush = true) :
    (Numeral.read? 16 line.operand).isSome ∧ ' ' ∉ line.operand.toList := by
  rcases parts_of_isPush push with ⟨empty, _⟩ | ⟨digits, shape⟩
  · rw [operand, empty]
    decide
  · have fitting := line.fitting (.constant digits) (by simp [shape])
    obtain ⟨some, hex⟩ := Bool.and_eq_true_iff.mp fitting
    have all := List.all_eq_true.mp hex
    rw [operand, shape]
    refine ⟨Numeral.read?_hex (of_decide_eq_true some) all, ?_⟩
    intro member
    rw [String.toList_ofList] at member
    have inDigits : ' ' ∈ digits := by simpa using member
    exact Token.isHexDigit_ne (all ' ' inDigits) (by decide : Token.isHexDigit ' ' = false) rfl

theorem content_of_isPush (push : line.isPush = true) :
    line.content = String.ofList (line.name.toList ++ ' ' :: (line.operand.toList ++ [' '])) := by
  rw [content, if_pos push]
  simp [String.ofList_append, String.ofList_cons, String.append_assoc]

theorem content_of_not_isPush (other : line.isPush = false) :
    line.content = String.ofList (line.name.toList ++ ' ' :: (String.join (line.parts.map Part.content)).toList) := by
  rw [content, if_neg (by simp [other]), String.ofList_append, String.ofList_cons, String.ofList_toList,
    String.ofList_toList, ← String.append_assoc]
  rfl

def admits (line : Line) (place : Place) (name : String) : Except Fault Unit :=
  if line.isPush then admitsPush place name line.content else admitsOther name line.content

theorem sameOperand_content (push : line.isPush = true) (place : Place) :
    sameOperand place line.content = .ok true ↔
      ∃ written, place.value = some written ∧ Numeral.read? 16 written = Numeral.read? 16 line.operand := by
  obtain ⟨isNumber, noBlank⟩ := operand_of_isPush push
  obtain ⟨value, read⟩ := Option.isSome_iff_exists.mp isNumber
  have operand : (Text.splitOnChar ' ' line.content)[1]? = some line.operand := by
    rw [content_of_isPush push, Text.splitOnChar_append line.not_mem_name, Text.splitOnChar_append noBlank]
    simp
  unfold sameOperand
  cases place.value with
  | none => simp [throw, throwThe, MonadExceptOf.throw]
  | some written =>
    cases number : Numeral.read? 16 written with
    | none => simp [operand, read, number, throw, throwThe, MonadExceptOf.throw]
    | some found => simp [operand, read, number, pure, Except.pure]

theorem admits_iff (line : Line) (place : Place) (name : String) :
    line.admits place name = .ok () ↔ Suits place name line := by
  unfold admits Suits
  split
  · next push =>
    rw [← sameOperand_content push]
    unfold admitsPush
    by_cases begins : Text.startsWith name "PUSH" = true
    · simp only [begins, Bool.not_true, Bool.false_eq_true, if_false, true_and]
      by_cases plain : name = "PUSH"
      · simp only [plain, if_true, forall_const]
        cases sameOperand place line.content with
        | error fault => exact ⟨nofun, nofun⟩
        | ok answer =>
          cases answer with
          | false => exact ⟨nofun, nofun⟩
          | true => exact ⟨fun _ => rfl, fun _ => rfl⟩
      · simp [plain, pure, Except.pure]
    · simp [begins, throw, throwThe, MonadExceptOf.throw, bind, Except.bind]
  · next other =>
    have first : (Text.splitOnChar ' ' line.content).headD "" = line.name := by
      rw [content_of_not_isPush (by simpa using other), Text.splitOnChar_append line.not_mem_name]
      simp
    have alike : (name == line.name || (name == "INVALID" && line.name == "ASSERTFAIL")
        || (name == "KECCAK256" && line.name == "SHA3") || (name == "SELFDESTRUCT" && line.name == "SUICIDE")) = true ↔
        name = line.name ∨
          (name, line.name) ∈ [("INVALID", "ASSERTFAIL"), ("KECCAK256", "SHA3"), ("SELFDESTRUCT", "SUICIDE")] := by
      simp [or_assoc]
    unfold admitsOther
    rw [first, ← alike]
    dsimp only
    split
    · next unlike =>
      rw [Bool.not_eq_true'] at unlike
      rw [unlike]
      exact ⟨nofun, nofun⟩
    · next same =>
      rw [Bool.not_eq_true', Bool.not_eq_false] at same
      rw [same]
      exact ⟨fun _ => rfl, fun _ => rfl⟩

end Line

section Lines

variable {guide : Guide} {state : Collected} {line : Line} {lines : List Line}

def told (guide : Guide) (used : Nat) (line : Line) : Except Fault (Nat × Option Place) :=
  match nextPlace used ((guide.getD []).drop used) with
  | .error fault => .error fault
  | .ok (.finished used) => .ok (used, none)
  | .ok (.void used) => .ok (used, none)
  | .ok (.at place name used) => (line.admits place name).map fun _ => (used, some place)

variable {used : Nat}

theorem told_of_fits (fits : ∀ entry ∈ (left guide used).head?, Fits line entry) :
    ∃ now, told guide used line = .ok (now, (left guide used).head?.join) ∧
      left guide now = (left guide used).tail := by
  obtain ⟨count, found, later⟩ := nextPlace_eq ((guide.getD []).drop used) used
  refine ⟨used + count, ?_, by rw [left, ← List.drop_drop, later, left]⟩
  change nextPlace used _ = foundAt _ (left guide used).head? at found
  rw [told, found]
  cases next : (left guide used).head? with
  | none => rfl
  | some entry =>
    cases entry with
    | none => rfl
    | some place =>
      obtain ⟨name, named, suits⟩ := fits (some place) next place rfl
      simp only [foundAt, named, (line.admits_iff place name).mpr suits]
      rfl

theorem told_of_misfit (misfit : ¬ ∀ entry ∈ (left guide used).head?, Fits line entry) :
    ∃ fault, told guide used line = .error fault := by
  obtain ⟨count, found, _⟩ := nextPlace_eq ((guide.getD []).drop used) used
  change nextPlace used _ = foundAt _ (left guide used).head? at found
  simp only [Fits, not_forall] at misfit
  obtain ⟨_, next, place, rfl, unfit⟩ := misfit
  rw [told, found, next]
  cases named : place.name with
  | none =>
    simp only [foundAt, named]
    exact ⟨_, rfl⟩
  | some name =>
    simp only [foundAt, named]
    cases admitted : line.admits place name with
    | error fault => exact ⟨fault, rfl⟩
    | ok _ => exact (unfit ⟨name, named, (line.admits_iff place name).mp admitted⟩).elim

/-- The places with the one that is told of an address, if one is. -/
def locate (address : Int) (place : Option Place) (places : Table Int Place) : Table Int Place :=
  match place with
  | some place => Table.put address place places
  | none => places

theorem follow_eq (content : state.content = line.content) {admits : Place → String → String → Except Fault Unit}
    (judged : ∀ place name, admits place name line.content = line.admits place name) :
    follow guide admits state =
      match told guide state.used line with
      | .ok (used, place) => .ok () { state with used := used, places := locate state.address place state.places }
      | .error fault => .error fault state := by
  cases guide with
  | none =>
    simp only [told, Option.getD_none, List.drop_nil, nextPlace]
    rfl
  | some places =>
    unfold follow told
    dsimp only
    rw [Effect.get_bind_apply, Option.getD_some]
    cases nextPlace state.used (places.drop state.used) with
    | error fault => rfl
    | ok next =>
      cases next with
      | finished used => rfl
      | void used => rfl
      | «at» place name used =>
        have admitted : admits place name state.content = line.admits place name := by rw [content, judged]
        dsimp only
        rw [admitted]
        cases line.admits place name with
        | error fault => rfl
        | ok admitted =>
          cases admitted
          rfl

structure BehindName (line : Line) (state : Collected) : Prop where
  address : state.address = line.address
  content : state.content = line.name ++ " "
  reading : state.reading = if line.isPush then .beforeOperand else .line
  within : state.atLineStart = false

def ended (line : Line) (used : Nat) (places : Table Int Place) (state : Collected) : Collected :=
  { state with
    instructions := Table.put (line.address : Int) line.content state.instructions
    atLineStart := true
    reading := .line
    content := ""
    used := used
    places := places }

def Ends (guide : Guide) (line : Line) (state : Collected) (result : EStateM.Result Fault Collected Unit) : Prop :=
  match told guide state.used line with
  | .ok (used, place) => result = .ok () (ended line used (locate line.address place state.places) state)
  | .error fault => ∃ stopped, result = .error fault stopped

section Recorded

variable (address : state.address = line.address) (content : state.content = line.content)
    {admits : Place → String → String → Except Fault Unit}
    (judged : ∀ place name, admits place name line.content = line.admits place name)

include address content judged

theorem record_eq :
    match told guide state.used line with
    | .ok (used, place) =>
      record guide admits state =
        .ok () { ended line used (locate line.address place state.places) state with reading := state.reading }
    | .error fault => ∃ stopped, record guide admits state = .error fault stopped := by
  let recorded : Collected :=
    { state with
      atLineStart := true
      instructions := Table.put state.address state.content state.instructions }
  have followed := @follow_eq guide recorded line content admits judged
  have opened : record guide admits state =
      (do follow guide admits; modify fun state => { state with content := "" } : Reader Unit) recorded := rfl
  have unchanged : recorded.used = state.used := rfl
  rw [unchanged] at followed
  rw [opened, Effect.bind_apply, followed]
  cases told guide state.used line with
  | error fault => exact ⟨recorded, rfl⟩
  | ok told =>
    dsimp only [ended]
    rw [← address, ← content]
    rfl

theorem record_ends (reading : state.reading = .line) : Ends guide line state (record guide admits state) := by
  have recorded := @record_eq guide state line address content admits judged
  unfold Ends
  cases tells : told guide state.used line with
  | error fault =>
    rw [tells] at recorded
    exact recorded
  | ok told =>
    rw [tells, reading] at recorded
    exact recorded

theorem recordPush_ends :
    Ends guide line state
      ((do record guide admits; modify fun state => { state with reading := .line } : Reader Unit) state) := by
  have recorded := @record_eq guide state line address content admits judged
  rw [Ends, Effect.bind_apply]
  cases tells : told guide state.used line with
  | error fault =>
    rw [tells] at recorded
    obtain ⟨stopped, stops⟩ := recorded
    rw [stops]
    exact ⟨stopped, rfl⟩
  | ok told =>
    rw [tells] at recorded
    dsimp only at recorded
    rw [recorded]
    rfl

end Recorded

theorem readToken_beforeOperand (reading : state.reading = .beforeOperand) {token : Token}
    (within : token.kind ≠ .lineEnd) :
    readToken guide token state = .ok () { state with reading := .operand "" } := by
  cases state
  cases reading
  simp only [readToken, bind, EStateM.bind, get, getThe, MonadStateOf.get, EStateM.get, within, decide_false,
    Bool.and_false, Bool.false_eq_true, if_false]
  rfl

theorem readToken_operand {digits : String} (reading : state.reading = .operand digits) {token : Token}
    (within : token.kind ≠ .lineEnd) :
    readToken guide token state =
      .ok () (if (Numeral.read? 16 token.text).isSome then { state with reading := .operand (digits ++ token.text) }
        else state) := by
  cases state
  cases reading
  simp only [readToken, bind, EStateM.bind, get, getThe, MonadStateOf.get, EStateM.get, within, if_false]
  split <;> rfl

theorem readToken_operand_lineEnd {digits : String} (reading : state.reading = .operand digits) (text : String) :
    readToken guide ⟨.lineEnd, text⟩ state =
      (do record guide admitsPush; modify fun state => { state with reading := .line } : Reader Unit)
        { state with content := state.content ++ digits ++ " " } := by
  cases state
  cases reading
  rfl

theorem readToken_zero_lineEnd (reading : state.reading = .beforeOperand) (content : state.content = "PUSH0 ")
    (text : String) :
    readToken guide ⟨.lineEnd, text⟩ state =
      (do record guide admitsPush; modify fun state => { state with reading := .line } : Reader Unit)
        { state with content := state.content ++ "0 " } := by
  cases state
  cases reading
  cases content
  rfl

theorem forM_push (push : line.isPush = true) (behind : BehindName line state) :
    Ends guide line state
      ((line.parts.flatMap Part.tokens ++ [(⟨.lineEnd, "\n"⟩ : Token)]).forM (readToken guide) state) := by
  have reading : state.reading = .beforeOperand := by rw [behind.reading, if_pos push]
  have judged : ∀ place name, admitsPush place name line.content = line.admits place name := by
    intro place name
    rw [Line.admits, if_pos push]
  have records : ∀ reading : Reading, Ends guide line state
      ((do record guide admitsPush; modify fun state => { state with reading := .line } : Reader Unit)
        { state with content := line.content, reading := reading }) :=
    fun reading => @recordPush_ends guide { state with content := line.content, reading := reading } line
      behind.address rfl _ judged
  have whole : state.content ++ line.operand ++ " " = line.content := by
    rw [String.append_assoc, behind.content, Line.content, if_pos push]
  rcases Line.parts_of_isPush push with ⟨empty, zero⟩ | ⟨digits, shape⟩
  · have content : state.content = "PUSH0 " := by
      rw [behind.content, zero]
      rfl
    have completed : state.content ++ "0 " = line.content := by
      rw [← whole, Line.operand, empty, content]
      rfl
    rw [empty, List.flatMap_nil, List.nil_append, forM_singleton, readToken_zero_lineEnd reading content, completed]
    exact records state.reading
  · have fitting := line.fitting (.constant digits) (by simp [shape])
    obtain ⟨some, hex⟩ := Bool.and_eq_true_iff.mp fitting
    have number := Numeral.read?_hex (of_decide_eq_true some) (List.all_eq_true.mp hex)
    have operand : line.operand = String.ofList ('0' :: 'x' :: digits) := by rw [Line.operand, shape]
    have equal : readToken guide ⟨.other, "="⟩ state = .ok () { state with reading := .operand "" } :=
      readToken_beforeOperand reading (by decide)
    have greater : readToken guide ⟨.other, ">"⟩ { state with reading := .operand "" } =
        .ok () { state with reading := .operand "" } := by
      rw [readToken_operand rfl (by decide)]
      rfl
    have constant : readToken guide ⟨.number, String.ofList ('0' :: 'x' :: digits)⟩
        { state with reading := .operand "" } = .ok () { state with reading := .operand line.operand } := by
      rw [readToken_operand rfl (by simp), if_pos number, String.empty_append, operand]
    rw [shape]
    simp only [List.flatMap_cons, List.flatMap_nil, Part.tokens, List.cons_append, List.nil_append]
    rw [forM_cons_of_ok equal, forM_cons_of_ok greater, forM_cons_of_ok constant, forM_singleton,
      readToken_operand_lineEnd rfl, whole]
    exact records (.operand line.operand)

theorem forM_other (other : line.isPush = false) (behind : BehindName line state) :
    Ends guide line state
      ((line.parts.flatMap Part.tokens ++ [(⟨.lineEnd, "\n"⟩ : Token)]).forM (readToken guide) state) := by
  have noPush : ¬ line.isPush = true := by simp [other]
  have reading : state.reading = .line := by rw [behind.reading, if_neg noPush]
  have whole : state.content ++ String.join (line.parts.map Part.content) = line.content := by
    rw [behind.content, Line.content, if_neg noPush]
  have parts := forM_parts guide line.fitting behind.within reading
  rw [whole] at parts
  have judged : ∀ place name, admitsOther name line.content = line.admits place name := by
    intro place name
    rw [Line.admits, if_neg noPush]
  have onLine : ({ state with content := line.content } : Collected).reading = .line := reading
  rw [forM_append_of_ok parts, forM_singleton, readToken_of_line guide onLine, readInLine_lineEnd]
  exact @record_ends guide { state with content := line.content } line behind.address rfl _ judged onLine

theorem forM_tokens (start : state.AtLine) :
    match told guide state.used line with
    | .ok (used, place) =>
      line.tokens.forM (readToken guide) state =
        .ok () { readLine state line with used := used, places := locate line.address place state.places }
    | .error fault => ∃ stopped, line.tokens.forM (readToken guide) state = .error fault stopped := by
  have address : readToken guide ⟨.number, String.ofList (Nat.toDigits 10 line.address)⟩ state =
      .ok () (moveTo line.address state) := by
    rw [readToken_of_line guide start.reading, readInLine_address guide line.address start.atLineStart]
  have name : readToken guide ⟨.name, line.name⟩ (moveTo line.address state) =
      .ok () (append line.name (noteName line.name (moveTo line.address state))) := by
    have onLine : (moveTo line.address state).reading = .line := start.reading
    rw [readToken_of_line guide onLine, readInLine_name]
  obtain ⟨ends, kinds, block, atBlockStart, noted⟩ := noteName_eq line.name (moveTo line.address state)
  have behind : BehindName line (append line.name (noteName line.name (moveTo line.address state))) := by
    rw [append_of_isName line.named, noted]
    refine ⟨rfl, ?_, ?_, rfl⟩
    · simp only [moveTo, start.content, String.empty_append]
    · show (if line.isPush then Reading.beforeOperand else state.reading) = _
      rw [start.reading]
  have ends : Ends guide line (append line.name (noteName line.name (moveTo line.address state)))
      ((line.parts.flatMap Part.tokens ++ [(⟨.lineEnd, "\n"⟩ : Token)]).forM (readToken guide)
        (append line.name (noteName line.name (moveTo line.address state)))) := by
    cases push : line.isPush with
    | true => exact forM_push push behind
    | false => exact forM_other push behind
  rw [Line.tokens, forM_cons_of_ok address, forM_cons_of_ok name]
  generalize (line.parts.flatMap Part.tokens ++ [(⟨.lineEnd, "\n"⟩ : Token)]).forM (readToken guide) _ = result at ends ⊢
  rw [append_of_isName line.named, noted] at ends
  rw [readLine, noted]
  exact ends

theorem bare_noteName (name : String) (state : Collected) : (noteName name state).bare = noteName name state.bare := by
  unfold noteName
  by_cases label : name = "JUMPDEST"
  · simp only [if_pos label]
    rfl
  · simp only [if_neg label]
    split_ifs <;> rfl

theorem bare_readLine (state : Collected) (line : Line) : (readLine state line).bare = readLine state.bare line := by
  have noted := bare_noteName line.name (moveTo line.address state)
  have moved : (moveTo line.address state).bare = moveTo line.address state.bare := rfl
  rw [moved] at noted
  rw [readLine, readLine, ← noted]
  rfl

theorem forall_zip_cons {holds : Line × Option Place → Prop} (line : Line) (rest : List Line)
    (told : List (Option Place)) :
    (∀ pair ∈ (line :: rest).zip told, holds pair) ↔
      (∀ entry ∈ told.head?, holds (line, entry)) ∧ ∀ pair ∈ rest.zip told.tail, holds pair := by
  cases told <;> simp

theorem forM_lines (start : state.AtLine) (fits : ∀ pair ∈ lines.zip (left guide state.used), Fits pair.1 pair.2) :
    ∃ final, (lines.flatMap Line.tokens).forM (readToken guide) state = .ok () final ∧ final.AtLine ∧
      final.bare = lines.foldl readLine state.bare ∧
      final.places =
        (lines.zip (left guide state.used)).foldl (fun places pair => locate pair.1.address pair.2 places)
          state.places := by
  induction lines generalizing state with
  | nil => exact ⟨state, rfl, start, rfl, rfl⟩
  | cons line rest ih =>
    obtain ⟨here, later⟩ := (forall_zip_cons _ _ _).mp fits
    obtain ⟨now, tells, remaining⟩ := told_of_fits here
    have read := @forM_tokens guide state line start
    rw [tells] at read
    rw [← remaining] at later
    obtain ⟨final, onward, atLine, folded, located⟩ := @ih
      { readLine state line with
        used := now
        places := locate line.address (left guide state.used).head?.join state.places }
      ⟨rfl, rfl, rfl⟩ later
    refine ⟨final, ?_, atLine, ?_, ?_⟩
    · rw [List.flatMap_cons, forM_append_of_ok read, onward]
    · rw [folded, List.foldl_cons, ← bare_readLine]
      rfl
    · rw [located]
      dsimp only
      rw [remaining]
      cases left guide state.used with
      | nil => simp [locate]
      | cons entry more => rfl

theorem forM_lines_stops (start : state.AtLine)
    (misfit : ¬ ∀ pair ∈ lines.zip (left guide state.used), Fits pair.1 pair.2) :
    ∃ fault stopped, (lines.flatMap Line.tokens).forM (readToken guide) state = .error fault stopped := by
  induction lines generalizing state with
  | nil => exact (misfit (by simp)).elim
  | cons line rest ih =>
    rw [forall_zip_cons] at misfit
    rw [List.flatMap_cons]
    have read := @forM_tokens guide state line start
    by_cases here : ∀ entry ∈ (left guide state.used).head?, Fits line entry
    · obtain ⟨now, tells, remaining⟩ := told_of_fits here
      rw [tells] at read
      rw [forM_append_of_ok read]
      refine ih ⟨rfl, rfl, rfl⟩ fun later => misfit ⟨here, ?_⟩
      rwa [← remaining]
    · obtain ⟨fault, tells⟩ := told_of_misfit here
      rw [tells] at read
      obtain ⟨stopped, stops⟩ := read
      exact ⟨fault, stopped, forM_append_of_error stops _⟩

section Collecting

variable {code : List Char} (oneLine : '\n' ∉ code ∧ '\r' ∉ code)

include oneLine

theorem collect_of_ok {final : Collected} (read : (lines.flatMap Line.tokens).forM (readToken guide) {} = .ok () final)
    (atLine : final.AtLine) :
    collect guide (written code lines) = (finish (append "" final), none) := by
  have ending : readToken guide ⟨.other, ""⟩ final = .ok () (append "" final) := by
    rw [readToken_of_line guide atLine.reading]
    obtain ⟨_, _, _, _, _, _, _, _, atLineStart, _, _, _⟩ := final
    cases atLineStart <;> rfl
  have all : (lines.flatMap Line.tokens ++ [(⟨.other, ""⟩ : Token)]).forM (readToken guide) {} =
      .ok () (append "" final) := by
    rw [forM_append_of_ok read, forM_singleton, ending]
  have tokens : (readTokens guide (lines.flatMap Line.tokens ++ [(⟨.other, ""⟩ : Token)], none)).run {} =
      .ok () (finish (append "" final)) := by
    simp only [readTokens, EStateM.run, bind, EStateM.bind, all]
    rfl
  unfold collect
  rw [Token.scan_written oneLine, tokens]

theorem collect_of_error {fault : Fault} {stopped : Collected}
    (stops : (lines.flatMap Line.tokens).forM (readToken guide) {} = .error fault stopped) :
    collect guide (written code lines) = (stopped, some fault) := by
  have tokens : (readTokens guide (lines.flatMap Line.tokens ++ [(⟨.other, ""⟩ : Token)], none)).run {} =
      .error fault stopped := by
    simp only [readTokens, EStateM.run, bind, EStateM.bind, forM_append_of_error stops]
  unfold collect
  rw [Token.scan_written oneLine, tokens]

theorem collect_written (tracked : Matches guide 0 lines) :
    ∃ final, collect guide (written code lines) = (final, none) ∧
      Graph.ofCollected final = Graph.ofCollected (finish (lines.foldl readLine {})) := by
  have fits : ∀ pair ∈ lines.zip (left guide 0), Fits pair.1 pair.2 := by
    cases guide with
    | none => simp [left, entries]
    | some places => exact fits_of_tracks (tracked places rfl)
  obtain ⟨final, read, atLine, folded, _⟩ := @forM_lines guide {} lines ⟨rfl, rfl, rfl⟩ fits
  refine ⟨_, collect_of_ok oneLine read atLine, ?_⟩
  have whole : Graph.ofCollected (finish (append "" final)) = Graph.ofCollected (finish final.bare) := rfl
  rw [whole, folded]
  rfl

end Collecting

end Lines

end Listing

end MintAudit
