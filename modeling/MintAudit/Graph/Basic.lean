import MintAudit.Word.Arithmetic

namespace MintAudit

/-!
# From listings to graphs

The basic blocks of a listing with the edges between them.
-/

/-! ## The written listing -/

namespace Listing

def unixLineEnds : List Char → List Char
  | [] => []
  | '\r' :: '\n' :: rest => '\n' :: unixLineEnds rest
  | '\r' :: rest => '\n' :: unixLineEnds rest
  | character :: rest => character :: unixLineEnds rest

def readText (text : String) : String :=
  String.ofList (unixLineEnds text.toList)

def decimalAddress (field : String) : String :=
  match Numeral.read? 16 field with
  | some value => toString value
  | none => field

def withArrow (fields : List String) : List String :=
  match fields.getLast? with
  | some last =>
    if (Numeral.read? 16 last).isSome && 2 < fields.length then
      fields.dropLast ++ ["=>", last]
    else
      fields
  | none => fields

def trimmedLast (fields : List String) : List String :=
  match fields.getLast? with
  | some last => fields.dropLast ++ [Text.stripWhile (· == '\n') last]
  | none => fields

def formatLine (line : String) : String :=
  let fields := Text.splitOnChar ' ' (String.ofList (line.toList.filter (· ≠ ':')))
  let addressed := match fields with
    | [] => []
    | first :: rest => decimalAddress first :: rest
  String.intercalate " " (withArrow (trimmedLast addressed))

def format (text : String) : Except Fault String :=
  match Text.lines (readText text) with
  | [] => .error .outOfRange
  | first :: rest =>
    let lines := Text.stripWhile (· == '\n') first :: rest.map formatLine
    .ok (String.intercalate "\n" lines ++ "\n")

end Listing

/-! ## Tokens of a listing -/

inductive TokenKind where
  | number
  | name
  | lineEnd
  | other
  deriving DecidableEq, Repr

structure Token where
  kind : TokenKind
  text : String
  deriving DecidableEq, Repr

namespace Token

def moreDigits (isDigit : Char → Bool) : List Char → List Char × List Char
  | '_' :: character :: rest =>
    if isDigit character then
      let (taken, left) := moreDigits isDigit rest
      ('_' :: character :: taken, left)
    else
      ([], '_' :: character :: rest)
  | character :: rest =>
    if isDigit character then
      let (taken, left) := moreDigits isDigit rest
      (character :: taken, left)
    else
      ([], character :: rest)
  | [] => ([], [])

def digitRun (isDigit : Char → Bool) : List Char → Option (List Char × List Char)
  | character :: rest =>
    if isDigit character then
      let (taken, left) := moreDigits isDigit rest
      some (character :: taken, left)
    else
      none
  | [] => none

def exponent (characters : List Char) : Option (List Char × List Char) :=
  match characters with
  | mark :: rest =>
    if mark == 'e' || mark == 'E' then
      let (sign, digits) := match rest with
        | '-' :: digits => (['-'], digits)
        | '+' :: digits => (['+'], digits)
        | digits => ([], digits)
      (digitRun Text.isPlainDigit digits).map fun (taken, left) => (mark :: sign ++ taken, left)
    else
      none
  | [] => none

def withExponent (number : List Char × List Char) : List Char × List Char :=
  match exponent number.2 with
  | some (taken, left) => (number.1 ++ taken, left)
  | none => number

def floatNumber (characters : List Char) : Option (List Char × List Char) :=
  match digitRun Text.isPlainDigit characters with
  | some (whole, '.' :: rest) =>
    match digitRun Text.isPlainDigit rest with
    | some (fraction, left) => some (withExponent (whole ++ '.' :: fraction, left))
    | none => some (withExponent (whole ++ ['.'], rest))
  | some (whole, rest) => (exponent rest).map fun (taken, left) => (whole ++ taken, left)
  | none =>
    match characters with
    | '.' :: rest => (digitRun Text.isPlainDigit rest).map fun (fraction, left) => withExponent ('.' :: fraction, left)
    | _ => none

def imaginary (number : Option (List Char × List Char)) : Option (List Char × List Char) :=
  match number with
  | some (taken, mark :: left) => if mark == 'j' || mark == 'J' then some (taken ++ [mark], left) else none
  | _ => none

def isHexDigit (character : Char) : Bool :=
  Text.isPlainDigit character || ('a' ≤ character && character ≤ 'f') || ('A' ≤ character && character ≤ 'F')

def marked (lower upper : Char) (isDigit : Char → Bool) : List Char → Option (List Char × List Char)
  | '0' :: mark :: rest =>
    if mark == lower || mark == upper then
      match moreDigits isDigit rest with
      | ([], _) => none
      | (taken, left) => some ('0' :: mark :: taken, left)
    else
      none
  | _ => none

def wholeNumber (characters : List Char) : Option (List Char × List Char) :=
  marked 'x' 'X' isHexDigit characters
    <|> marked 'b' 'B' (fun character => character == '0' || character == '1') characters
    <|> marked 'o' 'O' (fun character => '0' ≤ character && character ≤ '7') characters
    <|> match characters with
      | '0' :: _ => digitRun (· == '0') characters
      | _ => digitRun Text.isPlainDigit characters

def number (characters : List Char) : Option (List Char × List Char) :=
  imaginary (digitRun Text.isPlainDigit characters)
    <|> imaginary (floatNumber characters)
    <|> floatNumber characters
    <|> wholeNumber characters

def signs : List String :=
  ["**=", "//=", ">>=", "<<=", "...", "!=", "%=", "&=", "**", "*=", "+=", "-=", "->", "//", "/=", ":=", "<<", "<=",
    "==", ">=", ">>", "@=", "^=", "|=", "%", "&", "(", ")", "*", "+", ",", "-", ".", "/", ":", ";", "<", "=", ">",
    "@", "[", "]", "^", "\x7b", "|", "\x7d", "~"]

def sign (characters : List Char) : Option (List Char × List Char) :=
  (signs.find? fun sign => Text.startsWithChars characters sign.toList).map fun sign =>
    (sign.toList, characters.drop sign.length)

def isGap (character : Char) : Bool :=
  character == ' ' || character == '\t' || character == '\x0c'

def depthAfter (depth : Int) (sign : List Char) : Int :=
  match sign with
  | ['('] | ['['] | ['\x7b'] => depth + 1
  | [')'] | [']'] | ['\x7d'] => depth - 1
  | _ => depth

def scanLine (fuel : Nat) (depth : Int) (characters : List Char) : List Token × Int × Bool :=
  match fuel with
  | 0 => ([], depth, false)
  | fuel + 1 =>
    let emit (kind : TokenKind) (taken left : List Char) (depth : Int) :=
      let (tokens, result) := scanLine fuel depth left
      (⟨kind, String.ofList taken⟩ :: tokens, result)
    match characters with
    | [] => ([], depth, false)
    | first :: others =>
      match characters.dropWhile isGap with
      | [] => ([], depth, false)
      | '\\' :: '\n' :: [] => ([], depth, true)
      | '#' :: rest => emit .other ('#' :: rest.takeWhile (· ≠ '\n')) (rest.dropWhile (· ≠ '\n')) depth
      | '\n' :: rest => emit (if 0 < depth then .other else .lineEnd) ['\n'] rest depth
      | character :: rest =>
        match number (character :: rest) with
        | some (taken, left) => emit .number taken left depth
        | none =>
          match sign (character :: rest) with
          | some (taken, left) => emit .other taken left (depthAfter depth taken)
          | none =>
            if Text.isWordCharacter character then
              let taken := (character :: rest).takeWhile Text.isWordCharacter
              let left := (character :: rest).dropWhile Text.isWordCharacter
              emit (if Text.startsName character then .name else .other) taken left depth
            else
              emit .other [first] others depth

def indentation : Nat → List Char → Nat
  | column, ' ' :: rest => indentation (column + 1) rest
  | column, '\t' :: rest => indentation ((column / 8 + 1) * 8) rest
  | _, '\x0c' :: rest => indentation 0 rest
  | column, _ => column

def closeTo (column : Nat) : List Nat → Except Fault (List Nat × Nat)
  | [] => .error .badIndentation
  | level :: levels =>
    if level = column then
      .ok (level :: levels, 0)
    else if level < column then
      .error .badIndentation
    else do
      let (left, closed) ← closeTo column levels
      return (left, closed + 1)

structure Position where
  levels : List Nat
  depth : Int
  continued : Bool

def indentTokens (column : Nat) (gap : List Char) (levels : List Nat) : Except Fault (List Nat × List Token) :=
  match levels with
  | [] => .ok ([column], [])
  | level :: _ =>
    if level < column then
      .ok (column :: levels, [⟨.other, String.ofList gap⟩])
    else do
      let (left, closed) ← closeTo column levels
      return (left, List.replicate closed ⟨.other, ""⟩)

def ending (position : Position) (last : List Char) : List Token × Option Fault :=
  if position.depth ≠ 0 || position.continued then
    ([], some .unfinishedTokens)
  else
    let unended :=
      match last.getLast? with
      | some character => character ≠ '\n' && !Text.startsWith (Text.strip (String.ofList last)) "#"
      | none => false
    let final : List Token := if unended then [⟨.lineEnd, ""⟩] else []
    (final ++ List.replicate (position.levels.length - 1) ⟨.other, ""⟩ ++ [⟨.other, ""⟩], none)

def scanLines (position : Position) (last : List Char) : List (List Char) → List Token × Option Fault
  | [] => ending position last
  | line :: lines =>
    let onto (tokens : List Token) (rest : List Token × Option Fault) := (tokens ++ rest.1, rest.2)
    if position.depth ≠ 0 || position.continued then
      let (tokens, depth, continued) := scanLine (line.length + 1) position.depth line
      onto tokens (scanLines ⟨position.levels, depth, continued⟩ line lines)
    else
      match line.dropWhile isGap with
      | [] => ending position last
      | '\n' :: _ => onto [⟨.other, "\n"⟩] (scanLines position line lines)
      | '#' :: rest =>
        let comment := '#' :: rest.takeWhile (· ≠ '\n')
        onto [⟨.other, String.ofList comment⟩, ⟨.other, String.ofList (rest.dropWhile (· ≠ '\n'))⟩]
          (scanLines position line lines)
      | code =>
        match indentTokens (indentation 0 line) (line.takeWhile isGap) position.levels with
        | .error fault => ([], some fault)
        | .ok (levels, indents) =>
          let (tokens, depth, continued) := scanLine (code.length + 1) position.depth code
          onto (indents ++ tokens) (scanLines ⟨levels, depth, continued⟩ line lines)

def scan (text : String) : List Token × Option Fault :=
  scanLines ⟨[0], 0, false⟩ [] (Text.linesOf text.toList)

end Token

/-! ## Basic blocks -/

inductive JumpKind where
  | terminal
  | unconditional
  | conditional
  | fallsTo
  | other (name : String)
  deriving DecidableEq, Repr, Inhabited

def JumpKind.text : JumpKind → String
  | terminal => "terminal"
  | unconditional => "unconditional"
  | conditional => "conditional"
  | fallsTo => "falls_to"
  | other name => name

def JumpKind.ofText : String → JumpKind
  | "terminal" => terminal
  | "unconditional" => unconditional
  | "conditional" => conditional
  | "falls_to" => fallsTo
  | name => other name

structure Block where
  start : Int
  stop : Int
  lines : List String := []
  kind : Option JumpKind := none
  fallsTo : Option (Option Int) := none
  jumpTarget : Int := 0
  branch : Option Word := none
  deriving Repr, Inhabited

namespace Block

def addLine (line : String) (block : Block) : Block :=
  { block with lines := block.lines ++ [line] }

def setJumpTarget (target : Word) (block : Block) : Block :=
  { block with jumpTarget := target.concrete?.getD (-1) }

def known (fact : Option α) : Except Fault α :=
  match fact with
  | some value => .ok value
  | none => .error .missingMember

def getKind (block : Block) : Except Fault JumpKind := known block.kind

def getFallsTo (block : Block) : Except Fault (Option Int) := known block.fallsTo

def getBranch (block : Block) : Except Fault Word := known block.branch

def heading (block : Block) : List String :=
  ["================", "start address: " ++ toString block.start, "end address: " ++ toString block.stop]

def display (block : Block) : Except Fault String := do
  let kind ← block.getKind
  return String.join ((block.heading ++ ["end statement type: " ++ kind.text] ++ block.lines).map (· ++ "\n"))

end Block

/-! ## Places -/

structure Place where
  name : Option String
  value : Option String
  first : Option Int
  last : Option Int
  deriving DecidableEq, Repr, Inhabited

/-! ## Instructions and block ends of a listing -/

namespace Listing

inductive Reading where
  | line
  | beforeOperand
  | operand (digits : String)
  deriving DecidableEq, Repr

structure Collected where
  instructions : Table Int String := []
  ends : Table Int Int := []
  kinds : Table Int JumpKind := []
  places : Table Int Place := []
  used : Nat := 0
  address : Int := 0
  lastAddress : Int := 0
  block : Int := 0
  atLineStart : Bool := true
  atBlockStart : Bool := false
  reading : Reading := .line
  content : String := ""
  deriving Repr

abbrev Guide := Option (List (Option Place))

/-- A reader of listings keeps what it has read when a fault stops it. -/
abbrev Reader := EStateM Fault Collected

inductive Next where
  | finished (used : Nat)
  | void (used : Nat)
  | at (place : Place) (name : String) (used : Nat)

def nextPlace (used : Nat) : List (Option Place) → Except Fault Next
  | [] => .ok (.finished used)
  | none :: _ => .ok (.void (used + 1))
  | some place :: rest =>
    match place.name with
    | none => .error .missingKey
    | some name => if Text.startsWith name "tag" then nextPlace (used + 1) rest else .ok (.at place name (used + 1))

def sameOperand (place : Place) (content : String) : Except Fault Bool := do
  let some written := place.value | throw .missingKey
  let some operand := (Text.splitOnChar ' ' content)[1]? | throw .outOfRange
  let some value := Numeral.read? 16 written | throw .wrongValue
  let some found := Numeral.read? 16 operand | throw .wrongValue
  return value == found

def admitsPush (place : Place) (name content : String) : Except Fault Unit := do
  if !Text.startsWith name "PUSH" then
    throw .listingMismatch
  if name = "PUSH" then
    if !(← sameOperand place content) then
      throw .listingMismatch

def admitsOther (name content : String) : Except Fault Unit := do
  let found := (Text.splitOnChar ' ' content).headD ""
  let alike :=
    name == found || (name == "INVALID" && found == "ASSERTFAIL") || (name == "KECCAK256" && found == "SHA3")
      || (name == "SELFDESTRUCT" && found == "SUICIDE")
  if !alike then
    throw (.listingNameMismatch name found)

def follow (guide : Guide) (admits : Place → String → String → Except Fault Unit) : Reader Unit := do
  let some places := guide | return ()
  let state ← get
  match nextPlace state.used (places.drop state.used) with
  | .error fault => throw fault
  | .ok (.finished used) => modify fun state => { state with used := used }
  | .ok (.void used) => modify fun state => { state with used := used }
  | .ok (.at place name used) =>
    match admits place name state.content with
    | .error fault => throw fault
    | .ok () =>
      modify fun state =>
        { state with used := used, places := Table.put state.address place state.places }

def record (guide : Guide) (admits : Place → String → String → Except Fault Unit) : Reader Unit := do
  modify fun state =>
    { state with
      atLineStart := true
      instructions := Table.put state.address state.content state.instructions }
  follow guide admits
  modify fun state => { state with content := "" }

def terminals : List String := ["STOP", "RETURN", "SUICIDE", "REVERT", "ASSERTFAIL"]

def endBlock (kind : JumpKind) (state : Collected) : Collected :=
  { state with
    kinds := Table.put state.block kind state.kinds
    ends := Table.put state.block state.address state.ends }

def noteName (name : String) (state : Collected) : Collected :=
  let state :=
    if name = "JUMPDEST" then
      let ends :=
        if Table.has state.lastAddress state.ends then
          state.ends
        else
          Table.put state.block state.lastAddress state.ends
      { state with ends := ends, block := state.address, atBlockStart := false }
    else if terminals.contains name then
      endBlock .terminal state
    else if name = "JUMP" then
      { endBlock .unconditional state with atBlockStart := true }
    else if name = "JUMPI" then
      { endBlock .conditional state with atBlockStart := true }
    else if Text.startsWith name "PUSH" then
      { state with reading := .beforeOperand }
    else
      state
  { state with atLineStart := false }

def append (text : String) (state : Collected) : Collected :=
  if text = "=" || text = ">" then state else { state with content := state.content ++ text ++ " " }

def readInLine (guide : Guide) (token : Token) : Reader Unit := do
  let state ← get
  if state.atLineStart && token.kind = .number then
    modify fun state => { state with lastAddress := state.address }
    let some address := Numeral.read? 10 token.text | throw (.leave none)
    modify fun state =>
      { state with
        address := address
        atLineStart := false
        block := if state.atBlockStart then address else state.block
        atBlockStart := false }
  else if token.kind = .lineEnd then
    record guide (fun _ name content => admitsOther name content)
  else
    if token.kind = .name then
      modify (noteName token.text)
    modify (append token.text)

def readToken (guide : Guide) (token : Token) : Reader Unit := do
  let state ← get
  match state.reading with
  | .line => readInLine guide token
  | .beforeOperand =>
    if state.content = "PUSH0 " && token.kind = .lineEnd then
      modify fun state => { state with content := state.content ++ "0 " }
      record guide admitsPush
      modify fun state => { state with reading := .line }
    else
      modify fun state => { state with reading := .operand "" }
  | .operand digits =>
    if token.kind = .lineEnd then
      modify fun state => { state with content := state.content ++ digits ++ " " }
      record guide admitsPush
      modify fun state => { state with reading := .line }
    else if (Numeral.read? 16 token.text).isSome then
      modify fun state => { state with reading := .operand (digits ++ token.text) }

def finish (state : Collected) : Collected :=
  let ends :=
    if Table.has state.block state.ends then state.ends else Table.put state.block state.address state.ends
  let kinds :=
    if Table.has state.block state.kinds then state.kinds else Table.put state.block .terminal state.kinds
  let kinds := (Table.keys ends).foldl
    (fun kinds key => if Table.has key kinds then kinds else Table.put key .fallsTo kinds) kinds
  { state with ends := ends, kinds := kinds }

def readTokens (guide : Guide) (tokens : List Token × Option Fault) : Reader Unit := do
  tokens.1.forM (readToken guide)
  match tokens.2 with
  | some fault => throw fault
  | none => modify finish

def body (text : String) : String :=
  String.ofList ((Text.linesOf text.toList).drop 1).flatten

def collect (guide : Guide) (text : String) : Collected × Option Fault :=
  match (readTokens guide (Token.scan (body (readText text)))).run {} with
  | .ok _ state => (state, none)
  | .error fault state => (state, some fault)

end Listing

/-! ## Control-flow graphs -/

structure Graph where
  instructions : Table Int String := []
  ends : Table Int Int := []
  kinds : Table Int JumpKind := []
  blocks : Table Int Block := []
  edges : Table Int (List Int) := []
  deriving Repr, Inhabited

namespace Graph

def ofCollected (collected : Listing.Collected) : Graph :=
  { instructions := collected.instructions, ends := collected.ends, kinds := collected.kinds }

def linesBetween (first last : Int) (sorted : List (Int × String)) : List String :=
  ((sorted.filter fun entry => first < entry.1).takeWhile fun entry => entry.1 ≤ last).map Prod.snd

def addBlock (sorted : List (Int × String)) (graph : Graph) (start stop : Int) : Except Fault Graph :=
  match Table.get? start graph.instructions with
  | none => .ok graph
  | some line =>
    match Table.get? start graph.kinds with
    | none => .error .missingKey
    | some kind =>
      let block : Block :=
        { start := start, stop := stop, lines := line :: linesBetween start stop sorted, kind := some kind }
      .ok { graph with
        blocks := Table.put start block graph.blocks
        edges := Table.put start [] graph.edges }

def addBlocks (graph : Graph) : Except Fault Graph :=
  let sorted := graph.instructions.mergeSort (fun left right => left.1 ≤ right.1)
  graph.ends.foldlM (fun graph entry => addBlock sorted graph entry.1 entry.2) graph

def addFallEdge (source target : Int) (graph : Graph) : Except Fault Graph :=
  match Table.get? source graph.edges, Table.get? source graph.blocks with
  | some targets, some block =>
    .ok { graph with
      edges := Table.put source (targets ++ [target]) graph.edges
      blocks := Table.put source { block with fallsTo := some (some target) } graph.blocks }
  | _, _ => .error .missingKey

def consecutive : List Int → List (Int × Int)
  | first :: second :: rest => (first, second) :: consecutive (second :: rest)
  | _ => []

def addFallEdgesAlong : List (Int × Int) → Graph → Graph × Option Fault
  | [], graph => (graph, none)
  | (source, target) :: rest, graph =>
    match Table.get? source graph.kinds with
    | some .terminal => addFallEdgesAlong rest graph
    | some .unconditional => addFallEdgesAlong rest graph
    | _ =>
      match addFallEdge source target graph with
      | .ok graph => addFallEdgesAlong rest graph
      | .error fault => (graph, some fault)

def addFallEdges (graph : Graph) : Graph × Option Fault :=
  addFallEdgesAlong (consecutive ((Table.keys graph.kinds).mergeSort (· ≤ ·))) graph

def addJump (source target : Int) (graph : Graph) : Except Fault Graph :=
  match Table.get? source graph.edges with
  | some targets =>
    .ok (if targets.contains target then graph
      else { graph with edges := Table.put source (targets ++ [target]) graph.edges })
  | none => .error .missingKey

def block (address : Int) (graph : Graph) : Except Fault Block :=
  match Table.get? address graph.blocks with
  | some block => .ok block
  | none => .error .missingKey

def updateBlock (address : Int) (change : Block → Block) (graph : Graph) : Graph :=
  { graph with blocks := Table.adjust address change graph.blocks }

def display (graph : Graph) : Except Fault String := do
  return String.join (← graph.blocks.mapM fun entry => entry.2.display)

inductive Dispatch where
  | start
  | selector (selector : String)
  | compared (selector : String)

def functionStartsFrom : Dispatch → List (Int × String) → Table Int String → Except Fault (Table Int String)
  | _, [], starts => .ok starts
  | state, (_, line) :: rest, starts =>
    match state with
    | .start =>
      if Text.startsWith line "PUSH4" then
        match (Text.splitOnChar ' ' line)[1]? with
        | some written => functionStartsFrom (.selector (String.ofList (written.toList.drop 2))) rest starts
        | none => .error .outOfRange
      else
        functionStartsFrom .start rest starts
    | .selector selector =>
      if Text.startsWith line "EQ" then
        functionStartsFrom (.compared selector) rest starts
      else
        functionStartsFrom .start rest starts
    | .compared selector =>
      if Text.startsWith line "PUSH" then
        match (Text.splitOnChar ' ' line)[1]? with
        | some written =>
          match Numeral.read? 16 written with
          | some address => functionStartsFrom .start rest (Table.put address selector starts)
          | none => .error .wrongValue
        | none => .error .outOfRange
      else
        functionStartsFrom .start rest starts

def functionStarts (graph : Graph) : Except Fault (Table Int String) :=
  functionStartsFrom .start graph.instructions []

end Graph

end MintAudit
