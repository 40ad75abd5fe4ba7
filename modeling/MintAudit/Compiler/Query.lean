import MintAudit.Graph.Basic
import MintAudit.SyntaxTree.Contracts

namespace MintAudit

/-!
# Workspaces and the compiler

The compiler is asked for one description of a file at a time.
-/

/-! ## Workspaces -/

structure CompiledContract where
  file : String
  name : String
  code : String
  deriving DecidableEq, Repr, Inhabited

structure Workspace where
  files : Table String String := []
  directories : List String := []
  programs : Table String Json := []
  compiled : List CompiledContract := []
  rejected : Bool := false
  response : Json := .null
  commands : List (List String) := []
  requests : List (String × List String) := []
  deriving Inhabited

abbrev Work := EStateM Fault Workspace

namespace Workspace

def pathOf (steps : List String) : String :=
  "/".intercalate steps

def hasDirectory (workspace : Workspace) (path : String) : Bool :=
  path.isEmpty || path == "/" || workspace.directories.contains path

def parent (path : String) : String :=
  (PathName.splitLast path).1

def follow (workspace : Workspace) (path step : String) : Except Fault String :=
  if !workspace.hasDirectory path then
    .error (if Table.has path workspace.files then .notDirectory else .missingFile)
  else if step.isEmpty || step == "." then .ok path
  else if step == ".." then .ok (parent path)
  else .ok (PathName.join path step)

def locate (path : String) (workspace : Workspace) : Except Fault String :=
  if path.isEmpty then
    .error .missingFile
  else
    (Text.splitOnChar '/' path).foldlM workspace.follow (if Text.startsWith path "/" then "/" else "")

def isDirectory (path : String) (workspace : Workspace) : Bool :=
  match workspace.locate path with
  | .ok found => workspace.hasDirectory found
  | .error _ => false

def isFile (path : String) (workspace : Workspace) : Bool :=
  match workspace.locate path with
  | .ok found => Table.has found workspace.files
  | .error _ => false

def content (path : String) (workspace : Workspace) : Except Fault String := do
  let found ← workspace.locate path
  if workspace.hasDirectory found then
    throw .isDirectory
  match Table.get? found workspace.files with
  | some text => return text
  | none => throw .missingFile

def ancestors (path : String) : List String :=
  let steps := (Text.splitOnChar '/' path).dropLast
  (List.range steps.length).map fun index => pathOf (steps.take (index + 1))

def withFile (path text : String) (workspace : Workspace) : Workspace :=
  let missing := (ancestors path).filter fun found => !workspace.directories.contains found
  { workspace with
    files := Table.put path text workspace.files
    directories := workspace.directories ++ missing }

structure Run where
  output : String
  failed : Bool
  deriving DecidableEq, Repr, Inhabited

def answer (table : Json) (arguments : List String) : Run :=
  let shown := (arguments.findSome? fun argument => table.member? argument).map fun value =>
    match value with
    | .string text => text
    | value => value.render
  let failing := ((table.member? "fail").bind Json.array?).getD []
  { output := shown.getD ""
    failed := (arguments.getLast?.map fun last => failing.any (Json.isText last)).getD false }

end Workspace

namespace Work

def ask (part : Workspace → α) : Work α := do
  return part (← get)

def attempt (work : Work α) : Work (Except Fault α) := fun workspace =>
  match work workspace with
  | .ok value workspace => .ok (.ok value) workspace
  | .error fault workspace => .ok (.error fault) workspace

def ofExcept (result : Except Fault α) : Work α :=
  match result with
  | .ok value => pure value
  | .error fault => throw fault

def readFile (path : String) : Work String := do
  ofExcept ((← get).content path)

def writeFile (path text : String) : Work Unit := do
  let workspace ← get
  let found ← ofExcept (workspace.locate path)
  if workspace.hasDirectory found then
    throw .isDirectory
  set { workspace with files := Table.put found text workspace.files }

def removeFile (path : String) : Work Unit :=
  modify fun workspace =>
    match workspace.locate path with
    | .ok found => { workspace with files := workspace.files.filter fun entry => entry.1 != found }
    | .error _ => workspace

def makeDirectory (path : String) : Work Unit := do
  let workspace ← get
  let found ← ofExcept (workspace.locate path)
  if workspace.hasDirectory found || Table.has found workspace.files then
    throw .existingFile
  set { workspace with directories := workspace.directories ++ [found] }

def note (command : List String) : Work Unit :=
  modify fun workspace => { workspace with commands := workspace.commands ++ [command] }

def start (command : List String) : Work Workspace.Run := do
  match command with
  | [] => throw .outOfRange
  | program :: arguments =>
    note command
    if program == "cat" then
      return { output := "", failed := false }
    match Table.get? program (← get).programs with
    | none => throw .missingFile
    | some .null => throw .missingFile
    | some table => return Workspace.answer table arguments

def output (command : List String) : Work String := do
  return (← start command).output

def outputOrFail (command : List String) : Work String := do
  let run ← start command
  if run.failed then
    throw .toolFailed
  return run.output

def isKnown (program : String) : Work Bool := do
  note ["type " ++ program]
  return Table.has program (← get).programs

end Work

/-! ## Command lines -/

namespace CommandLine

inductive State where
  | between
  | word
  | quoted (mark : Char)
  | escaped
  | escapedQuoted
  deriving DecidableEq, Repr, Inhabited

def isGap (character : Char) : Bool :=
  character == ' ' || character == '\t' || character == '\r' || character == '\n'

def isQuote (character : Char) : Bool :=
  character == '"' || character == '\''

def cut : State → List Char → Bool → List Char → Except Fault (List String)
  | .between, _, _, [] => .ok []
  | .word, word, kept, [] => .ok (if kept || !word.isEmpty then [String.ofList word.reverse] else [])
  | _, _, _, [] => .error .wrongValue
  | .between, word, kept, character :: rest =>
    if isGap character then cut .between word kept rest
    else if character == '\\' then cut .escaped [] false rest
    else if isQuote character then cut (.quoted character) [] true rest
    else cut .word [character] false rest
  | .word, word, kept, character :: rest =>
    if isGap character then do
      let more ← cut .between [] false rest
      return if kept || !word.isEmpty then String.ofList word.reverse :: more else more
    else if character == '\\' then cut .escaped word kept rest
    else if isQuote character then cut (.quoted character) word true rest
    else cut .word (character :: word) kept rest
  | .quoted mark, word, kept, character :: rest =>
    if character == mark then cut .word word kept rest
    else if character == '\\' && mark == '"' then cut .escapedQuoted word kept rest
    else cut (.quoted mark) (character :: word) kept rest
  | .escaped, word, kept, character :: rest => cut .word (character :: word) kept rest
  | .escapedQuoted, word, kept, character :: rest =>
    let word := if character == '\\' || character == '"' then word else '\\' :: word
    cut (.quoted '"') (character :: word) kept rest

def words (line : String) : Except Fault (List String) :=
  cut .between [] false line.toList

end CommandLine

/-! ## Versions -/

namespace Version

def isZeros (part : String) : Bool :=
  !part.toList.isEmpty && part.toList.all (· == '0')

/-- The parts of a version; a line end behind it is not looked at. -/
def fields (version : String) : List String :=
  let whole := version.toList
  Text.splitOnChar '.' (String.ofList (if whole.getLast? = some '\n' then whole.dropLast else whole))

def significant (parts : List String) : List String :=
  match parts with
  | [] => []
  | first :: rest => first :: (rest.reverse.dropWhile isZeros).reverse

def numbers (version : String) : Except Fault (List Int) :=
  (significant (fields version)).mapM fun part =>
    match Numeral.read? 10 part with
    | some value => .ok value
    | none => .error .wrongValue

def orderOf : List Int → List Int → Ordering
  | [], [] => .eq
  | [], _ :: _ => .lt
  | _ :: _, [] => .gt
  | left :: leftRest, right :: rightRest => (Ord.compare left right).then (orderOf leftRest rightRest)

def order (left right : String) : Except Fault Ordering := do
  let left ← numbers left
  let right ← numbers right
  return orderOf left right

def sign : Ordering → Int
  | .lt => -1
  | .eq => 0
  | .gt => 1

def directiveAt? (text : List Char) : Option String :=
  if !Text.startsWithChars text "pragma".toList then
    none
  else
    let rest := text.drop 6
    let word := rest.dropWhile Text.isBlank
    if word.length = rest.length || !Text.startsWithChars word "solidity".toList then
      none
    else
      let rest := word.drop 8
      let version := rest.dropWhile Text.isBlank
      let blanks := rest.takeWhile Text.isBlank
      if !version.contains ';' then
        none
      else
        match version.takeWhile (· ≠ ';'), blanks with
        | [], _ :: blank :: more => some (String.singleton ((blank :: more).getLast (by simp)))
        | [], _ => none
        | _, [] => none
        | found, _ => some (String.ofList found)

def directive? : List Char → Option String
  | [] => none
  | character :: rest =>
    match directiveAt? (character :: rest) with
    | some version => some version
    | none => directive? rest

def ofSource (source : String) : Except Fault String :=
  match directive? source.toList with
  | some version => .ok (String.ofList (version.toList.filter (· ≠ '^')))
  | none => .error .noVersionDirective

end Version

/-! ## Programs and their versions -/

def Work.run (line : String) : Work String := do
  output (← ofExcept (CommandLine.words line))

def Work.readLines (path : String) : Work String := do
  return Listing.readText (← readFile path)

namespace Compiler

def use (version : String) : Work Unit := do
  let _ ← Work.outputOrFail ["solc-select", "use", version]

def useIfPossible (version : String) : Work Unit := do
  match ← Work.attempt (use version) with
  | .ok _ => return ()
  | .error .toolFailed => return ()
  | .error fault => throw fault

def installAndUse (version : String) : Work Unit := do
  let installed ← Work.outputOrFail ["solc-select", "versions"]
  if !Text.contains installed version then
    let _ ← Work.outputOrFail ["solc-select", "install", version]
  use version

def useFor (path : String) : Work Unit := do
  installAndUse (← Work.ofExcept (Version.ofSource (← Work.readLines path)))

def hasProgram (program label tested : String) : Work Bool := do
  if !(← Work.isKnown program) then
    return false
  let printed := Text.strip (← Work.run (program ++ " --version"))
  let pattern ← Work.ofExcept (Pattern.ofText (label ++ "(\\d*.\\d*.\\d*)"))
  match pattern.search? printed with
  | none => throw .outOfRange
  | some (first, last) =>
    let found := Text.slice printed (first + label.length) last
    let _ ← Work.ofExcept (Version.order found tested)
    return true

def hasDependencies (deciderVersion : String) : Work Bool := do
  match Version.order deciderVersion "4.8.13" with
  | .error _ => return false
  | .ok _ =>
    if !(← hasProgram "evm" "evm version " "1.10.21") then
      return false
    hasProgram "solc" "Version: " "0.8.16"

end Compiler

/-! ## Questions to the compiler -/

inductive Remap where
  | text (value : String)
  | list (values : List String)
  deriving DecidableEq, Repr, Inhabited

def Remap.spaced : Remap → String
  | text value => " ".intercalate (value.toList.map String.singleton)
  | list values => " ".intercalate values

def Remap.shown : Remap → String
  | text value => value
  | list values => Text.listText values

def Remap.argument : Remap → String
  | text value => value
  | list values => " ".intercalate values

structure Query where
  file : String := "a.sol"
  remap : Remap := .text ""
  allowPaths : String := ""
  kind : String := "solidity"
  deriving DecidableEq, Repr, Inhabited

def Query.line (dialect : Dialect) (description : String) (query : Query) : String :=
  let start := "solc --combined-json " ++ description ++ " "
  match dialect with
  | .current => start ++ query.file ++ " " ++ query.remap.spaced
  | .legacy =>
    start ++ query.remap.shown ++ " " ++ query.file
      ++ (if query.allowPaths.isEmpty then "" else " --allow-paths " ++ query.allowPaths)

def Query.ask (dialect : Dialect) (description member : String) (query : Query) : Work Json := do
  Work.ofExcept ((← Work.ofExcept (Json.read (← Work.run (query.line dialect description)))).member member)

def Query.recorded (member : String) : Work Json := do
  Work.ofExcept ((← Work.ofExcept (Json.read (← Work.readLines "standard_json_output"))).member member)

def Query.unknownKind : Dialect → Fault
  | .current => .unknownInputKind "inputter"
  | .legacy => .unknownInputKind "input"

structure Description where
  sources : Json
  layouts : Json
  contracts : Contracts
  deriving Inhabited

def Description.treeName (kind : String) : String :=
  if kind == "solidity" then "AST" else "legacyAST"

def Description.load (dialect : Dialect) (query : Query) : Work Description := do
  let sources ←
    if query.kind == "solidity" then
      query.ask dialect "ast" "sources"
    else if dialect = .legacy && query.kind == "standard json" then
      Query.recorded "sources"
    else
      throw (Query.unknownKind dialect)
  let layouts ← match dialect with
    | .current => query.ask dialect "storage-layout" "contracts"
    | .legacy => pure Json.null
  let contracts ← Work.ofExcept (Contracts.ofSources dialect (treeName query.kind) sources)
  return { sources := sources, layouts := layouts, contracts := contracts }

/-! ## Written questions to the compiler -/

def Remap.ofJson : Json → Remap
  | .array values => .list (values.filterMap Json.string?)
  | value => .text (value.string?.getD "")

def Query.ofJson (value : Json) : Query :=
  { file := value.textAt "file" "a.sol"
    remap := Remap.ofJson (value.given "remap")
    allowPaths := value.textAt "allow_paths" ""
    kind := value.textAt "input_type" "solidity" }

end MintAudit
