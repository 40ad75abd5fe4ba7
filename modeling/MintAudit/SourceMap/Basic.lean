import MintAudit.Expression.Read

namespace MintAudit

/-!
# Source maps

What is known of the source of a contract: its text, the place of every instruction, the names of its state variables,
the calls it makes and the parameters of its functions.
-/

/-! ## Lines and columns -/

structure LineColumn where
  line : Int
  column : Int
  deriving DecidableEq, Repr, Inhabited

structure Location where
  first : Option LineColumn
  last : Option LineColumn
  deriving DecidableEq, Repr, Inhabited

structure Span where
  first : Int
  last : Int
  deriving DecidableEq, Repr, Inhabited

structure SourceText where
  content : String
  letters : Array Char
  breaks : Array Int

namespace SourceText

def breaksFrom (position : Int) : List Char → List Int
  | [] => []
  | character :: rest =>
    if character == '\n' then
      position :: breaksFrom (position + 1) rest
    else
      breaksFrom (position + 1) rest

def ofString (content : String) : SourceText :=
  { content := content, letters := content.toList.toArray, breaks := (breaksFrom 0 content.toList).toArray }

instance : Inhabited SourceText := ⟨ofString ""⟩

def between (first last : Int) (source : SourceText) : String :=
  String.ofList (Sequence.sliceArray source.letters first last).toList

/-- The index of the last entry that is at most `target`, in a sorted array; `-1` if there is none. -/
def lowerBoundFrom (target : Int) (array : Array Int) (start : Nat) (length : Nat) : Int :=
  if positive : 0 < length then
    let half := length / 2
    let middle := start + half
    if array.getD middle 0 ≤ target then
      lowerBoundFrom target array (middle + 1) (length - 1 - half)
    else
      lowerBoundFrom target array start half
  else
    (start : Int) - 1
termination_by length

def lowerBound (target : Int) (array : Array Int) : Int :=
  lowerBoundFrom target array 0 array.size

def break? (number : Int) (source : SourceText) : Except Fault Int :=
  match (Sequence.index? source.breaks.size number).bind fun index => source.breaks[index]? with
  | some position => .ok position
  | none => .error .outOfRange

def lineColumn (position : Int) (source : SourceText) : Except Fault LineColumn := do
  let found := lowerBound position source.breaks
  let line := if (← source.break? found) ≠ position then found + 1 else found
  let start ← if line = 0 then pure 0 else (· + 1) <$> source.break? (line - 1)
  return ⟨line, position - start⟩

def location (span : Span) (source : SourceText) : Except Fault Location := do
  if 0 ≤ span.first ∧ 0 ≤ span.last - span.first + 1 then
    let first ← source.lineColumn span.first
    let last ← source.lineColumn span.last
    return ⟨some first, some last⟩
  else
    return ⟨none, none⟩

def lineUpTo (location : Location) (last : Int) (source : SourceText) : Except Fault String := do
  let some first := location.first | throw .wrongKind
  let start ← source.break? (first.line - 1)
  return source.between (start + 1) last

end SourceText

def startAndLength (src : String) : Except Fault (Int × Int) := do
  let fields := Text.splitOnChar ':' src
  let some start := Numeral.read? 10 (fields.headD "") | throw .wrongValue
  let some written := fields[1]? | throw .outOfRange
  let some length := Numeral.read? 10 written | throw .wrongValue
  return (start, length)

def SourceText.ofSource (src : String) (source : SourceText) : Except Fault String := do
  let (start, length) ← startAndLength src
  return source.between start (start + length)

def SourceText.locationOfSource (src : String) (source : SourceText) : Except Fault Location := do
  let (start, length) ← startAndLength src
  source.location ⟨start, start + length - 1⟩

def SourceText.lineOfSource (src : String) (source : SourceText) : Except Fault String := do
  let (start, length) ← startAndLength src
  let location ← source.locationOfSource src
  source.lineUpTo location (start + length - 1)

structure Parameter where
  name : String
  type : String
  position : Int
  value : Option Int
  deriving DecidableEq, Repr, Inhabited

structure SourceMap where
  contract : String := "a.sol:C"
  rootPath : String := ""
  source : SourceText := SourceText.ofString ""
  guide : List (Option Place) := []
  places : Table Int Place := []
  «variables» : List String := []
  calls : List String := []
  callees : List (String × Json) := []
  parameters : Table String (List Parameter) := []
  functions : Table String String := []
  safeCalls : List (Location × List String) := []

instance : Inhabited SourceMap := ⟨{}⟩

namespace SourceMap

def spanOf (place : Place) : Except Fault Span :=
  match place.first, place.last with
  | some first, some last => .ok ⟨first, last⟩
  | _, _ => .error .missingKey

def codeAt (address : Int) (map : SourceMap) : Except Fault String :=
  match Table.get? address map.places with
  | some place => do
      let span ← spanOf place
      return map.source.between span.first span.last
  | none => .ok ""

def locationAt (address : Int) (map : SourceMap) : Except Fault Location :=
  match Table.get? address map.places with
  | some place => do map.source.location (← spanOf place)
  | none => .error .missingKey

def lineAt (address : Int) (map : SourceMap) : Except Fault String :=
  match Table.get? address map.places with
  | some place => do
      let span ← spanOf place
      let location ← map.source.location span
      map.source.lineUpTo location span.last
  | none => .ok ""

def knownVariable? (expression : String) (map : SourceMap) : Option String :=
  match Expression.firstName? expression with
  | some name => if map.variables.contains name then some expression else none
  | none => none

def file (map : SourceMap) : String :=
  (Text.splitOnChar ':' map.contract).headD ""

/-! ## Written source maps -/

def placeOf (value : Json) : Option Place :=
  if value.isTrue then
    some
      { name := (value.given? "name").bind Json.string?
        value := (value.given? "value").bind Json.string?
        first := value.numberAt? "begin"
        last := value.numberAt? "end" }
  else
    none

def lineColumnOf (value : Json) : Option LineColumn :=
  match value.numberAt? "line", value.numberAt? "column" with
  | some line, some column => some ⟨line, column⟩
  | _, _ => none

def locationOf (value : Json) : Location :=
  ⟨(value.given? "begin").bind lineColumnOf, (value.given? "end").bind lineColumnOf⟩

def spanEntry? (value : Json) : Option (Int × Place) :=
  match value with
  | .array [.integer address, .array [.integer first, .integer last]] =>
    some (address, { name := none, value := none, first := some first, last := some last })
  | _ => none

def parameterOf (value : Json) : Parameter :=
  { name := value.textAt "name" ""
    type := value.textAt "type" ""
    position := (value.numberAt? "position").getD 0
    value := value.numberAt? "value" }

def safeCallOf (value : Json) : Location × List String :=
  match value with
  | .array [location, .array names] => (locationOf location, names.filterMap Json.string?)
  | _ => (⟨none, none⟩, [])

def lineColumnJson (place : LineColumn) : Json :=
  .row [("line", .integer place.line), ("column", .integer place.column)]

def locationJson (location : Location) : Json :=
  let one (place : Option LineColumn) : Json := (place.map lineColumnJson).getD .null
  .row [("begin", one location.first), ("end", one location.last)]

def parameterJson (parameter : Parameter) : Json :=
  .row ([("name", .string parameter.name), ("type", .string parameter.type)]
    ++ (parameter.value.map fun value => ("value", Json.integer value)).toList
    ++ [("position", .integer parameter.position)])

def members (map : SourceMap) : List (String × Json) :=
  let texts := Json.listOf Json.string
  [("cname", .string map.contract), ("root_path", .string map.rootPath), ("var_names", texts map.variables),
    ("func_call_names", texts map.calls),
    ("callee_src_pairs", .listOf (fun callee => .array [.string callee.1, callee.2]) map.callees),
    ("func_name_to_params", .row (map.parameters.map fun entry => (entry.1, .listOf parameterJson entry.2))),
    ("sig_to_func", .row (map.functions.map fun entry => (entry.1, .string entry.2))),
    ("safe_func_call_info", .listOf (fun call => .array [locationJson call.1, texts call.2]) map.safeCalls)]

def ofJson (value : Json) : SourceMap :=
  { contract := value.textAt "cname" "a.sol:C"
    rootPath := value.textAt "root_path" ""
    source := SourceText.ofString (value.textAt "content" "")
    guide := (value.itemsAt "positions").map placeOf
    places := (value.itemsAt "instr_positions").filterMap spanEntry?
    «variables» := value.textsAt "var_names"
    calls := value.textsAt "func_call_names"
    parameters := (value.membersAt "func_params").map fun entry =>
      (entry.1, (entry.2.array?.getD []).map parameterOf)
    functions := (value.membersAt "sigs").filterMap fun entry => entry.2.string?.map fun text => (entry.1, text)
    safeCalls := (value.itemsAt "safe_calls").map safeCallOf }

end SourceMap

end MintAudit
