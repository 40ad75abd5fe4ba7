import MintAudit.SyntaxTree.Contracts

namespace MintAudit

/-!
# Layouts of storage

State variables are packed into words of storage in the order of their declaration: a variable that does not fit into
the rest of the current word opens the next one.
-/

/-! ## Roles of storage positions -/

/-- What is written down for a variable at a position: its name alone for the first one, name and type for the others. -/
inductive SlotEntry where
  | named (name : String)
  | typed (name type : String)
  deriving DecidableEq, Repr, Inhabited

structure SlotRoles where
  owners : List Int := []
  approvals : List Int := []
  supplies : List Int := []
  proxies : List Int := []
  entries : Table Int (List SlotEntry) := []
  deriving DecidableEq, Repr, Inhabited

/-! ## Positions of state variables -/

structure StateVariable where
  id : Json
  name : String
  type : String
  constant : Json
  mutability : Json
  deriving Inhabited

def StateVariable.ofNode (node : Json) : Except Fault StateVariable := do
  let id ← Contracts.key (← node.member "id")
  let name ← (← node.member "name").text
  let type ← (← node.follow ["typeDescriptions", "typeString"]).text
  let constant ← node.member "constant"
  return { id := id, name := name, type := type, constant := constant, mutability := ← node.member "mutability" }

def StateVariable.isFixed (var : StateVariable) : Bool :=
  var.constant.isTrue || var.mutability.isText "immutable"

def StateVariable.ofNodes (nodes : List Json) : Except Fault (List StateVariable) := do
  let declared ← nodes.mapM ofNode
  return Table.values (Table.ofEntries (declared.map fun var => (var.id, var)))

namespace Packing

def firstNumber? (text : List Char) : Option Nat :=
  match text.dropWhile (fun c => !c.isDigit) with
  | [] => none
  | digits => some ((digits.takeWhile Char.isDigit).foldl (fun value c => value * 10 + (c.toNat - '0'.toNat)) 0)

def hasBrackets : List Char → Bool
  | [] => false
  | '[' :: rest => ((rest.takeWhile (· ≠ '\n')).contains ']') || hasBrackets rest
  | _ :: rest => hasBrackets rest

def width (type : String) : Nat :=
  if type == "address" then 160
  else if type == "bool" then 1
  else if type == "string" then 256
  else if Text.contains type "mapping" then 256
  else if Text.startsWith type "uint" then (firstNumber? type.toList).getD 256
  else if Text.startsWith type "bytes" then ((firstNumber? type.toList).map (· * 8)).getD 256
  else if hasBrackets type.toList then 256
  else if Text.startsWith type "struct" then 256
  else 0

def positions (position : Int) (free : Int) : List (Option Nat) → List (Option Int)
  | [] => []
  | none :: rest => none :: positions position free rest
  | some width :: rest =>
    if free - width < 0 then
      some (position + 1) :: positions (position + 1) (256 - width) rest
    else
      some position :: positions position (free - width) rest

def ofVariables (declared : List StateVariable) : List (Option Int) :=
  positions 0 256 (declared.map fun var => if var.isFixed then none else some (width var.type))

def entries [BEq κ] (placed : List (StateVariable × Option κ)) : Table κ (List SlotEntry) :=
  placed.foldl (fun table entry =>
      match entry.2 with
      | none => table
      | some position =>
        match Table.get? position table with
        | some before => Table.put position (before ++ [.typed entry.1.name entry.1.type]) table
        | none => Table.put position [.named entry.1.name] table)
    []

end Packing

structure SlotMap where
  contract : String
  placed : List (StateVariable × Option Int)
  roles : SlotRoles
  told : Table Json Json
  deriving Inhabited

namespace SlotMap

def mentions (words : List String) (name : String) : Bool :=
  words.any fun word => Text.contains (Text.upper name) word

def positionsOf (test : StateVariable → Bool) (placed : List (StateVariable × Option Int)) : List Int :=
  placed.filterMap fun entry => if test entry.1 then entry.2 else none

def rolesOf (placed : List (StateVariable × Option Int)) : SlotRoles :=
  { owners := positionsOf (fun var => mentions ["OWNER"] var.name) placed
    approvals := positionsOf (fun var => mentions ["APPROVAL", "OPERATOR"] var.name) placed
    supplies :=
      positionsOf (fun var =>
            mentions ["ALL", "MAX", "TOTAL", "CURRENT", "NEXT", "TOTAL", "TOKEN"] var.name
              && mentions ["TOKEN", "SUPPLY", "INDEX", "MINTED"] var.name)
          placed
        ++ positionsOf (fun var => mentions ["COUNTER", "SUPPLY", "MINTCOUNT"] var.name) placed
    proxies :=
      positionsOf (fun var =>
          mentions ["PROXY"] var.name && mentions ["REGISTRY"] var.name && var.type == "address")
        placed
    entries := Packing.entries placed }

def typesOf (declared : List StateVariable) : Table String String :=
  Table.ofEntries (declared.map fun var => (var.name, var.type))

def ofContract (contracts : Contracts) (layouts : Json) (name : String) : Except Fault SlotMap := do
  let declared ← StateVariable.ofNodes (← Contracts.ofAll name contracts.allStateVariables)
  let told ← Contracts.ofAll name (contracts.allStoragePositions layouts)
  let placed := declared.zip (Packing.ofVariables declared)
  return { contract := name, placed := placed, roles := rolesOf placed, told := told }

def toldPlaces (map : SlotMap) : Except Fault (List (StateVariable × Option Json)) :=
  map.placed.mapM fun entry =>
    match Table.get? entry.1.id map.told with
    | some position => .ok (entry.1, some position)
    | none => .error .missingKey

end SlotMap

/-! ## Written layouts -/

def SlotRoles.entryOf (value : Json) : SlotEntry :=
  match value with
  | .string name => .named name
  | _ => .typed "" ""

def SlotRoles.ofJson (value : Json) : SlotRoles :=
  { owners := value.numbersAt "owner_index"
    approvals := value.numbersAt "approval_index"
    supplies := value.numbersAt "supply_index"
    proxies := value.numbersAt "proxy_index"
    entries := (value.given "simpler").entries.map fun entry =>
      (entry.1.integer?.getD 0, entry.2.items.map entryOf) }

def SlotMap.entryJson : SlotEntry → Json
  | .named name => .string name
  | .typed name type => .row [(name, .string type)]

def SlotMap.tables [BEq κ] (write : κ → Json) (placed : List (StateVariable × Option κ)) : List Json :=
  let details (entry : StateVariable × Option κ) : Json :=
    .row [("type", .string entry.1.type), ("constant", entry.1.constant), ("mutability", entry.1.mutability),
      ("slot_id", (entry.2.map write).getD .null)]
  [.pairs (placed.map fun entry => (entry.1.id, .row [(entry.1.name, details entry)])),
    .pairs ((Packing.entries placed).map fun entry => (write entry.1, .listOf entryJson entry.2)),
    .row ((typesOf (placed.map Prod.fst)).map fun entry => (entry.1, .string entry.2))]

def SlotMap.members (map : Option SlotMap) : List (String × Json) :=
  let tables := match map with
    | some map => tables Json.integer map.placed
    | none => [.array [], .array [], .array []]
  let role (of : SlotRoles → List Int) : Json := (map.map fun map => Json.listOf .integer (of map.roles)).getD .null
  ["slot_map", "simpler_slot_map", "name_to_type"].zip tables
    ++ [("owner_index", role (·.owners)), ("approval_index", role (·.approvals)), ("supply_index", role (·.supplies)),
      ("proxy_index", role (·.proxies))]

end MintAudit
