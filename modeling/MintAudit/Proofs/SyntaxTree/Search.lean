import MintAudit.Proofs.Table
import MintAudit.SyntaxTree.Contracts

namespace MintAudit

/-!
# What a search meets

A search through a queue meets what waits in it and the parts of all that it meets.
-/

namespace Json

open List

inductive Encloses : Json → Json → Prop where
  | member
      {name : String}
      {value : Json}
      {members : List (String × Json)}
      (present : (name, value) ∈ members) :
      Encloses (object members) value
  | item
      {value : Json}
      {items : List Json}
      (present : value ∈ items) :
      Encloses (array items) value

def Within (part whole : Json) : Prop :=
  Relation.ReflTransGen Encloses whole part

/-- Wherever in the value a list stands, no item of it is a list. -/
def Flat (whole : Json) : Prop :=
  ∀ outer inner, (array outer).Within whole → array inner ∉ outer

mutual

def every (test : Json → Bool) : Json → Bool
  | array items => test (array items) && everyItem test items
  | object members => test (object members) && everyMember test members
  | value => test value

def everyItem (test : Json → Bool) : List Json → Bool
  | [] => true
  | value :: rest => every test value && everyItem test rest

def everyMember (test : Json → Bool) : List (String × Json) → Bool
  | [] => true
  | (_, value) :: rest => every test value && everyMember test rest

end

def holdsArray : Json → Bool
  | array items => items.any fun item => item.array?.isSome
  | _ => false

variable {test : Json → Bool} {items : List Json} {value : Json} {whole part : Json}

theorem every_of_mem_items (all : everyItem test items = true) (present : value ∈ items) : every test value = true := by
  induction items with
  | nil => cases present
  | cons first rest ih =>
    rw [everyItem, Bool.and_eq_true] at all
    rcases mem_cons.mp present with rfl | later
    · exact all.1
    · exact ih all.2 later

theorem every_of_mem_members {name : String} {members : List (String × Json)} (all : everyMember test members = true)
    (present : (name, value) ∈ members) :
    every test value = true := by
  induction members with
  | nil => cases present
  | cons first rest ih =>
    rw [everyMember, Bool.and_eq_true] at all
    rcases mem_cons.mp present with rfl | later
    · exact all.1
    · exact ih all.2 later

theorem every_of_encloses (all : every test whole = true) (encloses : whole.Encloses part) :
    every test part = true := by
  cases encloses with
  | member present =>
    rw [every, Bool.and_eq_true] at all
    exact every_of_mem_members all.2 present
  | item present =>
    rw [every, Bool.and_eq_true] at all
    exact every_of_mem_items all.2 present

theorem test_of_every (all : every test whole = true) (within : part.Within whole) : test part = true := by
  have allOfPart : every test part = true := by
    induction within with
    | refl => exact all
    | tail _ encloses ih => exact every_of_encloses ih encloses
  cases part <;> simp_all [every]

theorem flat_of_every {whole : Json} (all : every (fun value => !value.holdsArray) whole = true) : whole.Flat := by
  intro outer inner within present
  have free := test_of_every all within
  have held : (array outer).holdsArray = true := any_eq_true.mpr ⟨array inner, present, rfl⟩
  simp [held] at free

theorem depth_le_of_mem_items (present : value ∈ items) : value.depth ≤ depthOfItems items := by
  induction items with
  | nil => cases present
  | cons first rest ih =>
    rw [depthOfItems]
    rcases mem_cons.mp present with rfl | later
    · exact le_max_left _ _
    · exact (ih later).trans (le_max_right _ _)

theorem depth_le_of_mem_members {name : String} {members : List (String × Json)} (present : (name, value) ∈ members) :
    value.depth ≤ depthOfMembers members := by
  induction members with
  | nil => cases present
  | cons first rest ih =>
    rw [depthOfMembers]
    rcases mem_cons.mp present with rfl | later
    · exact le_max_left _ _
    · exact (ih later).trans (le_max_right _ _)

theorem depth_pos (value : Json) : 0 < value.depth := by
  cases value <;> simp [depth]

theorem Encloses.depth_lt (encloses : whole.Encloses part) : part.depth < whole.depth := by
  cases encloses with
  | member present =>
    have := depth_le_of_mem_members present
    rw [depth]
    omega
  | item present =>
    have := depth_le_of_mem_items present
    rw [depth]
    omega

theorem depthOfItems_lt {bound : Nat} (positive : 0 < bound) (below : ∀ value ∈ items, value.depth < bound) :
    depthOfItems items < bound := by
  induction items with
  | nil => exact positive
  | cons first rest ih =>
    obtain ⟨firstBelow, restBelow⟩ := forall_mem_cons.mp below
    rw [depthOfItems]
    exact max_lt firstBelow (ih restBelow)

end Json

theorem Sequence.mem_of_at? {members : List α} {position : Int} {member : α} (found : at? members position = some member) :
    member ∈ members := by
  obtain ⟨index, _, atIndex⟩ := Option.bind_eq_some_iff.mp found
  exact List.mem_of_getElem? atIndex

namespace Search

open Json List

theorem mem_of_mem_namedItems {items keys : List Json} {value : Json} (named : value ∈ namedItems items keys) :
    value ∈ items := by
  induction keys with
  | nil => cases named
  | cons key rest ih =>
    rw [namedItems] at named
    split at named
    · split at named
      · next found =>
        rcases mem_cons.mp named with rfl | later
        · exact Sequence.mem_of_at? found
        · exact ih later
      · cases named
    · cases named

theorem encloses_of_mem_values {node value : Json} (present : value ∈ values node) : node.Encloses value := by
  cases node with
  | object members =>
    obtain ⟨⟨name, value⟩, member, rfl⟩ := mem_map.mp present
    exact .member member
  | array items => exact .item (mem_of_mem_namedItems present)
  | _ => cases present

variable {node part : Json} {queue : List Json} {stop : Json → Bool} {items : List Json}

theorem mem_parts :
    part ∈ parts node ↔
      (∃ members, part = object members ∧ part ∈ values node) ∨ ∃ items, array items ∈ values node ∧ part ∈ items := by
  rw [parts, mem_flatMap]
  constructor
  · rintro ⟨value, present, inValue⟩
    cases value with
    | object members => exact .inl ⟨members, mem_singleton.mp inValue, mem_singleton.mp inValue ▸ present⟩
    | array items => exact .inr ⟨items, present, inValue⟩
    | _ => cases inValue
  · rintro (⟨members, rfl, present⟩ | ⟨items, present, inItems⟩)
    · exact ⟨object members, present, mem_singleton.mpr rfl⟩
    · exact ⟨array items, present, inItems⟩

theorem within_of_mem_parts (present : part ∈ parts node) : part.Within node := by
  rcases mem_parts.mp present with ⟨_, _, direct⟩ | ⟨items, listed, inItems⟩
  · exact .single (encloses_of_mem_values direct)
  · exact .tail (.single (encloses_of_mem_values listed)) (.item inItems)

theorem depth_lt_of_mem_parts (present : part ∈ parts node) : part.depth < node.depth := by
  rcases mem_parts.mp present with ⟨_, _, direct⟩ | ⟨items, listed, inItems⟩
  · exact (encloses_of_mem_values direct).depth_lt
  · exact (Encloses.item inItems).depth_lt.trans (encloses_of_mem_values listed).depth_lt

def Met (queue : List Json) (node : Json) : Prop :=
  ∃ start ∈ queue, Relation.ReflTransGen (fun whole part => part ∈ parts whole) start node

theorem met_iff {node : Json} : Met queue node ↔ node ∈ queue ∨ Met (queue.flatMap parts) node := by
  constructor
  · rintro ⟨start, waits, path⟩
    rcases path.cases_head with rfl | ⟨next, isPart, onward⟩
    · exact .inl waits
    · exact .inr ⟨next, mem_flatMap.mpr ⟨start, waits, isPart⟩, onward⟩
  · rintro (waits | ⟨next, waitsNext, onward⟩)
    · exact ⟨node, waits, .refl⟩
    · obtain ⟨start, waits, isPart⟩ := mem_flatMap.mp waitsNext
      exact ⟨start, waits, .head isPart onward⟩

theorem not_met_nil (node : Json) : ¬ Met [] node := by
  rintro ⟨_, waits, _⟩
  cases waits

theorem levelUntil_of_none (none : ∀ node ∈ queue, stop node = false) (waiting : List Json) :
    levelUntil stop queue waiting = (queue, false, waiting ++ queue.flatMap parts) := by
  induction queue generalizing waiting with
  | nil => simp [levelUntil]
  | cons node rest ih =>
    obtain ⟨here, later⟩ := forall_mem_cons.mp none
    simp [levelUntil, here, ih later]

theorem levelUntil_of_some {node : Json} (waits : node ∈ queue) (stops : stop node = true) (waiting : List Json) :
    (levelUntil stop queue waiting).2.1 = true := by
  induction queue generalizing waiting with
  | nil => cases waits
  | cons first rest ih =>
    rw [levelUntil]
    split
    · rfl
    · next passes =>
      rcases mem_cons.mp waits with rfl | later
      · exact (passes stops).elim
      · exact ih later _

theorem levelsUntil_spec {depth : Nat} (enough : depthOfItems queue < depth) :
    ((levelsUntil stop depth queue).2 = true ↔ ∃ node, Met queue node ∧ stop node = true) ∧
      ((levelsUntil stop depth queue).2 = false →
        ∀ node, node ∈ (levelsUntil stop depth queue).1 ↔ Met queue node) := by
  induction depth generalizing queue with
  | zero => exact (Nat.not_lt_zero _ enough).elim
  | succ depth ih =>
    cases queue with
    | nil => simp [levelsUntil, not_met_nil]
    | cons first rest =>
      by_cases none : ∀ node ∈ first :: rest, stop node = false
      · have fewer : depthOfItems ((first :: rest).flatMap parts) < depth := by
          have positive : 0 < depth := by
            have := depth_pos first
            rw [depthOfItems] at enough
            omega
          refine depthOfItems_lt positive fun part waits => ?_
          obtain ⟨node, inQueue, isPart⟩ := mem_flatMap.mp waits
          have := depth_lt_of_mem_parts isPart
          have := depth_le_of_mem_items inQueue
          omega
        obtain ⟨stops, passes⟩ := ih fewer
        have onward : levelsUntil stop (depth + 1) (first :: rest) =
            ((first :: rest) ++ (levelsUntil stop depth ((first :: rest).flatMap parts)).1,
              (levelsUntil stop depth ((first :: rest).flatMap parts)).2) := by
          rw [levelsUntil, levelUntil_of_none none]
          rfl
          simp
        rw [onward]
        constructor
        · rw [stops]
          constructor
          · rintro ⟨node, met, stopsHere⟩
            exact ⟨node, met_iff.mpr (.inr met), stopsHere⟩
          · rintro ⟨node, met, stopsHere⟩
            rcases met_iff.mp met with waits | later
            · simp [none node waits] at stopsHere
            · exact ⟨node, later, stopsHere⟩
        · intro unstopped node
          rw [mem_append, passes unstopped, ← met_iff]
      · push Not at none
        obtain ⟨node, waits, stopsHere⟩ := none
        have stops : stop node = true := by simpa using stopsHere
        have stopped : (levelsUntil stop (depth + 1) (first :: rest)).2 = true := by
          rw [levelsUntil]
          · simp [levelUntil_of_some waits stops]
          · simp
        simp only [stopped, true_iff, Bool.true_eq_false, false_imp_iff, and_true]
        exact ⟨node, met_iff.mpr (.inl waits), stops⟩

theorem before_spec (stop : Json → Bool) (queue : List Json) :
    ((before stop queue).2 = true ↔ ∃ node, Met queue node ∧ stop node = true) ∧
      ((before stop queue).2 = false → ∀ node, node ∈ (before stop queue).1 ↔ Met queue node) :=
  levelsUntil_spec (Nat.lt_succ_self _)

theorem Met.within {node : Json} (met : Met items node) : node.Within (array items) := by
  obtain ⟨start, waits, path⟩ := met
  have started : start.Within (array items) := .single (.item waits)
  induction path with
  | refl => exact started
  | tail _ isPart ih =>
    exact Relation.ReflTransGen.trans ih (within_of_mem_parts isPart)

theorem Met.step (met : Met queue node) (isPart : part ∈ parts node) : Met queue part := by
  obtain ⟨start, waits, path⟩ := met
  exact ⟨start, waits, .tail path isPart⟩

theorem not_met_array {items inner : List Json} (flat : (array items).Flat) : ¬ Met items (array inner) := by
  rintro ⟨start, waits, path⟩
  rcases path.cases_tail with same | ⟨node, earlier, isPart⟩
  · exact flat items inner .refl (same ▸ waits)
  · rcases mem_parts.mp isPart with ⟨_, isObject, _⟩ | ⟨outer, listed, inOuter⟩
    · cases isObject
    · have met : Met items node := ⟨start, waits, earlier⟩
      exact flat outer inner (.tail met.within (encloses_of_mem_values listed)) inOuter

theorem met_or_member (flat : (array items).Flat) {value : Json} (within : value.Within (array items)) :
    value = array items ∨ Met items value ∨ ∃ members name, Met items (object members) ∧ (name, value) ∈ members := by
  induction within with
  | refl => exact .inl rfl
  | @tail whole part _ encloses ih =>
    rcases ih with rfl | met | ⟨members, name, met, present⟩
    · cases encloses with
      | item inItems => exact .inr (.inl ⟨part, inItems, .refl⟩)
    · cases encloses with
      | @member name _ members present => exact .inr (.inr ⟨members, name, met, present⟩)
      | item _ => exact (not_met_array flat met).elim
    · have listed : whole ∈ values (object members) := mem_map.mpr ⟨(name, whole), present, rfl⟩
      cases encloses with
      | @member inner _ others inside =>
        have metWhole : Met items (object others) := met.step (mem_parts.mpr (.inl ⟨others, rfl, listed⟩))
        exact .inr (.inr ⟨others, inner, metWhole, inside⟩)
      | @item _ others inside => exact .inr (.inl (met.step (mem_parts.mpr (.inr ⟨others, listed, inside⟩))))

theorem met_object_iff (flat : (array items).Flat) (members : List (String × Json)) :
    Met items (object members) ↔ (object members).Within (array items) := by
  constructor
  · exact Met.within
  · intro within
    rcases met_or_member flat within with same | met | ⟨others, name, met, present⟩
    · cases same
    · exact met
    · refine met.step (mem_parts.mpr (.inl ⟨members, rfl, ?_⟩))
      exact mem_map.mpr ⟨(name, object members), present, rfl⟩

end Search

/-! ## Calls between the functions of a contract -/

open Table

namespace TransferFunctions

def defines (dialect : Dialect) (name : String) (node : Json) : Bool :=
  match dialect.isFunction node, dialect.functionName node with
  | .ok true, .ok (.string found) => found == name
  | _, _ => false

def definition? (dialect : Dialect) (nodes : List Json) (name : String) : Option Json :=
  nodes.reverse.find? (defines dialect name)

def Contains (dialect : Dialect) (nodes : List Json) (name : String) (part : Json) : Prop :=
  ∃ node statements, definition? dialect nodes name = some node ∧ dialect.statements node = .ok statements ∧
    part.Within statements

def Calls (dialect : Dialect) (nodes : List Json) (caller callee : String) : Prop :=
  ∃ call, Contains dialect nodes caller call ∧ dialect.calledName? call = some (.string callee)

def Emits (dialect : Dialect) (nodes : List Json) (name : String) : Prop :=
  ∃ event, Contains dialect nodes name event ∧ dialect.emitsTransfer event = true

/-- Some number of calls leads from a function to one that emits a transfer. -/
def LeadsToTransfer (dialect : Dialect) (nodes : List Json) (name : String) : Prop :=
  ∃ last, Relation.ReflTransGen (Calls dialect nodes) name last ∧ Emits dialect nodes last

/-- A function is asked for by its selector and leads to a transfer. -/
def Selected (dialect : Dialect) (nodes : List Json) (name : String) (selector : Json) : Prop :=
  ∃ node, definition? dialect nodes name = some node ∧ selector? dialect node = some selector ∧
    LeadsToTransfer dialect nodes name

def HasParts (dialect : Dialect) (contract : String) (content : Json) (nodes : List Json) : Prop :=
  ∃ trees, content.member "contractsByName" = .ok (.object trees) ∧
    match Table.get? contract trees with
    | none => nodes = []
    | some tree => tree.member dialect.partsOf = .ok (.array nodes)

/-- The parts of a contract have kinds, and the functions among them and the functions they call have names. -/
structure Readable (dialect : Dialect) (contract : String) (content : Json) (nodes : List Json) : Prop where
  parts : HasParts dialect contract content nodes
  kinds : ∀ node ∈ nodes, ∃ kind, node.member dialect.kindOf = .ok kind
  names : ∀ node ∈ nodes, dialect.isFunction node = .ok true → ∃ name, dialect.functionName node = .ok (.string name)
  calls : ∀ name call called, Contains dialect nodes name call → dialect.calledName? call = some called →
    ∃ callee, called = .string callee

/-- The statements of a function are in a list, and no list in them stands directly in another. -/
def Listed (dialect : Dialect) (nodes : List Json) : Prop :=
  ∀ name node statements, definition? dialect nodes name = some node → dialect.statements node = .ok statements →
    ∃ items, statements = .array items ∧ statements.Flat

variable {dialect : Dialect} {nodes : List Json} {contract : String} {trees : List (String × Json)}

theorem LeadsToTransfer.of_call {caller callee : String} (calls : Calls dialect nodes caller callee)
    (leads : LeadsToTransfer dialect nodes callee) :
    LeadsToTransfer dialect nodes caller := by
  obtain ⟨last, path, emits⟩ := leads
  exact ⟨last, .head calls path, emits⟩

def byText (table : Table String Json) : Table Json Json :=
  table.map fun entry => (.string entry.1, entry.2)

theorem string_beq (first second : String) : (Json.string first == Json.string second) = (first == second) := rfl

theorem get?_byText (name : String) (table : Table String Json) :
    get? (.string name) (byText table) = get? name table :=
  get?_mapKeys string_beq name table

theorem put_byText (name : String) (value : Json) (table : Table String Json) :
    put (.string name) value (byText table) = byText (put name value table) :=
  put_mapKeys string_beq name value table

theorem putAll_byText (entries table : Table String Json) :
    (byText entries).foldl (fun table entry => put entry.1 entry.2 table) (byText table) =
      byText (entries.foldl (fun table entry => put entry.1 entry.2 table) table) := by
  induction entries generalizing table with
  | nil => rfl
  | cons entry rest ih =>
    have unfolded : byText (entry :: rest) = (.string entry.1, entry.2) :: byText rest := rfl
    rw [unfolded, List.foldl_cons, List.foldl_cons, put_byText]
    exact ih _

theorem contains_map_string (names : List String) (name : String) :
    (names.map Json.string).contains (.string name) = decide (name ∈ names) := by
  induction names with
  | nil => rfl
  | cons first rest ih =>
    rw [List.map_cons, List.contains_cons, ih, string_beq]
    simp [List.mem_cons, beq_eq_decide]

theorem defines_iff {name : String} {node : Json} :
    defines dialect name node = true ↔
      dialect.isFunction node = .ok true ∧ dialect.functionName node = .ok (.string name) := by
  rw [defines]
  split
  · next isFunction named =>
    simp [isFunction, named]
  · next other =>
    constructor
    · intro impossible
      cases impossible
    · rintro ⟨isFunction, named⟩
      exact (other _ isFunction named).elim

theorem definition?_concat (dialect : Dialect) (nodes : List Json) (node : Json) (name : String) :
    definition? dialect (nodes ++ [node]) name =
      if defines dialect name node then some node else definition? dialect nodes name := by
  rw [definition?, List.reverse_append, List.reverse_singleton, List.singleton_append, List.find?_cons]
  split <;> simp_all [definition?]

structure Catalogue (dialect : Dialect) (nodes : List Json) (functions : Table String Json) : Prop where
  distinct : (Table.keys functions).Nodup
  entries : ∀ name, Table.get? name functions = definition? dialect nodes name

theorem Catalogue.mem_iff {functions : Table String Json} (catalogue : Catalogue dialect nodes functions)
    (name : String) (node : Json) :
    (name, node) ∈ functions ↔ definition? dialect nodes name = some node := by
  rw [← catalogue.entries]
  exact ⟨get?_of_mem catalogue.distinct, mem_of_get?⟩

theorem collect_catalogue (kinds : ∀ node ∈ nodes, ∃ kind, node.member dialect.kindOf = .ok kind)
    (names : ∀ node ∈ nodes, dialect.isFunction node = .ok true →
      ∃ name, dialect.functionName node = .ok (.string name)) :
    ∃ functions, collect dialect nodes = .ok (byText functions) ∧ Catalogue dialect nodes functions := by
  induction nodes using List.reverseRecOn with
  | nil => exact ⟨[], rfl, .nil, fun _ => rfl⟩
  | append_singleton nodes node ih =>
    obtain ⟨functions, collected, distinct, entries⟩ := ih
      (fun node member => kinds node (List.mem_append_left _ member))
      (fun node member => names node (List.mem_append_left _ member))
    have last : node ∈ nodes ++ [node] := by simp
    obtain ⟨kind, hasKind⟩ := kinds node last
    rw [collect] at collected
    rw [collect, List.foldlM_append, collected]
    have isFunction : dialect.isFunction node = .ok (kind.isText "FunctionDefinition") := by
      rw [Dialect.isFunction, hasKind]
      rfl
    cases isOne : kind.isText "FunctionDefinition" with
    | false =>
      rw [isOne] at isFunction
      refine ⟨functions, ?_, distinct, fun name => ?_⟩
      · simp only [List.foldlM_cons, isFunction]
        rfl
      · have other : defines dialect name node = false := by simp [defines, isFunction]
        simp [definition?_concat, other, entries]
    | true =>
      rw [isOne] at isFunction
      obtain ⟨name, named⟩ := names node last isFunction
      refine ⟨put name node functions, ?_, nodup_keys_put distinct name node, fun asked => ?_⟩
      · rw [← put_byText]
        simp only [List.foldlM_cons, isFunction, named]
        rfl
      · by_cases same : asked = name
        · have here : defines dialect asked node = true := defines_iff.mpr ⟨isFunction, same ▸ named⟩
          rw [definition?_concat, if_pos here, same, get?_put_self]
        · have other : defines dialect asked node = false := by simp [defines, isFunction, named, Ne.symm same]
          rw [definition?_concat, other, get?_put_of_ne same, entries]
          rfl

def readContract (dialect : Dialect) (contract : String) (table : Json) (functions : Functions) (name : Json) :
    Except Fault Functions := do
  if name.isText contract then
    let nodes ← (← table.part name).member dialect.partsOf
    let more ← collect dialect (← nodes.elements)
    return more.foldl (fun functions entry => Table.put entry.1 entry.2 functions) functions
  else
    return functions

variable {content : Json} {more : Table String Json} {tree : Json} {names : List String}

theorem ofContract_eq (contracts : content.member "contractsByName" = .ok (.object trees)) :
    ofContract dialect contract content =
      ((keys trees).map Json.string).foldlM (readContract dialect contract (.object trees)) [] := by
  have names : (Json.object trees).elements = .ok ((keys trees).map Json.string) := by simp [Json.elements, keys]
  simp only [ofContract, Owner.contracts, contracts]
  exact congrArg (· >>= List.foldlM (readContract dialect contract (.object trees)) []) names

theorem readContract_other {contract name : String} (other : name ≠ contract) (table : Json) (functions : Functions) :
    readContract dialect contract table functions (.string name) = .ok functions := by
  simp [readContract, Json.isText, other, pure, Except.pure]

theorem readContract_self (found : get? contract trees = some tree)
    (parts : tree.member dialect.partsOf = .ok (.array nodes)) (collected : collect dialect nodes = .ok (byText more))
    (functions : Table String Json) :
    readContract dialect contract (.object trees) (byText functions) (.string contract) =
      .ok (byText (more.foldl (fun functions entry => put entry.1 entry.2 functions) functions)) := by
  have named : (Json.object trees).part (.string contract) = .ok tree := by simp [Json.part, Json.member, found]
  have self : (Json.string contract).isText contract = true := by simp [Json.isText]
  rw [← putAll_byText, readContract, if_pos self, named]
  simp only [parts, Json.elements, collected, bind, Except.bind]
  rfl

theorem ofContract_absent (absent : contract ∉ names) (table : Json) (functions : Functions) :
    (names.map Json.string).foldlM (readContract dialect contract table) functions = .ok functions := by
  induction names with
  | nil => rfl
  | cons name rest ih =>
    obtain ⟨other, remaining⟩ := List.ne_and_not_mem_of_not_mem_cons absent
    rw [List.map_cons, List.foldlM_cons, readContract_other other.symm]
    exact ih remaining

theorem ofContract_present (distinct : (keys more).Nodup) (found : get? contract trees = some tree)
    (parts : tree.member dialect.partsOf = .ok (.array nodes)) (collected : collect dialect nodes = .ok (byText more))
    (functions : Table String Json) (started : functions = more ∨ functions = [] ∧ contract ∈ names) :
    (names.map Json.string).foldlM (readContract dialect contract (.object trees)) (byText functions) =
      .ok (byText more) := by
  induction names generalizing functions with
  | nil =>
    rcases started with rfl | ⟨_, impossible⟩
    · rfl
    · cases impossible
  | cons name rest ih =>
    rw [List.map_cons, List.foldlM_cons]
    by_cases same : name = contract
    · have complete : more.foldl (fun table entry => put entry.1 entry.2 table) functions = more := by
        rcases started with rfl | ⟨rfl, _⟩
        · exact putAll_of_get? fun entry present => get?_of_mem distinct present
        · exact putAll_of_new distinct
      rw [same, readContract_self found parts collected, complete]
      exact ih more (.inl rfl)
    · rw [readContract_other same]
      refine ih functions (started.imp_right fun ⟨empty, present⟩ => ⟨empty, ?_⟩)
      exact (List.mem_cons.mp present).resolve_left (Ne.symm same)

theorem ofContract_catalogue (readable : Readable dialect contract content nodes) :
    ∃ functions, ofContract dialect contract content = .ok (byText functions) ∧ Catalogue dialect nodes functions := by
  obtain ⟨trees, contracts, parts⟩ := readable.parts
  rw [ofContract_eq contracts]
  split at parts
  · next missing =>
    subst parts
    have absent : contract ∉ keys trees := (get?_eq_none_iff contract trees).mp missing
    exact ⟨[], ofContract_absent absent _ _, .nil, fun _ => rfl⟩
  · next tree found =>
    obtain ⟨functions, collected, catalogue⟩ := collect_catalogue readable.kinds readable.names
    have present : contract ∈ keys trees := List.mem_map.mpr ⟨_, mem_of_get? found, rfl⟩
    exact ⟨functions, ofContract_present catalogue.distinct found parts collected [] (.inr ⟨rfl, present⟩), catalogue⟩

end TransferFunctions

end MintAudit
