import MintAudit.Detector.TokenCalls
import MintAudit.Proofs.Table

namespace MintAudit

/-!
# How state variables are packed

Variables share a position of storage as long as their widths fit into 256 bits.
-/

open List

namespace Packing

def used (position : Int) (items : List (Int × Nat)) : Nat :=
  ((items.filter (·.1 = position)).map Prod.snd).sum

@[simp] theorem used_nil (position : Int) : used position [] = 0 := rfl

@[simp] theorem used_cons (position : Int) (item : Int × Nat) (items : List (Int × Nat)) :
    used position (item :: items) = (if item.1 = position then item.2 else 0) + used position items := by
  unfold used
  split <;> simp_all

@[simp] theorem used_append (position : Int) (front rest : List (Int × Nat)) :
    used position (front ++ rest) = used position front + used position rest := by
  simp [used]

theorem used_eq_zero {position : Int} {items : List (Int × Nat)} (away : ∀ item ∈ items, item.1 ≠ position) :
    used position items = 0 := by
  have none : items.filter (·.1 = position) = [] := filter_eq_nil_iff.mpr fun item member => by simpa using away item member
  rw [used, none, map_nil, sum_nil]

def items (position free : Int) (widths : List (Option Nat)) : List (Int × Nat) :=
  (positions position free widths).reduceOption.zip widths.reduceOption

section

variable {position free : Int} {bits : Nat} {widths : List (Option Nat)}

theorem isNone_positions (position free : Int) (widths : List (Option Nat)) :
    (positions position free widths).map Option.isNone = widths.map Option.isNone := by
  fun_induction positions position free widths <;> simp_all

theorem map_fst_items (position free : Int) (widths : List (Option Nat)) :
    (items position free widths).map Prod.fst = (positions position free widths).reduceOption := by
  unfold items
  fun_induction positions position free widths <;> simp_all

theorem reduceOption_positions (position free : Int) (widths : List (Option Nat)) :
    (positions position free widths).reduceOption =
      (positions position free (widths.filter Option.isSome)).reduceOption := by
  fun_induction positions position free widths with
  | case1 => rfl
  | case2 position free rest ih => simpa using ih
  | case3 position free bits rest opens ih => simp [positions, opens, ih]
  | case4 position free bits rest stays ih => simp [positions, stays, ih]

theorem isChain_positions (position free : Int) (widths : List (Option Nat)) :
    IsChain (fun here next => here ≤ next ∧ next ≤ here + 1)
      (position :: (positions position free widths).reduceOption) := by
  fun_induction positions position free widths with
  | case1 => simp
  | case2 position free rest ih => simpa using ih
  | case3 position free bits rest opens ih => simpa using ih
  | case4 position free bits rest stays ih => simpa using ih

theorem le_of_mem_positions {found : Int} (member : found ∈ (positions position free widths).reduceOption) :
    position ≤ found :=
  rel_of_pairwise_cons (isChain_iff_pairwise.mp ((isChain_positions position free widths).imp fun _ _ near => near.1)) member

/-- Where an item goes behind others: to the position of the last one if it fits there, otherwise to the next. -/
def placed (items : List (Int × Nat)) (bits : Nat) : Int :=
  items.getLast?.elim 0 fun last => if used last.1 items + bits ≤ 256 then last.1 else last.1 + 1

structure Packed (position free : Int) (items : List (Int × Nat)) : Prop where
  room : (used position items : Int) + free = 256
  enough : 0 ≤ free
  current : (items.getLast?.map Prod.fst).getD 0 = position
  below : ∀ item ∈ items, item.1 ≤ position
  fit : ∀ position, used position items ≤ 256
  greedy : ∀ front item rest, items = front ++ item :: rest → item.1 = placed front item.2

namespace Packed

variable {packed : List (Int × Nat)}

theorem start : Packed 0 256 [] where
  room := rfl
  enough := by decide
  current := rfl
  below := by simp
  fit := by simp
  greedy := by simp

theorem used_next (state : Packed position free packed) : used (position + 1) packed = 0 :=
  used_eq_zero fun item member => ne_of_lt ((state.below item member).trans_lt (lt_add_one position))

theorem step (state : Packed position free packed) (narrow : bits ≤ 256) {next : Int}
    (goes : next = if free - bits < 0 then position + 1 else position) :
    Packed next (256 - used next packed - bits) (packed ++ [(next, bits)]) := by
  have room := state.room
  have fits : used next packed + bits ≤ 256 := by
    split at goes
    · rw [goes, state.used_next]
      omega
    · rw [goes]
      omega
  have ahead : position ≤ next := by
    split at goes <;> omega
  have current : next = placed packed bits := by
    have current := state.current
    unfold placed
    cases last : packed.getLast? with
    | none =>
      rw [getLast?_eq_none_iff] at last
      subst last
      rw [if_neg (by simp at room; omega)] at goes
      simpa using goes.trans current.symm
    | some item =>
      rw [last] at current
      obtain rfl : item.1 = position := current
      rw [goes, Option.elim_some]
      split <;> split <;> omega
  constructor
  · simp
  · omega
  · simp
  · intro item member
    rcases mem_append.mp member with old | here
    · exact (state.below item old).trans ahead
    · rw [mem_singleton.mp here]
  · intro place
    have old := state.fit place
    by_cases here : next = place
    · subst here
      simpa using fits
    · simpa [here] using old
  · intro front item rest split
    rcases eq_nil_or_concat rest with rfl | ⟨others, final, rfl⟩
    · obtain ⟨rfl, same⟩ := append_inj' split rfl
      obtain rfl : (next, bits) = item := by simpa using same
      exact current
    · have longer : packed ++ [(next, bits)] = (front ++ item :: others) ++ [final] := by simpa using split
      exact state.greedy front item others (append_inj' longer rfl).1

theorem run (state : Packed position free packed) (narrow : ∀ bits ∈ widths.reduceOption, bits ≤ 256) :
    ∃ last left, Packed last left (packed ++ items position free widths) := by
  induction widths generalizing position free packed with
  | nil => exact ⟨position, free, by simpa [items, positions] using state⟩
  | cons bits rest ih =>
    cases bits with
    | none => simpa [items, positions] using ih state narrow
    | some bits =>
      obtain ⟨here, later⟩ := forall_mem_cons.mp narrow
      have stepped := state.step here rfl
      have room := state.room
      rw [items, positions]
      split
      · next opens =>
        rw [if_pos opens, state.used_next, Nat.cast_zero, sub_zero] at stepped
        simpa [items] using ih stepped later
      · next stays =>
        rw [if_neg stays] at stepped
        have left : 256 - (used position packed : Int) - bits = free - bits := by omega
        rw [left] at stepped
        simpa [items] using ih stepped later

end Packed

end

def widthOf (var : StateVariable) : Option Nat :=
  if var.isFixed then none else some (width var.type)

theorem reduceOption_widths (declared : List StateVariable) :
    (declared.map widthOf).reduceOption = (declared.filter (!·.isFixed)).map fun var => width var.type := by
  induction declared with
  | nil => rfl
  | cons var rest ih =>
    cases fixed : var.isFixed <;> simp [widthOf, fixed, ih]

/-- Variables are packed greedily. Constants and immutable ones have no position and do not matter for the others. -/
theorem ofVariables_greedy {declared : List StateVariable}
    (narrow : ∀ var ∈ declared, var.isFixed = false → width var.type ≤ 256) :
    let others := declared.filter (!·.isFixed)
    let packed := (ofVariables declared).reduceOption.zip (others.map fun var => width var.type)
    (ofVariables declared).map Option.isNone = declared.map StateVariable.isFixed ∧
      (ofVariables declared).reduceOption = (ofVariables others).reduceOption ∧
      (∀ position ∈ (ofVariables declared).reduceOption.head?, position = 0) ∧
      (ofVariables declared).reduceOption.IsChain (fun position next => position ≤ next ∧ next ≤ position + 1) ∧
      (∀ position, used position packed ≤ 256) ∧
      ∀ front last item rest, packed = front ++ last :: item :: rest →
        item.1 = if 256 < item.2 + used last.1 (front ++ [last]) then last.1 + 1 else last.1 := by
  intro others packed
  have widths : ∀ vars, ofVariables vars = positions 0 256 (vars.map widthOf) := fun _ => rfl
  have taken : packed = items 0 256 (declared.map widthOf) := by rw [items, reduceOption_widths, ← widths]
  have bounded : ∀ bits ∈ (declared.map widthOf).reduceOption, bits ≤ 256 := by
    intro bits member
    rw [reduceOption_widths] at member
    obtain ⟨var, present, rfl⟩ := mem_map.mp member
    obtain ⟨declares, varies⟩ := mem_filter.mp present
    exact narrow var declares (by simpa using varies)
  obtain ⟨last, left, state⟩ := Packed.start.run bounded
  rw [nil_append, ← taken] at state
  have varying : (declared.map widthOf).filter Option.isSome = others.map widthOf := by
    rw [filter_map]
    congr 1
    refine filter_congr fun var _ => ?_
    cases fixed : var.isFixed <;> simp [widthOf, fixed]
  refine ⟨?_, ?_, ?_, ?_, state.fit, ?_⟩
  · rw [widths, isNone_positions, map_map]
    refine map_congr_left fun var _ => ?_
    cases fixed : var.isFixed <;> simp [widthOf, fixed]
  · rw [widths, reduceOption_positions, varying, widths]
  · intro position member
    rw [widths, ← map_fst_items, ← taken, head?_map] at member
    obtain ⟨item, first, rfl⟩ := Option.mem_map.mp member
    exact state.greedy [] item packed.tail (eq_cons_of_mem_head? first)
  · exact (isChain_positions 0 256 _).tail
  · intro front last item rest split
    rw [state.greedy (front ++ [last]) item rest (by simpa using split), placed, getLast?_concat, Option.elim_some]
    split <;> split <;> omega

def declare (name type : String) : StateVariable :=
  { id := .string name, name, type, constant := .bool false, mutability := .string "mutable" }

theorem ofVariables_greedy_mixed :
    let fee := { declare "fee" "uint96" with constant := .bool true }
    let declared := [declare "owner" "address", fee, declare "open" "bool", declare "cap" "uint96"]
    (∀ var ∈ declared, var.isFixed = false → width var.type ≤ 256) ∧
      ofVariables declared = [some 0, none, some 0, some 1] ∧
      (1 : Int) = if 256 < 96 + used 0 [(0, 160), (0, 1)] then 0 + 1 else 0 := by
  intro fee declared
  have narrow : ∀ var ∈ declared, var.isFixed = false → width var.type ≤ 256 := by decide +kernel
  obtain ⟨-, -, -, -, -, greedy⟩ := ofVariables_greedy narrow
  exact ⟨narrow, by decide +kernel, greedy [(0, 160)] (0, 1) (1, 96) [] (by decide +kernel)⟩

inductive StorageType where
  | address
  | bool
  | uint (octets : Fin 32)
  | bytes (octets : Fin 32)
  deriving DecidableEq, Repr

namespace StorageType

def name : StorageType → String
  | address => "address"
  | bool => "bool"
  | uint octets => "uint" ++ toString (8 * (octets.val + 1))
  | bytes octets => "bytes" ++ toString (octets.val + 1)

def size : StorageType → Nat
  | address => 20
  | bool => 1
  | uint octets | bytes octets => octets.val + 1

theorem width_name (type : StorageType) : width type.name = if type = bool then 1 else 8 * type.size := by
  have uints : ∀ octets : Fin 32, width (uint octets).name = 8 * (octets.val + 1) := by decide +kernel
  have arrays : ∀ octets : Fin 32, width (bytes octets).name = 8 * (octets.val + 1) := by decide +kernel
  cases type with
  | address | bool => decide +kernel
  | uint octets => exact uints octets
  | bytes octets => exact arrays octets

theorem size_le (type : StorageType) : 0 < type.size ∧ type.size ≤ 32 := by
  cases type <;> simp [size]

end StorageType

/-- The positions of items by their bytes, with `taken` bytes in use at the current position: an item that does not fit
into the rest of 32 bytes starts the next position. -/
def layout (position : Int) (taken : Nat) : List Nat → List Int
  | [] => []
  | size :: rest =>
    if taken + size ≤ 32 then
      position :: layout position (taken + size) rest
    else
      (position + 1) :: layout (position + 1) size rest

theorem positions_eq_layout_iff {types : List StorageType} {position free : Int} {taken : Nat}
    (less : 256 ≤ free + 8 * taken) (room : taken ≤ 32) :
    positions position free (types.map fun type => some (width type.name)) =
        (layout position taken (types.map StorageType.size)).map some ↔
      ∀ place, (if place = position then taken else 0) + used place
        ((positions position free (types.map fun type => some (width type.name))).reduceOption.zip
          (types.map StorageType.size)) ≤ 32 := by
  induction types generalizing position free taken with
  | nil =>
    simp only [map_nil, positions, layout, true_iff]
    intro place
    split <;> simp [room]
  | cons type rest ih =>
    have narrow : width type.name ≤ 8 * type.size := by
      rw [type.width_name]
      split
      · have := type.size_le
        omega
      · exact le_refl _
    have small := type.size_le
    simp only [map_cons, positions, layout]
    split
    · next opens =>
      have fits := @ih (position + 1) (256 - width type.name) type.size (by omega) small.2
      rw [if_neg (by omega), map_cons, cons_inj_right, fits]
      refine forall_congr' fun place => ?_
      by_cases here : place = position
      · have away : used place ((positions (position + 1) (256 - width type.name)
            (rest.map fun type => some (width type.name))).reduceOption.zip (rest.map StorageType.size)) = 0 := by
          refine used_eq_zero fun item member => ?_
          have := le_of_mem_positions (of_mem_zip member).1
          omega
        simp [here, here ▸ away, room]
      · simp [here, eq_comm]
    · next stays =>
      by_cases fitting : taken + type.size ≤ 32
      · have fits := @ih position (free - width type.name) (taken + type.size) (by omega) fitting
        rw [if_pos fitting, map_cons, cons_inj_right, fits]
        refine forall_congr' fun place => ?_
        by_cases here : place = position
        · simp [here, add_assoc]
        · simp [here, Ne.symm here]
      · rw [if_neg fitting, map_cons]
        constructor
        · intro same
          have := (cons_eq_cons.mp same).1
          simp at this
        · intro all
          have := all position
          simp at this
          omega

theorem positions_eq_layout {types : List StorageType} (whole : .bool ∉ types) {position free : Int} {taken : Nat}
    (same : free + 8 * taken = 256) :
    positions position free (types.map fun type => some (width type.name)) =
      (layout position taken (types.map StorageType.size)).map some := by
  induction types generalizing position free taken with
  | nil => rfl
  | cons type rest ih =>
    obtain ⟨other, later⟩ : StorageType.bool ≠ type ∧ .bool ∉ rest := by simpa using whole
    have octets : width type.name = 8 * type.size := by rw [type.width_name, if_neg (Ne.symm other)]
    simp only [map_cons, positions, layout, octets]
    split
    · rw [if_neg (by omega), map_cons]
      exact congrArg _ (ih later (by push_cast; omega))
    · rw [if_pos (by omega), map_cons]
      exact congrArg _ (ih later (by push_cast; omega))

/--
The layout of variables of known sizes is the compiler's exactly if the bytes of the variables at each position are at most
32. Without truth values it always is.
-/
theorem ofVariables_eq_layout_iff {declared : List StateVariable} {types : List StorageType}
    (varies : ∀ var ∈ declared, var.isFixed = false)
    (typed : declared.map StateVariable.type = types.map StorageType.name) :
    (ofVariables declared = (layout 0 0 (types.map StorageType.size)).map some ↔
      ∀ position, used position ((ofVariables declared).reduceOption.zip (types.map StorageType.size)) ≤ 32) ∧
    (.bool ∉ types → ofVariables declared = (layout 0 0 (types.map StorageType.size)).map some) := by
  have widths : ofVariables declared = positions 0 256 (types.map fun type => some (width type.name)) := by
    have named := congrArg (map fun name => some (width name)) typed
    rw [map_map, map_map] at named
    rw [ofVariables, ← show _ = types.map fun type => some (width type.name) from named]
    congr 1
    refine map_congr_left fun var member => ?_
    rw [varies var member]
    rfl
  rw [widths]
  refine ⟨?_, fun whole => positions_eq_layout whole rfl⟩
  simpa using @positions_eq_layout_iff types 0 256 0 (by decide) (by decide)

theorem ofVariables_eq_layout_iff_flags :
    let declared := [declare "open" "bool", declare "paused" "bool", declare "cap" "uint248"]
    let types := [StorageType.bool, .bool, .uint 30]
    (∀ var ∈ declared, var.isFixed = false) ∧ declared.map StateVariable.type = types.map StorageType.name ∧
      ofVariables declared = [some 0, some 0, some 0] ∧ layout 0 0 (types.map StorageType.size) = [0, 0, 1] ∧
      ofVariables declared ≠ (layout 0 0 (types.map StorageType.size)).map some := by
  intro declared types
  have varies : ∀ var ∈ declared, var.isFixed = false := by decide +kernel
  have typed : declared.map StateVariable.type = types.map StorageType.name := by decide +kernel
  refine ⟨varies, typed, by decide +kernel, by decide, fun same => ?_⟩
  have crowded := (ofVariables_eq_layout_iff varies typed).1.mp same 0
  exact absurd crowded (by decide +kernel)

def variablesAt (position : Int) (placed : List (StateVariable × Option Int)) : List StateVariable :=
  (placed.filter (·.2 = some position)).map Prod.fst

def entriesOf : List StateVariable → Option (List SlotEntry)
  | [] => none
  | first :: others => some (.named first.name :: others.map fun var => .typed var.name var.type)

theorem entriesOf_concat (vars : List StateVariable) (var : StateVariable) :
    entriesOf (vars ++ [var]) =
      some ((entriesOf vars).elim [.named var.name] fun before => before ++ [.typed var.name var.type]) := by
  cases vars <;> simp [entriesOf]

theorem variablesAt_concat (position : Int) (placed : List (StateVariable × Option Int)) (var : StateVariable)
    (place : Option Int) :
    variablesAt position (placed ++ [(var, place)]) =
      variablesAt position placed ++ if place = some position then [var] else [] := by
  by_cases here : place = some position <;> simp [variablesAt, here]

theorem entries_concat (placed : List (StateVariable × Option Int)) (var : StateVariable) (found : Int) :
    entries (placed ++ [(var, some found)]) =
      Table.put found ((Table.get? found (entries placed)).elim [.named var.name] fun before =>
        before ++ [.typed var.name var.type]) (entries placed) := by
  rw [entries, foldl_append, foldl_cons, foldl_nil, ← entries]
  dsimp only
  cases Table.get? found (entries placed) <;> rfl

theorem get?_entries (position : Int) (placed : List (StateVariable × Option Int)) :
    Table.get? position (entries placed) = entriesOf (variablesAt position placed) := by
  induction placed using List.reverseRecOn with
  | nil => rfl
  | append_singleton placed entry ih =>
    obtain ⟨var, place⟩ := entry
    rw [variablesAt_concat]
    cases place with
    | none => simpa [entries] using ih
    | some found =>
      rw [entries_concat]
      by_cases same : found = position
      · rw [same, Table.get?_put_self, ih, if_pos rfl, entriesOf_concat]
      · rw [Table.get?_put_of_ne (Ne.symm same), ih, if_neg (by simpa using same), append_nil]

end Packing

namespace TokenCalls

open Packing

def isOwner (var : StateVariable) : Bool :=
  Text.contains (Text.lower var.name) "owner"

theorem mapM_namesOwner (vars : List StateVariable) :
    ((entriesOf vars).getD []).mapM namesOwner =
      if vars.length ≤ 1 then .ok (vars.map isOwner) else .error .missingMember := by
  rcases vars with _ | ⟨first, _ | ⟨second, others⟩⟩
  · rfl
  · rfl
  · rfl

/-- The names at a position are found where no other variable shares it. -/
theorem checksOf_position (placed : List (StateVariable × Option Int)) {name : String} {position : Int}
    (stored : Renaming.isStorage name = true) (located : Renaming.storagePosition name = .ok (.number position))
    (unnamed : Renaming.storageVariable name = .ok "") :
    let roles := SlotMap.rolesOf placed
    let vars := variablesAt position placed
    Table.get? position roles.entries = entriesOf vars ∧
      (Table.get? position roles.entries = some (vars.map fun var => .named var.name) ↔ vars.length = 1) ∧
      ∀ owner supply rest, checksOf roles (owner, supply) (name :: rest) =
        if vars.length ≤ 1 then
          checksOf roles (owner || vars.any isOwner, supply || roles.supplies.contains position) rest
        else
          .error .missingMember := by
  intro roles vars
  have written : Table.get? position roles.entries = entriesOf vars := get?_entries position placed
  refine ⟨written, ?_, fun owner supply rest => ?_⟩
  · rw [written]
    rcases vars with _ | ⟨first, _ | ⟨second, others⟩⟩ <;> simp [entriesOf]
  · have named := mapM_namesOwner vars
    rw [← written] at named
    have empty : "".isEmpty = true := rfl
    rw [checksOf]
    simp only [stored, if_true, located, unnamed, bind, Except.bind, empty, Option.bind_some, named]
    by_cases alone : vars.length ≤ 1
    · simp only [alone, if_true, pure, Except.pure, any_map, Option.any_some]
      rfl
    · simp only [alone, if_false]

theorem checksOf_position_shared :
    let placed := [(declare "open" "bool", some (0 : Int)), (declare "_owner" "address", some 0)]
    let roles := SlotMap.rolesOf placed
    Renaming.isStorage "Ia_store-0-" = true ∧ Renaming.storagePosition "Ia_store-0-" = .ok (.number 0) ∧
      Renaming.storageVariable "Ia_store-0-" = .ok "" ∧
      Table.get? 0 roles.entries = some [.named "open", .typed "_owner" "address"] ∧
      checksOf roles (false, false) ["Ia_store-0-"] = .error .missingMember := by
  intro placed roles
  have stored : Renaming.isStorage "Ia_store-0-" = true := by decide +kernel
  have located : Renaming.storagePosition "Ia_store-0-" = .ok (.number 0) := by rfl
  have unnamed : Renaming.storageVariable "Ia_store-0-" = .ok "" := by rfl
  obtain ⟨written, -, checks⟩ := checksOf_position placed stored located unnamed
  exact ⟨stored, located, unnamed, written, checks false false []⟩

end TokenCalls

end MintAudit
