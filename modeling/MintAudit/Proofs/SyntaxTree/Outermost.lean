import MintAudit.Proofs.SyntaxTree.Search

namespace MintAudit

/-!
# What a walk gathers

A tree is gone through depth first, outer values before inner ones.
-/

open List

namespace Json

def opened : Json → List Json
  | array items => items
  | object members => [object members]
  | _ => []

def held : Json → List Json
  | object members => members.flatMap fun entry => opened entry.2
  | _ => []

def listedChildren (node : Json) : List Json :=
  ((node.member? "children").bind array?).getD []

theorem Flat.of_within {whole part : Json} (flat : whole.Flat) (within : part.Within whole) : part.Flat :=
  fun outer inner inside => flat outer inner (within.trans inside)

theorem within_of_mem_held {whole part : Json} (member : part ∈ held whole) : part.Within whole := by
  cases whole with
  | object members =>
    obtain ⟨⟨name, value⟩, present, within⟩ := mem_flatMap.mp member
    cases value with
    | array items => exact .tail (.single (.member present)) (.item within)
    | object inner => exact mem_singleton.mp within ▸ .single (.member present)
    | _ => cases within
  | _ => cases member

end Json

/-- A way down into values: which values come next, all of them less deep. -/
structure Descent where
  next : Json → List Json
  shallower : ∀ {whole part : Json}, part ∈ next whole → part.depth < whole.depth

namespace Descent

open Json

def alongMembers : Descent where
  next := held
  shallower := by
    intro whole part member
    cases whole with
    | object members =>
      obtain ⟨⟨name, value⟩, present, within⟩ := mem_flatMap.mp member
      have outer := (Encloses.member present).depth_lt
      cases value with
      | array items => exact (Encloses.item within).depth_lt.trans outer
      | object inner => exact mem_singleton.mp within ▸ outer
      | _ => cases within
    | _ => cases member

def alongChildren : Descent where
  next := listedChildren
  shallower := by
    intro whole part member
    unfold listedChildren member? at member
    cases whole with
    | object members =>
      dsimp only at member
      cases found : Table.get? "children" members with
      | none => simp [found] at member
      | some value =>
        have outer := (Encloses.member (Table.mem_of_get? found)).depth_lt
        cases value with
        | array items =>
          rw [found] at member
          exact ((Encloses.item member).depth_lt).trans outer
        | _ => simp [found, array?] at member
    | _ => simp at member

/-- All values below a value and the value itself, outer ones first, each with the values that it stands in. -/
def preorder (descent : Descent) (above : List Json) (node : Json) : List (List Json × Json) :=
  (above, node) :: (descent.next node).flatMap fun part => descent.preorder (node :: above) part
termination_by node.depth
decreasing_by exact descent.shallower ‹_›

/-- The values that pass a test and stand in no other one that does. -/
def outermost (descent : Descent) (test : Json → Bool) (above : List Json) (node : Json) : List Json :=
  ((descent.preorder above node).filter fun visit => test visit.2 && !visit.1.any test).map Prod.snd

variable {descent : Descent} {test : Json → Bool} {above : List Json} {node : Json}

theorem outermost_eq (descent : Descent) (test : Json → Bool) (above : List Json) (node : Json) :
    descent.outermost test above node =
      (if test node && !above.any test then [node] else []) ++
        (descent.next node).flatMap (descent.outermost test (node :: above)) := by
  have parts : (descent.next node).flatMap (descent.outermost test (node :: above)) =
      (((descent.next node).flatMap fun part => descent.preorder (node :: above) part).filter fun visit =>
        test visit.2 && !visit.1.any test).map Prod.snd := by
    rw [filter_flatMap, map_flatMap]
    rfl
  rw [parts, outermost, preorder, filter_cons]
  split <;> simp_all

theorem outermost_eq_nil (covered : above.any test = true) (node : Json) : descent.outermost test above node = [] := by
  induction above, node using preorder.induct descent with
  | case1 above node ih =>
    rw [outermost_eq, covered, flatMap_eq_nil_iff.mpr fun part member => ih part member (by simp [covered])]
    simp

theorem outermost_of_free (free : above.any test = false) (node : Json) :
    descent.outermost test above node =
      if test node then [node] else (descent.next node).flatMap (descent.outermost test (node :: above)) := by
  rw [outermost_eq, free]
  cases passes : test node with
  | false => simp
  | true =>
    have covered : (node :: above).any test = true := by simp [passes]
    simp [outermost_eq_nil covered]

theorem forall_preorder {holds : Json → Prop} (onward : ∀ {whole part}, holds whole → part ∈ descent.next whole → holds part)
    (here : holds node) : ∀ visit ∈ descent.preorder above node, holds visit.2 := by
  induction above, node using preorder.induct descent with
  | case1 above node ih =>
    rw [preorder]
    refine forall_mem_cons.mpr ⟨here, fun visit below => ?_⟩
    obtain ⟨part, member, visited⟩ := mem_flatMap.mp below
    exact ih part member (onward here member) visit visited

end Descent

namespace Walk

open Descent Json

theorem gatherParts_of_sound {visit : Json → Gathered} {nodes : List Json}
    (sound : ∀ node ∈ nodes, (visit node).fault = none) :
    gatherParts visit (nodes.map .ok) = { nodes := nodes.flatMap fun node => (visit node).nodes } := by
  induction nodes with
  | nil => rfl
  | cons node rest ih =>
    obtain ⟨here, later⟩ := forall_mem_cons.mp sound
    simp [gatherParts, here, ih later]

theorem gather_eq {dialect : Dialect} {patterns : List Attributes} {descent : Descent} {test : Json → Bool} {fuel : Nat}
    {above : List Json} {node : Json} (enough : node.depth ≤ fuel)
    (alike : ∀ visit ∈ descent.preorder above node, fits dialect patterns visit.2 = .ok (test visit.2) ∧
      parts dialect visit.2 = (descent.next visit.2).map .ok)
    (free : above.any test = false) :
    gather dialect patterns fuel node = { nodes := descent.outermost test above node } := by
  induction fuel generalizing node above with
  | zero =>
    have := node.depth_pos
    omega
  | succ fuel ih =>
    rw [preorder] at alike
    obtain ⟨⟨fitting, onward⟩, below⟩ := forall_mem_cons.mp alike
    rw [gather, fitting, outermost_of_free free]
    cases passes : test node with
    | true => rfl
    | false =>
      have uncovered : (node :: above).any test = false := by simp [passes, free]
      have each : ∀ part ∈ descent.next node, gather dialect patterns fuel part =
          { nodes := descent.outermost test (node :: above) part } := fun part member =>
        ih (Nat.lt_succ_iff.mp ((descent.shallower member).trans_le enough))
          (fun visit visited => below visit (mem_flatMap.mpr ⟨part, member, visited⟩)) uncovered
      dsimp only
      rw [onward, gatherParts_of_sound fun part member => by rw [each part member]]
      exact congrArg (Gathered.mk · none) (flatMap_congr fun part member => by rw [each part member])

def passes (patterns : List Attributes) (node : Json) : Bool :=
  patterns.any fun attributes => hasMembers attributes node

theorem parts_current {node : Json} (single : node.array? = none) :
    parts .current node = (alongMembers.next node).map .ok := by
  cases node with
  | array items => cases single
  | object members =>
    change currentParts (object members) = ((members.flatMap fun entry => opened entry.2).map .ok)
    rw [currentParts, map_flatMap]
    congr 1
    funext entry
    cases entry.2 <;> rfl
  | _ => rfl

theorem flat_onward {whole part : Json} (flat : whole.Flat ∧ whole.array? = none)
    (member : part ∈ alongMembers.next whole) : part.Flat ∧ part.array? = none := by
  refine ⟨flat.1.of_within (within_of_mem_held member), ?_⟩
  cases whole with
  | object members =>
    obtain ⟨⟨name, value⟩, present, within⟩ := mem_flatMap.mp member
    cases value with
    | array items =>
      cases part with
      | array nested => exact absurd within (flat.1 items nested (.single (.member present)))
      | _ => rfl
    | object inside => exact mem_singleton.mp within ▸ rfl
    | _ => cases within
  | _ => cases member

mutual

def shows : Json → Json → Bool
  | object wanted, node => showsEvery wanted node
  | _, _ => true

def showsEvery : Attributes → Json → Bool
  | [], _ => true
  | (name, wanted) :: rest, node =>
    (match node.member? name with
      | some value => if name == "attributes" then shows wanted value else value == wanted
      | none => false) && showsEvery rest node

end

inductive Detailed : Json → Prop where
  | object {members : List (String × Json)}
      (inner : ∀ value, Table.get? "attributes" members = some value → Detailed value) :
      Detailed (object members)

/-- A node of the legacy dialect: what it has under `children` is a list. -/
structure Legacy (node : Json) : Prop where
  detailed : Detailed node
  listed : ∀ value, node.member? "children" = some value → ∃ items, value = array items

mutual

theorem hasDetails_eq (wanted : Json) {node : Json} (detailed : Detailed node) :
    hasDetails wanted node = .ok (shows wanted node) := by
  cases wanted with
  | object members => exact hasEveryDetail_eq members detailed
  | _ => rfl

theorem hasEveryDetail_eq (wanted : Attributes) {node : Json} (detailed : Detailed node) :
    hasEveryDetail wanted node = .ok (showsEvery wanted node) := by
  cases wanted with
  | nil => rfl
  | cons first rest =>
    obtain ⟨name, value⟩ := first
    obtain @⟨members, inner⟩ := detailed
    have later := hasEveryDetail_eq rest (.object inner)
    cases found : Table.get? name members with
    | none => simp [hasEveryDetail, holds, Table.has, found, showsEvery, member?, bind, Except.bind, pure, Except.pure]
    | some present =>
      simp only [hasEveryDetail, holds, Table.has, found, member, showsEvery, member?, bind, Except.bind, Option.isSome_some,
        later]
      by_cases nested : (name == "attributes") = true
      · rw [eq_of_beq nested] at found
        simp only [nested, if_true, hasDetails_eq value (inner present found)]
        cases shows value present <;> rfl
      · simp only [nested]
        cases present == value <;> rfl

end

theorem fits_legacy (patterns : List Attributes) {node : Json} (detailed : Detailed node) :
    fits .legacy patterns node = .ok (patterns.any fun attributes => showsEvery attributes node) := by
  rw [fits]
  induction patterns with
  | nil => rfl
  | cons attributes rest ih =>
    rw [fitsLegacy, hasEveryDetail_eq attributes detailed, any_cons]
    cases showsEvery attributes node with
    | true => rfl
    | false => exact ih

theorem parts_legacy {node : Json} (legacy : Legacy node) : parts .legacy node = node.listedChildren.map .ok := by
  obtain ⟨@⟨members, -⟩, listed⟩ := legacy
  cases found : Table.get? "children" members with
  | none => simp [parts, children, holds, Table.has, found, listedChildren, member?, bind, Except.bind, pure, Except.pure]
  | some value =>
    obtain ⟨items, rfl⟩ := listed value found
    cases items <;>
      simp [parts, children, holds, Table.has, found, listedChildren, member?, array?, member, elements, Json.isTrue,
        bind, Except.bind, pure, Except.pure]

def passesLegacy (patterns : List Attributes) (node : Json) : Bool :=
  patterns.any fun attributes => showsEvery attributes node

/-- A walk gathers the outermost values that fit, each once and in the order of the tree, and meets no fault. -/
theorem outermost_gathered (patterns : List Attributes) :
    (∀ members : List (String × Json), (object members).Flat →
      outermost .current patterns (object members) =
        { nodes := alongMembers.outermost (passes patterns) [] (object members), fault := none }) ∧
    ∀ node, (∀ visit ∈ alongChildren.preorder [] node, Legacy visit.2) →
      outermost .legacy patterns node =
        { nodes := alongChildren.outermost (passesLegacy patterns) [] node, fault := none } := by
  refine ⟨fun members flat => gather_eq (Nat.le_succ _) (fun visit visited => ?_) rfl, fun node legacy =>
    gather_eq (Nat.le_succ _) (fun visit visited => ?_) rfl⟩
  · have single := forall_preorder flat_onward ⟨flat, rfl⟩ visit visited
    exact ⟨rfl, parts_current single.2⟩
  · have here := legacy visit visited
    exact ⟨fits_legacy patterns here.detailed, parts_legacy here⟩

def leafNode : Json :=
  object [("name", .string "f")]

def outerNode : Json :=
  object [("name", .string "f"), ("children", .array [leafNode])]

theorem outermost_gathered_nested :
    (object [("a", outerNode)]).Flat ∧ (∀ visit ∈ alongChildren.preorder [] outerNode, Legacy visit.2) ∧
      (outermost .current [[("name", .string "f")]] (object [("a", outerNode)])).fault = none ∧
      (outermost .legacy [[("name", .string "f")]] outerNode).fault = none := by
  have flat : (object [("a", outerNode)]).Flat := flat_of_every (by decide +kernel)
  have legacy : ∀ visit ∈ alongChildren.preorder [] outerNode, Legacy visit.2 := by
    have plain : ∀ {members}, Table.get? "attributes" members = none → Detailed (object members) :=
      fun absent => .object fun value found => by cases absent.symm.trans found
    rw [preorder, show alongChildren.next outerNode = [leafNode] from rfl, flatMap_singleton, preorder,
      show alongChildren.next leafNode = [] from rfl]
    refine forall_mem_cons.mpr ⟨⟨plain rfl, fun value found => ⟨_, (Option.some.inj found).symm⟩⟩, ?_⟩
    exact forall_mem_singleton.mpr ⟨plain rfl, nofun⟩
  obtain ⟨current, old⟩ := outermost_gathered [[("name", .string "f")]]
  exact ⟨flat, legacy, by rw [current _ flat], by rw [old _ legacy]⟩

end Walk

end MintAudit
