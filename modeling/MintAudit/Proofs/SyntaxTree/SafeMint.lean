import MintAudit.Proofs.SyntaxTree.Outermost

namespace MintAudit

/-!
# Assignments behind a safe mint

A function is gone through statement by statement.
-/

open List

namespace Descent

open Json

def throughout : Descent where
  next
    | object members => members.map Prod.snd
    | array items => items
    | _ => []
  shallower := by
    intro whole part member
    cases whole with
    | object members =>
      obtain ⟨⟨name, value⟩, present, rfl⟩ := mem_map.mp member
      exact (Encloses.member present).depth_lt
    | array items => exact (Encloses.item member).depth_lt
    | _ => cases member

theorem within_of_mem_outermost {test : Json → Bool} {node part : Json}
    (member : part ∈ alongMembers.outermost test [] node) : part.Within node ∧ test part = true := by
  obtain ⟨visit, visited, rfl⟩ := mem_map.mp member
  obtain ⟨visited, passes⟩ := mem_filter.mp visited
  refine ⟨?_, (Bool.and_eq_true_iff.mp passes).1⟩
  exact forall_preorder (fun within below => within.trans (within_of_mem_held below)) .refl visit visited

theorem head?_outermost {descent : Descent} {test : Json → Bool} {above : List Json} {node : Json}
    (free : above.any test = false) :
    (descent.outermost test above node).head? = ((descent.preorder above node).map Prod.snd).find? test := by
  induction above, node using preorder.induct descent with
  | case1 above node ih =>
    rw [outermost_of_free free, preorder, map_cons, find?_cons]
    cases passes : test node with
    | true => rfl
    | false =>
      have uncovered : (node :: above).any test = false := by simp [passes, free]
      simp only [Bool.false_eq_true, if_false, map_flatMap]
      generalize descent.next node = parts at ih
      induction parts with
      | nil => rfl
      | cons part rest later =>
        rw [flatMap_cons, flatMap_cons, head?_append, find?_append, ih part mem_cons_self uncovered,
          later fun other member => ih other (mem_cons_of_mem part member)]

end Descent

namespace SafeMint

open Descent Json

/-! ## What the walk is to find -/

def isFunction (node : Json) : Bool :=
  Walk.hasMembers [("nodeType", .string "FunctionDefinition")] node

def functionsIn (tree : Json) : List Json :=
  alongMembers.outermost isFunction [] tree

def statementsIn (function : Json) : List Json :=
  (((function.member? "body").bind (member? "statements")).bind array?).getD []

def isMint (node : Json) : Bool :=
  Walk.hasMembers [("name", .string "_safeMint")] node

def mint? (statement : Json) : Option Json :=
  ((alongMembers.preorder [] statement).map Prod.snd).find? isMint

def placeOf (mint : Json) : Json :=
  (mint.member? "src").getD .null

def isKind (kind : String) (node : Json) : Bool :=
  ((node.member? "nodeType").map (isText kind)).getD false

def assigns (statement : Json) : Bool :=
  isKind "ExpressionStatement" statement && ((statement.member? "expression").map (isKind "Assignment")).getD false

def namesIn (statement : Json) : List Json :=
  (throughout.preorder [] statement).filterMap fun visit => visit.2.member? "name"

def behindMint (statements : List Json) : List Json :=
  (statements.dropWhile fun statement => (mint? statement).isNone).tail

/-- For each assignment behind the first statement with a mint, the place of the first mint with the names assigned. -/
def changesOf (statements : List Json) : List (Json × List Json) :=
  match statements.findSome? mint? with
  | none => []
  | some mint => ((behindMint statements).filter assigns).map fun statement => (placeOf mint, namesIn statement)

def isObject (value : Json) : Bool :=
  value.object?.isSome

def bodyFits (function : Json) : Bool :=
  (function.member? "body").all fun body =>
    isObject body && (body.member? "statements").all fun listed => listed.array?.any fun items => items.all isObject

/-- What the walk relies on. The place of a mint becomes a key, which can be no list and no object. -/
structure Readable (tree : Json) : Prop where
  flat : tree.Flat
  body : ∀ part, part.Within tree → isFunction part = true → bodyFits part = true
  expression : ∀ part, part.Within tree → isKind "ExpressionStatement" part = true →
    (part.member? "expression").all isObject = true
  place : ∀ part, part.Within tree → isMint part = true →
    ((part.member? "src").isSome && !(placeOf part).isNested) = true

/-! ## What it finds -/

theorem names_eq_namesIn (node : Json) : Walk.names node = namesIn node := by
  have items (values : List Json) : Walk.namesOfItems values = values.flatMap Walk.names := by
    induction values with
    | nil => rfl
    | cons value rest ih => rw [Walk.namesOfItems, ih, flatMap_cons]
  have members (entries : List (String × Json)) :
      Walk.namesOfMembers entries = (entries.map Prod.snd).flatMap Walk.names := by
    induction entries with
    | nil => rfl
    | cons entry rest ih => rw [Walk.namesOfMembers, ih, map_cons, flatMap_cons]
  have step (node : Json) :
      Walk.names node = (node.member? "name").toList ++ (throughout.next node).flatMap Walk.names := by
    cases node with
    | object entries => rw [Walk.names, members]; rfl
    | array values => rw [Walk.names, items]; rfl
    | _ => rfl
  -- The values above a value play no part in its names.
  suffices named : ∀ above, Walk.names node = (throughout.preorder above node).filterMap fun visit =>
    visit.2.member? "name" from named []
  intro above
  induction above, node using preorder.induct throughout with
  | case1 above node ih =>
    rw [step, preorder, filterMap_cons, filterMap_flatMap, flatMap_congr fun part member => ih part member]
    cases node.member? "name" <;> rfl

theorem find_current (attributes : Attributes) {node : Json} (flat : node.Flat) (single : node.array? = none) :
    Walk.find .current [attributes] node = .ok (alongMembers.outermost (Walk.hasMembers attributes) [] node) := by
  have gathered : Walk.outermost .current [attributes] node =
      { nodes := alongMembers.outermost (Walk.hasMembers attributes) [] node } :=
    Walk.gather_eq (Nat.le_succ _) (fun visit visited => ⟨by simp [Walk.fits],
      Walk.parts_current (forall_preorder Walk.flat_onward ⟨flat, single⟩ visit visited).2⟩) rfl
  rw [Walk.find, gathered]

theorem eq_object {value : Json} (isOne : isObject value = true) : ∃ members, value = object members := by
  cases value with
  | object members => exact ⟨members, rfl⟩
  | _ => cases isOne

variable {tree : Json} (readable : Readable tree)

include readable

theorem mintPlace?_eq {statement : Json} (within : statement.Within tree) (single : statement.array? = none) :
    mintPlace? statement = .ok ((mint? statement).map placeOf) := by
  have flat := readable.flat.of_within within
  have placed : ∀ node ∈ alongMembers.outermost isMint [] statement, node.member "src" = .ok (placeOf node) := by
    intro node gathered
    obtain ⟨inside, passes⟩ := within_of_mem_outermost gathered
    have found := (Bool.and_eq_true_iff.mp (readable.place node (within.trans inside) passes)).1
    obtain ⟨place, found⟩ := Option.isSome_iff_exists.mp found
    rw [placeOf, found]
    cases node with
    | object members => simp [member, show Table.get? "src" members = some place from found]
    | _ => cases found
  rw [mintPlace?, find_current _ flat single, find_current _ flat single]
  change (alongMembers.outermost isMint [] statement).mapM (Json.member "src") >>= (fun places => .ok places.head?) = _
  rw [Effect.mapM_of_forall placed, mint?, ← head?_outermost rfl, ← head?_map]
  rfl

theorem isAssignment_eq {members : List (String × Json)} (within : (object members).Within tree) :
    isAssignment (object members) = .ok (assigns (object members)) := by
  unfold isAssignment assigns
  change (if isKind "ExpressionStatement" (object members) = true then _ else _) = _
  cases kind : isKind "ExpressionStatement" (object members) with
  | false => rfl
  | true =>
    cases found : Table.get? "expression" members with
    | none => simp [member?, found]
    | some value =>
      obtain ⟨parts, rfl⟩ := eq_object (Option.all_eq_true _ _ |>.mp (readable.expression _ within kind) value found)
      simp [member?, found, isKind]

variable {statements : List Json}
  (stand : ∀ statement ∈ statements, statement.Within tree ∧ ∃ members, statement = object members)

include stand

theorem inStatements_some {place : Json} (key : place.isNested = false) :
    inStatements (some place) statements =
      { entries := (statements.filter assigns).map fun statement => (place, namesIn statement) } := by
  induction statements with
  | nil => rfl
  | cons statement rest ih =>
    obtain ⟨⟨within, members, rfl⟩, later⟩ := forall_mem_cons.mp stand
    rw [inStatements, isAssignment_eq readable within]
    cases assigned : assigns (object members) with
    | false => simp [ih later, assigned]
    | true => simp [ih later, assigned, key, names_eq_namesIn]

theorem inStatements_none : inStatements none statements = { entries := changesOf statements } := by
  induction statements with
  | nil => rfl
  | cons statement rest ih =>
    obtain ⟨⟨within, members, rfl⟩, later⟩ := forall_mem_cons.mp stand
    rw [inStatements, mintPlace?_eq readable within rfl]
    cases found : mint? (object members) with
    | none => simp [ih later, changesOf, behindMint, found]
    | some mint =>
      have first := found
      rw [mint?, ← head?_outermost rfl] at first
      obtain ⟨inside, passes⟩ := within_of_mem_outermost (mem_of_mem_head? first)
      have key := (Bool.and_eq_true_iff.mp (readable.place mint (within.trans inside) passes)).2
      rw [Bool.not_eq_true_eq_eq_false] at key
      simp [inStatements_some readable later key, changesOf, behindMint, found]

omit stand

theorem inFunction_eq {function : Json} (present : function ∈ functionsIn tree) :
    inFunction function = { entries := changesOf (statementsIn function) } := by
  obtain ⟨within, passes⟩ := within_of_mem_outermost present
  have fits := readable.body function within passes
  unfold inFunction statementsOf statementsIn
  cases body : function.member? "body" with
  | none => rfl
  | some value =>
    rw [bodyFits, body, Option.all_some, Bool.and_eq_true] at fits
    obtain ⟨parts, rfl⟩ := eq_object fits.1
    cases listed : Table.get? "statements" parts with
    | none => simp [listed, member?, changesOf]
    | some value =>
      obtain ⟨items, found, objects⟩ := Option.any_eq_true _ _ |>.mp (Option.all_eq_true _ _ |>.mp fits.2 value listed)
      obtain rfl : value = array items := by cases value <;> simp_all [array?]
      have inside : (object parts).Within tree := by
        cases function with
        | object members => exact within.tail (.member (Table.mem_of_get? body))
        | _ => cases body
      simp only [listed, elements, Option.bind_some, member?, array?, Option.getD_some]
      refine inStatements_none readable fun statement member => ⟨?_, eq_object (all_eq_true.mp objects statement member)⟩
      exact (inside.tail (.member (Table.mem_of_get? listed))).tail (.item member)

theorem inFunctions_eq (earlier : List (Json × List Json)) {functions : List Json}
    (present : ∀ function ∈ functions, function ∈ functionsIn tree) :
    inFunctions earlier functions =
      { entries := earlier ++ functions.flatMap fun function => changesOf (statementsIn function) } := by
  induction functions generalizing earlier with
  | nil => simp [inFunctions]
  | cons function rest ih =>
    obtain ⟨here, later⟩ := forall_mem_cons.mp present
    simp [inFunctions, inFunction_eq readable here, ih _ later]

omit readable

/-- For each assignment behind the first statement with a safe mint in its function there is an entry, and there is no
other one. -/
theorem changes_behind_mints {members : List (String × Json)} (readable : Readable (object members)) :
    changes (object members) =
      { entries := (functionsIn (object members)).flatMap fun function => changesOf (statementsIn function)
        fault := none } := by
  rw [changes, find_current _ readable.flat rfl]
  exact inFunctions_eq readable [] fun _ member => member

def assignment (name : String) : Json :=
  object [("nodeType", .string "ExpressionStatement"), ("expression",
    object [("nodeType", .string "Assignment"), ("leftHandSide", object [("name", .string name)])])]

def functionOf (statements : List Json) : Json :=
  object [("nodeType", .string "FunctionDefinition"), ("body", object [("statements", .array statements)])]

def twoFunctions : Json :=
  object [("nodes", .array [
    functionOf [assignment "a", object [("name", .string "_safeMint"), ("src", .string "1:2:0")], assignment "b"],
    functionOf [assignment "c"]])]

theorem changes_behind_mints_twoFunctions :
    Readable twoFunctions ∧ ((functionsIn twoFunctions).flatMap fun function => changesOf (statementsIn function)) =
      [(.string "1:2:0", [.string "b"])] := by
  have every {test holds : Json → Bool} (all : every (fun part => !test part || holds part) twoFunctions = true)
      (part : Json) (within : part.Within twoFunctions) (passes : test part = true) : holds part = true := by
    simpa [passes] using test_of_every all within
  have readable : Readable twoFunctions :=
    ⟨flat_of_every (by decide +kernel), every (by decide +kernel), every (by decide +kernel), every (by decide +kernel)⟩
  have found : (changes twoFunctions).entries = [(.string "1:2:0", [.string "b"])] := by rfl
  rw [twoFunctions, changes_behind_mints readable] at found
  exact ⟨readable, found⟩

end SafeMint

end MintAudit
