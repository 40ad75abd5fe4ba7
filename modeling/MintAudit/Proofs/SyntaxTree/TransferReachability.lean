import MintAudit.Proofs.SyntaxTree.Search

namespace MintAudit

/-!
# Transfers reached by calls

The functions found are those that are selected.
-/

open Table
open List hiding keys

namespace TransferFunctions

variable {dialect : Dialect} {nodes : List Json}

theorem object_of_emitsTransfer {node : Json} (emits : dialect.emitsTransfer node = true) :
    ∃ members, node = .object members := by
  cases node with
  | object members => exact ⟨members, rfl⟩
  | _ => cases dialect <;> cases emits

theorem object_of_calledName? {node called : Json} (calls : dialect.calledName? node = some called) :
    ∃ members, node = .object members := by
  cases node with
  | object members => exact ⟨members, rfl⟩
  | _ => cases dialect <;> cases calls

theorem exists_map_string {values : List Json} (texts : ∀ value ∈ values, ∃ name, value = .string name) :
    ∃ names, values = List.map Json.string names := by
  induction values with
  | nil => exact ⟨[], rfl⟩
  | cons value rest ih =>
    obtain ⟨⟨name, rfl⟩, remaining⟩ := forall_mem_cons.mp texts
    obtain ⟨names, rfl⟩ := ih remaining
    exact ⟨name :: names, rfl⟩

section Following

variable {dialect : Dialect} {contract : String} {content : Json} {nodes : List Json}

variable {name : String} {reach : Reach}

theorem contains_iff {node statements part : Json} (defined : definition? dialect nodes name = some node)
    (stated : dialect.statements node = .ok statements) :
    Contains dialect nodes name part ↔ part.Within statements := by
  constructor
  · rintro ⟨other, others, otherDefined, otherStated, within⟩
    cases defined.symm.trans otherDefined
    cases stated.symm.trans otherStated
    exact within
  · intro within
    exact ⟨node, statements, defined, stated, within⟩

theorem scan_spec (readable : Readable dialect contract content nodes) {node : Json} {items : List Json}
    (defined : definition? dialect nodes name = some node) (stated : dialect.statements node = .ok (.array items))
    (flat : (Json.array items).Flat) :
    ((scan dialect items).1 = true ↔ Emits dialect nodes name) ∧
      ((scan dialect items).1 = false →
        ∃ called : List String, (scan dialect items).2 = called.map Json.string ∧
          ∀ callee, callee ∈ called ↔ Calls dialect nodes name callee) := by
  obtain ⟨stops, passes⟩ := Search.before_spec dialect.emitsTransfer items
  constructor
  · refine stops.trans ⟨?_, ?_⟩
    · rintro ⟨event, met, emits⟩
      exact ⟨event, (contains_iff defined stated).mpr met.within, emits⟩
    · rintro ⟨event, contained, emits⟩
      obtain ⟨members, rfl⟩ := object_of_emitsTransfer emits
      have within := (contains_iff defined stated).mp contained
      exact ⟨_, (Search.met_object_iff flat members).mpr within, emits⟩
  · intro unstopped
    have called_iff : ∀ called, called ∈ (scan dialect items).2 ↔
        ∃ call, Contains dialect nodes name call ∧ dialect.calledName? call = some called := by
      intro called
      refine mem_filterMap.trans ⟨?_, ?_⟩
      · rintro ⟨call, passed, calls⟩
        exact ⟨call, (contains_iff defined stated).mpr ((passes unstopped call).mp passed).within, calls⟩
      · rintro ⟨call, contained, calls⟩
        obtain ⟨members, rfl⟩ := object_of_calledName? calls
        have within := (contains_iff defined stated).mp contained
        exact ⟨_, (passes unstopped _).mpr ((Search.met_object_iff flat members).mpr within), calls⟩
    obtain ⟨called, shape⟩ := exists_map_string fun value present => by
      obtain ⟨call, contained, calls⟩ := (called_iff value).mp present
      exact readable.calls name call value contained calls
    refine ⟨called, shape, fun callee => ?_⟩
    rw [Calls, ← called_iff, shape]
    simp

def unentered (functions : Table String Json) (visited : List String) : List String :=
  (Table.keys functions).filter (· ∉ visited)

theorem length_unentered_cons {functions : Table String Json} {visited : List String} (known : name ∈ keys functions)
    (new : name ∉ visited) :
    (unentered functions (name :: visited)).length < (unentered functions visited).length := by
  have shrinks : unentered functions (name :: visited) = (unentered functions visited).filter (· ≠ name) := by
    simp [unentered, filter_filter, not_or]
  rw [shrinks]
  refine length_filter_lt_length_iff_exists.mpr ⟨name, ?_, by simp⟩
  exact mem_filter.mpr ⟨known, by simpa using new⟩

theorem length_unentered_cons_le (functions : Table String Json) (visited : List String) (name : String) :
    (unentered functions (name :: visited)).length ≤ (unentered functions visited).length := by
  refine (monotone_filter_right _ fun other new => ?_).length_le
  simp_all

def Explored (dialect : Dialect) (nodes : List Json) (visited queue : List String) : Prop :=
  ∀ name ∈ visited, ¬ Emits dialect nodes name ∧
    ∀ callee, Calls dialect nodes name callee → callee ∈ visited ∨ callee ∈ queue

namespace Explored

variable {visited queue rest : List String} {name : String}

theorem mem_of_path (explored : Explored dialect nodes visited []) (entered : name ∈ visited) {last : String}
    (path : Relation.ReflTransGen (Calls dialect nodes) name last) :
    last ∈ visited := by
  induction path with
  | refl => exact entered
  | tail _ calls ih =>
    rcases (explored _ ih).2 _ calls with present | waits
    · exact present
    · cases waits

theorem not_leads (explored : Explored dialect nodes visited []) (entered : name ∈ visited) :
    ¬ LeadsToTransfer dialect nodes name := by
  rintro ⟨last, path, emits⟩
  exact (explored last (explored.mem_of_path entered path)).1 emits

theorem skip (explored : Explored dialect nodes visited (name :: rest)) (entered : name ∈ visited) :
    Explored dialect nodes visited rest := by
  intro caller present
  refine ⟨(explored caller present).1, fun callee calls => ?_⟩
  rcases (explored caller present).2 callee calls with before | waits
  · exact .inl before
  · rcases mem_cons.mp waits with rfl | later
    · exact .inl entered
    · exact .inr later

theorem enter (explored : Explored dialect nodes visited (name :: rest)) (silent : ¬ Emits dialect nodes name)
    {called : List String} (complete : ∀ callee, Calls dialect nodes name callee → callee ∈ called) :
    Explored dialect nodes (name :: visited) (rest ++ called) := by
  intro caller present
  rcases mem_cons.mp present with rfl | before
  · exact ⟨silent, fun callee calls => .inr (mem_append_right _ (complete callee calls))⟩
  · refine ⟨(explored caller before).1, fun callee calls => ?_⟩
    rcases (explored caller before).2 callee calls with entered | waits
    · exact .inl (mem_cons_of_mem _ entered)
    · rcases mem_cons.mp waits with rfl | later
      · exact .inl mem_cons_self
      · exact .inr (mem_append_left _ later)

end Explored

/-- The outcome of following calls: a transfer is reached from a name that waits, or from none that was entered or
waits. -/
def Outcome (dialect : Dialect) (nodes : List Json) (visited queue : List String) : Reach → Prop
  | .never => ∀ name ∈ visited ++ queue, ¬ LeadsToTransfer dialect nodes name
  | _ => ∃ name ∈ queue, LeadsToTransfer dialect nodes name

theorem Outcome.of_enter {visited rest called : List String}
    (added : ∀ callee ∈ called, Calls dialect nodes name callee)
    (outcome : Outcome dialect nodes (name :: visited) (rest ++ called) reach) :
    Outcome dialect nodes visited (name :: rest) reach := by
  have later : (∃ waits ∈ rest ++ called, LeadsToTransfer dialect nodes waits) →
      ∃ waits ∈ name :: rest, LeadsToTransfer dialect nodes waits := by
    rintro ⟨waits, present, leads⟩
    rcases mem_append.mp present with before | isCalled
    · exact ⟨waits, mem_cons_of_mem _ before, leads⟩
    · exact ⟨name, mem_cons_self, leads.of_call (added waits isCalled)⟩
  cases reach with
  | never =>
    intro other present
    refine outcome other ?_
    simp only [mem_append, mem_cons] at present ⊢
    tauto
  | entered => exact later outcome
  | known => exact later outcome

theorem Outcome.of_skip {visited rest : List String} (entered : name ∈ visited)
    (outcome : Outcome dialect nodes visited rest reach) :
    Outcome dialect nodes visited (name :: rest) reach := by
  have later : (∃ waits ∈ rest, LeadsToTransfer dialect nodes waits) →
      ∃ waits ∈ name :: rest, LeadsToTransfer dialect nodes waits := by
    rintro ⟨waits, present, leads⟩
    exact ⟨waits, mem_cons_of_mem _ present, leads⟩
  cases reach with
  | never =>
    intro other present
    refine outcome other ?_
    simp only [mem_append, mem_cons] at present ⊢
    rcases present with before | rfl | waits
    · exact .inl before
    · exact .inl entered
    · exact .inr waits
  | entered => exact later outcome
  | known => exact later outcome

end Following

section Taking

variable {dialect : Dialect} {functions : Table String Json} {emitting visited rest : List String} {name : String}

theorem reaches_of_mem_visited (entered : name ∈ visited) (fuel : Nat) :
    reaches dialect (byText functions) (emitting.map .string) fuel (visited.map .string) ((name :: rest).map .string) =
      reaches dialect (byText functions) (emitting.map .string) fuel (visited.map .string) (rest.map .string) := by
  rw [map_cons, reaches, contains_map_string]
  simp [entered]

theorem reaches_of_mem_emitting (new : name ∉ visited) (known : name ∈ emitting) (fuel : Nat) :
    reaches dialect (byText functions) (emitting.map .string) fuel (visited.map .string) ((name :: rest).map .string) =
      .ok .known := by
  rw [map_cons, reaches, contains_map_string, contains_map_string]
  simp [new, known, pure, Except.pure]

theorem reaches_of_new (new : name ∉ visited) (unknown : name ∉ emitting) (fuel : Nat) :
    reaches dialect (byText functions) (emitting.map .string) fuel (visited.map .string) ((name :: rest).map .string) =
      match get? name functions with
      | none =>
        reaches dialect (byText functions) (emitting.map .string) fuel ((name :: visited).map .string)
          (rest.map .string)
      | some node =>
        match fuel with
        | 0 => .ok .never
        | remaining + 1 =>
          match dialect.statements node with
          | .error _ =>
            reaches dialect (byText functions) (emitting.map .string) remaining ((name :: visited).map .string)
              (rest.map .string)
          | .ok statements =>
            statements.elements.bind fun items =>
              if (scan dialect items).1 then
                .ok .entered
              else
                reaches dialect (byText functions) (emitting.map .string) remaining
                  ((name :: visited).map .string) (rest.map .string ++ (scan dialect items).2) := by
  rw [map_cons, reaches, contains_map_string, contains_map_string]
  simp only [new, unknown, decide_false, Bool.false_eq_true, if_false, asKey, bind, Except.bind, get?_byText]
  cases get? name functions with
  | none => rfl
  | some node =>
    cases fuel with
    | zero => rfl
    | succ remaining => rfl

end Taking

section Searching

variable {dialect : Dialect} {contract : String} {content : Json} {nodes : List Json}

variable {name : String} {functions : Table String Json} {emitting : List String}

theorem not_contains_of_undefined (undefined : definition? dialect nodes name = none) (part : Json) :
    ¬ Contains dialect nodes name part := by
  rintro ⟨node, _, defined, _⟩
  cases undefined.symm.trans defined

theorem not_contains_of_unstated {node : Json} {fault : Fault} (defined : definition? dialect nodes name = some node)
    (unstated : dialect.statements node = .error fault) (part : Json) :
    ¬ Contains dialect nodes name part := by
  rintro ⟨other, _, otherDefined, stated, _⟩
  cases defined.symm.trans otherDefined
  cases unstated.symm.trans stated

theorem Explored.enter_empty {visited rest : List String} (explored : Explored dialect nodes visited (name :: rest))
    (empty : ∀ part, ¬ Contains dialect nodes name part) :
    Explored dialect nodes (name :: visited) rest := by
  have entered : Explored dialect nodes (name :: visited) (rest ++ []) :=
    explored.enter (fun ⟨event, contained, _⟩ => empty event contained)
      fun callee ⟨call, contained, _⟩ => (empty call contained).elim
  simpa using entered

theorem Outcome.of_enter_empty {visited rest : List String} {reach : Reach}
    (outcome : Outcome dialect nodes (name :: visited) rest reach) :
    Outcome dialect nodes visited (name :: rest) reach := by
  have joined : Outcome dialect nodes (name :: visited) (rest ++ []) reach := by simpa using outcome
  exact joined.of_enter (by simp)

def visit (dialect : Dialect) (functions : Functions) (found : Table Json Json × List Json) (entry : Json × Json) :
    Except Fault (Table Json Json × List Json) := do
  match selector? dialect entry.2 with
  | none => return found
  | some selector =>
    match ← reaches dialect functions found.2 functions.length [] [entry.1] with
    | .never => return found
    | .entered => return (Table.put entry.1 selector found.1, entry.1 :: found.2)
    | .known => return (Table.put entry.1 selector found.1, found.2)

theorem find_eq {functions : Functions} (ofContract_eq : ofContract dialect contract content = .ok functions) :
    find dialect contract content = (do return (← functions.foldlM (visit dialect functions) ([], [])).1) := by
  rw [find, ofContract_eq]
  rfl

section

variable (readable : Readable dialect contract content nodes) (listed : Listed dialect nodes)
    (catalogue : Catalogue dialect nodes functions) (remembered : ∀ name ∈ emitting, LeadsToTransfer dialect nodes name)

include readable listed catalogue remembered

theorem reaches_spec {fuel : Nat} {visited queue : List String} (enough : (unentered functions visited).length ≤ fuel)
    (explored : Explored dialect nodes visited queue) :
    ∃ reach,
      reaches dialect (byText functions) (emitting.map .string) fuel (visited.map .string) (queue.map .string) =
          .ok reach ∧
        Outcome dialect nodes visited queue reach := by
  -- The fuel shrinks where a function is entered, the queue everywhere else.
  induction fuel using Nat.strong_induction_on generalizing visited queue with
  | _ fuel fewer =>
  induction queue generalizing visited with
  | nil =>
    refine ⟨.never, by rw [map_nil, reaches], fun name entered => ?_⟩
    exact explored.not_leads (by simpa using entered)
  | cons name rest shorter =>
    by_cases entered : name ∈ visited
    · obtain ⟨reach, run, outcome⟩ := shorter enough (explored.skip entered)
      exact ⟨reach, (reaches_of_mem_visited entered fuel).trans run, outcome.of_skip entered⟩
    by_cases known : name ∈ emitting
    · exact ⟨.known, reaches_of_mem_emitting entered known fuel, name, mem_cons_self, remembered name known⟩
    rw [reaches_of_new entered known]
    have looked := catalogue.entries name
    cases found : get? name functions with
    | none =>
      rw [found] at looked
      have passed := (length_unentered_cons_le functions visited name).trans enough
      obtain ⟨reach, run, outcome⟩ := shorter passed (explored.enter_empty (not_contains_of_undefined looked.symm))
      exact ⟨reach, run, outcome.of_enter_empty⟩
    | some node =>
      rw [found] at looked
      have defined := looked.symm
      have isKey : name ∈ keys functions := mem_map.mpr ⟨_, mem_of_get? found, rfl⟩
      have shrinks := (length_unentered_cons isKey entered).trans_le enough
      cases fuel with
      | zero => exact (Nat.not_lt_zero _ shrinks).elim
      | succ remaining =>
        have passed := Nat.le_of_lt_succ shrinks
        cases stated : dialect.statements node with
        | error fault =>
          simp only [stated]
          obtain ⟨reach, run, outcome⟩ := fewer remaining (Nat.lt_succ_self _) passed
            (explored.enter_empty (not_contains_of_unstated defined stated))
          exact ⟨reach, run, outcome.of_enter_empty⟩
        | ok statements =>
          obtain ⟨items, rfl, flat⟩ := listed name node statements defined stated
          obtain ⟨emits_iff, silent⟩ := scan_spec readable defined stated flat
          simp only [stated, Json.elements]
          cases emits : (scan dialect items).1 with
          | true =>
            refine ⟨.entered, ?_, name, mem_cons_self, name, .refl, emits_iff.mp emits⟩
            simp [emits, Except.bind]
          | false =>
            obtain ⟨called, shape, called_iff⟩ := silent emits
            have noEmission : ¬ Emits dialect nodes name := by simp [← emits_iff, emits]
            obtain ⟨reach, run, outcome⟩ := fewer remaining (Nat.lt_succ_self _) passed
              (explored.enter noEmission fun callee => (called_iff callee).mpr)
            refine ⟨reach, ?_, outcome.of_enter fun callee => (called_iff callee).mp⟩
            simpa [emits, Except.bind, shape] using run

theorem reaches_root (root : String) :
    ∃ reach,
      reaches dialect (byText functions) (emitting.map .string) (byText functions).length [] [.string root] =
          .ok reach ∧
        (reach ≠ .never ↔ LeadsToTransfer dialect nodes root) := by
  have enough : (unentered functions []).length ≤ (byText functions).length := by simp [unentered, byText, keys]
  have fresh : Explored dialect nodes [] [root] := fun _ present => absurd present not_mem_nil
  obtain ⟨reach, run, outcome⟩ := reaches_spec readable listed catalogue remembered enough fresh
  refine ⟨reach, run, ?_⟩
  cases reach with
  | never => simpa [Outcome] using outcome
  | entered => simpa [Outcome] using outcome
  | known => simpa [Outcome] using outcome

theorem visit_spec {selected : Table String Json} (new : name ∉ keys selected) (node : Json) :
    ∃ more emitting',
      visit dialect (byText functions) (byText selected, emitting.map .string) (.string name, node) =
          .ok (byText (selected ++ more), List.map .string emitting') ∧
        (∀ name ∈ emitting', LeadsToTransfer dialect nodes name) ∧
        ((∃ selector, more = [(name, selector)] ∧ selector? dialect node = some selector ∧
            LeadsToTransfer dialect nodes name) ∨
          more = [] ∧ ∀ selector, selector? dialect node = some selector → ¬ LeadsToTransfer dialect nodes name) := by
  cases asked : selector? dialect node with
  | none =>
    refine ⟨[], emitting, ?_, remembered, .inr ⟨rfl, fun _ found => absurd found.symm (Option.some_ne_none _)⟩⟩
    simp [visit, asked, pure, Except.pure]
  | some selector =>
    obtain ⟨reach, run, leads⟩ := reaches_root readable listed catalogue remembered name
    have added : put (.string name) selector (byText selected) = byText (selected ++ [(name, selector)]) := by
      rw [put_byText, put_of_not_mem new]
    cases reach with
    | never =>
      have silent : ¬ LeadsToTransfer dialect nodes name := fun present => leads.mpr present rfl
      refine ⟨[], emitting, ?_, remembered, .inr ⟨rfl, fun _ _ => silent⟩⟩
      simp [visit, asked, run, bind, Except.bind, pure, Except.pure]
    | entered =>
      have found : LeadsToTransfer dialect nodes name := leads.mp (by simp)
      refine ⟨[(name, selector)], name :: emitting, ?_, ?_, .inl ⟨selector, rfl, rfl, found⟩⟩
      · simp [visit, asked, run, added, bind, Except.bind, pure, Except.pure]
      · exact forall_mem_cons.mpr ⟨found, remembered⟩
    | known =>
      have found : LeadsToTransfer dialect nodes name := leads.mp (by simp)
      refine ⟨[(name, selector)], emitting, ?_, remembered, .inl ⟨selector, rfl, rfl, found⟩⟩
      simp [visit, asked, run, added, bind, Except.bind, pure, Except.pure]

theorem visits_spec {selected entries : Table String Json} (distinct : (keys (selected ++ entries)).Nodup) :
    ∃ selected' emitting',
      (byText entries).foldlM (visit dialect (byText functions)) (byText selected, emitting.map .string) =
          .ok (byText selected', emitting') ∧
        (keys selected').Nodup ∧
        ∀ name selector, (name, selector) ∈ selected' ↔
          (name, selector) ∈ selected ∨
            ∃ node, (name, node) ∈ entries ∧ selector? dialect node = some selector ∧
              LeadsToTransfer dialect nodes name := by
  induction entries generalizing selected emitting with
  | nil =>
    refine ⟨selected, emitting.map .string, rfl, ?_, fun name selector => by simp⟩
    simpa using distinct
  | cons entry rest ih =>
    obtain ⟨name, node⟩ := entry
    have new : name ∉ keys selected := by
      rw [keys, map_append] at distinct
      intro present
      exact disjoint_of_nodup_append distinct present (by simp)
    obtain ⟨more, emitting', run, stillRemembered, added⟩ := visit_spec readable listed catalogue remembered new node
    have nextDistinct : (keys (selected ++ more ++ rest)).Nodup := by
      rcases added with ⟨selector, rfl, _⟩ | ⟨rfl, _⟩
      · simpa [keys] using distinct
      · refine distinct.sublist ?_
        simp [keys]
    obtain ⟨selected', finally', runs, resultDistinct, members⟩ := ih stillRemembered nextDistinct
    refine ⟨selected', finally', ?_, resultDistinct, fun asked selector => ?_⟩
    · have unfolded : byText ((name, node) :: rest) = (.string name, node) :: byText rest := rfl
      rw [unfolded, foldlM_cons, run]
      exact runs
    · rw [members]
      rcases added with ⟨own, rfl, chosen, leads⟩ | ⟨rfl, silent⟩
      · grind
      · grind

end

/-- The functions found are those with a selector from which calls lead to a transfer, each once and with the selector
of its last definition. -/
theorem find_selected (readable : Readable dialect contract content nodes) (listed : Listed dialect nodes) :
    ∃ found, find dialect contract content = .ok (byText found) ∧ (Table.keys found).Nodup ∧
      ∀ name selector, (name, selector) ∈ found ↔ Selected dialect nodes name selector := by
  obtain ⟨functions, collected, catalogue⟩ := ofContract_catalogue readable
  have none : ∀ name ∈ ([] : List String), LeadsToTransfer dialect nodes name := by simp
  have distinct : (Table.keys ([] ++ functions)).Nodup := catalogue.distinct
  obtain ⟨found, emitting, run, foundDistinct, members⟩ := visits_spec readable listed catalogue none distinct
  refine ⟨found, ?_, foundDistinct, fun name selector => ?_⟩
  · rw [find_eq collected]
    exact congrArg (· >>= fun result => pure result.1) run
  · rw [members, Selected]
    simp [catalogue.mem_iff]

end Searching

def namesCalls (dialect : Dialect) (node : Json) : Bool :=
  match dialect.statements node with
  | .error _ => true
  | .ok statements => statements.every fun part => ((dialect.calledName? part).all fun called => called.string?.isSome)

def listsStatements (dialect : Dialect) (node : Json) : Bool :=
  match dialect.statements node with
  | .error _ => true
  | .ok statements => statements.array?.isSome && statements.every fun part => !part.holdsArray

theorem mem_of_definition? {name : String} {node : Json} (defined : definition? dialect nodes name = some node) :
    node ∈ nodes :=
  mem_reverse.mp (mem_of_find?_eq_some defined)

theorem named_of_namesCalls (checked : nodes.all (namesCalls dialect) = true) (name : String) (call called : Json)
    (contained : Contains dialect nodes name call) (calls : dialect.calledName? call = some called) :
    ∃ callee, called = .string callee := by
  obtain ⟨node, statements, defined, stated, within⟩ := contained
  have all := all_eq_true.mp checked node (mem_of_definition? defined)
  simp only [namesCalls, stated] at all
  have here := Json.test_of_every all within
  rw [calls] at here
  cases called with
  | string callee => exact ⟨callee, rfl⟩
  | _ => cases here

theorem listed_of_listsStatements (checked : nodes.all (listsStatements dialect) = true) : Listed dialect nodes := by
  intro name node statements defined stated
  have all := all_eq_true.mp checked node (mem_of_definition? defined)
  simp only [listsStatements, stated, Bool.and_eq_true] at all
  cases statements with
  | array items => exact ⟨items, rfl, Json.flat_of_every all.2⟩
  | _ => cases all.1

def functionNode (name : String) (details : List (String × Json)) (statements : Json) : Json :=
  .object ([("nodeType", .string "FunctionDefinition"), ("name", .string name)] ++ details ++
    [("body", .object [("statements", statements)])])

def callNode (name : String) : Json :=
  .object [("nodeType", .string "FunctionCall"), ("expression", .object [("name", .string name)])]

def transferNode : Json :=
  .object
    [("nodeType", .string "EmitStatement"),
      ("eventCall", .object [("expression", .object [("name", .string "Transfer")])])]

def description (nodes : List Json) : Json :=
  .object [("contractsByName", .object [("a.sol:C", .object [("nodes", .array nodes)])])]

def circle : List Json :=
  [functionNode "mint" [("functionSelector", .string "1249c58b")] (.array []),
    functionNode "mint" [("functionSelector", .string "40c10f19")] (.array [callNode "_mint"]),
    functionNode "_mint" [] (.array [.object [("expression", callNode "_update")]]),
    functionNode "_update" [] (.array [callNode "_mint", .object [("trueBody", .array [transferNode])]]),
    functionNode "burn" [("functionSelector", .string "42966c68")] (.array [callNode "burn", callNode "_burn"])]

def mintNode (statements : Json) : Json :=
  functionNode "mint" [("functionSelector", .string "40c10f19")] statements

def nestedStatements : Json :=
  .array [.array [transferNode]]

theorem description_readable
    (functions : ∀ node ∈ nodes, ∃ name details statements, node = functionNode name details statements)
    (checked : nodes.all (namesCalls .current) = true) :
    Readable .current "a.sol:C" (description nodes) nodes where
  parts := ⟨_, rfl, rfl⟩
  kinds := by
    intro node present
    obtain ⟨name, details, statements, rfl⟩ := functions node present
    exact ⟨_, rfl⟩
  names := by
    intro node present _
    obtain ⟨name, details, statements, rfl⟩ := functions node present
    exact ⟨name, rfl⟩
  calls := named_of_namesCalls checked

theorem circle_readable : Readable .current "a.sol:C" (description circle) circle := by
  refine description_readable (fun node present => ?_) (by decide)
  fin_cases present <;> exact ⟨_, _, _, rfl⟩

theorem find_selected_circle :
    Readable .current "a.sol:C" (description circle) circle ∧ Listed .current circle ∧
      ∃ found, find .current "a.sol:C" (description circle) = .ok (byText found) ∧ (Table.keys found).Nodup ∧
        ∀ name selector, (name, selector) ∈ found ↔ Selected .current circle name selector :=
  have listed : Listed .current circle := listed_of_listsStatements (by decide)
  ⟨circle_readable, listed, find_selected circle_readable listed⟩

theorem find_single (statements : Json) :
    find .current "a.sol:C" (description [mintNode statements]) =
      (reaches .current [(.string "mint", mintNode statements)] [] 1 [] [.string "mint"]).map fun reach =>
        if reach = .never then [] else [(.string "mint", .string "40c10f19")] := by
  have collected : ofContract .current "a.sol:C" (description [mintNode statements]) =
      .ok [(.string "mint", mintNode statements)] := rfl
  rw [find_eq collected, foldlM_cons, visit]
  have asked : selector? .current (mintNode statements) = some (.string "40c10f19") := rfl
  simp only [asked, length_singleton]
  cases reaches .current [(.string "mint", mintNode statements)] [] 1 [] [.string "mint"] with
  | error fault => rfl
  | ok reach => cases reach <;> rfl

theorem find_of_unlisted :
    (Readable .current "a.sol:C" (description [mintNode nestedStatements]) [mintNode nestedStatements] ∧
        Selected .current [mintNode nestedStatements] "mint" (.string "40c10f19") ∧
        find .current "a.sol:C" (description [mintNode nestedStatements]) = .ok []) ∧
      Readable .current "a.sol:C" (description [mintNode .null]) [mintNode .null] ∧
        find .current "a.sol:C" (description [mintNode .null]) = .error .wrongKind := by
  have readable : ∀ statements, namesCalls .current (mintNode statements) = true →
      Readable .current "a.sol:C" (description [mintNode statements]) [mintNode statements] := by
    intro statements named
    refine description_readable (fun node present => ?_) (by simp [named])
    exact ⟨_, _, _, mem_singleton.mp present⟩
  have within : transferNode.Within nestedStatements := .tail (.single (.item mem_cons_self)) (.item mem_cons_self)
  have defined : definition? .current [mintNode nestedStatements] "mint" = some (mintNode nestedStatements) := rfl
  have emitted : Dialect.current.emitsTransfer transferNode = true := rfl
  have emits : Emits .current [mintNode nestedStatements] "mint" :=
    ⟨transferNode, ⟨_, _, defined, rfl, within⟩, emitted⟩
  refine ⟨⟨readable _ rfl, ⟨_, defined, rfl, "mint", .refl, emits⟩, ?_⟩, readable _ rfl, ?_⟩
  · have ends : reaches .current [(.string "mint", mintNode nestedStatements)] [] 0 [.string "mint"] [] =
        .ok .never := by rw [reaches]
    rw [find_single, reaches]
    exact congrArg (Except.map _) ends
  · rw [find_single, reaches]
    rfl

end TransferFunctions

end MintAudit
