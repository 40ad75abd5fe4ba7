import MintAudit.Proofs.SourceMap.Reported

namespace MintAudit

/-!
# Sources by characters, parameters by place

The call data of a function begins with the words of its parameters: an array of known length takes as many words as
it is long, and everything else takes one.
-/

/-! ## Bytes and characters of a source -/

open Effect List

namespace SourceText

/-- The bytes from `first` up to `last` of a content are a text, and both ends lie between characters. -/
def Spells (content text : String) (first last : Nat) : Prop :=
  ∃ front rest, content = front ++ text ++ rest ∧ front.utf8ByteSize = first ∧ (front ++ text).utf8ByteSize = last

theorem Spells.bytes {content text : String} {first last : Nat} (spells : Spells content text first last) :
    content.toByteArray.extract first last = text.toByteArray := by
  obtain ⟨front, rest, rfl, rfl, rfl⟩ := spells
  rw [String.append_assoc, String.toByteArray_append, String.toByteArray_append, String.utf8ByteSize_append]
  exact (ByteArray.extract_append_size_add (i := 0)).trans (ByteArray.extract_append_eq_left rfl)

def offset (content : String) (position : Nat) : Nat :=
  String.utf8Len (content.toList.take position)

theorem length_le_utf8Len (characters : List Char) : characters.length ≤ String.utf8Len characters := by
  induction characters with
  | nil => exact Nat.le_refl 0
  | cons character rest ih =>
    have positive := character.utf8Size_pos
    rw [String.utf8Len_cons, length_cons]
    omega

theorem utf8Len_eq_length {characters : List Char} (single : ∀ character ∈ characters, character.utf8Size = 1) :
    String.utf8Len characters = characters.length := by
  induction characters with
  | nil => rfl
  | cons character rest ih =>
    rw [String.utf8Len_cons, length_cons, single character mem_cons_self,
      ih fun other member => single other (mem_cons_of_mem _ member)]

theorem spells_piece (content : String) {first last : Nat} (ordered : first ≤ last) :
    Spells content (piece content first last) (offset content first) (offset content last) := by
  have front : String.ofList (content.toList.take first) ++ piece content first last =
      String.ofList (content.toList.take last) := by
    have whole := piece_append content (Nat.zero_le first) ordered
    simpa [piece] using whole
  refine ⟨.ofList (content.toList.take first), .ofList (content.toList.drop last), ?_, ?_, ?_⟩
  · rw [front, ← String.ofList_append, take_append_drop, String.ofList_toList]
  · exact String.utf8ByteSize_ofList _
  · rw [front]
    exact String.utf8ByteSize_ofList _

theorem take_utf8Len {front rest : List Char} (single : rest ≠ [] → ∀ character ∈ front, character.utf8Size = 1) :
    (front ++ rest).take (String.utf8Len front) = front ∧ (front ++ rest).drop (String.utf8Len front) = rest := by
  cases rest with
  | nil =>
    have enough := length_le_utf8Len front
    simp [take_of_length_le, enough]
  | cons next rest => simp [utf8Len_eq_length (single (cons_ne_nil next rest))]

theorem piece_of_spells {content text : String} (single : ∀ character ∈ content.toList.dropLast, character.utf8Size = 1)
    {first last : Nat} (spells : Spells content text first last) : piece content first last = text := by
  have size : ∀ part : String, part.utf8ByteSize = String.utf8Len part.toList := fun part => by
    rw [← String.utf8ByteSize_ofList, String.ofList_toList]
  have early : ∀ front rest, content.toList = front ++ rest → rest ≠ [] → ∀ character ∈ front, character.utf8Size = 1 := by
    intro front rest split some character member
    apply single
    rw [split, dropLast_append_of_ne_nil some]
    exact mem_append_left _ member
  obtain ⟨front, rest, rfl, rfl, rfl⟩ := spells
  have whole : (front ++ text ++ rest).toList = front.toList ++ text.toList ++ rest.toList := by simp
  have taken := (take_utf8Len (early _ _ whole)).1
  have dropped : (front.toList ++ text.toList).drop (String.utf8Len front.toList) = text.toList :=
    (take_utf8Len fun some => early _ _ (whole.trans (append_assoc _ _ _)) (append_ne_nil_of_left_ne_nil some _)).2
  rw [piece, size, size, whole, String.toList_append, taken, dropped, String.ofList_toList]

theorem single_of_piece {content : String}
    (right : ∀ text first last, Spells content text first last → piece content first last = text) :
    ∀ character ∈ content.toList.dropLast, character.utf8Size = 1 := by
  intro character member
  obtain ⟨front, rest, split⟩ := append_of_mem member
  have some : content.toList ≠ [] := by
    rintro none
    simp [none] at member
  have whole : content.toList = front ++ character :: (rest ++ [content.toList.getLast some]) := by
    rw [← cons_append, ← append_assoc, ← split, dropLast_append_getLast]
  have same := right _ _ _ (spells_piece content (Nat.zero_le (front.length + 1)))
  have lengths := congrArg String.length same
  have bytes : offset content (front.length + 1) = String.utf8Len front + character.utf8Size := by
    rw [offset, whole, take_append]
    simp [take_of_length_le]
  have least := length_le_utf8Len front
  have positive := character.utf8Size_pos
  have total := congrArg List.length whole
  simp only [piece, String.length_ofList, length_drop, length_take, bytes, length_append, length_cons,
    length_nil] at lengths total
  have zero : offset content 0 = 0 := rfl
  omega

end SourceText

namespace SourceMap

open SourceText

/-- The text of an instruction, of a start and a length, and of a call is the piece between the positions that are
given, counted in characters. -/
theorem source_by_characters {content : String} {map : SourceMap} (source : map.source = .ofString content) :
    (∀ (address : Int) (place : Place) (first last : Nat), Table.get? address map.places = some place →
      place.first = some (first : Int) → place.last = some (last : Int) →
        map.codeAt address = .ok (piece content first last)) ∧
      (∀ (start length : Nat) (file : String),
        map.source.ofSource (written start length file) = .ok (piece content start (start + length))) ∧
      (∀ (dialect : Dialect) (query : Query) (contract rootPath : String) (before after : Project),
        load dialect query contract rootPath before = .ok map after →
          ∃ description sources, after.catalog.description = some description ∧
            description.contracts.callPlaces contract = .ok sources ∧
            List.Forall₂ (fun src call => ∃ text, writtenPlace src = .ok text ∧ map.source.ofSource text = .ok call)
              sources map.calls) ∧
      (∀ first last, first ≤ last →
        Spells content (piece content first last) (offset content first) (offset content last)) ∧
      (∀ text first last, Spells content text first last → content.toByteArray.extract first last = text.toByteArray) ∧
      ((∀ text first last, Spells content text first last → piece content first last = text) ↔
        ∀ character ∈ content.toList.dropLast, character.utf8Size = 1) := by
  refine ⟨?_, fun start length file => ?_, ?_, fun first last => spells_piece content, fun text first last => Spells.bytes,
    single_of_piece, fun single text first last => piece_of_spells single⟩
  · intro address place first last found begins ends
    simp only [codeAt, found, spanOf, begins, ends, source, ← between_eq]
    rfl
  · rw [source, ofSource, startAndLength_written]
    exact congrArg Except.ok (between_eq content start (start + length))
  · intro dialect query contract rootPath before after loads
    obtain ⟨description, known, called, -⟩ := of_load loads
    obtain ⟨sources, listed, called⟩ := of_except_bind_ok called
    refine ⟨description, sources, known, listed, (forall₂_of_mapM called).imp fun src call reads => ?_⟩
    exact of_except_bind_ok reads

def accented : SourceMap := { source := .ofString "é f()" }

theorem source_by_characters_accented :
    accented.source = .ofString "é f()" ∧ accented.source.ofSource "3:3:0" = .ok "()" ∧
      Spells "é f()" "f()" 3 6 ∧ "é f()".toByteArray.extract 3 6 = "f()".toByteArray := by
  have source : accented.source = .ofString "é f()" := rfl
  have spells : Spells "é f()" "f()" 3 6 := ⟨"é ", "", by decide, by decide, by decide⟩
  obtain ⟨-, given, -, -, bytes, -⟩ := source_by_characters source
  exact ⟨source, given 3 3 "0", spells, bytes _ _ _ spells⟩

end SourceMap

/-! ## Places of parameters -/

namespace Contracts

structure Definition where
  name : String
  parameters : List DeclaredParameter

def definitionOf (dialect : Dialect) (function : Json) : Except Fault Definition := do
  let .string name ← function.follow (namePath dialect) | throw .wrongKind
  let some list := (← ofKind dialect "ParameterList" function).head? | throw .outOfRange
  return { name, parameters := ← (← ofKind dialect "VariableDeclaration" list).mapM (parameterOf dialect) }

def definitions (contract : String) (contracts : Contracts) : Except Fault (List Definition) := do
  (← ofKind contracts.dialect "FunctionDefinition" (← contracts.named contract)).mapM (definitionOf contracts.dialect)

def words (parameters : List DeclaredParameter) : Int :=
  (parameters.map fun parameter => parameter.size.getD 1).sum

def ofName (name : String) (definitions : List Definition) : List DeclaredParameter :=
  (definitions.filter (·.name = name)).flatMap Definition.parameters

variable (name : String) (table : Table String (List DeclaredParameter)) (parameter : DeclaredParameter)

def append : Table String (List DeclaredParameter) :=
  Table.put name ((Table.get? name table).getD [] ++ [parameter]) table

def gather (definition : Definition) : Table String (List DeclaredParameter) :=
  definition.parameters.foldl (append definition.name) table

theorem getD_append (other : String) :
    (Table.get? other (append name table parameter)).getD [] =
      (Table.get? other table).getD [] ++ if name = other then [parameter] else [] := by
  unfold append
  split
  · next same =>
    rw [same, Table.get?_put_self, Option.getD_some]
  · next different =>
    rw [Table.get?_put_of_ne (Ne.symm different), append_nil]

theorem getD_gather (definitions : List Definition) :
    (Table.get? name (definitions.foldl gather table)).getD [] =
      (Table.get? name table).getD [] ++ ofName name definitions := by
  have one : ∀ (parameters : List DeclaredParameter) (own : String) (table : Table String (List DeclaredParameter)),
      (Table.get? name (parameters.foldl (append own) table)).getD [] =
        (Table.get? name table).getD [] ++ if own = name then parameters else [] := by
    intro parameters own table
    induction parameters generalizing table with
    | nil => simp
    | cons parameter rest ih =>
      rw [foldl_cons, ih, getD_append]
      split <;> simp
  induction definitions generalizing table with
  | nil => simp [ofName]
  | cons definition rest ih =>
    rw [foldl_cons, ih, gather, one]
    by_cases same : definition.name = name <;> simp [ofName, same]

theorem foldlM_of_mapM {α β σ τ ε : Type} {read : α → Except ε β} {step : τ → α → Except ε τ} (view : σ → τ)
    {next : σ → β → σ}
    (steps : ∀ state item value, read item = .ok value → step (view state) item = .ok (view (next state value)))
    {items : List α} {values : List β} (reads : items.mapM read = .ok values) (state : σ) :
    items.foldlM step (view state) = .ok (view (values.foldl next state)) := by
  have found := forall₂_of_mapM reads
  clear reads
  induction found generalizing state with
  | nil => rfl
  | cons first _ ih =>
    rw [foldlM_cons, steps state _ _ first]
    exact ih (next state _)

def spelled : Table Json (List DeclaredParameter) :=
  table.map fun entry => (.string entry.1, entry.2)

theorem parameters_eq {contract : String} {contracts : Contracts} {found : List Definition}
    (read : contracts.definitions contract = .ok found) :
    contracts.parameters contract = .ok (spelled (found.foldl gather [])) := by
  have keeps : ∀ first second : String, (Json.string first == Json.string second) = (first == second) := fun _ _ => rfl
  obtain ⟨node, named, read⟩ := of_except_bind_ok read
  obtain ⟨functions, listed, read⟩ := of_except_bind_ok read
  unfold parameters
  simp only [named, listed, bind, Except.bind]
  refine foldlM_of_mapM spelled (fun table function definition defines => ?_) read []
  obtain ⟨name, follows, defines⟩ := of_except_bind_ok defines
  cases name with
  | string name =>
    obtain ⟨lists, finds, defines⟩ := of_except_bind_ok defines
    cases first : lists.head? with
    | none =>
      rw [first] at defines
      cases defines
    | some list =>
      rw [first] at defines
      obtain ⟨nodes, declares, defines⟩ := of_except_bind_ok defines
      obtain ⟨parameters, reads, defines⟩ := of_except_bind_ok defines
      cases defines
      simp only [follows, finds, first, declares]
      refine foldlM_of_mapM spelled (fun table node parameter is => ?_) reads table
      simp only [is, key, spelled, append, Table.get?_mapKeys keeps, Table.put_mapKeys keeps]
      rfl
  | _ => cases defines

theorem getElem?_placeParameters (position : Int) (front behind : List DeclaredParameter) :
    (SourceMap.placeParameters position (front ++ parameter :: behind))[front.length]? =
      some { name := parameter.name.string?.getD "", type := parameter.type.string?.getD ""
             position := position + words front, value := parameter.size } := by
  induction front generalizing position with
  | nil => simp [SourceMap.placeParameters, words]
  | cons other front ih =>
    simp only [cons_append, SourceMap.placeParameters, length_cons, getElem?_cons_succ, ih]
    simp [words, add_assoc]

def placed (table : Table Json (List DeclaredParameter)) : Table String (List Parameter) :=
  table.map fun entry => (entry.1.string?.getD "", SourceMap.placeParameters 0 entry.2)

theorem getD_placed_spelled :
    (Table.get? name (placed (spelled table))).getD [] =
      SourceMap.placeParameters 0 ((Table.get? name table).getD []) := by
  have whole : placed (spelled table) = table.map fun entry => (entry.1, SourceMap.placeParameters 0 entry.2) := by
    simp [placed, spelled, Json.string?, Function.comp_def]
  rw [whole, Table.get?_map]
  cases Table.get? name table <;> rfl

/-- Every parameter of every function is kept under the name of the function, behind the parameters of the functions of
that name that are defined before. -/
theorem parameters_placed {contracts : Contracts} {contract : String} {definitions : List Definition}
    (read : contracts.definitions contract = .ok definitions) :
    ∃ table, contracts.parameters contract = .ok table ∧
      (∀ (dialect : Dialect) (query : Query) (rootPath : String) (before after : Project) (map : SourceMap)
        (description : Description), SourceMap.load dialect query contract rootPath before = .ok map after →
          after.catalog.description = some description → description.contracts = contracts →
            map.parameters = placed table) ∧
      ∀ (earlier later : List Definition) (definition : Definition) (front behind : List DeclaredParameter)
        (parameter : DeclaredParameter), definitions = earlier ++ definition :: later →
          definition.parameters = front ++ parameter :: behind →
            ∃ entry : Parameter, ((Table.get? definition.name (placed table)).getD [])[
                (ofName definition.name earlier).length + front.length]? = some entry ∧
              entry.name = parameter.name.string?.getD "" ∧ entry.type = parameter.type.string?.getD "" ∧
              entry.value = parameter.size ∧ entry.position = words (ofName definition.name earlier) + words front ∧
              (entry.position = words front ↔ words (ofName definition.name earlier) = 0) := by
  refine ⟨_, parameters_eq read, ?_, ?_⟩
  · rintro dialect query rootPath before after map description loads known rfl
    obtain ⟨_, known', -, table, declared, loaded⟩ := SourceMap.of_load loads
    cases known.symm.trans known'
    cases declared.symm.trans (parameters_eq read)
    exact loaded
  · rintro earlier later definition front behind parameter rfl has
    have list : (Table.get? definition.name (placed (spelled ((earlier ++ definition :: later).foldl gather [])))).getD [] =
        SourceMap.placeParameters 0 ((ofName definition.name earlier ++ front) ++
          parameter :: (behind ++ ofName definition.name later)) := by
      rw [getD_placed_spelled, getD_gather]
      simp [Table.get?, ofName, has]
    have sum : words (ofName definition.name earlier ++ front) = words (ofName definition.name earlier) + words front := by
      simp [words]
    have found := getElem?_placeParameters parameter 0 (ofName definition.name earlier ++ front)
      (behind ++ ofName definition.name later)
    rw [← list, length_append, zero_add, sum] at found
    exact ⟨_, found, rfl, rfl, rfl, rfl, add_eq_right⟩

def parameterTree (name : String) : Json :=
  .object [("nodeType", .string "VariableDeclaration"), ("name", .string name),
    ("typeName", .object [("nodeType", .string "ElementaryTypeName")])]

def functionTree (name : String) (parameters : List String) : Json :=
  .object [("nodeType", .string "FunctionDefinition"), ("name", .string name),
    ("parameters", .object [("nodeType", .string "ParameterList"), ("parameters", .array (parameters.map parameterTree))])]

def overloaded : Contracts :=
  { byName := [("a.sol:C", .object [("nodes", .array [functionTree "set" ["a"], functionTree "set" ["b", "c"]])])] }

def elementary (name : String) : DeclaredParameter := ⟨.string name, .string "ElementaryTypeName", none⟩

theorem parameters_placed_overloaded :
    overloaded.definitions "a.sol:C" =
        .ok [⟨"set", [elementary "a"]⟩, ⟨"set", [elementary "b", elementary "c"]⟩] ∧
      ∃ table entry, overloaded.parameters "a.sol:C" = .ok table ∧
        ((Table.get? "set" (placed table)).getD [])[2]? = some entry ∧ entry.name = "c" ∧ entry.position = 2 ∧
        words [elementary "b"] = 1 := by
  have read : overloaded.definitions "a.sol:C" =
      .ok [⟨"set", [elementary "a"]⟩, ⟨"set", [elementary "b", elementary "c"]⟩] := by rfl
  obtain ⟨table, declared, -, all⟩ := parameters_placed read
  obtain ⟨entry, found, name, -, -, place, -⟩ :=
    all [⟨"set", [elementary "a"]⟩] [] ⟨"set", [elementary "b", elementary "c"]⟩ [elementary "b"] [] (elementary "c") rfl rfl
  exact ⟨read, table, entry, declared, found, name, place, rfl⟩

end Contracts

end MintAudit
