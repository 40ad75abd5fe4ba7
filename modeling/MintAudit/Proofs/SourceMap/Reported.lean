import MintAudit.Project.Inputs
import MintAudit.Proofs.Number.Numeral
import MintAudit.Proofs.Table

namespace MintAudit

/-!
# Reported lines

A source map knows the text of its file and where the line feeds are, in either dialect.
-/

/-! ## The line of a position -/

open List

namespace SourceText

def lineOf (content : String) (position : Nat) : Nat :=
  (content.toList.take position).count '\n'

def lineStart (content : String) (position : Nat) : Nat :=
  ((content.toList.take position).rdropWhile (· ≠ '\n')).length

/-- The line of a position begins at the start of the text or right behind a line feed, and goes on up to the position. -/
structure BeginsLine (content : String) (position start : Nat) : Prop where
  le : start ≤ position
  first : lineOf content position = 0 → start = 0
  later : lineOf content position ≠ 0 → ∃ feed, start = feed + 1 ∧ content.toList[feed]? = some '\n'
  within : ∀ index, start ≤ index → index < position → content.toList[index]? ≠ some '\n'

theorem breaksFrom_append (position : Int) (front rest : List Char) :
    breaksFrom position (front ++ rest) = breaksFrom position front ++ breaksFrom (position + front.length) rest := by
  induction front generalizing position with
  | nil => simp [breaksFrom]
  | cons first others ih =>
    have shifted : position + ((first :: others).length : Int) = position + 1 + others.length := by
      rw [length_cons]
      omega
    rw [List.cons_append, breaksFrom, breaksFrom, ih, shifted]
    split <;> rfl

theorem length_breaksFrom (position : Int) (characters : List Char) :
    (breaksFrom position characters).length = characters.count '\n' := by
  induction characters generalizing position with
  | nil => rfl
  | cons first others ih =>
    rw [breaksFrom, count_cons]
    split <;> simp [ih]

theorem bounds_of_mem_breaksFrom {position entry : Int} {characters : List Char}
    (member : entry ∈ breaksFrom position characters) :
    position ≤ entry ∧ entry < position + characters.length := by
  induction characters generalizing position with
  | nil => exact absurd member not_mem_nil
  | cons first others ih =>
    have further : entry ∈ breaksFrom (position + 1) others →
        position ≤ entry ∧ entry < position + (first :: others).length := by
      intro later
      have bounds := ih later
      rw [length_cons]
      omega
    rw [breaksFrom] at member
    split at member
    · rcases mem_cons.mp member with rfl | later
      · exact ⟨le_rfl, by simp⟩
      · exact further later
    · exact further member

theorem getLast?_breaksFrom (characters : List Char) :
    (breaksFrom 0 characters).getLast? =
      if characters.count '\n' = 0 then none
      else some (((characters.rdropWhile (· ≠ '\n')).length : Int) - 1) := by
  induction characters using List.reverseRecOn with
  | nil => rfl
  | append_singleton others last ih =>
    by_cases feed : last = '\n'
    · simp [breaksFrom_append, breaksFrom, count_append, feed]
    · simp [breaksFrom_append, breaksFrom, count_append, feed, ih]

variable {target : Int} {content : String} {position : Nat}

theorem lowerBoundFrom_eq {array : Array Int} {count start length : Nat}
    (parted : ∀ index < array.size, array.getD index 0 ≤ target ↔ index < count) (least : start ≤ count)
    (most : count ≤ start + length) (inside : start + length ≤ array.size) :
    lowerBoundFrom target array start length = (count : Int) - 1 := by
  fun_induction lowerBoundFrom target array start length with
  | case1 start length positive half middle below ih =>
    have taken : middle < count := (parted middle (by omega)).mp below
    exact ih (by omega) (by omega) (by omega)
  | case2 start length positive half middle above ih =>
    have beyond : ¬ middle < count := fun taken => above ((parted middle (by omega)).mpr taken)
    exact ih (by omega) (by omega) (by omega)
  | case3 start length empty => omega

theorem lowerBound_append {before after : List Int} (low : ∀ entry ∈ before, entry ≤ target)
    (high : ∀ entry ∈ after, target < entry) :
    lowerBound target (before ++ after).toArray = (before.length : Int) - 1 := by
  refine lowerBoundFrom_eq (fun index inside => ?_) (Nat.zero_le _) (by simp) (by simp)
  rw [Array.getD_eq_getD_getElem?, getElem?_toArray]
  rcases Nat.lt_or_ge index before.length with early | late
  · rw [getElem?_append_left early, List.getElem?_eq_getElem early]
    exact iff_of_true (low _ (getElem_mem early)) early
  · have rest : index - before.length < after.length := by
      rw [size_toArray, length_append] at inside
      omega
    rw [getElem?_append_right late, List.getElem?_eq_getElem rest]
    exact iff_of_false (not_le.mpr (high _ (getElem_mem rest))) (not_lt.mpr late)

theorem breaks_eq (content : String) (position : Nat) :
    ∃ after, breaksFrom 0 content.toList =
        breaksFrom 0 (content.toList.take position) ++
          (if content.toList[position]? = some '\n' then [(position : Int)] else []) ++ after ∧
      ∀ entry ∈ after, (position : Int) < entry := by
  have split := breaksFrom_append 0 (content.toList.take position) (content.toList.drop position)
  rw [take_append_drop] at split
  have here : content.toList[position]? = (content.toList.drop position).head? := head?_drop.symm
  rw [split, here]
  cases shape : content.toList.drop position with
  | nil => exact ⟨[], by simp [breaksFrom], by simp⟩
  | cons first others =>
    have inside : position < content.toList.length := by
      by_contra beyond
      simp [drop_of_length_le (not_lt.mp beyond)] at shape
    have length : (0 : Int) + (content.toList.take position).length = position := by
      rw [length_take, Nat.min_eq_left inside.le, zero_add]
    refine ⟨breaksFrom (position + 1) others, ?_, fun entry member => ?_⟩
    · rw [length, breaksFrom]
      by_cases feed : first = '\n' <;> simp [feed]
    · have bounds := bounds_of_mem_breaksFrom member
      omega

theorem break?_of_index? {number position : Int} {index : Nat}
    (counted : Sequence.index? (breaksFrom 0 content.toList).length number = some index)
    (found : (breaksFrom 0 content.toList)[index]? = some position) :
    (ofString content).break? number = .ok position := by
  simp [break?, ofString, counted, found]

theorem break?_last (content : String) :
    (ofString content).break? (-1) =
      if '\n' ∈ content.toList then .ok ((lineStart content content.toList.length : Int) - 1)
      else .error .outOfRange := by
  have last := getLast?_breaksFrom content.toList
  have length := length_breaksFrom 0 content.toList
  split
  · next feed =>
    have some := count_pos_iff.mpr feed
    rw [if_neg some.ne', getLast?_eq_getElem?] at last
    rw [lineStart, take_length]
    exact break?_of_index? (Sequence.index?_last (length ▸ some)) last
  · next absent =>
    have none : breaksFrom 0 content.toList = [] := by
      rw [← length_eq_zero_iff, length, count_eq_zero]
      exact absent
    simp [break?, Sequence.index?, ofString, none]

theorem break?_before (later : lineOf content position ≠ 0) :
    (ofString content).break? ((lineOf content position : Int) - 1) = .ok ((lineStart content position : Int) - 1) := by
  obtain ⟨after, split, -⟩ := breaks_eq content position
  have length : (breaksFrom 0 (content.toList.take position)).length = lineOf content position := length_breaksFrom _ _
  have last := getLast?_breaksFrom (content.toList.take position)
  rw [if_neg (by exact later), getLast?_eq_getElem?, length] at last
  have early : lineOf content position - 1 < (breaksFrom 0 (content.toList.take position)).length := by omega
  have inside : lineOf content position - 1 < (breaksFrom 0 content.toList).length := by
    rw [split, List.append_assoc, length_append]
    omega
  rw [← Nat.cast_one, ← Int.natCast_sub (Nat.one_le_iff_ne_zero.mpr later)]
  refine break?_of_index? (Sequence.index?_natCast inside) ?_
  rw [split, List.append_assoc, getElem?_append_left early]
  exact last

theorem lineStart_of_first (first : lineOf content position = 0) : lineStart content position = 0 := by
  have absent : '\n' ∉ content.toList.take position := count_eq_zero.mp first
  rw [lineStart, length_eq_zero_iff, rdropWhile_eq_nil_iff]
  intro character member
  simpa using ne_of_mem_of_not_mem member absent

theorem lineStart_le (content : String) (position : Nat) : lineStart content position ≤ position :=
  (List.rdropWhile_prefix _ _).length_le.trans (length_take_le _ _)

theorem beginsLine (content : String) (position : Nat) : BeginsLine content position (lineStart content position) := by
  let front := content.toList.take position
  have parts : front.rdropWhile (· ≠ '\n') ++ front.rtakeWhile (· ≠ '\n') = front := by
    rw [List.rdropWhile, List.rtakeWhile, ← List.reverse_append, takeWhile_append_dropWhile, reverse_reverse]
  have inFront : ∀ index < position,
      content.toList[index]? = (front.rdropWhile (· ≠ '\n') ++ front.rtakeWhile (· ≠ '\n'))[index]? := by
    intro index before
    rw [parts, getElem?_take_of_lt before]
  refine ⟨lineStart_le content position, lineStart_of_first, fun later => ?_, fun index behind before feed => ?_⟩
  · have some : front.rdropWhile (· ≠ '\n') ≠ [] := by
      intro none
      have absent := rdropWhile_eq_nil_iff.mp none
      exact later (count_eq_zero.mpr fun member => by simpa using absent '\n' member)
    have last : (front.rdropWhile (· ≠ '\n')).getLast some = '\n' := by
      simpa using rdropWhile_last_not (· ≠ '\n') front some
    have positive : 0 < (front.rdropWhile (· ≠ '\n')).length := length_pos_iff.mpr some
    have most : (front.rdropWhile (· ≠ '\n')).length ≤ position := lineStart_le content position
    refine ⟨(front.rdropWhile (· ≠ '\n')).length - 1, (Nat.sub_add_cancel positive).symm, ?_⟩
    rw [inFront _ (by omega), getElem?_append_left (by omega), ← getLast?_eq_getElem?,
      getLast?_eq_some_getLast some, last]
  · rw [inFront index before, getElem?_append_right behind] at feed
    simpa using mem_rtakeWhile_imp (mem_of_getElem? feed)

theorem lowerBound_breaks (content : String) (position : Nat) :
    lowerBound position (ofString content).breaks =
      if content.toList[position]? = some '\n' then (lineOf content position : Int) else lineOf content position - 1 := by
  obtain ⟨after, split, high⟩ := breaks_eq content position
  have low : ∀ entry ∈ breaksFrom 0 (content.toList.take position) ++
      (if content.toList[position]? = some '\n' then [(position : Int)] else []), entry ≤ position := by
    intro entry member
    rcases mem_append.mp member with before | here
    · have bounds := bounds_of_mem_breaksFrom before
      have length := length_take_le position content.toList
      omega
    · split at here <;> simp_all
  have found := lowerBound_append low high
  rw [← split] at found
  refine found.trans ?_
  rw [length_append, length_breaksFrom]
  split <;> simp [lineOf]

theorem break?_lowerBound (feed : '\n' ∈ content.toList) (position : Nat) :
    ∃ found, (ofString content).break? (lowerBound position (ofString content).breaks) = .ok found ∧
      (found = position ↔ content.toList[position]? = some '\n') := by
  obtain ⟨after, split, high⟩ := breaks_eq content position
  have length : (breaksFrom 0 (content.toList.take position)).length = lineOf content position := length_breaksFrom _ _
  rw [lowerBound_breaks]
  by_cases here : content.toList[position]? = some '\n'
  · rw [if_pos here, List.append_assoc] at split
    have found : (breaksFrom 0 content.toList)[lineOf content position]? = some (position : Int) := by
      rw [split, getElem?_append_right length.le, length, Nat.sub_self]
      rfl
    rw [if_pos here]
    exact ⟨position, break?_of_index? (Sequence.index?_natCast (List.getElem?_eq_some_iff.mp found).1) found,
      iff_of_true rfl here⟩
  · rw [if_neg here]
    by_cases first : lineOf content position = 0
    · -- The search comes to the end of the text, where the last line feed lies behind the position.
      have last := getLast?_breaksFrom content.toList
      rw [if_neg (count_pos_iff.mpr feed).ne', split, if_neg here, append_nil,
        length_eq_zero_iff.mp (length.trans first), nil_append] at last
      have behind := high _ (mem_of_getLast? last)
      refine ⟨(lineStart content content.toList.length : Int) - 1, ?_, iff_of_false ?_ here⟩
      · rw [first, Nat.cast_zero, zero_sub, break?_last, if_pos feed]
      · rw [lineStart, take_length]
        omega
    · have start := lineStart_le content position
      exact ⟨_, break?_before first, iff_of_false (by omega) here⟩

theorem lineColumn_eq (feed : '\n' ∈ content.toList) (position : Nat) :
    (ofString content).lineColumn position =
      .ok ⟨lineOf content position, (position : Int) - lineStart content position⟩ := by
  obtain ⟨found, looks, here⟩ := break?_lowerBound feed position
  have line : (if found ≠ position then lowerBound position (ofString content).breaks + 1
      else lowerBound position (ofString content).breaks) = (lineOf content position : Int) := by
    rw [lowerBound_breaks]
    by_cases same : found = position
    · rw [if_neg (not_not.mpr same), if_pos (here.mp same)]
    · rw [if_pos same, if_neg (mt here.mpr same), Int.sub_add_cancel]
  unfold lineColumn
  dsimp only
  rw [looks]
  simp only [bind, Except.bind, line]
  by_cases first : lineOf content position = 0
  · simp [first, lineStart_of_first first, pure, Except.pure]
  · rw [break?_before first]
    simp [first, Functor.map, Except.map, pure, Except.pure]

end SourceText

open Effect

def Catalog.Faithful (catalog : Catalog) : Prop :=
  ∀ entry ∈ catalog.sources, entry.2 = SourceText.ofString entry.2.content

namespace SourceMap

theorem work_sources (act : Work α) :
    Preserves (fun project : Project => project.catalog.sources) (InProject.work act) := by
  refine ⟨fun project => ?_⟩
  unfold InProject.work
  cases act project.workspace <;> rfl

theorem prepare_sources (dialect : Dialect) (query : Query) (contract : String) :
    Preserves (fun project : Project => project.catalog.sources) (prepare dialect query contract) := by
  have slots : ∀ query : Query, Preserves (fun project : Project => project.catalog.sources)
      (SlotMap.load query contract) := by
    intro query
    refine .bind .get fun project => .ite (.pure _) (.bind (.modify fun _ => rfl) fun _ =>
      .bind (work_sources _) fun description => ?_)
    cases SlotMap.ofContract description.contracts description.layouts contract with
    | ok map => exact .pure _
    | error fault => exact .throw _
  refine .bind .get fun project => .ite (.pure _) (.bind (.modify fun _ => rfl) fun _ =>
    .bind (work_sources _) fun places => .bind (.modify fun _ => rfl) fun _ => .bind (work_sources _) fun description =>
      .bind (.modify fun _ => rfl) fun _ => ?_)
  exact .ite
    (.bind (slots _) fun _ => .bind (.modify fun _ => rfl) fun _ => .bind (work_sources _) fun _ => .modify fun _ => rfl)
    (.bind (work_sources _) fun _ => .modify fun _ => rfl)

theorem source_of_load {dialect : Dialect} {query : Query} {contract rootPath : String} {before after : Project}
    {map : SourceMap} (faithful : before.catalog.Faithful)
    (loads : load dialect query contract rootPath before = .ok map after) :
    map.source = SourceText.ofString map.source.content := by
  obtain ⟨_, prepared, prepares, rest⟩ := of_bind_ok loads
  obtain ⟨source, _, finds, rest⟩ := of_bind_ok rest
  have kept := (prepare_sources dialect query contract).of_ok prepares
  have made : source = SourceText.ofString source.content := by
    unfold sourceOf at finds
    rw [get_bind_apply] at finds
    cases found : Table.get? ((Text.splitOnChar ':' contract).headD "") prepared.catalog.sources with
    | some known =>
      rw [found] at finds
      cases finds
      obtain ⟨entry, member, rfl⟩ := Table.exists_mem_of_get? found
      exact faithful entry (kept ▸ member)
    | none =>
      rw [found] at finds
      obtain ⟨text, _, -, finds⟩ := of_bind_ok finds
      obtain ⟨_, _, -, finds⟩ := of_bind_ok finds
      cases finds
      rfl
  suffices same : map.source = source by rw [same]; exact made
  refine Yields.of_ok (?_ : Yields (fun map : SourceMap => map.source = source) _) rest
  refine .bind fun places => .bind fun project => ?_
  cases project.catalog.description with
  | none => exact .throw _
  | some description =>
    cases dialect with
    | legacy =>
      exact .bind fun names => .bind fun safeCalls => .bind fun calls => .bind fun callees => .bind fun parameters =>
        .bind fun project => .bind fun functions => .pure rfl
    | current =>
      exact .bind fun names => .bind fun _ => .bind fun safeCalls => .bind fun calls => .bind fun callees =>
        .bind fun parameters => .bind fun project => .bind fun functions => .bind fun _ => .pure rfl

theorem of_ofExcept_bind {result : Except Fault α} {next : α → InProject β} {before after : Project} {value : β}
    (run : (InProject.ofExcept result >>= next) before = .ok value after) :
    ∃ found, result = .ok found ∧ next found before = .ok value after := by
  cases result with
  | ok found => exact ⟨found, rfl, run⟩
  | error fault => cases run

theorem of_load {dialect : Dialect} {query : Query} {contract rootPath : String} {before after : Project} {map : SourceMap}
    (loads : load dialect query contract rootPath before = .ok map after) :
    ∃ description, after.catalog.description = some description ∧
      (do (← description.contracts.callPlaces contract).mapM fun src => do map.source.ofSource (← writtenPlace src)) =
        .ok map.calls ∧
      ∃ table, description.contracts.parameters contract = .ok table ∧
        map.parameters = table.map fun entry => (entry.1.string?.getD "", placeParameters 0 entry.2) := by
  obtain ⟨_, _, -, rest⟩ := of_bind_ok loads
  obtain ⟨source, _, -, rest⟩ := of_bind_ok rest
  obtain ⟨places, grown, -, rest⟩ := of_bind_ok rest
  rw [get_bind_apply] at rest
  cases known : grown.catalog.description with
  | none =>
    rw [known] at rest
    cases rest
  | some description =>
    rw [known] at rest
    obtain ⟨names, -, rest⟩ := of_ofExcept_bind rest
    cases dialect with
    | legacy =>
      obtain ⟨calls, called, rest⟩ := of_ofExcept_bind rest
      obtain ⟨callees, -, rest⟩ := of_ofExcept_bind rest
      obtain ⟨parameters, declared, rest⟩ := of_ofExcept_bind rest
      rw [get_bind_apply] at rest
      obtain ⟨functions, -, rest⟩ := of_ofExcept_bind rest
      cases rest
      exact ⟨description, known, called, parameters, declared, rfl⟩
    | current =>
      obtain ⟨_, _, adjusts, rest⟩ := of_bind_ok rest
      cases adjusts
      obtain ⟨safeCalls, -, rest⟩ := of_ofExcept_bind rest
      obtain ⟨calls, called, rest⟩ := of_ofExcept_bind rest
      obtain ⟨callees, -, rest⟩ := of_ofExcept_bind rest
      obtain ⟨parameters, declared, rest⟩ := of_ofExcept_bind rest
      rw [get_bind_apply] at rest
      obtain ⟨functions, -, rest⟩ := of_ofExcept_bind rest
      cases rest
      exact ⟨description, known, called, parameters, declared, rfl⟩

end SourceMap

namespace SourceText

/-- The line of a position is the number of line feeds before it, and its column counts from where that line begins. If
there is no line feed at all, and only then, looking for a line fails everywhere. Maps of both dialects look alike. -/
theorem lineColumn_counts (content : String) :
    ('\n' ∈ content.toList → ∀ position : Nat,
      (ofString content).lineColumn position =
          .ok ⟨lineOf content position, (position : Int) - lineStart content position⟩ ∧
        BeginsLine content position (lineStart content position)) ∧
      ((∀ position : Int, (ofString content).lineColumn position = .error .outOfRange) ↔ '\n' ∉ content.toList) ∧
      ∀ (dialect : Dialect) (query : Query) (contract rootPath : String) (before after : Project) (map : SourceMap),
        before.catalog.Faithful → SourceMap.load dialect query contract rootPath before = .ok map after →
          map.source.content = content →
            ∀ position, map.source.lineColumn position = (ofString content).lineColumn position := by
  refine ⟨fun feed position => ⟨lineColumn_eq feed position, beginsLine content position⟩, ⟨?_, ?_⟩, ?_⟩
  · intro fails feed
    have counted := lineColumn_eq feed 0
    rw [fails] at counted
    cases counted
  · intro absent position
    have none : lowerBound position (ofString content).breaks = -1 := by
      have empty : (ofString content).breaks = #[] := by
        have length := length_breaksFrom 0 content.toList
        rw [count_eq_zero.mpr absent, length_eq_zero_iff] at length
        simp [ofString, length]
      rw [empty, lowerBound, lowerBoundFrom]
      rfl
    rw [lineColumn, none, break?_last, if_neg absent]
    rfl
  · rintro dialect query contract rootPath before after map faithful loads rfl position
    rw [← SourceMap.source_of_load faithful loads]

def bareNode : Json :=
  .object [("id", .integer 1), ("name", .string "C"), ("nodes", .array []),
    ("linearizedBaseContracts", .array [.integer 1])]

def twoLines : Project :=
  { workspace := { files := [("a", "x\ny")] }
    catalog :=
      { mapFile := "a"
        places := .object [("a:C", .object [("asm", .object [(".data", .object [("0", .object [(".code", .null)])])])])]
        description := some ⟨.null, .null, ⟨.current, [(.integer 1, bareNode)], [(.integer 1, "a")], [("a:C", bareNode)]⟩⟩
        selectors := .object [("a:C", .object [("hashes", .object [])])] } }

/-- The second line of a file begins behind its line feed, also in the map that is loaded for it. -/
theorem lineColumn_counts_twoLines :
    twoLines.catalog.Faithful ∧ (ofString "x\ny").lineColumn 2 = .ok ⟨1, 0⟩ ∧
      ∃ map after, SourceMap.load .current {} "a:C" "" twoLines = .ok map after ∧ map.source.content = "x\ny" ∧
        map.source.lineColumn 2 = .ok ⟨1, 0⟩ := by
  obtain ⟨counts, _, same⟩ := lineColumn_counts "x\ny"
  have faithful : twoLines.catalog.Faithful := fun _ absent => absurd absent not_mem_nil
  have counted : (ofString "x\ny").lineColumn 2 = .ok ⟨1, 0⟩ := by
    have line : lineOf "x\ny" 2 = 1 := by decide +kernel
    have start : lineStart "x\ny" 2 = 2 := by decide +kernel
    have found := (counts (by decide +kernel) 2).1
    rw [line, start] at found
    exact found
  obtain ⟨map, after, loads, content⟩ := exists_of_seen (show
    seen (fun map _ => map.source.content) (SourceMap.load .current {} "a:C" "" twoLines) = some "x\ny" by decide +kernel)
  exact ⟨faithful, counted, map, after, loads, content, (same _ _ _ _ _ _ map faithful loads content 2).trans counted⟩

def piece (content : String) (first last : Nat) : String :=
  String.ofList ((content.toList.take last).drop first)

/-- Where the text that is reported for a position begins: on the first line it is behind the last line feed of all. -/
def reportStart (content : String) (position : Nat) : Nat :=
  lineStart content (if lineOf content position = 0 then content.toList.length else position)

variable (content : String)

theorem lineStart_le_reportStart (position : Nat) : lineStart content position ≤ reportStart content position := by
  by_cases first : lineOf content position = 0
  · rw [lineStart_of_first first]
    exact Nat.zero_le _
  · rw [reportStart, if_neg first]

theorem reportStart_pos {content : String} (feed : '\n' ∈ content.toList) {position : Nat}
    (first : lineOf content position = 0) :
    0 < reportStart content position := by
  have some : lineOf content content.toList.length ≠ 0 := by
    rw [lineOf, take_length]
    exact (count_pos_iff.mpr feed).ne'
  obtain ⟨_, start, -⟩ := (beginsLine content content.toList.length).later some
  rw [reportStart, if_pos first, start]
  exact Nat.succ_pos _

theorem between_eq (first last : Nat) : (ofString content).between first last = piece content first last := by
  rw [between, piece, ofString, Sequence.toList_sliceArray]

theorem length_piece {first last : Nat} (inside : last ≤ content.toList.length) :
    (piece content first last).length = last - first := by
  rw [piece, String.length_ofList, length_drop, length_take, Nat.min_eq_left inside]

theorem piece_append {first middle last : Nat} (early : first ≤ middle) (late : middle ≤ last) :
    piece content first middle ++ piece content middle last = piece content first last := by
  rw [piece, piece, piece, ← String.ofList_append]
  congr 1
  have split : content.toList.take last = content.toList.take middle ++ (content.toList.take last).drop middle := by
    conv_lhs => rw [← take_append_drop middle (content.toList.take last)]
    rw [take_take, Nat.min_eq_left late]
  rcases Nat.le_total first content.toList.length with inside | beyond
  · conv_rhs => rw [split]
    rw [drop_append_of_le_length]
    rw [length_take]
    omega
  · simp [drop_of_length_le, beyond.trans early, beyond]

theorem lineUpTo_location {content : String} (feed : '\n' ∈ content.toList) {first last : Nat}
    (ordered : first ≤ last) :
    (do (ofString content).lineUpTo (← (ofString content).location ⟨first, last⟩) last) =
      .ok (piece content (reportStart content first) last) := by
  have start : (ofString content).break? ((lineOf content first : Int) - 1) =
      .ok ((reportStart content first : Int) - 1) := by
    unfold reportStart
    split
    · next one =>
      rw [one, Nat.cast_zero, zero_sub, break?_last, if_pos feed]
    · next later =>
      exact break?_before later
  have inside : 0 ≤ (first : Int) ∧ 0 ≤ (last : Int) - first + 1 := by omega
  simp only [location, inside, and_self, if_true, lineColumn_eq feed, bind, Except.bind, pure, Except.pure, lineUpTo, start,
    Int.sub_add_cancel, between_eq]

end SourceText

namespace SourceMap

open SourceText

def written (start length : Nat) (file : String) : String :=
  toString start ++ ":" ++ toString length ++ ":" ++ file

theorem startAndLength_written (start length : Nat) (file : String) :
    startAndLength (written start length file) = .ok ((start : Int), (length : Int)) := by
  have digits : ∀ number : Nat, ':' ∉ Nat.toDigits 10 number :=
    fun number member => Text.isPlainDigit_ne (Numeral.isPlainDigit_of_mem_toDigits member) (by decide) rfl
  have fields : Text.splitOnChar ':' (written start length file) =
      String.ofList (Nat.toDigits 10 start) :: String.ofList (Nat.toDigits 10 length) :: Text.splitOnChar ':' file := by
    have spelled : written start length file =
        String.ofList (Nat.toDigits 10 start ++ ':' :: (Nat.toDigits 10 length ++ ':' :: file.toList)) := by
      rw [written, Nat.toString_eq_ofList_toDigits, Nat.toString_eq_ofList_toDigits]
      simp [String.ofList_append, String.ofList_cons, String.append_assoc]
    rw [spelled, Text.splitOnChar_append (digits start), Text.splitOnChar_append (digits length), String.ofList_toList]
  unfold startAndLength
  dsimp only
  rw [fields]
  simp only [headD_cons, getElem?_cons_succ, getElem?_cons_zero, Numeral.read?_toDigits]
  rfl

/-- An instruction is reported with its line exactly if that is not the first one or the instruction ends at the very
start. A piece of text that is given by its start and its length is never reported with its line. -/
theorem lines_reported {content : String} (feed : '\n' ∈ content.toList) {map : SourceMap}
    (source : map.source = .ofString content) :
    (∀ (address : Int) (place : Place) (first last : Nat), Table.get? address map.places = some place →
      place.first = some (first : Int) → place.last = some (last : Int) → first ≤ last → last ≤ content.toList.length →
      map.codeAt address = .ok (piece content first last) ∧
        map.lineAt address = .ok (piece content (reportStart content first) last) ∧
        piece content (lineStart content first) last =
          piece content (lineStart content first) first ++ piece content first last ∧
        (map.lineAt address = .ok (piece content (lineStart content first) last) ↔ lineOf content first ≠ 0 ∨ last = 0)) ∧
      ∀ (start length : Nat) (file : String), 1 ≤ length → start + length ≤ content.toList.length →
        map.source.ofSource (written start length file) = .ok (piece content start (start + length)) ∧
          map.source.lineOfSource (written start length file) =
            .ok (piece content (reportStart content start) (start + length - 1)) ∧
          map.source.lineOfSource (written start length file) ≠
            .ok (piece content (lineStart content start) start ++ piece content start (start + length)) := by
  refine ⟨fun address place first last found begins ends ordered inside => ?_, fun start length file some inside => ?_⟩
  · have code : map.codeAt address = .ok (piece content first last) := by
      simp only [codeAt, found, spanOf, begins, ends, source, ← between_eq]
      rfl
    have line : map.lineAt address = .ok (piece content (reportStart content first) last) := by
      rw [← lineUpTo_location feed ordered]
      simp only [lineAt, found, spanOf, begins, ends, source]
      rfl
    refine ⟨code, line, (piece_append content (lineStart_le content first) ordered).symm, ?_⟩
    rw [line, Except.ok.injEq]
    refine ⟨fun same => ?_, ?_⟩
    · have lengths := congrArg String.length same
      rw [length_piece content inside, length_piece content inside] at lengths
      by_contra neither
      obtain ⟨one, positive⟩ := not_or.mp neither
      have behind := reportStart_pos feed (not_not.mp one)
      rw [lineStart_of_first (not_not.mp one)] at lengths
      omega
    · rintro (later | rfl)
      · rw [reportStart, if_neg later]
      · simp [piece]
  · have least : (start : Int) + length - 1 = (start + length - 1 : Nat) := by omega
    have line : map.source.lineOfSource (written start length file) =
        .ok (piece content (reportStart content start) (start + length - 1)) := by
      have ordered : start ≤ start + length - 1 := by omega
      rw [← lineUpTo_location feed ordered, source, lineOfSource, startAndLength_written]
      simp only [locationOfSource, startAndLength_written, ← least]
      rfl
    refine ⟨?_, line, ?_⟩
    · rw [source, ofSource, startAndLength_written]
      exact congrArg Except.ok (between_eq content start (start + length))
    · rw [line, ne_eq, Except.ok.injEq, piece_append content (lineStart_le content start) (by omega)]
      intro same
      have lengths := congrArg String.length same
      rw [length_piece content inside, length_piece content (by omega)] at lengths
      have before := lineStart_le content start
      have behind := lineStart_le_reportStart content start
      omega

def twoLines : SourceMap :=
  { source := .ofString "ab\ncd"
    places := [(0, ⟨none, none, some 0, some 2⟩), (1, ⟨none, none, some 4, some 5⟩)] }

theorem lines_reported_twoLines :
    '\n' ∈ "ab\ncd".toList ∧ twoLines.source = .ofString "ab\ncd" ∧
      twoLines.codeAt 0 = .ok "ab" ∧ twoLines.lineAt 0 = .ok "" ∧
      twoLines.codeAt 1 = .ok "d" ∧ twoLines.lineAt 1 = .ok "cd" ∧
      twoLines.source.ofSource "4:1:0" = .ok "d" ∧ twoLines.source.lineOfSource "4:1:0" = .ok "c" := by
  have feed : '\n' ∈ "ab\ncd".toList := by decide
  have reported := lines_reported feed (show twoLines.source = .ofString "ab\ncd" from rfl)
  have first := reported.1 0 _ 0 2 rfl rfl rfl (by decide) (by decide)
  have second := reported.1 1 _ 4 5 rfl rfl rfl (by decide) (by decide)
  have given := reported.2 4 1 "0" (by decide) (by decide)
  exact ⟨feed, rfl, first.1, first.2.1, second.1, second.2.1, given.1, given.2.1⟩

end SourceMap

end MintAudit
