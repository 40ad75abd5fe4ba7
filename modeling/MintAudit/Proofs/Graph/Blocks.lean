import MintAudit.Proofs.Listing.Ends

namespace MintAudit

/-!
# Building the blocks

A block is built for every recorded end, and an edge leads from a block that may run on to the one that starts next.
-/

open Listing.Segment
open List hiding keys

open MintAudit.Graph

open Table

namespace Graph

def built (graph : Graph) (line : String) (kind : JumpKind) (start stop : Int) : Block :=
  { start := start
    stop := stop
    lines := line :: linesBetween start stop (graph.instructions.mergeSort (fun left right => left.1 ≤ right.1))
    kind := some kind }

variable {graph : Graph} {source target : Int}

theorem addBlocks_eq (unbuilt : graph.blocks = [] ∧ graph.edges = []) (distinct : (keys graph.ends).Nodup)
    {line : Int → String} {kind : Int → JumpKind}
    (instructed : ∀ start ∈ keys graph.ends, get? start graph.instructions = some (line start))
    (kinded : ∀ start ∈ keys graph.ends, get? start graph.kinds = some (kind start)) :
    graph.addBlocks = .ok { graph with
      blocks := graph.ends.map fun entry => (entry.1, graph.built (line entry.1) (kind entry.1) entry.1 entry.2)
      edges := graph.ends.map fun entry => (entry.1, []) } := by
  have all : ∀ (done rest : Table Int Int), graph.ends = done ++ rest →
      rest.foldlM (fun graph' entry => addBlock
        (graph.instructions.mergeSort (fun left right => left.1 ≤ right.1)) graph' entry.1 entry.2)
        { graph with
          blocks := done.map fun entry => (entry.1, graph.built (line entry.1) (kind entry.1) entry.1 entry.2)
          edges := done.map fun entry => (entry.1, []) } =
      .ok { graph with
        blocks := graph.ends.map fun entry => (entry.1, graph.built (line entry.1) (kind entry.1) entry.1 entry.2)
        edges := graph.ends.map fun entry => (entry.1, []) } := by
    intro done rest shape
    induction rest generalizing done with
    | nil =>
      rw [shape, append_nil]
      rfl
    | cons entry more ih =>
      have member : entry.1 ∈ keys graph.ends := by simp [shape, keys]
      have fresh : entry.1 ∉ done.map Prod.fst := by
        rw [shape, keys, map_append, map_cons] at distinct
        exact fun inDone => (nodup_append.mp distinct).2.2 entry.1 inDone entry.1 mem_cons_self rfl
      have newBlock : entry.1 ∉ keys (done.map fun entry =>
          (entry.1, graph.built (line entry.1) (kind entry.1) entry.1 entry.2)) := by
        simpa [keys] using fresh
      have newEdges : entry.1 ∉ keys (done.map fun entry => (entry.1, ([] : List Int))) := by simpa [keys] using fresh
      have onward := ih (done ++ [entry]) (by simp [shape])
      rw [foldlM_cons, addBlock]
      simp only [instructed entry.1 member, kinded entry.1 member, put_of_not_mem newBlock, put_of_not_mem newEdges]
      rw [map_append, map_append] at onward
      exact onward
  have whole := all [] graph.ends rfl
  obtain ⟨noBlocks, noEdges⟩ := unbuilt
  obtain ⟨instructions, ends, kinds, blocks, edges⟩ := graph
  cases noBlocks
  cases noEdges
  exact whole

def runsOn (graph : Graph) (start : Int) : Prop :=
  Table.get? start graph.kinds ≠ some .terminal ∧ Table.get? start graph.kinds ≠ some .unconditional

def AgreeAt (start : Int) (first second : Graph) : Prop :=
  Table.get? start first.blocks = Table.get? start second.blocks ∧
    Table.get? start first.edges = Table.get? start second.edges

def FallsTo (source target : Int) (before after : Graph) : Prop :=
  Table.get? source after.blocks =
      (Table.get? source before.blocks).map (fun block => { block with fallsTo := some (some target) }) ∧
    Table.get? source after.edges = (Table.get? source before.edges).map (· ++ [target])

structure SameShape (first second : Graph) : Prop where
  kinds : first.kinds = second.kinds
  blocks : Table.keys first.blocks = Table.keys second.blocks
  edges : Table.keys first.edges = Table.keys second.edges

theorem addFallEdge_of_mem {source : Int} (hasEdges : source ∈ keys graph.edges) (hasBlock : source ∈ keys graph.blocks)
    (target : Int) :
    ∃ after, graph.addFallEdge source target = .ok after ∧ FallsTo source target graph after ∧
      after.SameShape graph ∧ ∀ other, other ≠ source → AgreeAt other after graph := by
  obtain ⟨targets, edges⟩ := Option.isSome_iff_exists.mp ((has_iff_mem_keys _ _).mpr hasEdges)
  obtain ⟨block, blocks⟩ := Option.isSome_iff_exists.mp ((has_iff_mem_keys _ _).mpr hasBlock)
  let after : Graph :=
    { graph with
      edges := put source (targets ++ [target]) graph.edges
      blocks := put source { block with fallsTo := some (some target) } graph.blocks }
  have added : graph.addFallEdge source target = .ok after := by
    simp only [addFallEdge, edges, blocks]
    rfl
  refine ⟨after, added, ⟨?_, ?_⟩, ⟨rfl, ?_, ?_⟩, fun other different => ⟨?_, ?_⟩⟩
  · rw [get?_put_self, blocks]
    rfl
  · rw [get?_put_self, edges]
    rfl
  · exact keys_put_of_mem hasBlock _
  · exact keys_put_of_mem hasEdges _
  · exact get?_put_of_ne different _ _
  · exact get?_put_of_ne different _ _

theorem addFallEdgesAlong_of_runsOn {graph after : Graph} (runs : graph.runsOn source)
    (added : graph.addFallEdge source target = .ok after) (rest : List (Int × Int)) :
    addFallEdgesAlong ((source, target) :: rest) graph = addFallEdgesAlong rest after := by
  obtain ⟨noTerminal, noJump⟩ := runs
  rw [addFallEdgesAlong]
  split
  · contradiction
  · contradiction
  · rw [added]

theorem addFallEdgesAlong_of_not_runsOn (stops : ¬graph.runsOn source) (rest : List (Int × Int)) :
    addFallEdgesAlong ((source, target) :: rest) graph = addFallEdgesAlong rest graph := by
  rw [addFallEdgesAlong]
  split
  · rfl
  · rfl
  · next noTerminal noJump =>
    exact (stops ⟨noTerminal, noJump⟩).elim

theorem addFallEdgesAlong_spec {pairs : List (Int × Int)} (distinct : (pairs.map Prod.fst).Nodup)
    (hasEdges : ∀ pair ∈ pairs, pair.1 ∈ keys graph.edges) (hasBlock : ∀ pair ∈ pairs, pair.1 ∈ keys graph.blocks) :
    ∃ after, addFallEdgesAlong pairs graph = (after, none) ∧ after.SameShape graph ∧
      (∀ pair ∈ pairs, graph.runsOn pair.1 → FallsTo pair.1 pair.2 graph after) ∧
      ∀ start, (start ∉ pairs.map Prod.fst ∨ ¬graph.runsOn start) → AgreeAt start after graph := by
  induction pairs generalizing graph with
  | nil => exact ⟨graph, rfl, ⟨rfl, rfl, rfl⟩, nofun, fun _ _ => ⟨rfl, rfl⟩⟩
  | cons pair rest ih =>
    obtain ⟨source, target⟩ := pair
    obtain ⟨fresh, others⟩ := nodup_cons.mp distinct
    obtain ⟨sourceEdges, restEdges⟩ := forall_mem_cons.mp hasEdges
    obtain ⟨sourceBlock, restBlocks⟩ := forall_mem_cons.mp hasBlock
    by_cases runs : graph.runsOn source
    · obtain ⟨between, added, falls, ⟨kinds, blocks, edges⟩, unchanged⟩ :=
        addFallEdge_of_mem sourceEdges sourceBlock target
      obtain ⟨after, along, ⟨afterKinds, afterBlocks, afterEdges⟩, fallen, agree⟩ :=
        @ih between others (by rwa [edges]) (by rwa [blocks])
      have sameRuns : ∀ start, between.runsOn start ↔ graph.runsOn start := fun start => by
        rw [runsOn, runsOn, kinds]
      refine ⟨after, ?_, ⟨afterKinds.trans kinds, afterBlocks.trans blocks, afterEdges.trans edges⟩, ?_, ?_⟩
      · rw [addFallEdgesAlong_of_runsOn runs added, along]
      · refine forall_mem_cons.mpr ⟨fun _ => ?_, fun pair member pairRuns => ?_⟩
        · obtain ⟨sameBlock, sameEdges⟩ := agree source (.inl fresh)
          exact ⟨sameBlock.trans falls.1, sameEdges.trans falls.2⟩
        · have different : pair.1 ≠ source := fun same => fresh (mem_map.mpr ⟨pair, member, same⟩)
          obtain ⟨sameBlock, sameEdges⟩ := unchanged pair.1 different
          obtain ⟨block, targets⟩ := fallen pair member ((sameRuns pair.1).mpr pairRuns)
          exact ⟨block.trans (by rw [sameBlock]), targets.trans (by rw [sameEdges])⟩
      · intro start outside
        have different : start ≠ source := by
          rintro rfl
          rcases outside with absent | stops
          · exact absent mem_cons_self
          · exact stops runs
        have restOutside : start ∉ rest.map Prod.fst ∨ ¬between.runsOn start := by
          rw [sameRuns]
          exact outside.imp_left fun absent inRest => absent (mem_cons_of_mem _ inRest)
        obtain ⟨sameBlock, sameEdges⟩ := unchanged start different
        obtain ⟨block, targets⟩ := agree start restOutside
        exact ⟨block.trans sameBlock, targets.trans sameEdges⟩
    · obtain ⟨after, along, shape, fallen, agree⟩ := ih others restEdges restBlocks
      refine ⟨after, ?_, shape, ?_, fun start outside => ?_⟩
      · rw [addFallEdgesAlong_of_not_runsOn runs, along]
      · exact forall_mem_cons.mpr ⟨fun sourceRuns => (runs sourceRuns).elim, fallen⟩
      · by_cases same : start = source
        · exact agree start (.inr (same ▸ runs))
        · refine agree start (outside.imp_left fun absent inRest => ?_)
          exact absent (mem_cons_of_mem _ inRest)

end Graph

namespace Listing

def fillKinds (starts : List Int) (kinds : Table Int JumpKind) : Table Int JumpKind :=
  starts.foldl (fun kinds key => if Table.has key kinds then kinds else Table.put key .fallsTo kinds) kinds

theorem fillKinds_cons (start : Int) (rest : List Int) (kinds : Table Int JumpKind) :
    fillKinds (start :: rest) kinds = fillKinds rest (if has start kinds then kinds else put start .fallsTo kinds) :=
  rfl

theorem get?_fillKinds (starts : List Int) (kinds : Table Int JumpKind) (key : Int) :
    get? key (fillKinds starts kinds) = (get? key kinds).or (if key ∈ starts then some .fallsTo else none) := by
  induction starts generalizing kinds with
  | nil => simp [fillKinds]
  | cons start rest ih =>
    rw [fillKinds_cons, ih]
    by_cases same : key = start
    · subst same
      cases found : get? key kinds with
      | some kind => simp [has, found]
      | none => simp [has, found, get?_put_self]
    · have kept : get? key (if has start kinds then kinds else put start .fallsTo kinds) = get? key kinds := by
        split
        · rfl
        · exact get?_put_of_ne same _ _
      rw [kept]
      simp [same]

theorem nodup_keys_fillKinds (starts : List Int) {kinds : Table Int JumpKind} (distinct : (keys kinds).Nodup) :
    (keys (fillKinds starts kinds)).Nodup := by
  induction starts generalizing kinds with
  | nil => exact distinct
  | cons start rest ih =>
    rw [fillKinds_cons]
    refine ih ?_
    split
    · exact distinct
    · exact nodup_keys_put distinct start .fallsTo

variable {segment : Segment} {segments : List Segment} {lines : List Line}

theorem get?_filterMap (distinct : (segments.map fun segment => (segment.first.address : Int)).Nodup)
    (member : segment ∈ segments) :
    get? (segment.first.address : Int) (segments.filterMap kindPair?) = segment.kind? := by
  induction segments with
  | nil => cases member
  | cons first rest ih =>
    obtain ⟨fresh, others⟩ := nodup_cons.mp distinct
    rw [← singleton_append, filterMap_append, get?_append]
    rcases mem_cons.mp member with rfl | inRest
    · have absent : get? (segment.first.address : Int) (rest.filterMap kindPair?) = none := by
        rw [get?_eq_none_iff]
        intro inKeys
        obtain ⟨other, inRest, same⟩ := mem_of_mem_keys inKeys
        exact fresh (mem_map.mpr ⟨other, inRest, same.symm⟩)
      rw [absent, Option.or_none]
      cases kind : segment.kind? <;> simp [kindPair?, kind, get?]
    · have absent : get? (segment.first.address : Int) ([first].filterMap kindPair?) = none := by
        rw [get?_eq_none_iff]
        intro inKeys
        obtain ⟨other, isFirst, same⟩ := mem_of_mem_keys inKeys
        rw [mem_singleton.mp isFirst] at same
        exact fresh (mem_map.mpr ⟨segment, inRest, same⟩)
      rw [absent, Option.none_or, ih others inRest]

theorem keys_filterMap_sublist (segments : List Segment) :
    (keys (segments.filterMap kindPair?)).Sublist (segments.map fun segment => (segment.first.address : Int)) := by
  induction segments with
  | nil => exact .slnil
  | cons segment rest ih =>
    cases kind : segment.kind? with
    | none =>
      rw [filterMap_cons_none (by simp [kindPair?, kind])]
      exact .cons _ ih
    | some kind' =>
      rw [filterMap_cons_some (by rw [kindPair?, kind]; rfl)]
      exact .cons_cons _ ih

def Cut.starts (cut : Cut) : List Int :=
  cut.segments.map fun segment => (segment.first.address : Int)

theorem starts_ascending {cut : Cut} (ascending : Ascending cut.lines) : cut.starts.Pairwise (· < ·) := by
  have among : ∀ segments : List Segment, (segments.map first).Sublist (segments.flatMap lines) := by
    intro segments
    induction segments with
    | nil => exact .slnil
    | cons segment rest ih =>
      exact .cons_cons _ (sublist_append_of_sublist_right ih)
  have firsts := ascending.sublist (among cut.segments)
  rw [Cut.starts, pairwise_map]
  refine (pairwise_map.mp firsts).imp fun less => ?_
  exact_mod_cast less

namespace Held

variable {cut : Cut} {state : Collected}

theorem closed_lt (ascending : Ascending cut.lines) :
    (cut.current.first.address : Int) ∉ cut.closed.map fun segment => (segment.first.address : Int) := by
  intro member
  obtain ⟨segment, inClosed, same⟩ := mem_map.mp member
  have less := Cut.first_lt ascending inClosed (mem_cons_self : cut.current.first ∈ cut.current.lines)
  omega

variable (held : Held cut state) (ascending : Ascending cut.lines)
include held ascending

theorem finish_ends :
    ∃ closedEnds, List.Forall₂ Closes cut.closed closedEnds ∧
      (finish state).ends = closedEnds ++
        [((cut.current.first.address : Int), cut.openEnd?.getD (cut.current.last.address : Int))] := by
  obtain ⟨closedEnds, closes, ends⟩ := held.ends
  have new : (cut.current.first.address : Int) ∉ keys closedEnds := by
    rw [keys_of_closes closes]
    exact closed_lt ascending
  have finished : (finish state).ends =
      if has state.block state.ends then state.ends else put state.block state.address state.ends := rfl
  refine ⟨closedEnds, closes, ?_⟩
  rw [finished, held.block, held.address]
  cases recorded : cut.openEnd? with
  | none =>
    have absent : has (cut.current.first.address : Int) state.ends = false := by
      rw [Bool.eq_false_iff, ne_eq, has_iff_mem_keys, ends, recorded]
      simpa using new
    rw [absent, if_neg Bool.false_ne_true, ends, recorded, Option.map_none, Option.toList_none, append_nil,
      put_of_not_mem new]
    rfl
  | some stop =>
    have present : has (cut.current.first.address : Int) state.ends = true := by
      rw [has_iff_mem_keys, ends, recorded]
      simp [keys]
    rw [present, if_pos rfl, ends, recorded]
    rfl

theorem keys_finish_ends : keys (finish state).ends = cut.starts := by
  obtain ⟨closedEnds, closes, ends⟩ := held.finish_ends ascending
  have keys := keys_of_closes closes
  simp only [Table.keys] at keys
  rw [ends, Table.keys, map_append, keys]
  simp [Cut.starts, Cut.segments]

theorem closed_kinds :
    (if has state.block state.kinds then state.kinds else put state.block .terminal state.kinds) =
      cut.closed.filterMap kindPair? ++ [((cut.current.first.address : Int), cut.current.kind?.getD .terminal)] := by
  have new : (cut.current.first.address : Int) ∉ keys (cut.closed.filterMap kindPair?) := by
    intro member
    obtain ⟨segment, inClosed, same⟩ := mem_of_mem_keys member
    exact closed_lt ascending (mem_map.mpr ⟨segment, inClosed, same.symm⟩)
  rw [held.block, held.kinds, Cut.segments, filterMap_snoc, kindPair?]
  cases cut.current.kind? with
  | none =>
    have absent : ¬has (cut.current.first.address : Int) (cut.closed.filterMap kindPair?) = true := by
      rwa [has_iff_mem_keys]
    rw [Option.map_none, Option.toList_none, append_nil, if_neg absent, put_of_not_mem new]
    rfl
  | some kind =>
    rw [if_pos]
    · rfl
    · rw [has_iff_mem_keys]
      simp [keys]

theorem finish_kinds :
    (finish state).kinds = fillKinds cut.starts (cut.closed.filterMap kindPair? ++
      [((cut.current.first.address : Int), cut.current.kind?.getD .terminal)]) := by
  rw [← held.closed_kinds ascending, ← held.keys_finish_ends ascending]
  rfl

theorem kind_of_closed {segment : Segment} (closed : segment ∈ cut.closed) :
    get? (segment.first.address : Int) (finish state).kinds = some (segment.kind?.getD .fallsTo) := by
  have distinct := (starts_ascending ascending).nodup
  rw [Cut.starts, Cut.segments, map_append] at distinct
  have inStarts : (segment.first.address : Int) ∈ cut.starts := mem_map.mpr ⟨segment, mem_append_left _ closed, rfl⟩
  have different : (cut.current.first.address : Int) ≠ segment.first.address := by
    intro same
    exact closed_lt ascending (mem_map.mpr ⟨segment, closed, same.symm⟩)
  rw [held.finish_kinds ascending, get?_fillKinds, get?_append,
    get?_filterMap (nodup_append.mp distinct).1 closed, if_pos inStarts]
  cases segment.kind? <;> simp [get?, different]

theorem kind_of_current :
    get? (cut.current.first.address : Int) (finish state).kinds = some (cut.current.kind?.getD .terminal) := by
  have absent : get? (cut.current.first.address : Int) (cut.closed.filterMap kindPair?) = none := by
    rw [get?_eq_none_iff]
    intro member
    obtain ⟨segment, inClosed, same⟩ := mem_of_mem_keys member
    exact closed_lt ascending (mem_map.mpr ⟨segment, inClosed, same.symm⟩)
  rw [held.finish_kinds ascending, get?_fillKinds, get?_append, absent]
  simp [get?]

theorem sorted_kinds : (keys (finish state).kinds).mergeSort (· ≤ ·) = cut.starts := by
  have increasing := starts_ascending ascending
  have among : (keys (cut.closed.filterMap kindPair? ++
      [((cut.current.first.address : Int), cut.current.kind?.getD .terminal)])).Sublist cut.starts := by
    rw [keys, map_append, Cut.starts, Cut.segments, map_append]
    exact (keys_filterMap_sublist cut.closed).append (.refl _)
  have distinct : (keys (finish state).kinds).Nodup := by
    rw [held.finish_kinds ascending]
    exact nodup_keys_fillKinds _ (increasing.nodup.sublist among)
  have same : ∀ key, key ∈ keys (finish state).kinds ↔ key ∈ cut.starts := by
    intro key
    rw [← not_iff_not, ← get?_eq_none_iff, held.finish_kinds ascending, get?_fillKinds, Option.or_eq_none_iff,
      get?_eq_none_iff]
    constructor
    · rintro ⟨_, absent⟩ member
      rw [if_pos member] at absent
      cases absent
    · intro absent
      exact ⟨fun member => absent (among.subset member), if_neg absent⟩
  have permuted := (mergeSort_perm _ (fun left right : Int => decide (left ≤ right))).trans
    ((perm_ext_iff_of_nodup distinct increasing.nodup).mpr same)
  exact permuted.eq_of_pairwise' (pairwise_mergeSort' (· ≤ ·) _) (increasing.imp le_of_lt)

end Held

def Segment.upTo (segment : Segment) (stop : Int) : List Line :=
  segment.first :: segment.rest.takeWhile fun line => (line.address : Int) ≤ stop

theorem get?_entries (ascending : Ascending lines) {line : Line} (member : line ∈ lines) :
    get? (line.address : Int) (lines.map Line.entry) = some line.content := by
  induction lines with
  | nil => cases member
  | cons first rest ih =>
    obtain ⟨before, others⟩ := pairwise_cons.mp ascending
    rcases mem_cons.mp member with rfl | inRest
    · simp [Line.entry, get?]
    · have less := before line inRest
      have different : (first.address : Int) ≠ line.address := by omega
      simp only [map_cons, Line.entry, get?, beq_iff_eq, different, if_false]
      exact ih others inRest

theorem sorted_entries (ascending : Ascending lines) :
    (lines.map Line.entry).mergeSort (fun left right => left.1 ≤ right.1) = lines.map Line.entry := by
  refine mergeSort_of_pairwise ?_
  rw [pairwise_map]
  refine ascending.imp fun {earlier later} less => decide_eq_true ?_
  show (earlier.address : Int) ≤ later.address
  omega

theorem takeWhile_append_of_forall_not {test : Line → Bool} {front back : List Line}
    (stops : ∀ line ∈ back, ¬test line = true) :
    (front ++ back).takeWhile test = front.takeWhile test := by
  induction front with
  | nil =>
    cases back with
    | nil => rfl
    | cons line rest => exact takeWhile_cons_of_neg (stops line mem_cons_self)
  | cons line rest ih =>
    rw [cons_append, takeWhile_cons, takeWhile_cons, ih]

theorem linesBetween_segment {before after : List Line} (ascending : Ascending (before ++ (segment.lines ++ after)))
    {stop : Int} (beyond : ∀ line ∈ after, stop < line.address) :
    (segment.first.content :: linesBetween segment.first.address stop
        ((before ++ (segment.lines ++ after)).map Line.entry)) =
      (segment.upTo stop).map Line.content := by
  obtain ⟨_, own, earlier⟩ := pairwise_append.mp ascending
  obtain ⟨later, _⟩ := pairwise_cons.mp own
  have dropped : before.filter (fun line => decide ((segment.first.address : Int) < line.address)) = [] := by
    rw [filter_eq_nil_iff]
    intro line member
    have less := earlier line member segment.first (by simp [lines])
    simp only [decide_eq_true_eq]
    omega
  have kept : (segment.rest ++ after).filter (fun line => decide ((segment.first.address : Int) < line.address)) =
      segment.rest ++ after := by
    rw [filter_eq_self]
    intro line member
    have less := later line member
    simp only [decide_eq_true_eq]
    omega
  have behind : (before ++ (segment.lines ++ after)).filter
      (fun line => decide ((segment.first.address : Int) < line.address)) = segment.rest ++ after := by
    rw [filter_append, dropped, nil_append, lines, cons_append, filter_cons_of_neg (by simp), kept]
  have stopped : (segment.rest ++ after).takeWhile (fun line => decide ((line.address : Int) ≤ stop)) =
      segment.rest.takeWhile fun line => decide ((line.address : Int) ≤ stop) := by
    refine takeWhile_append_of_forall_not fun line member => ?_
    have less := beyond line member
    simp only [decide_eq_true_eq]
    omega
  have entries : ∀ lines : List Line, (lines.map Line.entry).map Prod.snd = lines.map Line.content := by
    simp [Line.entry]
  rw [upTo, map_cons, linesBetween, filter_map, takeWhile_map, entries]
  congr 2
  exact (congrArg _ behind).trans stopped

theorem get?_of_closes {entries : Table Int Int} (closes : List.Forall₂ Closes segments entries)
    (distinct : (segments.map fun segment => (segment.first.address : Int)).Nodup) (member : segment ∈ segments) :
    ∃ stop, get? (segment.first.address : Int) entries = some stop ∧ Closes segment (segment.first.address, stop) := by
  induction closes with
  | nil => cases member
  | @cons first entry rest more one _ ih =>
    obtain ⟨fresh, others⟩ := nodup_cons.mp distinct
    obtain ⟨key, stop⟩ := entry
    obtain ⟨rfl, reaches⟩ := one
    rcases mem_cons.mp member with rfl | inRest
    · exact ⟨stop, by simp [get?], rfl, reaches⟩
    · have different : (first.first.address : Int) ≠ segment.first.address :=
        fun same => fresh (mem_map.mpr ⟨segment, inRest, same.symm⟩)
      obtain ⟨stop, found, closes⟩ := ih others inRest
      exact ⟨stop, by simp [get?, different, found], closes⟩

theorem Closes.upTo_eq {start stop : Int} (closes : Closes segment (start, stop))
    (ascending : Ascending segment.lines) :
    segment.upTo stop = segment.lines := by
  rw [upTo, lines]
  congr 1
  rw [takeWhile_eq_self_iff]
  intro line member
  simp only [decide_eq_true_eq]
  rcases closes.2 with isLast | ⟨single, _⟩
  · rcases segment.single_or_add with shape | ⟨shorter, final, rfl⟩
    · rw [shape] at member
      cases member
    · simp only [last_add] at isLast
      rw [lines_add] at ascending
      rcases mem_append.mp member with inRest | isFinal
      · have less := (pairwise_append.mp ascending).2.2 line (mem_cons_of_mem _ inRest) final (mem_singleton_self _)
        omega
      · rw [mem_singleton.mp isFinal]
        omega
  · rw [single] at member
    cases member

end Listing

namespace Graph

theorem mem_consecutive (before after : List Int) (first second : Int) :
    (first, second) ∈ consecutive (before ++ first :: second :: after) := by
  induction before with
  | nil => simp [consecutive]
  | cons start rest ih =>
    cases rest with
    | nil => simp [consecutive]
    | cons next more =>
      rw [cons_append, cons_append, consecutive]
      exact mem_cons_of_mem _ ih

theorem map_fst_consecutive (starts : List Int) : (consecutive starts).map Prod.fst = starts.dropLast := by
  induction starts with
  | nil => rfl
  | cons start rest ih =>
    cases rest with
    | nil => rfl
    | cons next more => rw [consecutive, map_cons, ih, dropLast_cons_cons]

open Listing

def HasBlock (graph : Graph) (start : Int) (run : List Line) (kind : JumpKind) : Prop :=
  ∃ block, Table.get? start graph.blocks = some block ∧ block.lines = run.map Line.content ∧ block.kind = some kind

def HasFall (graph : Graph) (start target : Int) : Prop :=
  ∃ block, Table.get? start graph.blocks = some block ∧ block.fallsTo = some (some target) ∧
    Table.get? start graph.edges = some [target]

structure Draws (graph : Graph) (cut : Cut) : Prop where
  starts : Table.keys graph.blocks = cut.starts
  closed : ∀ segment ∈ cut.closed, graph.HasBlock segment.first.address segment.lines (segment.kind?.getD .fallsTo)
  current : graph.HasBlock cut.current.first.address
    (cut.current.upTo (cut.openEnd?.getD (cut.current.last.address : Int))) (cut.current.kind?.getD .terminal)
  falls : ∀ before segment next after, cut.segments = before ++ segment :: next :: after →
    segment.kind?.getD .fallsTo ≠ .terminal → segment.kind?.getD .fallsTo ≠ .unconditional →
    graph.HasFall segment.first.address next.first.address

end Graph

namespace Listing.Held

variable {cut : Cut} {state : Collected}

variable {segment : Segment}

theorem beyond_of_closes {before after : List Segment}
    (ascending : Ascending ((before ++ segment :: after).flatMap lines)) {start stop : Int}
    (closes : Closes segment (start, stop)) :
    ∀ line ∈ after.flatMap lines, stop < line.address := by
  rw [flatMap_append, flatMap_cons] at ascending
  have own := (pairwise_append.mp (pairwise_append.mp ascending).2.1).2.2
  intro line member
  rcases closes.2 with isLast | ⟨_, atMost⟩
  · have less := own segment.last segment.last_mem line member
    simp only at isLast
    omega
  · have less := own segment.first mem_cons_self line member
    simp only at atMost
    omega

variable (held : Held cut state) (ascending : Ascending cut.lines)
include held ascending

theorem instructed (member : segment ∈ cut.segments) :
    get? (segment.first.address : Int) (ofCollected (finish state)).instructions = some segment.first.content := by
  have instructions : (ofCollected (finish state)).instructions = cut.lines.map Line.entry := held.instructions
  rw [instructions]
  exact get?_entries ascending (Cut.first_mem_lines member)

theorem built_lines {before after : List Segment} (shape : cut.segments = before ++ segment :: after) {stop : Int}
    (beyond : ∀ line ∈ after.flatMap lines, stop < line.address) (kind : JumpKind) :
    ((ofCollected (finish state)).built segment.first.content kind segment.first.address stop).lines =
      (segment.upTo stop).map Line.content := by
  have instructions : (ofCollected (finish state)).instructions = cut.lines.map Line.entry := held.instructions
  have lines : cut.lines = before.flatMap lines ++ (segment.lines ++ after.flatMap lines) := by
    rw [Cut.lines, shape, flatMap_append, flatMap_cons]
  rw [lines] at ascending
  rw [← linesBetween_segment ascending beyond, ← lines, built, instructions, sorted_entries (by rwa [lines])]

theorem kinded (member : segment ∈ cut.segments) :
    ∃ kind, get? (segment.first.address : Int) (finish state).kinds = some kind := by
  rcases mem_append.mp member with closed | isCurrent
  · exact ⟨_, held.kind_of_closed ascending closed⟩
  · rw [mem_singleton.mp isCurrent]
    exact ⟨_, held.kind_of_current ascending⟩

theorem addBlocks_ok :
    ∃ built, (ofCollected (finish state)).addBlocks = .ok built ∧ built.kinds = (finish state).kinds ∧
      Table.keys built.blocks = cut.starts ∧ Table.keys built.edges = cut.starts ∧
      ∀ segment ∈ cut.segments, ∀ stop kind, Table.get? (segment.first.address : Int) (finish state).ends = some stop →
        Table.get? (segment.first.address : Int) (finish state).kinds = some kind →
        Table.get? (segment.first.address : Int) built.blocks = some
          ((ofCollected (finish state)).built segment.first.content kind segment.first.address stop) ∧
        Table.get? (segment.first.address : Int) built.edges = some [] := by
  have keys : Table.keys (ofCollected (finish state)).ends = cut.starts := held.keys_finish_ends ascending
  have segmentAt : ∀ start ∈ Table.keys (ofCollected (finish state)).ends,
      ∃ segment ∈ cut.segments, (segment.first.address : Int) = start := by
    rw [keys]
    exact fun start member => mem_map.mp member
  have instructed : ∀ start ∈ Table.keys (ofCollected (finish state)).ends,
      Table.get? start (ofCollected (finish state)).instructions =
        some ((Table.get? start (ofCollected (finish state)).instructions).getD "") := by
    intro start member
    obtain ⟨segment, inSegments, rfl⟩ := segmentAt start member
    rw [held.instructed ascending inSegments]
    rfl
  have kinded : ∀ start ∈ Table.keys (ofCollected (finish state)).ends,
      Table.get? start (ofCollected (finish state)).kinds =
        some ((Table.get? start (finish state).kinds).getD .terminal) := by
    intro start member
    obtain ⟨segment, inSegments, rfl⟩ := segmentAt start member
    obtain ⟨kind, found⟩ := held.kinded ascending inSegments
    have kinds : (ofCollected (finish state)).kinds = (finish state).kinds := rfl
    rw [kinds, found]
    rfl
  have distinct : (Table.keys (ofCollected (finish state)).ends).Nodup := by
    rw [keys]
    exact (starts_ascending ascending).nodup
  refine ⟨_, addBlocks_eq ⟨rfl, rfl⟩ distinct instructed kinded, rfl, ?_, ?_, ?_⟩
  · rw [← keys]
    simp [Table.keys]
  · rw [← keys]
    simp [Table.keys]
  · intro segment inSegments stop kind ended found
    have ends : (ofCollected (finish state)).ends = (finish state).ends := rfl
    rw [Table.get?_mapKeyed _ fun start stop => (ofCollected (finish state)).built
        ((Table.get? start (ofCollected (finish state)).instructions).getD "")
        ((Table.get? start (finish state).kinds).getD .terminal) start stop,
      Table.get?_mapKeyed _ fun _ _ => ([] : List Int), ends, ended, held.instructed ascending inSegments, found]
    exact ⟨rfl, rfl⟩

theorem ended_of_closed (closed : segment ∈ cut.closed) :
    ∃ stop, get? (segment.first.address : Int) (finish state).ends = some stop ∧
      Closes segment (segment.first.address, stop) := by
  obtain ⟨closedEnds, closes, ends⟩ := held.finish_ends ascending
  have distinct := (starts_ascending ascending).nodup
  rw [Cut.starts, Cut.segments, map_append] at distinct
  obtain ⟨stop, found, reaches⟩ := get?_of_closes closes (nodup_append.mp distinct).1 closed
  refine ⟨stop, ?_, reaches⟩
  rw [ends, get?_append, found]
  rfl

theorem ended_of_current :
    get? (cut.current.first.address : Int) (finish state).ends =
      some (cut.openEnd?.getD (cut.current.last.address : Int)) := by
  obtain ⟨closedEnds, closes, ends⟩ := held.finish_ends ascending
  have absent : get? (cut.current.first.address : Int) closedEnds = none := by
    rw [get?_eq_none_iff, keys_of_closes closes]
    exact closed_lt ascending
  rw [ends, get?_append, absent]
  simp [get?]

theorem built_closed (closed : segment ∈ cut.closed) {stop : Int}
    (closes : Closes segment (segment.first.address, stop)) (kind : JumpKind) :
    ((ofCollected (finish state)).built segment.first.content kind segment.first.address stop).lines =
      segment.lines.map Line.content := by
  obtain ⟨before, between, split⟩ := append_of_mem closed
  have shape : cut.segments = before ++ segment :: (between ++ [cut.current]) := by
    rw [Cut.segments, split, append_assoc, cons_append]
  have whole := ascending
  rw [Cut.lines, shape] at whole
  have own : Ascending segment.lines := by
    rw [flatMap_append, flatMap_cons] at whole
    exact (pairwise_append.mp (pairwise_append.mp whole).2.1).1
  rw [held.built_lines ascending shape (beyond_of_closes whole closes), closes.upTo_eq own]

theorem built_current (stop : Int) (kind : JumpKind) :
    ((ofCollected (finish state)).built cut.current.first.content kind cut.current.first.address stop).lines =
      (cut.current.upTo stop).map Line.content :=
  held.built_lines ascending (show cut.segments = cut.closed ++ cut.current :: [] from rfl) nofun kind

theorem draws :
    ∃ built after, (ofCollected (finish state)).addBlocks = .ok built ∧ built.addFallEdges = (after, none) ∧
      after.Draws cut := by
  obtain ⟨built, added, kinds, blockKeys, edgeKeys, blockAt⟩ := held.addBlocks_ok ascending
  have along : built.addFallEdges = addFallEdgesAlong (consecutive cut.starts) built := by
    rw [addFallEdges, kinds, held.sorted_kinds ascending]
  have sources : (consecutive cut.starts).map Prod.fst = cut.starts.dropLast := map_fst_consecutive cut.starts
  have inStarts : ∀ pair ∈ consecutive cut.starts, pair.1 ∈ cut.starts := by
    intro pair member
    refine dropLast_subset _ ?_
    rw [← sources]
    exact mem_map_of_mem member
  have distinct : ((consecutive cut.starts).map Prod.fst).Nodup := by
    rw [sources]
    exact (starts_ascending ascending).nodup.sublist (dropLast_sublist _)
  obtain ⟨after, finished, shape, falls, agree⟩ := addFallEdgesAlong_spec distinct
    (fun pair member => edgeKeys ▸ inStarts pair member) (fun pair member => blockKeys ▸ inStarts pair member)
  have kept : ∀ start block, get? start built.blocks = some block →
      ∃ final, get? start after.blocks = some final ∧ final.lines = block.lines ∧ final.kind = block.kind := by
    intro start block found
    by_cases source : start ∈ (consecutive cut.starts).map Prod.fst ∧ built.runsOn start
    · obtain ⟨pair, member, rfl⟩ := mem_map.mp source.1
      have fallen := (falls pair member source.2).1
      rw [found] at fallen
      exact ⟨_, fallen, rfl, rfl⟩
    · have same := (agree start (not_and_or.mp source)).1
      exact ⟨block, same.trans found, rfl, rfl⟩
  refine ⟨built, after, added, along.trans finished, shape.blocks.trans blockKeys, ?_, ?_, ?_⟩
  · intro segment closed
    obtain ⟨stop, ended, closes⟩ := held.ended_of_closed ascending closed
    obtain ⟨found, _⟩ := blockAt segment (mem_append_left _ closed) stop _ ended (held.kind_of_closed ascending closed)
    obtain ⟨final, atStart, lines, kind⟩ := kept _ _ found
    exact ⟨final, atStart, lines.trans (held.built_closed ascending closed closes _), kind⟩
  · obtain ⟨found, _⟩ := blockAt cut.current (by simp [Cut.segments]) _ _ (held.ended_of_current ascending)
      (held.kind_of_current ascending)
    obtain ⟨final, atStart, lines, kind⟩ := kept _ _ found
    exact ⟨final, atStart, lines.trans (held.built_current ascending _ _), kind⟩
  · intro before segment next rest split noTerminal noJump
    have closed : segment ∈ cut.closed := by
      have dropped := congrArg List.dropLast split
      rw [Cut.segments, List.dropLast_concat, dropLast_append_of_ne_nil (by simp), dropLast_cons_cons] at dropped
      simp [dropped]
    have pair : ((segment.first.address : Int), (next.first.address : Int)) ∈ consecutive cut.starts := by
      rw [Cut.starts, split, map_append, map_cons, map_cons]
      exact mem_consecutive _ _ _ _
    have kind := held.kind_of_closed ascending closed
    obtain ⟨stop, ended, _⟩ := held.ended_of_closed ascending closed
    obtain ⟨block, edges⟩ := blockAt segment (mem_append_left _ closed) stop _ ended kind
    have runs : built.runsOn segment.first.address := by
      rw [runsOn, kinds, kind]
      exact ⟨fun same => noTerminal (Option.some.inj same), fun same => noJump (Option.some.inj same)⟩
    obtain ⟨fallen, target⟩ := falls _ pair runs
    rw [block] at fallen
    rw [edges] at target
    exact ⟨_, fallen, rfl, target⟩

end Listing.Held

end MintAudit
