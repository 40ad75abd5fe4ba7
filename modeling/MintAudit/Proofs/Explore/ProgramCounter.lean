import MintAudit.Proofs.Explore.Succession
import MintAudit.Proofs.Graph.WellFormed

namespace MintAudit

/-!
# The program counter

If in the code each instruction stands right behind the one before it, and what does not move the program counter
comes only at the end of a block, then every line is executed with the program counter at its own address.
-/

/-! ## Blocks as runs of instructions -/

open List Std.Do

set_option mvcgen.warning false

namespace Listing

/-- The reader keeps the addresses of the instructions different, also where a fault stops it. -/
abbrev Distinct (computation : Reader α) : Prop :=
  ⦃fun state => ⌜(Table.keys state.instructions).Nodup⌝⦄ computation
  ⦃post⟨fun _ state => ⌜(Table.keys state.instructions).Nodup⌝,
    fun _ state => ⌜(Table.keys state.instructions).Nodup⌝⟩⦄

variable (guide : Guide)

@[grind =] theorem noteName_instructions (name : String) (state : Collected) :
    (noteName name state).instructions = state.instructions := by
  unfold noteName endBlock
  grind

@[grind =] theorem append_instructions (text : String) (state : Collected) :
    (append text state).instructions = state.instructions := by
  unfold append
  split <;> rfl

@[spec] theorem follow_distinct (admits : Place → String → String → Except Fault Unit) :
    Distinct (follow guide admits) := by
  mvcgen [follow]

@[spec] theorem record_distinct (admits : Place → String → String → Except Fault Unit) :
    Distinct (record guide admits) := by
  mvcgen [record] with grind [Table.nodup_keys_put]

-- What the digits say does not matter here, and opening the numerals is slow.
attribute [local irreducible] Numeral.read?

@[spec] theorem readInLine_distinct (token : Token) : Distinct (readInLine guide token) := by
  mvcgen [readInLine] with grind

@[spec] theorem readToken_distinct (token : Token) : Distinct (readToken guide token) := by
  mvcgen [readToken]

theorem readTokens_distinct (tokens : List Token × Option Fault) : Distinct (readTokens guide tokens) := by
  have all (tokens : List Token) : Distinct (tokens.forM (readToken guide)) := by
    induction tokens with
    | nil => mvcgen [List.forM]
    | cons token rest ih => mvcgen [List.forM, ih]
  mvcgen [readTokens, all]

theorem collect_distinct (text : String) : (Table.keys (collect guide text).1.instructions).Nodup := by
  unfold collect EStateM.run
  generalize Token.scan (body (readText text)) = tokens
  have result := readTokens_distinct guide tokens {} nodup_nil
  simp only [wp, PredTrans.apply, EStateM.run] at result
  cases run : readTokens guide tokens {} <;> (rw [run] at result; exact result)

end Listing

namespace Graph

def sorted (graph : Graph) : List (Int × String) :=
  graph.instructions.mergeSort (fun left right => left.1 ≤ right.1)

def Laid (graph : Graph) : Prop :=
  ∀ start block, Table.get? start graph.blocks = some block →
    ∃ line stop, Table.get? start graph.instructions = some line ∧
      block.lines = line :: linesBetween start stop graph.sorted

variable {graph : Graph}

theorem laid_of_unbuilt (unbuilt : graph.blocks = []) : graph.Laid := by
  intro start block found
  rw [unbuilt] at found
  cases found

theorem addBlock_laid {after : Graph} {start stop : Int} (added : addBlock graph.sorted graph start stop = .ok after)
    (laid : graph.Laid) :
    after.Laid ∧ after.instructions = graph.instructions := by
  unfold addBlock at added
  split at added
  · cases added
    exact ⟨laid, rfl⟩
  · next line present =>
    split at added
    · cases added
    · cases added
      refine ⟨fun other block found => ?_, rfl⟩
      by_cases same : other = start
      · subst same
        rw [Table.get?_put_self] at found
        cases found
        exact ⟨line, stop, present, rfl⟩
      · rw [Table.get?_put_of_ne same] at found
        exact laid other block found

theorem addBlocks_laid {after : Graph} (added : graph.addBlocks = .ok after) (laid : graph.Laid) :
    after.Laid ∧ after.instructions = graph.instructions := by
  have all : ∀ (ends : Table Int Int) (between : Graph), between.Laid → between.instructions = graph.instructions →
      ends.foldlM (fun graph' entry => addBlock graph.sorted graph' entry.1 entry.2) between = .ok after →
      after.Laid ∧ after.instructions = graph.instructions := by
    intro ends
    induction ends with
    | nil =>
      intro between betweenLaid same added
      cases added
      exact ⟨betweenLaid, same⟩
    | cons entry rest ih =>
      intro between betweenLaid same added
      rw [foldlM_cons] at added
      cases first : addBlock graph.sorted between entry.1 entry.2 with
      | error fault =>
        rw [first] at added
        cases added
      | ok next =>
        rw [first] at added
        have sorted : graph.sorted = between.sorted := by rw [sorted, sorted, same]
        rw [sorted] at first
        obtain ⟨nextLaid, kept⟩ := addBlock_laid first betweenLaid
        exact ih next nextLaid (kept.trans same) added
  exact all graph.ends graph laid rfl added

theorem addFallEdge_laid {after : Graph} {source target : Int} (added : graph.addFallEdge source target = .ok after)
    (laid : graph.Laid) :
    after.Laid ∧ after.instructions = graph.instructions := by
  unfold addFallEdge at added
  split at added
  · next targets block _ present =>
    cases added
    refine ⟨fun other changed found => ?_, rfl⟩
    by_cases same : other = source
    · subst same
      rw [Table.get?_put_self] at found
      cases found
      exact laid other block present
    · rw [Table.get?_put_of_ne same] at found
      exact laid other changed found
  · cases added

theorem addFallEdgesAlong_laid (pairs : List (Int × Int)) (laid : graph.Laid) :
    (addFallEdgesAlong pairs graph).1.Laid ∧ (addFallEdgesAlong pairs graph).1.instructions = graph.instructions := by
  induction pairs generalizing graph with
  | nil => exact ⟨laid, rfl⟩
  | cons pair rest ih =>
    rw [addFallEdgesAlong]
    split
    · exact ih laid
    · exact ih laid
    · split
      · next next added =>
        obtain ⟨nextLaid, kept⟩ := addFallEdge_laid added laid
        obtain ⟨afterLaid, same⟩ := ih nextLaid
        exact ⟨afterLaid, same.trans kept⟩
      · exact ⟨laid, rfl⟩

theorem sorted_ascending (distinct : (Table.keys graph.instructions).Nodup) :
    graph.sorted.Pairwise fun earlier later => earlier.1 < later.1 := by
  have ordered : graph.sorted.Pairwise fun earlier later => earlier.1 ≤ later.1 := by
    have pairwise := pairwise_mergeSort' (fun left right : Int × String => left.1 ≤ right.1) graph.instructions
    exact pairwise
  have different : graph.sorted.Pairwise fun earlier later => earlier.1 ≠ later.1 := by
    have keys : (graph.sorted.map Prod.fst).Nodup :=
      ((mergeSort_perm graph.instructions _).map Prod.fst).nodup_iff.mpr distinct
    exact pairwise_map.mp keys
  exact (ordered.and different).imp fun both => lt_of_le_of_ne both.1 both.2

theorem Laid.run (laid : graph.Laid) (distinct : (Table.keys graph.instructions).Nodup) {start : Int} {block : Block}
    (found : Table.get? start graph.blocks = some block) :
    ∃ line rest, block.lines = line :: rest.map Prod.snd ∧
      (start, line) :: rest <+: graph.sorted.dropWhile fun entry => entry.1 < start := by
  obtain ⟨line, stop, present, lines⟩ := laid start block found
  have member : (start, line) ∈ graph.sorted := mem_mergeSort.mpr (Table.mem_of_get? present)
  obtain ⟨before, after, split⟩ := append_of_mem member
  have ascending := sorted_ascending distinct
  rw [split, pairwise_append, pairwise_cons] at ascending
  obtain ⟨_, ⟨above, _⟩, below⟩ := ascending
  have dropped : graph.sorted.dropWhile (fun entry => entry.1 < start) = (start, line) :: after := by
    have passed : ∀ entry ∈ before, decide (entry.1 < start) = true := fun entry member =>
      decide_eq_true (below entry member (start, line) mem_cons_self)
    rw [split, dropWhile_append_of_pos passed, dropWhile_cons_of_neg]
    simp
  have kept : graph.sorted.filter (fun entry => start < entry.1) = after := by
    have passed : before.filter (fun entry => start < entry.1) = [] := by
      rw [filter_eq_nil_iff]
      intro entry member
      have less : entry.1 < start := below entry member (start, line) mem_cons_self
      simpa using less.le
    have behind : after.filter (fun entry => start < entry.1) = after :=
      filter_eq_self.mpr fun entry member => decide_eq_true (above entry member)
    rw [split, filter_append, passed, filter_cons_of_neg (by simp), behind, nil_append]
  refine ⟨line, after.takeWhile fun entry => entry.1 ≤ stop, ?_, ?_⟩
  · rw [lines, linesBetween, kept]
  · rw [dropped]
    exact (prefix_cons_inj _).mpr (List.takeWhile_prefix _)

end Graph

theorem Explore.readListing_laid (formatted : String) (session : Session) :
    let graph := (readListing formatted session).session.graph
    graph.Laid ∧ (Table.keys graph.instructions).Nodup := by
  have distinct := Listing.collect_distinct (session.source.map (·.guide)) formatted
  unfold readListing
  dsimp only
  generalize Listing.collect (session.source.map (·.guide)) formatted = outcome at distinct ⊢
  obtain ⟨collected, fault⟩ := outcome
  have unbuilt : (withCollected collected session).graph.Laid := Graph.laid_of_unbuilt rfl
  cases fault with
  | some fault => exact ⟨unbuilt, distinct⟩
  | none =>
    dsimp only
    cases built : (withCollected collected session).graph.addBlocks with
    | error fault => exact ⟨unbuilt, distinct⟩
    | ok graph =>
      obtain ⟨laid, kept⟩ := Graph.addBlocks_laid built unbuilt
      obtain ⟨afterLaid, same⟩ := Graph.addFallEdgesAlong_laid
        (Graph.consecutive ((Table.keys graph.kinds).mergeSort (· ≤ ·))) laid
      refine ⟨afterLaid, ?_⟩
      show (Table.keys graph.addFallEdges.1.instructions).Nodup
      rw [Graph.addFallEdges, same.trans kept]
      exact distinct

open Instruction Exec Listing

/-- In the order of the addresses each instruction stands right behind the one before it. -/
def Graph.Contiguous (graph : Graph) : Prop :=
  graph.sorted.IsChain fun earlier later =>
    later.1 = earlier.1 + (Instruction.ofLine (Text.strip earlier.2)).size

/-- Only the last line of a block may leave the program counter where it is. -/
def Graph.StaysLast (graph : Graph) : Prop :=
  ∀ entry ∈ graph.blocks, ∀ line ∈ entry.2.lines.dropLast,
    Instruction.nameOf (Text.strip line) ∉ Instruction.stayingNames

namespace Explore

def Moment.place (moment : Moment) : Int × String :=
  (moment.machine.path.pc, moment.line)

variable {decider : Decider}

variable (decider) in
theorem moments_places (block : Int) (function : String) {run : List (Int × String)}
    (contiguous : run.IsChain fun earlier later =>
      later.1 = earlier.1 + (ofLine (Text.strip earlier.2)).size)
    (moving : ∀ line ∈ (run.map Prod.snd).dropLast, nameOf (Text.strip line) ∉ stayingNames)
    {machine : Machine}
    (atStart : ∀ entry ∈ run.head?, machine.path.pc = entry.1) :
    (moments decider block function (run.map Prod.snd) machine).map Moment.place <+: run := by
  induction run generalizing machine with
  | nil => exact prefix_rfl
  | cons entry rest ih =>
    obtain ⟨address, line⟩ := entry
    have here : machine.path.pc = address := atStart (address, line) rfl
    rw [map_cons, moments, map_cons]
    have first : Moment.place { block, function, line, machine } = (address, line) := by rw [Moment.place, here]
    rw [first, prefix_cons_inj]
    cases done : executeLine decider block function line machine with
    | error fault next => exact nil_prefix
    | ok value next =>
      cases rest with
      | nil => exact prefix_rfl
      | cons following more =>
        have stands : following.1 = address + (ofLine (Text.strip line)).size := contiguous.rel
        have moves : (ofLine (Text.strip line)).stride = (ofLine (Text.strip line)).size :=
          stride_of_name (moving line (by simp))
        refine ih contiguous.tail (fun line member => moving line ?_) ?_
        · exact mem_cons_of_mem _ member
        · rintro _ ⟨⟩
          rw [executeLine_pc done, here, moves, stands]

namespace Visit

theorem pc_of_mem_successors {visit next : Visit} (made : next ∈ visit.successors decider) :
    next.machine.path.pc = next.block := by
  obtain ⟨exit, _, member⟩ := exists_exit made
  obtain ⟨_, _, _, rfl, atStart⟩ := Exit.exists_of_mem_successors member
  exact atStart

section Tracking

variable {graph : Graph} (laid : graph.Laid) (distinct : (Table.keys graph.instructions).Nodup)
    (contiguous : graph.Contiguous) (staysLast : graph.StaysLast)

include laid distinct contiguous staysLast

variable (decider) in
theorem places_prefix {visit : Visit} (sameLayout : visit.machine.session.graph.layout = graph.layout)
    (atBlock : visit.machine.path.pc = visit.block) :
    (visit.moments decider).map Moment.place <+: graph.sorted.dropWhile fun entry => entry.1 < visit.block := by
  unfold moments
  split
  · next current function machine ready =>
    obtain ⟨_, path, found⟩ := of_ready ready
    have layout : (Table.get? visit.block graph.blocks).map Block.layout = some current.layout := by
      rw [← Table.get?_map]
      show Table.get? visit.block graph.layout = _
      rw [← sameLayout, Graph.layout, Table.get?_map, found]
      rfl
    obtain ⟨drawn, present, sameLines⟩ := Option.map_eq_some_iff.mp layout
    have lines : current.lines = drawn.lines := (congrArg Prod.fst sameLines).symm
    obtain ⟨line, rest, run, standing⟩ := laid.run distinct present
    have chain : ((visit.block, line) :: rest).IsChain fun earlier later =>
        later.1 = earlier.1 + (ofLine (Text.strip earlier.2)).size :=
      contiguous.infix (standing.isInfix.trans (dropWhile_suffix _).isInfix)
    have moving : ∀ line' ∈ (((visit.block, line) :: rest).map Prod.snd).dropLast,
        nameOf (Text.strip line') ∉ stayingNames := by
      rw [map_cons, ← run]
      exact staysLast _ (Table.mem_of_get? present)
    have atStart : ∀ entry ∈ ((visit.block, line) :: rest).head?, machine.path.pc = entry.1 := by
      rintro _ ⟨⟩
      rw [path, atBlock]
    have places := moments_places decider visit.block function chain moving atStart
    rw [map_cons, ← run, ← lines] at places
    exact places.trans standing
  · exact nil_prefix

theorem ownSteps_pc {visit : Visit} (sameLayout : visit.machine.session.graph.layout = graph.layout)
    (atBlock : visit.machine.path.pc = visit.block) :
    ∀ pc ∈ (visit.ownSteps decider).map Step.pc, pc ∈ Table.keys graph.instructions := by
  intro pc recorded
  obtain ⟨step, member, rfl⟩ := mem_map.mp recorded
  obtain ⟨moment, inside, noted⟩ := mem_filterMap.mp member
  have samePc : step.pc = moment.machine.path.pc := by
    unfold Moment.step? at noted
    split at noted
    · split at noted
      · cases noted
      · cases noted
        rfl
    · cases noted
  have places := places_prefix decider laid distinct contiguous staysLast sameLayout atBlock
  have sorted : moment.place ∈ graph.sorted := (dropWhile_suffix _).subset (places.subset (mem_map_of_mem inside))
  rw [samePc]
  exact mem_map.mpr ⟨moment.place, mem_mergeSort.mp sorted, rfl⟩

theorem tour_places {start : Visit} (sameLayout : start.machine.session.graph.layout = graph.layout)
    (atBlock : start.machine.path.pc = start.block) :
    (∀ visit ∈ start.tour decider,
      (visit.moments decider).map Moment.place <+: graph.sorted.dropWhile fun entry => entry.1 < visit.block) ∧
    ∀ pc ∈ (start.explored decider).session.visitedPcs,
      pc ∈ start.machine.session.visitedPcs ∨ pc ∈ Table.keys graph.instructions := by
  let holds (session : Session) : Prop :=
    session.graph.layout = graph.layout ∧
      ∀ pc ∈ session.visitedPcs, pc ∈ start.machine.session.visitedPcs ∨ pc ∈ Table.keys graph.instructions
  have arriving : ∀ visit : Visit, visit.machine.path.pc = visit.block → holds visit.machine.session →
      holds (visit.reached decider).session := by
    rintro visit entered ⟨layout, visited⟩
    refine ⟨?_, fun pc marked => ?_⟩
    · exact (congrArg Standing.layout (visit.lasting_reached decider)).trans layout
    · rcases (visit.mem_visitedPcs_reached decider pc).mp marked with before | own
      · exact visited pc before
      · exact .inr (ownSteps_pc laid distinct contiguous staysLast layout entered pc own)
  have fitting : ∀ visit : Visit, visit.machine.path.pc = visit.block →
      ∀ next ∈ visit.successors decider, next.machine.path.pc = next.block :=
    fun _ _ _ made => pc_of_mem_successors made
  have initially : holds start.machine.session := ⟨sameLayout, fun _ => .inl⟩
  obtain ⟨inside, behind⟩ := forall_tour_session (fun visit => visit.machine.path.pc = visit.block) holds
    (fun _ => Iff.rfl) (fun _ _ _ _ holds => holds) fitting arriving atBlock initially
  refine ⟨fun visit member => ?_, behind.2⟩
  obtain ⟨entered, layout, _⟩ := inside visit member
  exact places_prefix decider laid distinct contiguous staysLast layout entered

end Tracking

end Visit

/-- In the graph of a listing that is contiguous and in whose blocks only the last line stays, an exploration that enters
a block at its start executes every line at its own address, and visits only addresses of instructions. What it records
is what was executed there. -/
theorem exploration_tracks_addresses (decider : Decider) (formatted : String) (session : Session)
    (contiguous : (readListing formatted session).session.graph.Contiguous)
    (staysLast : (readListing formatted session).session.graph.StaysLast) {start : Visit}
    (sameLayout : start.machine.session.graph.layout = (readListing formatted session).session.graph.layout)
    (atBlock : start.machine.path.pc = start.block) :
    let graph := (readListing formatted session).session.graph
    (∀ visit ∈ start.tour decider,
      (visit.moments decider).map Moment.place <+: graph.sorted.dropWhile fun entry => entry.1 < visit.block) ∧
    (∀ pc ∈ (start.explored decider).session.visitedPcs,
      pc ∈ start.machine.session.visitedPcs ∨ pc ∈ Table.keys graph.instructions) ∧
    start.machine.Records (start.steps decider) (start.leaves decider).length (start.explored decider) := by
  obtain ⟨laid, distinct⟩ := readListing_laid formatted session
  obtain ⟨places, visited⟩ := Visit.tour_places laid distinct contiguous staysLast sameLayout atBlock
  exact ⟨places, visited, start.recorded⟩

def paidRead : Graph :=
  { instructions := [(0, "PUSH1 0x0a "), (2, "CALLVALUE "), (3, "GT "), (4, "PUSH1 0x08 "), (6, "JUMPI "), (7, "STOP "),
      (8, "JUMPDEST "), (9, "SUICIDE ")]
    ends := [(0, 6), (7, 7), (8, 9)]
    kinds := [(0, .conditional), (7, .terminal), (8, .terminal)] }

def paidBlocks : Graph :=
  { paidRead with
    blocks :=
      [(0,
          { start := 0
            stop := 6
            lines := ["PUSH1 0x0a ", "CALLVALUE ", "GT ", "PUSH1 0x08 ", "JUMPI "]
            kind := some .conditional }),
        (7, { start := 7, stop := 7, lines := ["STOP "], kind := some .terminal }),
        (8, { start := 8, stop := 9, lines := ["JUMPDEST ", "SUICIDE "], kind := some .terminal })]
    edges := [(0, []), (7, []), (8, [])] }

theorem sorted_paidRead : paidRead.sorted = paidRead.instructions :=
  mergeSort_of_pairwise (by decide)

theorem addBlocks_paidRead : paidRead.addBlocks = .ok paidBlocks := by
  have sorted := sorted_paidRead
  unfold Graph.sorted at sorted
  unfold Graph.addBlocks
  rw [sorted]
  rfl

def paidGraph : Graph :=
  { paidBlocks with
    blocks := Table.adjust 0 (fun block => { block with fallsTo := some (some 7) }) paidBlocks.blocks
    edges := [(0, [7]), (7, []), (8, [])] }

theorem addFallEdges_paid : paidBlocks.addFallEdges = (paidGraph, none) := by
  have ordered : [0, 7, 8].mergeSort (fun left right : Int => left ≤ right) = [0, 7, 8] :=
    mergeSort_of_pairwise (by decide)
  have keys : Table.keys paidBlocks.kinds = [0, 7, 8] := rfl
  unfold Graph.addFallEdges
  rw [keys, ordered]
  rfl

def silentSession : Session := { source := some {} }

theorem collected_paid : Graph.ofCollected (finish ((paidFirst :: paidRest).foldl readLine {})) = paidRead :=
  rfl

theorem readListing_paid :
    (readListing (written ['6', '0'] (paidFirst :: paidRest)) silentSession).session.graph = paidGraph := by
  have oneLine : '\n' ∉ ['6', '0'] ∧ '\r' ∉ ['6', '0'] := by decide
  have matched : Matches (silentSession.source.map (·.guide)) 0 (paidFirst :: paidRest) := by
    rintro places ⟨⟩
    exact .usedUp _
  obtain ⟨collected, read, graph⟩ := collect_written oneLine matched
  have blocks : (withCollected collected silentSession).graph.addBlocks = .ok paidBlocks := by
    have same : (withCollected collected silentSession).graph = paidRead := graph.trans collected_paid
    rw [same, addBlocks_paidRead]
  rw [readListing_eq read blocks addFallEdges_paid]

def paidStart : Visit where
  remaining := 3
  block := 0
  previous := 0
  function := "fallback"
  machine := { session := { silentSession with graph := paidGraph }, path := Path.initial }

theorem exploration_tracks_addresses_paid :
    let graph := (readListing (written ['6', '0'] (paidFirst :: paidRest)) silentSession).session.graph
    graph.Contiguous ∧ graph.StaysLast ∧ paidStart.machine.session.graph.layout = graph.layout ∧
    paidStart.machine.path.pc = paidStart.block ∧
    (∀ visit ∈ paidStart.tour .permissive,
      (visit.moments .permissive).map Moment.place <+: graph.sorted.dropWhile fun entry => entry.1 < visit.block) ∧
    (∀ pc ∈ (paidStart.explored .permissive).session.visitedPcs,
      pc ∈ paidStart.machine.session.visitedPcs ∨ pc ∈ Table.keys graph.instructions) ∧
    paidStart.machine.Records (paidStart.steps .permissive) (paidStart.leaves .permissive).length
      (paidStart.explored .permissive) := by
  intro graph
  have contiguous : graph.Contiguous := by
    have sorted : paidGraph.sorted = paidRead.instructions := sorted_paidRead
    rw [show graph = paidGraph from readListing_paid, Graph.Contiguous, sorted]
    decide +kernel
  have staysLast : graph.StaysLast := by
    rw [show graph = paidGraph from readListing_paid, Graph.StaysLast]
    decide +kernel
  have sameLayout : paidStart.machine.session.graph.layout = graph.layout := congrArg Graph.layout readListing_paid.symm
  exact ⟨contiguous, staysLast, sameLayout, rfl, exploration_tracks_addresses _ _ _ contiguous staysLast sameLayout rfl⟩

end Explore

end MintAudit
