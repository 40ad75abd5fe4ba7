import MintAudit.Explore.Run
import MintAudit.Proofs.Graph.Blocks

namespace MintAudit

/-!
# Graphs of listings

The graph that is read from a listing is well formed: its blocks are runs of the listing that start where a jump may
arrive or where one was not taken, and they run on into what stands directly behind them.
-/

/-! ## Lines and places in step -/

namespace Listing

def located (pair : Line × Option Place) : Option (Int × Place) :=
  pair.2.map fun place => ((pair.1.address : Int), place)

theorem foldl_locate (pairs : List (Line × Option Place)) (places : Table Int Place) :
    pairs.foldl (fun places pair => locate pair.1.address pair.2 places) places =
      (pairs.filterMap located).foldl (fun places entry => Table.put entry.1 entry.2 places) places := by
  induction pairs generalizing places with
  | nil => rfl
  | cons pair rest ih =>
    obtain ⟨line, entry⟩ := pair
    cases entry with
    | none => exact ih _
    | some place => exact ih _

theorem keys_located_sublist (lines : List Line) (told : List (Option Place)) :
    (Table.keys ((lines.zip told).filterMap located)).Sublist (lines.map fun line => (line.address : Int)) := by
  induction lines generalizing told with
  | nil => exact .slnil
  | cons line rest ih =>
    cases told with
    | nil => exact List.nil_sublist _
    | cons entry more =>
      cases entry with
      | none => exact (ih more).cons _
      | some place => exact (ih more).cons_cons _

/-- The reading of a listing goes through if and only if each of the compiler's entries is void or one of the line that
takes it; then the lines whose entries are not void have these as their places, and no other address has one. -/
theorem collect_aligned {code : List Char} (oneLine : '\n' ∉ code ∧ '\r' ∉ code) {lines : List Line}
    (distinct : (lines.map Line.address).Nodup) (places : List (Option Place)) :
    ((collect (some places) (written code lines)).2 = none ↔ ∀ pair ∈ lines.zip (entries places), Fits pair.1 pair.2) ∧
      ((∀ pair ∈ lines.zip (entries places), Fits pair.1 pair.2) →
        (collect (some places) (written code lines)).1.places = (lines.zip (entries places)).filterMap located) := by
  have start : ({} : Collected).AtLine := ⟨rfl, rfl, rfl⟩
  have new : (Table.keys ([] ++ (lines.zip (entries places)).filterMap located)).Nodup := by
    have addresses := distinct.map (@Nat.cast_injective Int _ _)
    rw [List.map_map] at addresses
    exact addresses.sublist (keys_located_sublist lines _)
  by_cases fits : ∀ pair ∈ lines.zip (entries places), Fits pair.1 pair.2
  · obtain ⟨final, read, atLine, _, located⟩ := @forM_lines (some places) {} lines start fits
    rw [collect_of_ok oneLine read atLine]
    refine ⟨⟨fun _ => fits, fun _ => rfl⟩, fun _ => ?_⟩
    change final.places = _
    rw [located, foldl_locate]
    exact Table.putAll_of_new new
  · obtain ⟨fault, stopped, stops⟩ := @forM_lines_stops (some places) {} lines start fits
    rw [collect_of_error oneLine stops]
    exact ⟨⟨nofun, fun all => (fits all).elim⟩, fun all => (fits all).elim⟩

def hashedLines : List Line :=
  [{ address := 0, name := "PUSH1", parts := [.arrow, .constant ['0', 'a']] }, { address := 2, name := "JUMPDEST" },
    { address := 3, name := "SHA3" }]

def hashedPlaces : List (Option Place) :=
  [some ⟨some "PUSH", some "A", none, none⟩, some ⟨some "tag", some "1", none, none⟩, none,
    some ⟨some "KECCAK256", none, some 7, some 9⟩]

theorem collect_aligned_hashed :
    ('\n' ∉ ['6', '0'] ∧ '\r' ∉ ['6', '0']) ∧ (hashedLines.map Line.address).Nodup ∧
    (collect (some hashedPlaces) (written ['6', '0'] hashedLines)).2 = none ∧
    (collect (some hashedPlaces) (written ['6', '0'] hashedLines)).1.places =
      [(0, ⟨some "PUSH", some "A", none, none⟩), (3, ⟨some "KECCAK256", none, some 7, some 9⟩)] ∧
    (collect (some (hashedPlaces.drop 1)) (written ['6', '0'] hashedLines)).2 ≠ none := by
  have oneLine : '\n' ∉ ['6', '0'] ∧ '\r' ∉ ['6', '0'] := by decide
  have distinct : (hashedLines.map Line.address).Nodup := by decide
  have aligned := collect_aligned oneLine distinct hashedPlaces
  have shifted := collect_aligned oneLine distinct (hashedPlaces.drop 1)
  have fits : ∀ pair ∈ hashedLines.zip (entries hashedPlaces), Fits pair.1 pair.2 := by
    refine List.forall_mem_cons.mpr ⟨?_, List.forall_mem_cons.mpr ⟨nofun, List.forall_mem_singleton.mpr ?_⟩⟩
    · rintro _ ⟨⟩
      refine ⟨"PUSH", rfl, ?_⟩
      rw [Suits, if_pos (by decide)]
      exact ⟨by decide, fun _ => ⟨"A", rfl, by decide⟩⟩
    · rintro _ ⟨⟩
      exact ⟨"KECCAK256", rfl, .inr (by decide)⟩
  refine ⟨oneLine, distinct, aligned.1.mpr fits, aligned.2 fits, fun goesOn => ?_⟩
  -- Without the first entry the hash is told of the start of the block.
  obtain ⟨_, second⟩ := List.forall_mem_cons.mp (shifted.1.mp goesOn)
  obtain ⟨name, named, suits⟩ := (List.forall_mem_singleton.mp second) _ rfl
  cases named
  revert suits
  rw [Suits, if_neg (by decide)]
  decide

end Listing

/-! ## Graphs -/

open Listing List

namespace Listing

section Runs

variable {run : List Line} (chain : run.IsChain fun earlier later => earlier.continues later = true)

include chain

theorem label_first_jump_last :
    (∀ line ∈ run.tail, line.isLabel = false) ∧ ∀ line ∈ run.dropLast, line.jumps = false := by
  induction run with
  | nil => exact ⟨nofun, nofun⟩
  | cons first rest ih =>
    cases rest with
    | nil => exact ⟨nofun, nofun⟩
    | cons next others =>
      obtain ⟨goesOn, further⟩ := isChain_cons_cons.mp chain
      simp only [Line.continues, Bool.not_eq_true', Bool.or_eq_false_iff] at goesOn
      rw [dropLast_cons_cons]
      exact ⟨forall_mem_cons.mpr ⟨goesOn.2, (ih further).1⟩, forall_mem_cons.mpr ⟨goesOn.1, (ih further).2⟩⟩

end Runs

namespace Line

theorem jumps_of_kind? {line : Line} {kind : JumpKind} (leaves : line.kind? = some kind) (goesOn : kind ≠ .terminal) :
    line.jumps = true ∧ (kind = .conditional ↔ line.name = "JUMPI") ∧ (kind = .unconditional ↔ line.name = "JUMP") := by
  unfold kind? at leaves
  split at leaves
  · next jump =>
    cases leaves
    simp [jumps, jump]
  · split at leaves
    · next branch =>
      cases leaves
      simp [jumps, branch]
    · split at leaves
      · cases leaves
        exact (goesOn rfl).elim
      · cases leaves

theorem kind?_of_name (line : Line) :
    (line.name = "JUMPI" → line.kind? = some .conditional) ∧ (line.name = "JUMP" → line.kind? = some .unconditional) := by
  constructor
  · intro branch
    simp [kind?, branch]
  · intro jump
    simp [kind?, jump]

end Line

theorem Segment.dropLast_concat (segment : Segment) : segment.lines = segment.lines.dropLast ++ [segment.last] := by
  have last := dropLast_append_getLast? segment.last (by rw [getLast?_lines]; rfl)
  exact last.symm

theorem Segment.kind?_eq_iff {segment : Segment}
    (chain : segment.lines.IsChain fun earlier later => earlier.continues later = true) {kind : JumpKind}
    (goesOn : kind ≠ .terminal) :
    segment.kind? = some kind ↔ segment.last.kind? = some kind := by
  constructor
  · intro left
    obtain ⟨line, found, leaves⟩ := Option.bind_eq_some_iff.mp left
    have jumps := (Line.jumps_of_kind? leaves goesOn).1
    have member : line ∈ segment.lines := mem_reverse.mp (mem_of_find?_eq_some found)
    rw [segment.dropLast_concat] at member
    rcases mem_append.mp member with inside | isLast
    · rw [(label_first_jump_last chain).2 line inside] at jumps
      cases jumps
    · rwa [← mem_singleton.mp isLast]
  · intro leaves
    rw [kind?, leaving?_of_last (by rw [leaves]; rfl)]
    exact leaves

theorem Segment.kind_iff_name {segment : Segment}
    (chain : segment.lines.IsChain fun earlier later => earlier.continues later = true) {missing : JumpKind}
    (other : missing = .terminal ∨ missing = .fallsTo) :
    (segment.kind?.getD missing = .conditional ↔ segment.last.name = "JUMPI") ∧
      (segment.kind?.getD missing = .unconditional ↔ segment.last.name = "JUMP") := by
  have given : ∀ kind : JumpKind, kind = .conditional ∨ kind = .unconditional →
      (segment.kind?.getD missing = kind ↔ segment.last.kind? = some kind) := by
    intro kind jump
    have goesOn : kind ≠ .terminal := by rcases jump with rfl | rfl <;> nofun
    have different : missing ≠ kind := by rcases other with rfl | rfl <;> rcases jump with rfl | rfl <;> nofun
    rw [← kind?_eq_iff chain goesOn]
    cases segment.kind? with
    | none => simp [different]
    | some found => simp
  constructor
  · rw [given _ (.inl rfl)]
    exact ⟨fun leaves => ((Line.jumps_of_kind? leaves nofun).2.1).mp rfl, (segment.last.kind?_of_name).1⟩
  · rw [given _ (.inr rfl)]
    exact ⟨fun leaves => ((Line.jumps_of_kind? leaves nofun).2.2).mp rfl, (segment.last.kind?_of_name).2⟩

theorem Segment.upTo_prefix (segment : Segment) (stop : Int) : segment.upTo stop <+: segment.lines :=
  prefix_cons_inj _ |>.mpr (List.takeWhile_prefix _)

namespace Cut

def lastRun (cut : Cut) : List Line :=
  cut.current.upTo (cut.openEnd?.getD (cut.current.last.address : Int))

variable {cut : Cut}

theorem ascending_current (ascending : Ascending cut.lines) : Ascending cut.current.lines := by
  rw [lines_eq] at ascending
  exact (pairwise_append.mp ascending).2.1

theorem lastRun_of_jumps (ascending : Ascending cut.lines) (jumps : cut.current.last.jumps = true) :
    cut.lastRun = cut.current.lines := by
  have closes : Closes cut.current ((cut.current.first.address : Int), (cut.current.last.address : Int)) :=
    ⟨rfl, .inl rfl⟩
  rw [lastRun, Held.openEnd?_of_leaves (Line.kind?_of_jumps jumps)]
  exact closes.upTo_eq (ascending_current ascending)

theorem lastRun_kind (sound : cut.Sound) (ascending : Ascending cut.lines) :
    (cut.current.kind?.getD .terminal = .conditional ↔ ∃ last ∈ cut.lastRun.getLast?, last.name = "JUMPI") ∧
      (cut.current.kind?.getD .terminal = .unconditional ↔ ∃ last ∈ cut.lastRun.getLast?, last.name = "JUMP") := by
  have chain := sound.within cut.current (by simp [segments])
  obtain ⟨conditional, unconditional⟩ := Segment.kind_iff_name chain (.inl rfl : JumpKind.terminal = _ ∨ _)
  rw [conditional, unconditional]
  cases jumps : cut.current.last.jumps with
  | true =>
    rw [lastRun_of_jumps ascending jumps, Segment.getLast?_lines]
    simp
  | false =>
    have none : ∀ line ∈ cut.current.lines, line.jumps = false := by
      rw [cut.current.dropLast_concat]
      refine forall_mem_append.mpr ⟨(label_first_jump_last chain).2, fun line isLast => ?_⟩
      rw [mem_singleton.mp isLast, jumps]
    have noName : ∀ line ∈ cut.current.lines, line.name ≠ "JUMPI" ∧ line.name ≠ "JUMP" := by
      intro line member
      have noJump := none line member
      simp only [Line.jumps, Bool.or_eq_false_iff, beq_eq_false_iff_ne] at noJump
      exact noJump.symm
    have within : ∀ line ∈ cut.lastRun.getLast?, line ∈ cut.current.lines := fun line isLast =>
      (cut.current.upTo_prefix _).subset (mem_of_getLast? isLast)
    have last := noName cut.current.last cut.current.last_mem
    constructor
    · refine iff_of_false last.1 ?_
      rintro ⟨line, isLast, name⟩
      exact (noName line (within line isLast)).1 name
    · refine iff_of_false last.2 ?_
      rintro ⟨line, isLast, name⟩
      exact (noName line (within line isLast)).2 name

theorem Sound.splitBy_lines (sound : cut.Sound) :
    cut.lines.splitBy Line.continues = cut.segments.map Segment.lines := by
  have flat : cut.lines = (cut.segments.map Segment.lines).flatten := flatMap_def
  rw [flat]
  refine splitBy_flatten ?_ ?_ ?_
  · simp [Segment.lines]
  · rintro run member
    obtain ⟨segment, inSegments, rfl⟩ := mem_map.mp member
    exact sound.within segment inSegments
  · rw [isChain_map]
    refine sound.between.imp fun earlier later breaks => ?_
    have nonempty : ∀ segment : Segment, segment.lines ≠ [] := fun segment => by simp [Segment.lines]
    refine ⟨nonempty earlier, nonempty later, ?_⟩
    have last : earlier.lines.getLast (nonempty earlier) = earlier.last := by
      have found := earlier.getLast?_lines
      rwa [getLast?_eq_some_getLast (nonempty earlier), Option.some.injEq] at found
    rw [last]
    exact breaks

end Cut

/-- Whether the block of the last segment has an end from before it began: its label stands at the start of the listing or
behind a jump that is not a block by itself. -/
def endsStale (before : List (List Line)) (segment : List Line) : Bool :=
  segment.head?.any Line.isLabel &&
    match before.getLast? with
    | none => true
    | some previous => previous.getLast?.any Line.jumps && 1 < previous.length

/-- The lines of the last segment that its block holds: those up to the last one that is seen to leave it; if there is
none, only the label or all of them. -/
def lastBlock (before : List (List Line)) (segment : List Line) : List Line :=
  if segment.any (·.kind?.isSome) then segment.rdropWhile (·.kind?.isNone)
  else if endsStale before segment then segment.take 1
  else segment

theorem Segment.upTo_append {segment : Segment} {front back : List Line} {line : Line}
    (shape : segment.lines = front ++ line :: back) (ascending : Ascending segment.lines) :
    segment.upTo line.address = front ++ [line] := by
  have parts := ascending
  rw [shape] at parts
  obtain ⟨_, own, before⟩ := pairwise_append.mp parts
  have upToLine : ∀ other ∈ front ++ [line], decide ((other.address : Int) ≤ line.address) = true := by
    refine forall_mem_append.mpr ⟨fun other member => ?_, fun other isLine => ?_⟩
    · have less := before other member line mem_cons_self
      simp only [decide_eq_true_eq]
      omega
    · simp [mem_singleton.mp isLine]
  have beyond : ∀ other ∈ back, ¬decide ((other.address : Int) ≤ line.address) = true := by
    intro other member
    have less := (pairwise_cons.mp own).1 other member
    simp only [decide_eq_true_eq]
    omega
  have split : segment.lines = (front ++ [line]) ++ back := by simp [shape]
  have first : decide ((segment.first.address : Int) ≤ line.address) = true := by
    refine upToLine segment.first ?_
    cases front with
    | nil => exact mem_singleton.mpr (List.cons.inj shape).1
    | cons other others => exact mem_append_left _ (by rw [(List.cons.inj shape).1]; exact mem_cons_self)
  have whole : segment.upTo line.address =
      segment.lines.takeWhile fun other => decide ((other.address : Int) ≤ line.address) := by
    rw [upTo, lines, takeWhile_cons, first, if_pos rfl]
  rw [whole, split, takeWhile_append_of_forall_not beyond, takeWhile_eq_self_iff.mpr upToLine]

theorem Segment.upTo_of_le {segment : Segment} (ascending : Ascending segment.lines) {stop : Int}
    (atMost : stop ≤ segment.first.address) :
    segment.upTo stop = [segment.first] := by
  rw [upTo]
  congr 1
  cases shape : segment.rest with
  | nil => rfl
  | cons next others =>
    have less := (pairwise_cons.mp ascending).1 next (by simp [shape])
    exact takeWhile_cons_of_neg (by simp only [decide_eq_true_eq]; omega)

namespace Cut

variable {cut : Cut}

theorem staleEnd?_isSome (cut : Cut) :
    cut.staleEnd?.isSome = endsStale (cut.closed.map Segment.lines) cut.current.lines := by
  have head : cut.current.lines.head?.any Line.isLabel = cut.current.first.isLabel := rfl
  rw [staleEnd?, endsStale, head, getLast?_map]
  cases cut.current.first.isLabel with
  | false => rfl
  | true =>
    cases cut.closed.getLast? with
    | none => rfl
    | some previous =>
      have long : decide (1 < previous.lines.length) = !previous.rest.isEmpty := by
        cases shape : previous.rest <;> simp [Segment.lines, shape]
      simp only [Option.map_some, Segment.getLast?_lines, Option.any_some, long, Bool.true_and, if_true]
      cases previous.last.jumps && !previous.rest.isEmpty <;> rfl

theorem lastRun_eq (ascending : Ascending cut.lines) :
    cut.lastRun = lastBlock (cut.closed.map Segment.lines) cut.current.lines := by
  have own := ascending_current ascending
  cases leaving : cut.current.leaving? with
  | some line =>
    obtain ⟨leaves, after, before, shape, noneAfter⟩ := find?_eq_some_iff_append.mp leaving
    have lines : cut.current.lines = before.reverse ++ line :: after.reverse := by
      rw [← reverse_reverse cut.current.lines, shape]
      simp
    have someLeaves : cut.current.lines.any (·.kind?.isSome) = true := any_eq_true.mpr ⟨line, by simp [lines], leaves⟩
    have dropped : cut.current.lines.rdropWhile (·.kind?.isNone) = before.reverse ++ [line] := by
      rw [List.rdropWhile, shape, dropWhile_append_of_pos, dropWhile_cons_of_neg, reverse_cons]
      · simpa [← Option.isSome_iff_ne_none] using leaves
      · intro other member
        simpa using noneAfter other member
    have recorded : cut.openEnd? = some (line.address : Int) := by
      rw [openEnd?, leaving]
      rfl
    rw [lastRun, recorded, Option.getD_some, Segment.upTo_append lines own, lastBlock, if_pos someLeaves, dropped]
  | none =>
    have noneLeaves : ¬cut.current.lines.any (·.kind?.isSome) = true := by
      rw [Bool.not_eq_true, any_eq_false]
      intro line member
      exact find?_eq_none.mp leaving line (mem_reverse.mpr member)
    have recorded : cut.openEnd? = cut.staleEnd? := by
      rw [openEnd?, leaving]
      rfl
    rw [lastRun, recorded, lastBlock, if_neg noneLeaves, ← staleEnd?_isSome]
    cases stale : cut.staleEnd? with
    | some stop =>
      rw [Option.getD_some, Segment.upTo_of_le own (Held.staleEnd?_le ascending stale)]
      rfl
    | none =>
      have closes : Closes cut.current ((cut.current.first.address : Int), (cut.current.last.address : Int)) :=
        ⟨rfl, .inl rfl⟩
      rw [Option.getD_none, closes.upTo_eq own]
      rfl

end Cut

end Listing

namespace Graph

structure BlockOf (graph : Graph) (lines : List Line) (start : Int) (run : List Line) : Prop where
  begins : run.head?.map (fun first => (first.address : Int)) = some start
  contiguous : run <:+: lines
  labelFirst : ∀ line ∈ run.tail, line.isLabel = false
  jumpLast : ∀ line ∈ run.dropLast, line.jumps = false
  block : ∃ block, Table.get? start graph.blocks = some block ∧ block.lines = run.map Line.content ∧
    (block.kind = some .conditional ↔ ∃ last ∈ run.getLast?, last.name = "JUMPI") ∧
    (block.kind = some .unconditional ↔ ∃ last ∈ run.getLast?, last.name = "JUMP") ∧
    (block.kind = some .conditional ∨ block.kind = some .fallsTo →
      (∃ larger ∈ Table.keys graph.blocks, start < larger) →
        ∃ last ∈ run.getLast?, ∃ next, Follows lines last next ∧ block.fallsTo = some (some (next.address : Int)) ∧
          (next.address : Int) ∈ Table.keys graph.blocks ∧
          ∃ targets, Table.get? start graph.edges = some targets ∧ (next.address : Int) ∈ targets)

/-- The blocks of a graph fit a listing. -/
structure WellFormed (graph : Graph) (lines : List Line) : Prop where
  starts : ∀ start, start ∈ Table.keys graph.blocks ↔
    start = 0 ∨ (∃ line ∈ lines, line.isLabel = true ∧ start = line.address) ∨
      ∃ earlier line, Follows lines earlier line ∧ earlier.jumps = true ∧ start = line.address
  blocks : ∃ runs, List.Forall₂ (graph.BlockOf lines) (Table.keys graph.blocks) runs ∧ runs.Pairwise List.Disjoint

namespace Draws

variable {graph : Graph} {cut : Cut}

theorem mem_starts (sound : cut.Sound) {first : Line} (isFirst : cut.lines.head? = some first)
    (atZero : first.address = 0) (start : Int) :
    start ∈ cut.starts ↔
      start = 0 ∨ (∃ line ∈ cut.lines, line.isLabel = true ∧ start = line.address) ∨
        ∃ earlier line, Follows cut.lines earlier line ∧ earlier.jumps = true ∧ start = line.address := by
  have asLine : start ∈ cut.starts ↔ ∃ line ∈ cut.segments.map Segment.first, start = line.address := by
    constructor
    · intro member
      obtain ⟨segment, inSegments, rfl⟩ := mem_map.mp member
      exact ⟨segment.first, mem_map_of_mem inSegments, rfl⟩
    · rintro ⟨line, member, rfl⟩
      obtain ⟨segment, inSegments, rfl⟩ := mem_map.mp member
      exact mem_map.mpr ⟨segment, inSegments, rfl⟩
  rw [asLine]
  constructor
  · rintro ⟨line, member, rfl⟩
    rcases (sound.starts line).mp member with atHead | ⟨inLines, label⟩ | ⟨earlier, follows, jumps⟩
    · rw [isFirst] at atHead
      cases atHead
      exact .inl (by exact_mod_cast atZero)
    · exact .inr (.inl ⟨line, inLines, label, rfl⟩)
    · exact .inr (.inr ⟨earlier, line, follows, jumps, rfl⟩)
  · rintro (rfl | ⟨line, inLines, label, rfl⟩ | ⟨earlier, line, follows, jumps, rfl⟩)
    · exact ⟨first, (sound.starts first).mpr (.inl isFirst), by exact_mod_cast atZero.symm⟩
    · exact ⟨line, (sound.starts line).mpr (.inr (.inl ⟨inLines, label⟩)), rfl⟩
    · exact ⟨line, (sound.starts line).mpr (.inr (.inr ⟨earlier, follows, jumps⟩)), rfl⟩

theorem blockOf_closed (draws : graph.Draws cut) (sound : cut.Sound) {segment : Segment}
    (closed : segment ∈ cut.closed) :
    graph.BlockOf cut.lines segment.first.address segment.lines := by
  have member : segment ∈ cut.segments := mem_append_left _ closed
  have chain := sound.within segment member
  obtain ⟨block, found, lines, kind⟩ := draws.closed segment closed
  obtain ⟨conditional, unconditional⟩ := Segment.kind_iff_name chain (.inr rfl : JumpKind.fallsTo = _ ∨ _)
  obtain ⟨labelFirst, jumpLast⟩ := label_first_jump_last chain
  refine ⟨rfl, ?_, labelFirst, jumpLast, block, found, lines, ?_, ?_, ?_⟩
  · obtain ⟨before, after, split⟩ := append_of_mem member
    exact ⟨before.flatMap Segment.lines, after.flatMap Segment.lines, by simp [Cut.lines, split]⟩
  · rw [kind, Option.some.injEq, conditional, Segment.getLast?_lines]
    simp
  · rw [kind, Option.some.injEq, unconditional, Segment.getLast?_lines]
    simp
  · intro runsOn _
    obtain ⟨before, between, split⟩ := append_of_mem closed
    obtain ⟨next, rest, behind⟩ : ∃ next rest, between ++ [cut.current] = next :: rest := by
      cases between with
      | nil => exact ⟨cut.current, [], rfl⟩
      | cons next rest => exact ⟨next, rest ++ [cut.current], rfl⟩
    have shape : cut.segments = before ++ segment :: next :: rest := by
      rw [Cut.segments, split, List.append_assoc, List.cons_append, behind]
    rw [kind] at runsOn
    obtain ⟨same, atStart, fallsTo, targets⟩ := draws.falls before segment next rest shape
      (by rcases runsOn with isKind | isKind <;> rw [Option.some.inj isKind] <;> decide)
      (by rcases runsOn with isKind | isKind <;> rw [Option.some.inj isKind] <;> decide)
    rw [found] at atStart
    cases atStart
    refine ⟨segment.last, Segment.getLast?_lines segment, next.first, ?_, fallsTo, ?_, _, targets, by simp⟩
    · refine ⟨before.flatMap Segment.lines ++ segment.lines.dropLast, next.rest ++ rest.flatMap Segment.lines, ?_⟩
      rw [Cut.lines, shape, flatMap_append, flatMap_cons, flatMap_cons, segment.dropLast_concat]
      simp [Segment.lines]
    · rw [draws.starts, Cut.starts, shape]
      simp

theorem blockOf_current (draws : graph.Draws cut) (sound : cut.Sound) (ascending : Ascending cut.lines) :
    graph.BlockOf cut.lines cut.current.first.address cut.lastRun := by
  have chain := sound.within cut.current (by simp [Cut.segments])
  have shorter := cut.current.upTo_prefix (cut.openEnd?.getD (cut.current.last.address : Int))
  have runChain := chain.prefix shorter
  obtain ⟨block, found, lines, kind⟩ := draws.current
  obtain ⟨conditional, unconditional⟩ := Cut.lastRun_kind sound ascending
  obtain ⟨labelFirst, jumpLast⟩ := label_first_jump_last runChain
  refine ⟨rfl, ?_, labelFirst, jumpLast, block, found, lines, ?_, ?_, ?_⟩
  · rw [Cut.lines_eq]
    exact shorter.isInfix.trans (suffix_append _ _).isInfix
  · rw [kind, Option.some.injEq, conditional]
  · rw [kind, Option.some.injEq, unconditional]
  · rintro _ ⟨larger, member, less⟩
    rw [draws.starts] at member
    have increasing := starts_ascending ascending
    rw [Cut.starts, Cut.segments, map_append] at member increasing
    rcases mem_append.mp member with earlier | isLast
    · have before := (pairwise_append.mp increasing).2.2 larger earlier _ (mem_singleton_self _)
      simp only at before
      omega
    · have same := mem_singleton.mp isLast
      simp only at same
      omega

theorem runs_disjoint (ascending : Ascending cut.lines) :
    (cut.closed.map Segment.lines ++ [cut.lastRun]).Pairwise List.Disjoint := by
  have distinct : cut.lines.Nodup := ascending.imp fun less same => by simp [same] at less
  rw [Cut.lines, nodup_flatMap, Cut.segments] at distinct
  obtain ⟨closed, _, apart⟩ := pairwise_append.mp distinct.2
  refine pairwise_append.mpr ⟨pairwise_map.mpr closed, pairwise_singleton _ _, ?_⟩
  intro run inClosed last isLast
  obtain ⟨segment, member, rfl⟩ := mem_map.mp inClosed
  rw [mem_singleton.mp isLast]
  have whole := apart segment member cut.current (mem_singleton_self _)
  exact disjoint_of_subset_right (cut.current.upTo_prefix _).subset whole

theorem wellFormed (draws : graph.Draws cut) (sound : cut.Sound) (ascending : Ascending cut.lines) {first : Line}
    (isFirst : cut.lines.head? = some first) (atZero : first.address = 0) :
    graph.WellFormed cut.lines := by
  refine ⟨fun start => ?_, cut.closed.map Segment.lines ++ [cut.lastRun], ?_, runs_disjoint ascending⟩
  · rw [draws.starts]
    exact mem_starts sound isFirst atZero start
  · rw [draws.starts, Cut.starts, Cut.segments, map_append]
    refine rel_append ?_ (.cons (draws.blockOf_current sound ascending) .nil)
    rw [forall₂_map_left_iff, forall₂_map_right_iff, forall₂_same]
    exact fun segment closed => draws.blockOf_closed sound closed

end Draws

end Graph

namespace Explore

section Reading

variable {code : List Char} {session : Session} {first : Line} {rest : List Line}

theorem readListing_eq {formatted : String} {collected : Collected} {built after : Graph}
    (read : collect (session.source.map (·.guide)) formatted = (collected, none))
    (blocks : (withCollected collected session).graph.addBlocks = .ok built)
    (edges : built.addFallEdges = (after, none)) :
    readListing formatted session =
      { session := { withCollected collected session with graph := after }, formatted := some formatted } := by
  unfold readListing
  dsimp only
  rw [read]
  dsimp only
  rw [blocks]
  dsimp only
  rw [edges]
  rfl

theorem readListing_draws (oneLine : '\n' ∉ code ∧ '\r' ∉ code) (atZero : first.address = 0)
    (ascending : Ascending (first :: rest)) (matched : Matches (session.source.map (·.guide)) 0 (first :: rest)) :
    (readListing (written code (first :: rest)) session).failure = none ∧
      (readListing (written code (first :: rest)) session).session.graph.Draws (Cut.ofLines first rest) := by
  obtain ⟨collected, read, graph⟩ := collect_written oneLine matched
  have lines := Cut.lines_ofLines first rest
  obtain ⟨built, after, blocks, edges, draws⟩ := (held_ofLines atZero ascending).draws (by rwa [lines])
  have added : (withCollected collected session).graph.addBlocks = .ok built := by
    rw [← blocks, ← graph]
    rfl
  rw [readListing_eq read added edges]
  exact ⟨rfl, draws⟩

/-- The graph of a listing is well formed: its blocks start at the first line, at the labels and behind the jumps, each is
a run of lines with labels only in front and jumps only at the end, its kind tells the jump it ends with, and a block that
may run on has an edge to what stands directly behind it. -/
theorem readListing_wellFormed (oneLine : '\n' ∉ code ∧ '\r' ∉ code) (atZero : first.address = 0)
    (ascending : Ascending (first :: rest)) (matched : Matches (session.source.map (·.guide)) 0 (first :: rest)) :
    (readListing (written code (first :: rest)) session).failure = none ∧
      (readListing (written code (first :: rest)) session).session.graph.WellFormed (first :: rest) := by
  obtain ⟨noFault, draws⟩ := readListing_draws oneLine atZero ascending matched
  have lines := Cut.lines_ofLines first rest
  have wellFormed := draws.wellFormed (Cut.sound_ofLines first rest) (by rwa [lines]) (by rw [lines]; rfl) atZero
  rw [lines] at wellFormed
  exact ⟨noFault, wellFormed⟩

def paidRest : List Line :=
  [{ address := 2, name := "CALLVALUE" }, { address := 3, name := "GT" },
    { address := 4, name := "PUSH1", parts := [.arrow, .constant ['0', '8']] }, { address := 6, name := "JUMPI" },
    { address := 7, name := "STOP" }, { address := 8, name := "JUMPDEST" }, { address := 9, name := "SUICIDE" }]

def paidFirst : Line :=
  { address := 0, name := "PUSH1", parts := [.arrow, .constant ['0', 'a']] }

def paidSession : Session :=
  { source := some { guide := [some ⟨some "PUSH", some "A", none, none⟩, some ⟨some "CALLVALUE", none, none, none⟩,
      some ⟨some "GT", none, none, none⟩, some ⟨some "PUSH [tag]", some "1", none, none⟩,
      some ⟨some "JUMPI", none, none, none⟩, some ⟨some "STOP", none, none, none⟩,
      some ⟨some "tag", some "1", none, none⟩, some ⟨some "JUMPDEST", none, none, none⟩,
      some ⟨some "SELFDESTRUCT", none, none, none⟩] } }

theorem paid_matches : Matches (paidSession.source.map (·.guide)) 0 (paidFirst :: paidRest) := by
  rintro places ⟨⟩
  refine .suits rfl (by decide) ?_ (.suits rfl (by decide) ?_ (.suits rfl (by decide) ?_ (.suits rfl (by decide) ?_
    (.suits rfl (by decide) ?_ (.suits rfl (by decide) ?_ (.mark rfl (by decide) (.suits rfl (by decide) ?_
      (.suits rfl (by decide) ?_ (.atEnd _)))))))))
  · rw [Suits, if_pos (by decide)]
    exact ⟨by decide, fun _ => ⟨"A", rfl, by decide⟩⟩
  · exact .inl rfl
  · exact .inl rfl
  · rw [Suits, if_pos (by decide)]
    exact ⟨by decide, by decide⟩
  · exact .inl rfl
  · exact .inl rfl
  · exact .inl rfl
  · exact .inr (by decide)

theorem readListing_wellFormed_paid :
    ('\n' ∉ ['6', '0'] ∧ '\r' ∉ ['6', '0']) ∧ paidFirst.address = 0 ∧ Ascending (paidFirst :: paidRest) ∧
    Matches (paidSession.source.map (·.guide)) 0 (paidFirst :: paidRest) ∧
    (readListing (written ['6', '0'] (paidFirst :: paidRest)) paidSession).failure = none ∧
    (readListing (written ['6', '0'] (paidFirst :: paidRest)) paidSession).session.graph.WellFormed
      (paidFirst :: paidRest) := by
  have oneLine : '\n' ∉ ['6', '0'] ∧ '\r' ∉ ['6', '0'] := by decide
  have ascending : Ascending (paidFirst :: paidRest) := by
    unfold Ascending
    decide
  exact ⟨oneLine, rfl, ascending, paid_matches, readListing_wellFormed oneLine rfl ascending paid_matches⟩

/-- The blocks are the pieces of the listing between labels and jumps. Instructions that halt do not end them, and the
last one may be cut off: behind the last instruction that is seen to leave it, or right behind its label. -/
theorem readListing_blocks (oneLine : '\n' ∉ code ∧ '\r' ∉ code) (atZero : first.address = 0)
    (ascending : Ascending (first :: rest)) (matched : Matches (session.source.map (·.guide)) 0 (first :: rest)) :
    let graph := (readListing (written code (first :: rest)) session).session.graph
    let pieces := (first :: rest).splitBy Line.continues
    Table.keys graph.blocks = pieces.filterMap (fun piece => piece.head?.map fun line => (line.address : Int)) ∧
    ∀ before piece after, pieces = before ++ piece :: after →
      ∃ line block, piece.head? = some line ∧ Table.get? (line.address : Int) graph.blocks = some block ∧
        block.lines = (if after = [] then lastBlock before piece else piece).map Line.content := by
  obtain ⟨_, draws⟩ := readListing_draws oneLine atZero ascending matched
  have lines := Cut.lines_ofLines first rest
  have pieces := (Cut.sound_ofLines first rest).splitBy_lines
  rw [lines] at pieces
  intro graph
  rw [pieces]
  refine ⟨?_, fun before piece after split => ?_⟩
  · rw [draws.starts, Cut.starts, filterMap_map, ← filterMap_eq_map]
    rfl
  · rw [Cut.segments, map_append] at split
    cases after using List.reverseRecOn with
    | nil =>
      obtain ⟨closed, last⟩ := append_inj' split rfl
      obtain ⟨block, found, held, _⟩ := draws.current
      have same : (Cut.ofLines first rest).current.lines = piece := (List.cons.inj last).1
      refine ⟨_, block, by rw [← same]; rfl, found, ?_⟩
      rw [if_pos rfl, ← closed, ← same, ← Cut.lastRun_eq (by rwa [lines])]
      exact held
    | append_singleton others final =>
      rw [← List.cons_append, ← List.append_assoc] at split
      have closed : piece ∈ (Cut.ofLines first rest).closed.map Segment.lines := by
        rw [(append_inj' split rfl).1]
        simp
      obtain ⟨segment, member, rfl⟩ := mem_map.mp closed
      obtain ⟨block, found, held, _⟩ := draws.closed segment member
      exact ⟨segment.first, block, rfl, found, by rwa [if_neg (by simp)]⟩

def haltedRest : List Line :=
  [{ address := 1, name := "STOP" }, { address := 2, name := "ADD" }, { address := 3, name := "JUMPDEST" },
    { address := 4, name := "CALLER" }, { address := 5, name := "JUMP" }, { address := 6, name := "JUMPDEST" },
    { address := 7, name := "CALLER" }, { address := 8, name := "POP" }]

def haltedFirst : Line :=
  { address := 0, name := "CALLVALUE" }

theorem readListing_blocks_halted :
    ('\n' ∉ ['6', '0'] ∧ '\r' ∉ ['6', '0']) ∧ haltedFirst.address = 0 ∧ Ascending (haltedFirst :: haltedRest) ∧
    Matches none 0 (haltedFirst :: haltedRest) ∧
    (∃ block, Table.get? 0
        (readListing (written ['6', '0'] (haltedFirst :: haltedRest)) {}).session.graph.blocks = some block ∧
      block.lines = ["CALLVALUE ", "STOP ", "ADD "]) ∧
    ∃ block, Table.get? 6
        (readListing (written ['6', '0'] (haltedFirst :: haltedRest)) {}).session.graph.blocks = some block ∧
      block.lines = ["JUMPDEST "] := by
  have oneLine : '\n' ∉ ['6', '0'] ∧ '\r' ∉ ['6', '0'] := by decide
  have ascending : Ascending (haltedFirst :: haltedRest) := by
    unfold Ascending
    decide
  have matched : Matches none 0 (haltedFirst :: haltedRest) := nofun
  have blocks := @readListing_blocks ['6', '0'] {} haltedFirst haltedRest oneLine rfl ascending matched
  refine ⟨oneLine, rfl, ascending, matched, ?_, ?_⟩
  · obtain ⟨line, block, isHead, found, lines⟩ := blocks.2 [] _ _ rfl
    cases isHead
    exact ⟨block, found, lines⟩
  · obtain ⟨line, block, isHead, found, lines⟩ := blocks.2 [_, _] _ [] rfl
    cases isHead
    exact ⟨block, found, lines⟩

end Reading

end Explore

end MintAudit
