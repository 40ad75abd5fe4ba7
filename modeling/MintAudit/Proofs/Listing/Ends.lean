import MintAudit.Proofs.Listing.Reading

namespace MintAudit

/-!
# Segments of a listing and their ends

What the reader has recorded about blocks after some lines is told by the segments it has closed and the one it is in.
-/

/-! ## The segments of a listing -/

open List hiding keys

namespace Listing

def Line.isLabel (line : Line) : Bool :=
  line.name == "JUMPDEST"

def Line.jumps (line : Line) : Bool :=
  line.name == "JUMP" || line.name == "JUMPI"

def Line.kind? (line : Line) : Option JumpKind :=
  if line.name = "JUMP" then some .unconditional
  else if line.name = "JUMPI" then some .conditional
  else if terminals.contains line.name then some .terminal
  else none

def Line.entry (line : Line) : Int × String :=
  (line.address, line.content)

/-- Whether a line belongs to the segment of the line before it. -/
def Line.continues (earlier later : Line) : Bool :=
  !(earlier.jumps || later.isLabel)

structure Segment where
  first : Line
  rest : List Line

namespace Segment

def lines (segment : Segment) : List Line :=
  segment.first :: segment.rest

def last (segment : Segment) : Line :=
  segment.rest.getLastD segment.first

def add (segment : Segment) (line : Line) : Segment :=
  ⟨segment.first, segment.rest ++ [line]⟩

def leaving? (segment : Segment) : Option Line :=
  segment.lines.reverse.find? (·.kind?.isSome)

def kind? (segment : Segment) : Option JumpKind :=
  segment.leaving?.bind Line.kind?

def kindPair? (segment : Segment) : Option (Int × JumpKind) :=
  segment.kind?.map fun kind => ((segment.first.address : Int), kind)

variable (segment : Segment) (line : Line)

@[simp] theorem lines_add : (segment.add line).lines = segment.lines ++ [line] := rfl

@[simp] theorem last_add : (segment.add line).last = line := by
  simp [add, last]

@[simp] theorem leaving?_add :
    (segment.add line).leaving? = if line.kind?.isSome then some line else segment.leaving? := by
  simp only [leaving?, lines_add, List.reverse_append, reverse_cons, reverse_nil, nil_append,
    singleton_append, find?_cons]
  cases line.kind?.isSome <;> rfl

theorem single_or_add : segment = ⟨segment.first, []⟩ ∨ ∃ shorter : Segment, ∃ line, segment = shorter.add line := by
  obtain ⟨first, rest⟩ := segment
  cases rest using List.reverseRecOn with
  | nil => exact .inl rfl
  | append_singleton others line => exact .inr ⟨⟨first, others⟩, line, rfl⟩

theorem kind?_add : (segment.add line).kind? = line.kind?.or segment.kind? := by
  rw [kind?, leaving?_add]
  cases shape : line.kind? with
  | none => rfl
  | some kind => simp [shape]

theorem leaving?_single : (⟨line, []⟩ : Segment).leaving? = if line.kind?.isSome then some line else none := by
  cases shape : line.kind?.isSome <;> simp [leaving?, lines, shape]

theorem kind?_single : (⟨line, []⟩ : Segment).kind? = line.kind? := by
  rw [kind?, leaving?_single]
  cases shape : line.kind? with
  | none => rfl
  | some kind => simp [shape]

theorem filterMap_snoc (segments : List Segment) (segment : Segment) :
    (segments ++ [segment]).filterMap kindPair? = segments.filterMap kindPair? ++ segment.kindPair?.toList := by
  rw [filterMap_append]
  cases shape : segment.kindPair? <;> simp [shape]

theorem mem_of_mem_keys {segments : List Segment} {key : Int}
    (member : key ∈ Table.keys (segments.filterMap kindPair?)) :
    ∃ segment ∈ segments, key = segment.first.address := by
  obtain ⟨entry, inEntries, rfl⟩ := mem_map.mp member
  obtain ⟨segment, inSegments, same⟩ := mem_filterMap.mp inEntries
  obtain ⟨kind, _, rfl⟩ := Option.map_eq_some_iff.mp same
  exact ⟨segment, inSegments, rfl⟩

theorem last_mem : segment.last ∈ segment.lines := by
  rcases segment.single_or_add with shape | ⟨shorter, line, rfl⟩
  · rw [shape]
    simp [last, lines]
  · simp

theorem getLast?_lines : segment.lines.getLast? = some segment.last := by
  rcases segment.single_or_add with shape | ⟨shorter, line, rfl⟩
  · rw [shape]
    rfl
  · simp

theorem leaving?_of_last {segment : Segment} (leaves : segment.last.kind?.isSome) :
    segment.leaving? = some segment.last := by
  rcases segment.single_or_add with shape | ⟨shorter, line, rfl⟩
  · have last : segment.last = segment.first := by rw [shape]; rfl
    rw [last] at leaves ⊢
    rw [shape]
    simp [leaving?, lines, leaves]
  · rw [last_add] at leaves ⊢
    rw [leaving?_add, if_pos leaves]

end Segment

structure Cut where
  closed : List Segment
  current : Segment

def Cut.add (cut : Cut) (line : Line) : Cut :=
  if cut.current.last.continues line then ⟨cut.closed, cut.current.add line⟩
  else ⟨cut.closed ++ [cut.current], ⟨line, []⟩⟩

def Cut.segments (cut : Cut) : List Segment :=
  cut.closed ++ [cut.current]

def Cut.lines (cut : Cut) : List Line :=
  cut.segments.flatMap Segment.lines

def Cut.staleEnd? (cut : Cut) : Option Int :=
  if cut.current.first.isLabel then
    match cut.closed.getLast? with
    | none => some 0
    | some previous =>
      if previous.last.jumps && !previous.rest.isEmpty then some (previous.last.address : Int) else none
  else
    none

def Cut.openEnd? (cut : Cut) : Option Int :=
  (cut.current.leaving?.map fun line => (line.address : Int)).or cut.staleEnd?

@[simp] theorem Cut.lines_add (cut : Cut) (line : Line) : (cut.add line).lines = cut.lines ++ [line] := by
  unfold add
  split <;> simp [lines, segments, Segment.lines, Segment.add]

theorem Line.kind?_of_isLabel {line : Line} (label : line.isLabel = true) : line.kind? = none := by
  have name : line.name = "JUMPDEST" := eq_of_beq label
  rw [kind?, name]
  rfl

theorem Line.jumps_of_isLabel {line : Line} (label : line.isLabel = true) : line.jumps = false := by
  have name : line.name = "JUMPDEST" := eq_of_beq label
  rw [jumps, name]
  rfl

theorem Line.kind?_of_jumps {line : Line} (jumps : line.jumps = true) : line.kind?.isSome := by
  unfold kind?
  rcases Bool.or_eq_true_iff.mp jumps with jump | branch
  · simp [eq_of_beq jump]
  · simp [eq_of_beq branch]

def Ascending (lines : List Line) : Prop :=
  lines.Pairwise fun earlier later => earlier.address < later.address

namespace Cut

variable {cut : Cut} {line : Line}

theorem lines_eq (cut : Cut) : cut.lines = cut.closed.flatMap Segment.lines ++ cut.current.lines := by
  simp [lines, segments]

theorem first_mem_lines {segment : Segment} (member : segment ∈ cut.segments) : segment.first ∈ cut.lines :=
  mem_flatMap.mpr ⟨segment, member, mem_cons_self⟩

theorem first_lt (ascending : Ascending cut.lines) {segment : Segment} (closed : segment ∈ cut.closed)
    (member : line ∈ cut.current.lines) :
    segment.first.address < line.address := by
  rw [lines_eq] at ascending
  exact (pairwise_append.mp ascending).2.2 segment.first (mem_flatMap.mpr ⟨segment, closed, mem_cons_self⟩) line member

theorem lt_of_ascending (ascending : Ascending (cut.lines ++ [line])) {earlier : Line} (member : earlier ∈ cut.lines) :
    earlier.address < line.address :=
  (pairwise_append.mp ascending).2.2 earlier member line (mem_singleton_self line)

theorem first_le_last (ascending : Ascending cut.lines) :
    cut.current.first.address ≤ cut.current.last.address ∧
      (cut.current.first.address = cut.current.last.address ↔ cut.current.rest = []) := by
  rw [lines_eq] at ascending
  have current := (pairwise_append.mp ascending).2.1
  rcases cut.current.single_or_add with shape | ⟨shorter, line, shape⟩
  · rw [shape]
    simp [Segment.last]
  · rw [shape] at current ⊢
    have less : shorter.first.address < line.address := (pairwise_cons.mp current).1 line (by simp [Segment.add])
    rw [Segment.last_add]
    simp only [Segment.add, append_eq_nil_iff, cons_ne_nil, and_false, iff_false]
    omega

end Cut

def Follows (lines : List Line) (earlier later : Line) : Prop :=
  ∃ before after, lines = before ++ earlier :: later :: after

theorem follows_snoc {lines : List Line} {line earlier later : Line} :
    Follows (lines ++ [line]) earlier later ↔
      Follows lines earlier later ∨ (lines.getLast? = some earlier ∧ later = line) := by
  constructor
  · rintro ⟨before, after, shape⟩
    cases after using List.reverseRecOn with
    | nil =>
      have split : lines ++ [line] = (before ++ [earlier]) ++ [later] := by simp [shape]
      obtain ⟨front, last⟩ := append_inj' split rfl
      refine .inr ⟨?_, (List.cons.inj last).1.symm⟩
      simp [front]
    | append_singleton others final =>
      have split : lines ++ [line] = (before ++ earlier :: later :: others) ++ [final] := by simp [shape]
      exact .inl ⟨before, others, (append_inj' split rfl).1⟩
  · rintro (⟨before, after, rfl⟩ | ⟨last, rfl⟩)
    · exact ⟨before, after ++ [line], by simp⟩
    · obtain ⟨before, rfl⟩ := getLast?_eq_some_iff.mp last
      exact ⟨before, [], by simp⟩

namespace Cut

def ofLines (first : Line) (rest : List Line) : Cut :=
  rest.foldl add ⟨[], ⟨first, []⟩⟩

theorem getLast?_lines (cut : Cut) : cut.lines.getLast? = some cut.current.last := by
  rw [lines_eq, getLast?_append, Segment.getLast?_lines]
  rfl

/-- What a cut of lines is like, segment by segment. -/
structure Sound (cut : Cut) : Prop where
  /-- Within a segment each line continues the one before it. -/
  within : ∀ segment ∈ cut.segments, segment.lines.IsChain fun earlier later => earlier.continues later = true
  /-- No segment continues the one before it. -/
  between : cut.segments.IsChain fun earlier later => earlier.last.continues later.first = false
  /-- A segment starts with the listing, at a label or behind a jump. -/
  starts : ∀ line, line ∈ cut.segments.map Segment.first ↔
    cut.lines.head? = some line ∨ (line ∈ cut.lines ∧ line.isLabel = true) ∨
      ∃ earlier, Follows cut.lines earlier line ∧ earlier.jumps = true

namespace Sound

theorem start (first : Line) : Sound ⟨[], ⟨first, []⟩⟩ := by
  have lines : Cut.lines ⟨[], ⟨first, []⟩⟩ = [first] := rfl
  refine ⟨by simp [segments, Segment.lines], by simp [segments], fun line => ?_⟩
  rw [lines]
  constructor
  · intro member
    have same : line = first := by simpa [segments] using member
    exact .inl (by rw [same]; rfl)
  · rintro (isFirst | ⟨member, _⟩ | ⟨earlier, ⟨before, after, shape⟩, _⟩)
    · simpa [segments, eq_comm] using isFirst
    · simpa [segments] using member
    · have short := congrArg List.length shape
      simp only [length_cons, length_append, length_nil] at short
      omega

variable {cut : Cut}

theorem starts_add (sound : cut.Sound) (line next : Line) :
    (next ∈ cut.segments.map Segment.first ∨ (next = line ∧ cut.current.last.continues line = false)) ↔
      (cut.lines ++ [line]).head? = some next ∨ (next ∈ cut.lines ++ [line] ∧ next.isLabel = true) ∨
        ∃ earlier, Follows (cut.lines ++ [line]) earlier next ∧ earlier.jumps = true := by
  have head : (cut.lines ++ [line]).head? = cut.lines.head? := by
    have nonempty : cut.lines ≠ [] := by
      intro empty
      have last := cut.getLast?_lines
      rw [empty] at last
      cases last
    rw [head?_append_of_ne_nil _ nonempty]
  have breaks : cut.current.last.continues line = false ↔ line.isLabel = true ∨ cut.current.last.jumps = true := by
    simp [Line.continues, or_comm, imp_iff_not_or]
  rw [sound.starts, head, breaks]
  simp only [mem_append, mem_singleton, follows_snoc, cut.getLast?_lines, Option.some.injEq]
  constructor
  · rintro ((isFirst | ⟨member, label⟩ | ⟨earlier, follows, jumps⟩) | ⟨rfl, label | jumps⟩)
    · exact .inl isFirst
    · exact .inr (.inl ⟨.inl member, label⟩)
    · exact .inr (.inr ⟨earlier, .inl follows, jumps⟩)
    · exact .inr (.inl ⟨.inr rfl, label⟩)
    · exact .inr (.inr ⟨cut.current.last, .inr ⟨rfl, rfl⟩, jumps⟩)
  · rintro (isFirst | ⟨member | rfl, label⟩ | ⟨earlier, follows | ⟨rfl, rfl⟩, jumps⟩)
    · exact .inl (.inl isFirst)
    · exact .inl (.inr (.inl ⟨member, label⟩))
    · exact .inr ⟨rfl, .inl label⟩
    · exact .inl (.inr (.inr ⟨earlier, follows, jumps⟩))
    · exact .inr ⟨rfl, .inr jumps⟩

theorem add (sound : cut.Sound) (line : Line) : (cut.add line).Sound := by
  have starts := sound.starts_add line
  have within := forall_mem_append.mp sound.within
  have current := within.2 cut.current (mem_singleton_self _)
  have between := sound.between
  cases goesOn : cut.current.last.continues line with
  | true =>
    have shape : cut.add line = ⟨cut.closed, cut.current.add line⟩ := by rw [Cut.add, if_pos goesOn]
    refine ⟨?_, ?_, fun next => ?_⟩
    · rw [shape]
      refine forall_mem_append.mpr ⟨within.1, fun segment member => ?_⟩
      rw [mem_singleton.mp member, Segment.lines_add, isChain_append]
      refine ⟨current, .singleton _, ?_⟩
      rw [Segment.getLast?_lines]
      rintro _ ⟨⟩ _ ⟨⟩
      exact goesOn
    · rw [shape]
      rw [segments, isChain_append] at between ⊢
      refine ⟨between.1, .singleton _, ?_⟩
      rintro earlier last _ ⟨⟩
      exact between.2.2 earlier last cut.current rfl
    · rw [Cut.lines_add, ← starts next, goesOn, shape]
      simp [segments, Segment.add]
  | false =>
    have shape : cut.add line = ⟨cut.segments, ⟨line, []⟩⟩ := by rw [Cut.add, if_neg (by simp [goesOn]), segments]
    refine ⟨?_, ?_, fun next => ?_⟩
    · rw [shape]
      refine forall_mem_append.mpr ⟨sound.within, fun segment member => ?_⟩
      rw [mem_singleton.mp member]
      exact .singleton _
    · rw [shape, segments, isChain_append]
      refine ⟨between, .singleton _, ?_⟩
      rintro earlier last _ ⟨⟩
      have same : cut.current = earlier := by simpa [segments] using last
      rw [← same]
      exact goesOn
    · rw [Cut.lines_add, ← starts next, goesOn, shape]
      simp [segments, or_assoc]

theorem run (sound : cut.Sound) (lines : List Line) : (lines.foldl Cut.add cut).Sound := by
  induction lines generalizing cut with
  | nil => exact sound
  | cons line rest ih => exact ih (sound.add line)

end Sound

theorem sound_ofLines (first : Line) (rest : List Line) : (ofLines first rest).Sound :=
  (Sound.start first).run rest

theorem lines_ofLines (first : Line) (rest : List Line) : (ofLines first rest).lines = first :: rest := by
  have run : ∀ cut : Cut, (rest.foldl add cut).lines = cut.lines ++ rest := by
    induction rest with
    | nil => simp
    | cons line more ih =>
      intro cut
      rw [foldl_cons, ih, lines_add, List.append_assoc, singleton_append]
  exact run _

end Cut

/-! ## Recorded block ends -/

open Table Segment Cut

section Steps

variable (state : Collected) (line : Line)

def blockAt (address : Int) : Int :=
  if state.atBlockStart then address else state.block

theorem readLine_instructions :
    (readLine state line).instructions = put (line.address : Int) line.content state.instructions := rfl

theorem readLine_address : (readLine state line).address = line.address := by
  obtain ⟨ends, kinds, block, atBlockStart, noted⟩ := noteName_eq line.name (moveTo line.address state)
  rw [readLine, noted]
  rfl

theorem readLine_of_isLabel (label : line.isLabel = true) :
    (readLine state line).block = line.address ∧ (readLine state line).atBlockStart = false ∧
    (readLine state line).kinds = state.kinds ∧
    (readLine state line).ends =
      if has state.address state.ends then state.ends
      else put (blockAt state line.address) state.address state.ends := by
  have name : line.name = "JUMPDEST" := eq_of_beq label
  refine ⟨?_, ?_, ?_, ?_⟩ <;> simp only [readLine, noteName, if_pos name] <;> rfl

theorem readLine_of_not_isLabel (other : line.isLabel = false) :
    (readLine state line).block = blockAt state line.address ∧ (readLine state line).atBlockStart = line.jumps ∧
    (readLine state line).kinds =
      (line.kind?.elim state.kinds fun kind => put (blockAt state line.address) kind state.kinds) ∧
    (readLine state line).ends =
      (line.kind?.elim state.ends fun _ => put (blockAt state line.address) (line.address : Int) state.ends) := by
  have name : line.name ≠ "JUMPDEST" := ne_of_beq_false other
  by_cases jump : line.name = "JUMP"
  · have noTerminal : terminals.contains "JUMP" = false := rfl
    simp only [readLine, noteName, Line.kind?, Line.jumps, jump, noTerminal]
    exact ⟨rfl, rfl, rfl, rfl⟩
  by_cases branch : line.name = "JUMPI"
  · have noTerminal : terminals.contains "JUMPI" = false := rfl
    simp only [readLine, noteName, Line.kind?, Line.jumps, branch, noTerminal]
    exact ⟨rfl, rfl, rfl, rfl⟩
  have noJump : line.jumps = false := by simp [Line.jumps, jump, branch]
  rw [noJump]
  simp only [readLine, noteName, Line.kind?, if_neg name, if_neg jump, if_neg branch]
  split_ifs <;> exact ⟨rfl, rfl, rfl, rfl⟩

end Steps

def Closes (segment : Segment) (entry : Int × Int) : Prop :=
  entry.1 = segment.first.address ∧
    (entry.2 = segment.last.address ∨ segment.rest = [] ∧ entry.2 ≤ segment.first.address)

structure Held (cut : Cut) (state : Collected) : Prop where
  address : state.address = cut.current.last.address
  block : state.block = cut.current.first.address
  atBlockStart : state.atBlockStart = cut.current.last.jumps
  instructions : state.instructions = cut.lines.map Line.entry
  kinds : state.kinds = cut.segments.filterMap Segment.kindPair?
  ends : ∃ closedEnds, List.Forall₂ Closes cut.closed closedEnds ∧
    state.ends = closedEnds ++ (cut.openEnd?.map fun stop => ((cut.current.first.address : Int), stop)).toList

theorem keys_of_closes {closed : List Segment} {entries : Table Int Int} (closes : List.Forall₂ Closes closed entries) :
    keys entries = closed.map fun segment => (segment.first.address : Int) := by
  induction closes with
  | nil => rfl
  | cons one rest ih =>
    have same := one.1
    simp only [keys, map_cons] at ih ⊢
    rw [same, ih]

namespace Held

variable {cut : Cut} {state : Collected} {line : Line}

theorem blockAt_eq (held : Held cut state) :
    blockAt state line.address = if cut.current.last.jumps then (line.address : Int) else cut.current.first.address := by
  rw [blockAt, held.atBlockStart, held.block]

theorem openEnd?_of_leaves (leaves : cut.current.last.kind?.isSome) :
    cut.openEnd? = some (cut.current.last.address : Int) := by
  rw [openEnd?, leaving?_of_last leaves]
  rfl

theorem staleEnd?_le (ascending : Ascending cut.lines) {stop : Int} (stale : cut.staleEnd? = some stop) :
    stop ≤ cut.current.first.address := by
  unfold staleEnd? at stale
  split at stale
  · split at stale
    · cases stale
      omega
    · next previous isLast =>
      split at stale
      · cases stale
        rw [lines_eq] at ascending
        have less := (pairwise_append.mp ascending).2.2 previous.last
          (mem_flatMap.mpr ⟨previous, mem_of_getLast? isLast, previous.last_mem⟩) cut.current.first
          mem_cons_self
        omega
      · cases stale
  · cases stale

theorem openEnd?_le (ascending : Ascending cut.lines) (single : cut.current.rest = []) {stop : Int}
    (recorded : cut.openEnd? = some stop) :
    stop ≤ cut.current.first.address := by
  unfold openEnd? at recorded
  rcases Option.or_eq_some_iff.mp recorded with leaving | ⟨_, stale⟩
  · obtain ⟨line, found, rfl⟩ := Option.map_eq_some_iff.mp leaving
    have member : line ∈ cut.current.lines := mem_reverse.mp (mem_of_find?_eq_some found)
    rw [Segment.lines, single, mem_singleton] at member
    rw [member]
  · exact staleEnd?_le ascending stale

theorem has_address (held : Held cut state) (ascending : Ascending cut.lines) :
    has state.address state.ends = true ↔ cut.openEnd?.isSome ∧ cut.current.rest = [] := by
  obtain ⟨closedEnds, closes, ends⟩ := held.ends
  have noneClosed : (cut.current.last.address : Int) ∉ keys closedEnds := by
    rw [keys_of_closes closes]
    intro member
    obtain ⟨segment, inClosed, same⟩ := mem_map.mp member
    have less := first_lt ascending inClosed cut.current.last_mem
    omega
  have atFirst := (first_le_last ascending).2
  rw [has_iff_mem_keys, held.address, ends]
  cases recorded : cut.openEnd? with
  | none => simpa using noneClosed
  | some stop =>
    have keys : keys (closedEnds ++ [((cut.current.first.address : Int), stop)]) =
        keys closedEnds ++ [(cut.current.first.address : Int)] := by simp [keys]
    simp only [Option.map_some, Option.toList_some, keys, mem_append, noneClosed, mem_singleton,
      false_or, Option.isSome_some, true_and]
    rw [← atFirst]
    omega

theorem closes_of_jumps (held : Held cut state) (jumps : cut.current.last.jumps = true) :
    List.Forall₂ Closes cut.segments state.ends := by
  obtain ⟨closedEnds, closes, ends⟩ := held.ends
  rw [ends, openEnd?_of_leaves (Line.kind?_of_jumps jumps)]
  exact rel_append closes (.cons ⟨rfl, .inl rfl⟩ .nil)

theorem not_mem_keys_of_closes (ascending : Ascending (cut.lines ++ [line])) {entries : Table Int Int}
    (closes : List.Forall₂ Closes cut.segments entries) :
    (line.address : Int) ∉ keys entries := by
  rw [keys_of_closes closes]
  intro member
  obtain ⟨segment, inSegments, same⟩ := mem_map.mp member
  have less := lt_of_ascending ascending (first_mem_lines inSegments)
  omega

section

variable (held : Held cut state) (ascending : Ascending (cut.lines ++ [line]))
include held ascending

theorem instructions_add : (readLine state line).instructions = (cut.add line).lines.map Line.entry := by
  have new : (line.address : Int) ∉ keys state.instructions := by
    rw [held.instructions, keys, map_map]
    intro member
    obtain ⟨earlier, inLines, same⟩ := mem_map.mp member
    have less := lt_of_ascending ascending inLines
    simp only [Function.comp_apply, Line.entry] at same
    omega
  rw [readLine_instructions, put_of_not_mem new, held.instructions, Cut.lines_add, map_append]
  rfl

theorem closes_current (label : line.isLabel = true) (onward : cut.current.last.jumps = false) :
    ∃ closedEnds, List.Forall₂ Closes (cut.closed ++ [cut.current]) closedEnds ∧
      (readLine state line).ends = closedEnds := by
  have earlier : Ascending cut.lines := (pairwise_append.mp ascending).1
  obtain ⟨closedEnds, closes, ends⟩ := held.ends
  have new : (cut.current.first.address : Int) ∉ keys closedEnds := by
    rw [keys_of_closes closes]
    intro member
    obtain ⟨segment, inClosed, same⟩ := mem_map.mp member
    have less := first_lt earlier inClosed (mem_cons_self : cut.current.first ∈ cut.current.lines)
    omega
  have read := (readLine_of_isLabel state line label).2.2.2
  rw [held.blockAt_eq, onward, if_neg Bool.false_ne_true] at read
  by_cases present : has state.address state.ends = true
  · obtain ⟨isRecorded, single⟩ := (held.has_address earlier).mp present
    obtain ⟨stop, recorded⟩ := Option.isSome_iff_exists.mp isRecorded
    refine ⟨closedEnds ++ [((cut.current.first.address : Int), stop)], ?_, ?_⟩
    · exact rel_append closes (.cons ⟨rfl, .inr ⟨single, openEnd?_le earlier single recorded⟩⟩ .nil)
    · rw [read, if_pos present, ends, recorded]
      rfl
  · refine ⟨closedEnds ++ [((cut.current.first.address : Int), (cut.current.last.address : Int))], ?_, ?_⟩
    · exact rel_append closes (.cons ⟨rfl, .inl rfl⟩ .nil)
    · rw [read, if_neg present, ends, held.address, put_append new]
      cases cut.openEnd? <;> simp [put]

theorem add_of_isLabel (label : line.isLabel = true) : Held (cut.add line) (readLine state line) := by
  have earlier : Ascending cut.lines := (pairwise_append.mp ascending).1
  obtain ⟨block, atBlockStart, kinds, ends⟩ := readLine_of_isLabel state line label
  have shape : cut.add line = ⟨cut.segments, ⟨line, []⟩⟩ := by simp [Cut.add, Cut.segments, Line.continues, label]
  have noKind : line.kind? = none := Line.kind?_of_isLabel label
  have stale : (cut.add line).openEnd? =
      if cut.current.last.jumps && !cut.current.rest.isEmpty then some (cut.current.last.address : Int) else none := by
    rw [shape]
    simp [openEnd?, leaving?_single, noKind, staleEnd?, segments, label]
  refine ⟨?_, ?_, ?_, held.instructions_add ascending, ?_, ?_⟩
  · rw [readLine_address, shape]
    rfl
  · rw [block, shape]
  · rw [atBlockStart, shape]
    exact (Line.jumps_of_isLabel label).symm
  · have segments : (cut.add line).segments = cut.segments ++ [⟨line, []⟩] := by rw [shape]; rfl
    rw [kinds, held.kinds, segments, filterMap_snoc, kindPair?, kind?_single, noKind]
    simp
  · cases jumps : cut.current.last.jumps with
    | false =>
      obtain ⟨closedEnds, closes, recorded⟩ := held.closes_current ascending label jumps
      refine ⟨closedEnds, ?_, ?_⟩
      · rwa [shape]
      · rw [recorded, stale, jumps]
        simp
    | true =>
      have closes := held.closes_of_jumps jumps
      have recorded : cut.openEnd?.isSome := by
        rw [openEnd?_of_leaves (Line.kind?_of_jumps jumps)]
        rfl
      have present : has state.address state.ends = true ↔ cut.current.rest = [] := by
        rw [held.has_address earlier, and_iff_right recorded]
      refine ⟨state.ends, ?_, ?_⟩
      · rwa [shape]
      · rw [ends, stale, jumps, held.blockAt_eq, if_pos jumps, shape, held.address]
        by_cases single : cut.current.rest = []
        · rw [if_pos (by rw [← held.address]; exact present.mpr single)]
          simp [single]
        · rw [if_neg (by rw [← held.address]; exact fun isPresent => single (present.mp isPresent)),
            put_of_not_mem (not_mem_keys_of_closes ascending closes)]
          simp [single]

theorem add_of_jumps (other : line.isLabel = false) (jumps : cut.current.last.jumps = true) :
    Held (cut.add line) (readLine state line) := by
  obtain ⟨block, atBlockStart, kinds, ends⟩ := readLine_of_not_isLabel state line other
  rw [held.blockAt_eq, if_pos jumps] at block kinds ends
  have shape : cut.add line = ⟨cut.segments, ⟨line, []⟩⟩ := by simp [Cut.add, Cut.segments, Line.continues, jumps]
  have closes := held.closes_of_jumps jumps
  have newKind : (line.address : Int) ∉ keys state.kinds := by
    rw [held.kinds]
    intro member
    obtain ⟨segment, inSegments, same⟩ := mem_of_mem_keys member
    have less := lt_of_ascending ascending (first_mem_lines inSegments)
    omega
  have unstale : (cut.add line).staleEnd? = none := by
    rw [shape]
    simp [staleEnd?, other]
  refine ⟨?_, ?_, ?_, held.instructions_add ascending, ?_, ⟨state.ends, by rwa [shape], ?_⟩⟩
  · rw [readLine_address, shape]
    rfl
  · rw [block, shape]
  · rw [atBlockStart, shape]
    rfl
  · rw [kinds, shape, segments, filterMap_snoc, kindPair?, kind?_single, ← held.kinds]
    cases line.kind? with
    | none => simp
    | some kind => simp [put_of_not_mem newKind]
  · rw [ends, openEnd?, unstale, shape, leaving?_single]
    cases line.kind? with
    | none => simp
    | some kind => simp [put_of_not_mem (not_mem_keys_of_closes ascending closes)]

theorem add_of_continues (other : line.isLabel = false) (onward : cut.current.last.jumps = false) :
    Held (cut.add line) (readLine state line) := by
  have earlier : Ascending cut.lines := (pairwise_append.mp ascending).1
  obtain ⟨block, atBlockStart, kinds, ends⟩ := readLine_of_not_isLabel state line other
  rw [held.blockAt_eq, onward, if_neg Bool.false_ne_true] at block kinds ends
  have shape : cut.add line = ⟨cut.closed, cut.current.add line⟩ := by simp [Cut.add, Line.continues, onward, other]
  have before : ∀ segment ∈ cut.closed, segment.first.address < cut.current.first.address :=
    fun segment closed => Cut.first_lt earlier closed mem_cons_self
  have newKind : (cut.current.first.address : Int) ∉ keys (cut.closed.filterMap Segment.kindPair?) := by
    intro member
    obtain ⟨segment, inClosed, same⟩ := mem_of_mem_keys member
    have less := before segment inClosed
    omega
  obtain ⟨closedEnds, closes, recorded⟩ := held.ends
  have newEnd : (cut.current.first.address : Int) ∉ keys closedEnds := by
    rw [keys_of_closes closes]
    intro member
    obtain ⟨segment, inClosed, same⟩ := mem_map.mp member
    have less := before segment inClosed
    omega
  have stale : (cut.add line).staleEnd? = cut.staleEnd? := by
    rw [shape]
    rfl
  refine ⟨?_, ?_, ?_, held.instructions_add ascending, ?_, ⟨closedEnds, by rwa [shape], ?_⟩⟩
  · rw [readLine_address, shape, last_add]
  · rw [block, shape]
    rfl
  · rw [atBlockStart, shape, last_add]
  · rw [kinds, held.kinds, shape, segments, segments, filterMap_snoc, filterMap_snoc, kindPair?, kindPair?, kind?_add]
    cases line.kind? with
    | none => rfl
    | some kind =>
      rw [Option.elim_some, put_append newKind]
      cases cut.current.kind? <;> simp [put, Segment.add]
  · rw [ends, recorded, Cut.openEnd?, Cut.openEnd?, stale, shape, Segment.leaving?_add]
    cases line.kind? with
    | none => rfl
    | some kind =>
      rw [Option.elim_some, put_append newEnd]
      cases (cut.current.leaving?.map fun line => (line.address : Int)).or cut.staleEnd? <;> simp [put, Segment.add]

theorem add : Held (cut.add line) (readLine state line) := by
  cases label : line.isLabel with
  | true => exact held.add_of_isLabel ascending label
  | false =>
    cases jumps : cut.current.last.jumps with
    | true => exact held.add_of_jumps ascending label jumps
    | false => exact held.add_of_continues ascending label jumps

end

theorem start {first : Line} (atZero : first.address = 0) : Held ⟨[], ⟨first, []⟩⟩ (readLine {} first) := by
  have address := readLine_address {} first
  have instructions : (readLine {} first).instructions = (lines ⟨[], ⟨first, []⟩⟩).map Line.entry := rfl
  have kindEntries : (segments ⟨[], ⟨first, []⟩⟩).filterMap kindPair? =
      (first.kind?.map fun kind => ((first.address : Int), kind)).toList := by
    rw [segments, filterMap_snoc, kindPair?, kind?_single]
    rfl
  cases label : first.isLabel with
  | true =>
    obtain ⟨block, atBlockStart, kinds, ends⟩ := readLine_of_isLabel {} first label
    have noKind := Line.kind?_of_isLabel label
    have recorded : openEnd? ⟨[], ⟨first, []⟩⟩ = some 0 := by simp [openEnd?, leaving?_single, noKind, staleEnd?, label]
    refine ⟨address, block, atBlockStart.trans (Line.jumps_of_isLabel label).symm, instructions, ?_, [], .nil, ?_⟩
    · rw [kinds, kindEntries, noKind]
      rfl
    · rw [ends, recorded, atZero]
      rfl
  | false =>
    obtain ⟨block, atBlockStart, kinds, ends⟩ := readLine_of_not_isLabel {} first label
    have atStart : blockAt {} first.address = first.address := by
      rw [atZero]
      rfl
    rw [atStart] at block kinds ends
    refine ⟨address, block, atBlockStart, instructions, ?_, [], .nil, ?_⟩
    · rw [kinds, kindEntries]
      cases first.kind? <;> rfl
    · rw [ends, openEnd?, leaving?_single, staleEnd?, label]
      cases first.kind? <;> rfl

theorem run {lines : List Line} (held : Held cut state) (ascending : Ascending (cut.lines ++ lines)) :
    Held (lines.foldl Cut.add cut) (lines.foldl readLine state) := by
  induction lines generalizing cut state with
  | nil => exact held
  | cons line rest ih =>
    rw [← singleton_append, ← append_assoc] at ascending
    refine ih (held.add (pairwise_append.mp ascending).1) ?_
    rwa [Cut.lines_add]

end Held

theorem held_ofLines {first : Line} {rest : List Line} (atZero : first.address = 0)
    (ascending : Ascending (first :: rest)) :
    Held (Cut.ofLines first rest) ((first :: rest).foldl readLine {}) :=
  (Held.start atZero).run ascending

end Listing

end MintAudit
