import MintAudit.Proofs.Machine.ReadOverWrite

namespace MintAudit

/-!
# Hashes and storage

Words are kept in storage under numbers and under the texts of symbols, and a load of a number looks under its text as
well.
-/

/-! ## Symbols of hashes -/

open Exec Table
open Effect (exists_of_seen seen)

theorem Holdings.hashes_blind {part : Part} (other : part ≠ .hashes) :
    Blind (fun holdings _ => holdings.hashes) part := by
  cases part <;> first | exact (other rfl).elim | simp [Blind]

theorem Instruction.changes_hashes {instruction : Instruction} (changes : .hashes ∈ instruction.changed) :
    instruction = .plain .hash := by
  cases instruction with
  | plain opcode => cases opcode <;> first | exact absurd changes (by decide) | rfl
  | _ => cases changes

namespace Memory

def spelling (cells : List Word) : List Char :=
  (String.join (cells.map Word.render)).toList.filter fun character => !Text.isBlank character && character ≠ '+'

/-- A spelling can be written with one byte for each character. -/
def Writable (cells : List Word) : Prop :=
  ∀ character ∈ spelling cells, character.toNat < 256

instance (cells : List Word) : Decidable (Writable cells) :=
  inferInstanceAs (Decidable (∀ character ∈ spelling cells, character.toNat < 256))

theorem hashKey_eq (cells : List Word) :
    hashKey cells = if Writable cells then .ok (String.ofList (spelling cells)) else .error .unencodable := by
  unfold hashKey
  simp only [List.all_eq_true, decide_eq_true_eq]
  rfl

def piece (bytes : Array Word) (first count : Int) : List Word :=
  (Sequence.sliceArray bytes first (first + count)).toList

variable {before after : Machine} {position length : Word} {rest : List Word} {first count : Int}

def nextSymbol (names : Names) : Word :=
  Word.symbol ("some_var_" ++ toString (names.other + 1))

inductive Registers (key : String) (word : Word) (before after : Machine) : Prop where
  | present
      (found : Table.get? key before.path.hashes = some word)
      (kept : after.path.hashes = before.path.hashes)
  | added
      (missing : Table.get? key before.path.hashes = none)
      (fresh : word = nextSymbol before.session.names)
      (grown : after.path.hashes = Table.put key word before.path.hashes)
      (counted : before.session.names.other < after.session.names.other)

theorem hashSymbol_registers (before : Machine) (firstKnown : position.concrete? = some first)
    (countKnown : length.concrete? = some count) (roomy : 64 ≤ before.path.bytes.size) :
    (Writable (piece before.path.bytes first count) →
      ∃ word after, hashSymbol position length before = .ok word after ∧ after.path.stack = before.path.stack ∧
        Registers (String.ofList (spelling (piece before.path.bytes first count))) word before after) ∧
      (¬ Writable (piece before.path.bytes first count) →
        hashSymbol position length before = .error .unencodable before) := by
  unfold hashSymbol piece
  simp only [firstKnown, countKnown]
  rw [bind_ok (path_apply before), if_neg (by omega), hashKey_eq]
  refine ⟨fun writable => ?_, fun unwritable => ?_⟩
  · rw [if_pos writable, bind_ok (lift_ok _ _), bind_ok (path_apply before)]
    cases found : get? (String.ofList (spelling
        (Sequence.sliceArray before.path.bytes first (first + count)).toList)) before.path.hashes with
    | some word => exact ⟨word, before, rfl, rfl, .present found rfl⟩
    | none => exact ⟨_, _, rfl, rfl, .added found rfl rfl (Nat.lt_succ_self _)⟩
  · rw [if_neg unwritable]
    rfl

/-- The machine is to hash a piece of memory that is concrete, while memory has 64 cells at least: these are the cells
of the piece and the words below its bounds. -/
inductive Hashing (machine : Machine) : List Word → List Word → Prop where
  | bounds
      {position length : Word}
      {rest : List Word}
      {first count : Int}
      (operands : machine.path.stack = position :: length :: rest)
      (firstKnown : position.concrete? = some first)
      (countKnown : length.concrete? = some count)
      (roomy : 64 ≤ machine.path.bytes.size) :
      Hashing machine (piece machine.path.bytes first count) rest

variable {cells : List Word} {other : Machine} {key : String} {word : Word}

theorem Hashing.congr (hashing : Hashing before cells rest) (same : other.path = before.path) :
    Hashing other cells rest := by
  cases hashing with
  | bounds operands firstKnown countKnown roomy =>
    rw [← same] at operands roomy ⊢
    exact .bounds operands firstKnown countKnown roomy

theorem hash_registers (hashing : Hashing before cells rest) :
    (Writable cells →
      ∃ word after, hash before = .ok () after ∧ after.path.stack = word :: rest ∧
        Registers (String.ofList (spelling cells)) word before after) ∧
      (¬ Writable cells → ∃ after, hash before = .error .unencodable after) := by
  cases hashing with
  | @bounds position length rest first count operands firstKnown countKnown roomy =>
    have steps : hash before = (hashSymbol position length >>= fun word => push word >>= fun _ =>
          modifyPath fun path => { path with gates := noteHash word path.gates }) (before.atStack rest) := by
      unfold hash
      rw [bind_ok (need_ok before (by simp [operands])), bind_ok (advance_apply _ _),
        bind_ok (pop_cons _ (by exact operands)), bind_ok (pop_cons _ rfl)]
      rfl
    obtain ⟨returns, stops⟩ := hashSymbol_registers (before.atStack rest) firstKnown countKnown roomy
    rw [steps]
    refine ⟨fun writable => ?_, fun unwritable => ?_⟩
    · obtain ⟨word, after, found, stack, registers⟩ := returns writable
      rw [bind_ok found]
      refine ⟨word, _, rfl, congrArg (word :: ·) stack, ?_⟩
      cases registers with
      | present found kept => exact .present found kept
      | added missing fresh grown counted => exact .added missing fresh grown counted
    · rw [bind_error (stops unwritable)]
      exact ⟨_, rfl⟩

structure Registered (machine : Machine) : Prop where
  numbered : ∀ key word, Table.get? key machine.path.hashes = some word →
    ∃ number, number ≤ machine.session.names.other ∧ word = Word.symbol ("some_var_" ++ toString number)
  distinct : ∀ key other word, Table.get? key machine.path.hashes = some word →
    Table.get? other machine.path.hashes = some word → key = other

namespace Registered

variable {key : String} {word : Word}

theorem of_empty (empty : before.path.hashes = []) : Registered before := by
  refine ⟨fun key word found => ?_, fun key other word found => ?_⟩
  · rw [empty] at found
    cases found
  · rw [empty] at found
    cases found

theorem of_same (registered : Registered before) (same : after.path.hashes = before.path.hashes)
    (later : before.session.names ≤ after.session.names) :
    Registered after := by
  refine ⟨fun key word found => ?_, same ▸ registered.distinct⟩
  obtain ⟨number, given, named⟩ := registered.numbered key word (same ▸ found)
  exact ⟨number, given.trans later.2.2, named⟩

theorem ne_nextSymbol (registered : Registered before) (found : get? key before.path.hashes = some word) :
    word ≠ nextSymbol before.session.names := by
  obtain ⟨number, given, rfl⟩ := registered.numbered key word found
  unfold nextSymbol Word.symbol
  intro same
  have alike : "some_var_" ++ toString number = "some_var_" ++ toString (before.session.names.other + 1) := by
    simpa using same
  have equal := Names.append_toString_inj.mp alike
  omega

theorem of_registers (registered : Registered before) (registers : Registers key word before after)
    (later : before.session.names ≤ after.session.names) :
    Registered after := by
  cases registers with
  | present found kept => exact registered.of_same kept later
  | added missing fresh grown counted =>
    have old : ∀ {other found}, other ≠ key → get? other after.path.hashes = some found →
        get? other before.path.hashes = some found := by
      intro other found different present
      rwa [grown, get?_put_of_ne different] at present
    have new : ∀ {found}, get? key after.path.hashes = some found → found = word := by
      intro found present
      rw [grown, get?_put_self, Option.some_inj] at present
      exact present.symm
    refine ⟨fun other found present => ?_, fun first second found atFirst atSecond => ?_⟩
    · by_cases same : other = key
      · subst same
        exact ⟨_, counted, (new present).trans fresh⟩
      · obtain ⟨number, given, named⟩ := registered.numbered other found (old same present)
        exact ⟨number, given.trans later.2.2, named⟩
    · by_cases firstNew : first = key
      · by_cases secondNew : second = key
        · exact firstNew.trans secondNew.symm
        · subst firstNew
          have unused := registered.ne_nextSymbol (old secondNew atSecond)
          exact (unused ((new atFirst).trans fresh)).elim
      · by_cases secondNew : second = key
        · subst secondNew
          have unused := registered.ne_nextSymbol (old firstNew atFirst)
          exact (unused ((new atSecond).trans fresh)).elim
        · exact registered.distinct first second found (old firstNew atFirst) (old secondNew atSecond)

end Registered

theorem Registers.keeps {key other : String} {word found : Word} (registers : Registers key word before after)
    (present : get? other before.path.hashes = some found) :
    get? other after.path.hashes = some found := by
  cases registers with
  | present _ kept => rwa [kept]
  | added missing _ grown _ =>
    have different : other ≠ key := by
      rintro rfl
      rw [missing] at present
      cases present
    rwa [grown, get?_put_of_ne different]

theorem Registers.found (registers : Registers key word before after) : get? key after.path.hashes = some word := by
  cases registers with
  | present found kept => rwa [kept]
  | added _ _ grown _ => rw [grown, get?_put_self]

theorem Registers.congr (registers : Registers key word before after)
    (same : before.surroundings = other.surroundings) :
    Registers key word other after := by
  have samePath := Machine.path_eq same
  have sameNames : before.session.names = other.session.names := congrArg (·.2.1) same
  cases registers with
  | present found kept => exact .present (samePath ▸ found) (samePath ▸ kept)
  | added missing fresh grown counted =>
    exact .added (samePath ▸ missing) (sameNames ▸ fresh) (samePath ▸ grown) (sameNames ▸ counted)

theorem hashing_of_hash (runs : hash before = .ok () after) :
    (∃ cells rest, Hashing before cells rest) ∨ after.path.hashes = before.path.hashes := by
  unfold hash at runs
  match stack : before.path.stack with
  | [] =>
    rw [bind_error (need_short before (by simp [stack]))] at runs
    cases runs
  | [_] =>
    rw [bind_error (need_short before (by simp [stack]))] at runs
    cases runs
  | position :: length :: rest =>
    rw [bind_ok (need_ok before (by simp [stack])), bind_ok (advance_apply _ _),
      bind_ok (pop_cons _ (by exact stack)), bind_ok (pop_cons _ rfl)] at runs
    obtain ⟨word, between, symbol, finish⟩ := Effect.of_bind_ok runs
    cases finish
    unfold hashSymbol at symbol
    cases firstKnown : position.concrete? with
    | none =>
      simp only [firstKnown] at symbol
      cases symbol
      exact .inr rfl
    | some first =>
      cases countKnown : length.concrete? with
      | none =>
        simp only [firstKnown, countKnown] at symbol
        cases symbol
        exact .inr rfl
      | some count =>
        simp only [firstKnown, countKnown] at symbol
        rw [bind_ok (path_apply _)] at symbol
        split at symbol
        · cases symbol
        · next roomy =>
          exact .inl ⟨_, _, .bounds stack firstKnown countKnown (not_lt.mp roomy)⟩

end Memory

namespace Deed

variable {decider : Decider} {deed : Deed} {cells rest : List Word}

structure Hashes (cells : List Word) (word : Word) (deed : Deed) : Prop where
  hash : deed.instruction = .plain .hash
  hashing : ∃ rest, Memory.Hashing deed.before cells rest ∧ deed.after.path.stack = word :: rest

theorem Done.hash (done : deed.Done decider) (isHash : deed.instruction = .plain .hash)
    (hashing : Memory.Hashing deed.before cells rest) :
    Memory.Writable cells ∧ ∃ word, deed.after.path.stack = word :: rest ∧
      Memory.Registers (String.ofList (Memory.spelling cells)) word deed.before deed.after := by
  obtain ⟨between, block, function, surroundings, executes⟩ := done
  have unmoved := Machine.path_eq surroundings
  rw [isHash] at executes
  have hashes : Memory.hash between = .ok () deed.after := executes
  obtain ⟨returns, stops⟩ := Memory.hash_registers (hashing.congr unmoved)
  by_cases writable : Memory.Writable cells
  · obtain ⟨word, after, found, stack, registers⟩ := returns writable
    rw [hashes] at found
    cases found
    exact ⟨writable, word, stack, registers.congr surroundings⟩
  · obtain ⟨after, stopped⟩ := stops writable
    rw [hashes] at stopped
    cases stopped

theorem Done.hashes (done : deed.Done decider) :
    (∃ key word, Memory.Registers key word deed.before deed.after) ∨
      deed.after.path.hashes = deed.before.path.hashes := by
  by_cases isHash : deed.instruction = .plain .hash
  · have whole := done
    obtain ⟨between, block, function, surroundings, executes⟩ := done
    have unmoved := Machine.path_eq surroundings
    rw [isHash] at executes
    obtain ⟨cells, rest, hashing⟩ | same := Memory.hashing_of_hash executes
    · obtain ⟨_, word, _, registers⟩ := whole.hash isHash (hashing.congr unmoved.symm)
      exact .inl ⟨_, word, registers⟩
    · exact .inr (unmoved ▸ same)
  · have same : deed.after.path.holdings.hashes = deed.before.path.holdings.hashes := by
      refine done.same fun part changes => Holdings.hashes_blind ?_
      rintro rfl
      exact isHash (Instruction.changes_hashes changes)
    exact .inr same

end Deed

namespace Run

variable {decider : Decider} {start last : Machine} {deeds : List Deed}

theorem hashes (run : Run decider start deeds last) (empty : start.path.hashes = []) :
    Memory.Registered last ∧
      ∀ deed ∈ deeds, ∀ cells word, deed.Hashes cells word →
        get? (String.ofList (Memory.spelling cells)) last.path.hashes = some word := by
  induction run with
  | start => exact ⟨.of_empty empty, by simp⟩
  | elsewhere _ held later ih =>
    obtain ⟨registered, remembered⟩ := ih
    have same := congrArg Holdings.hashes held
    simp only [Path.holdings] at same
    exact ⟨registered.of_same same later, same ▸ remembered⟩
  | step run does ih =>
    obtain ⟨registered, remembered⟩ := ih
    have done := Deed.done_of_step does
    refine ⟨?_, List.forall_mem_cons.mpr ⟨fun cells word hashes => ?_, fun deed member cells word hashes => ?_⟩⟩
    · obtain ⟨key, word, registers⟩ | same := done.hashes
      · exact registered.of_registers registers done.names
      · exact registered.of_same same done.names
    · obtain ⟨rest, hashing, pushed⟩ := hashes.hashing
      obtain ⟨_, found, stack, registers⟩ := done.hash hashes.hash hashing
      have same := pushed.symm.trans stack
      cases same
      exact registers.found
    · have before := remembered deed member cells word hashes
      obtain ⟨key, found, registers⟩ | same := done.hashes
      · exact registers.keeps before
      · exact (congrArg (get? _) same).trans before

/-- Two hashes are one symbol exactly if their pieces are spelled alike. -/
theorem hash_same_iff {block : Int} {function line : String} {cells rest : List Word}
    (run : Run decider start deeds last) (empty : start.path.hashes = [])
    (isHash : Instruction.ofLine line = .plain .hash) (hashing : Memory.Hashing last cells rest) :
    (Machine.Underway last.session →
      ((∃ after, Machine.step decider block function line last = .ok () after) ↔ Memory.Writable cells)) ∧
      ∀ after, Machine.step decider block function line last = .ok () after →
        ∃ word, after.path.stack = word :: rest ∧
          ∀ earlier ∈ deeds, ∀ others found, earlier.Hashes others found →
            (found = word ↔ Memory.spelling others = Memory.spelling cells) := by
  refine ⟨fun underway => ⟨?_, fun writable => ?_⟩, fun after does => ?_⟩
  · rintro ⟨after, does⟩
    exact ((Deed.done_of_step does).hash isHash hashing).1
  · have counted : Memory.Hashing (last.counted block function line) cells rest := hashing.congr rfl
    obtain ⟨word, after, returns, _⟩ := (Memory.hash_registers counted).1 writable
    exact ⟨after, (Machine.step_of_plain underway isHash).trans returns⟩
  · obtain ⟨_, word, pushed, _⟩ := (Deed.done_of_step does).hash isHash hashing
    obtain ⟨registered, remembered⟩ := (run.step does).hashes empty
    have kept := remembered _ List.mem_cons_self cells word ⟨isHash, rest, hashing, pushed⟩
    refine ⟨word, pushed, fun earlier member others found hashes => ?_⟩
    have other := remembered earlier (List.mem_cons_of_mem _ member) others found hashes
    refine ⟨fun same => ?_, fun alike => ?_⟩
    · subst same
      exact String.ofList_injective (registered.distinct _ _ _ other kept)
    · rw [alike, kept] at other
      exact (Option.some.inj other).symm

end Run

def Machine.hashingPairs : Machine :=
  { storingSeven with
    path :=
      { stack := [.integer 0, .integer 2, .integer 2, .integer 2]
        bytes := (([1, 12, 11, 2] ++ List.replicate 60 0).map Word.integer).toArray } }

theorem Machine.hash_same_pairs :
    ∃ first second last after word,
      Run (fun _ => .satisfiable) hashingPairs [second, first] last ∧
        first.Hashes [.integer 1, .integer 12] word ∧ Memory.Hashing last [.integer 11, .integer 2] [] ∧
          step (fun _ => .satisfiable) 0 "f()" "SHA3" last = .ok () after ∧ after.path.stack = [word] := by
  obtain ⟨_, hashed, hashes, afterHash⟩ := exists_of_seen (show
    seen (fun _ machine => machine.path.stack) (step (fun _ => .satisfiable) 0 "f()" "SHA3" hashingPairs) =
      some [Word.symbol "some_var_1", .integer 2, .integer 2] by decide +kernel)
  obtain ⟨_, last, drops, afterDrop⟩ := exists_of_seen (show
    seen (fun _ machine => (machine.path.stack, machine.path.bytes))
      ((do
          step (fun _ => .satisfiable) 0 "f()" "SHA3"
          step (fun _ => .satisfiable) 0 "f()" "POP") hashingPairs) =
        some ([.integer 2, .integer 2], hashingPairs.path.bytes) by decide +kernel)
  obtain ⟨_, after, ends, _⟩ := exists_of_seen (show
    seen (fun _ _ => ())
      ((do
          step (fun _ => .satisfiable) 0 "f()" "SHA3"
          step (fun _ => .satisfiable) 0 "f()" "POP"
          step (fun _ => .satisfiable) 0 "f()" "SHA3") hashingPairs) = some () by decide +kernel)
  rw [bind_ok hashes] at drops ends
  rw [bind_ok drops] at ends
  obtain ⟨stack, bytes⟩ := Prod.mk.inj afterDrop
  have run := (Run.start.step hashes).step drops
  have first : Memory.Hashing hashingPairs [.integer 1, .integer 12] [.integer 2, .integer 2] := by
    have covered : Memory.piece hashingPairs.path.bytes 0 2 = [.integer 1, .integer 12] := by decide +kernel
    exact covered ▸ .bounds rfl rfl rfl (by decide)
  have second : Memory.Hashing last [.integer 11, .integer 2] [] := by
    have covered : Memory.piece last.path.bytes 2 2 = [.integer 11, .integer 2] := by
      rw [bytes]
      decide +kernel
    exact covered ▸ .bounds stack rfl rfl (by rw [bytes]; decide)
  obtain ⟨word, pushed, alike⟩ :=
    (Run.hash_same_iff run rfl (show Instruction.ofLine "SHA3" = .plain .hash from rfl) second).2 after ends
  have word_eq := (alike ⟨Instruction.ofLine "SHA3", hashingPairs, hashed⟩ (by simp) [.integer 1, .integer 12]
    (Word.symbol "some_var_1") ⟨rfl, _, first, afterHash⟩).mpr (by decide +kernel)
  exact ⟨_, _, last, after, word, run, ⟨rfl, _, first, word_eq ▸ afterHash⟩, second, ends, pushed⟩

/-! ## Storage is a map -/

open List

theorem Holdings.storage_blind {part : Part} (other : part ≠ .storage) :
    Blind (fun holdings _ => holdings.storage) part := by
  cases part <;> first | exact (other rfl).elim | simp [Blind]

theorem Instruction.changes_storage {instruction : Instruction} (changes : .storage ∈ instruction.changed) :
    instruction = .plain .sload ∨ instruction = .plain .sstore := by
  cases instruction with
  | plain opcode => cases opcode <;> first | exact absurd changes (by decide) | exact .inl rfl | exact .inr rfl
  | _ => cases changes

inductive Slot where
  | numbered (number : Nat)
  | named (name : String) (noNumeral : ∀ number : Nat, name ≠ toString number)
  deriving DecidableEq

namespace Slot

def word : Slot → Word
  | numbered number => .integer number
  | named name _ => .symbol name

def key : Slot → Key
  | numbered number => .number number
  | named name _ => .label name

def kept (slot : Slot) (storage : Table Key Word) : Option Word :=
  match slot with
  | numbered number => Table.get? (.number number) storage <|> Table.get? (.label (toString number)) storage
  | named name _ => Table.get? (.label name) storage

variable {slot other : Slot}

theorem word_inj : slot.word = other.word ↔ slot = other := by
  cases slot <;> cases other <;> simp [word, Word.symbol]

@[simp] theorem render_numbered (number : Nat) : (Word.integer number).render = toString number := rfl

@[simp] theorem render_named (name : String) : (Word.symbol name).render = name := rfl

theorem ofWord_word (slot : Slot) : Key.ofWord slot.word = slot.key := by
  cases slot <;> rfl

theorem simplified_word (slot : Slot) : slot.word.simplified = slot.word := by
  cases slot <;> rfl

theorem kept_eq (storage : Table Key Word) (slot : Slot) :
    ((slot.word.concrete?.bind fun value => Table.get? (Key.number value) storage)
      <|> Table.get? (Key.label slot.word.render) storage) = slot.kept storage := by
  cases slot <;> rfl

theorem kept_put_self (storage : Table Key Word) (value : Word) (slot : Slot) :
    slot.kept (Table.put slot.key value storage) = some value := by
  cases slot with
  | numbered number => simp [kept, key, Table.get?_put_self]
  | named name _ => simp [kept, key, Table.get?_put_self]

theorem kept_put_of_ne (different : slot ≠ other) (storage : Table Key Word) (value : Word) :
    slot.kept (Table.put other.key value storage) = slot.kept storage := by
  cases slot with
  | numbered number =>
    have asNumber : Key.number number ≠ other.key := by
      cases other with
      | numbered _ => simpa [key] using different
      | named _ _ => simp [key]
    have asText : Key.label (toString number) ≠ other.key := by
      cases other with
      | numbered _ => simp [key]
      | named _ noNumeral => simpa [key] using (noNumeral number).symm
    simp only [kept, Table.get?_put_of_ne asNumber, Table.get?_put_of_ne asText]
  | named name _ =>
    have asText : Key.label name ≠ other.key := by
      cases other with
      | numbered _ => simp [key]
      | named _ _ => simpa [key] using different
    exact Table.get?_put_of_ne asText value storage

end Slot

namespace Memory

variable {before after : Machine} {slot : Slot} {rest : List Word}

def variableAt (source : Option SourceMap) (address : Int) : Except Fault String :=
  match source with
  | some source => do
      let expression := Text.strip ((Text.splitAt isOperator (← source.codeAt address)).headD "")
      return (source.knownVariable? expression).getD ""
  | none => return ""

theorem loadedVariable_apply (machine : Machine) :
    loadedVariable machine = lift (variableAt machine.session.source (machine.path.pc - 1)) machine := by
  unfold loadedVariable variableAt
  rw [bind_ok (session_apply machine)]
  cases machine.session.source with
  | none => rfl
  | some source =>
    dsimp only
    rw [bind_ok (path_apply machine)]
    cases source.codeAt (machine.path.pc - 1) with
    | ok code => rfl
    | error fault => rfl

def told (slot : Slot) (kept : Option Word) (source : Option SourceMap) (address : Int) : Except Fault Word :=
  match kept with
  | some word => .ok word
  | none => do return Word.symbol (Names.storageWord slot.word (← variableAt source address))

theorem loadStorage_returns (operand : before.path.stack = slot.word :: rest)
    (runs : loadStorage before = .ok () after) :
    ∃ word, after.path.stack = word :: rest ∧
      told slot (slot.kept before.path.storage) before.session.source before.path.pc = .ok word ∧
        slot.kept after.path.storage = some word ∧
          ∀ other, other ≠ slot → other.kept after.path.storage = other.kept before.path.storage := by
  unfold loadStorage at runs
  rw [bind_ok (need_ok before (by simp [operand])), bind_ok (advance_apply _ _),
    bind_ok (pop_cons _ (by exact operand)), bind_ok (path_apply _)] at runs
  dsimp only at runs
  rw [Slot.kept_eq] at runs
  cases found : slot.kept before.path.storage with
  | some word =>
    simp only [found] at runs
    obtain ⟨_, between, pushes, notes⟩ := Effect.of_bind_ok runs
    cases pushes
    cases notes
    dsimp only
    split
    · exact ⟨word, rfl, rfl, found, fun _ _ => rfl⟩
    · exact ⟨word, rfl, rfl, found, fun _ _ => rfl⟩
  | none =>
    simp only [found] at runs
    obtain ⟨variableName, _, names, runs⟩ := Effect.of_bind_ok runs
    rw [loadedVariable_apply] at names
    obtain ⟨named, rfl⟩ := of_lift_ok names
    obtain ⟨_, between, makes, runs⟩ := Effect.of_bind_ok runs
    cases makes
    obtain ⟨_, between, pushes, runs⟩ := Effect.of_bind_ok runs
    cases pushes
    obtain ⟨_, between, keeps, notes⟩ := Effect.of_bind_ok runs
    cases keeps
    cases notes
    have address : before.path.pc + 1 - 1 = before.path.pc := Int.add_sub_cancel _ _
    dsimp only at named
    rw [address] at named
    have toldSo : told slot none before.session.source before.path.pc =
        .ok (Word.symbol (Names.storageWord slot.word variableName)) := by
      unfold told
      rw [named]
      rfl
    rw [Slot.simplified_word, Slot.ofWord_word]
    have others : ∀ other, other ≠ slot → ∀ word,
        other.kept (Table.put slot.key word before.path.storage) = other.kept before.path.storage :=
      fun other different word => Slot.kept_put_of_ne different _ _
    dsimp only
    split
    · exact ⟨_, rfl, toldSo, Slot.kept_put_self _ _ _, fun other different => others other different _⟩
    · exact ⟨_, rfl, toldSo, Slot.kept_put_self _ _ _, fun other different => others other different _⟩

theorem operands_of_storeStorage (position : before.path.stack.head? = some slot.word)
    (runs : storeStorage before = .ok () after) :
    ∃ word rest, before.path.stack = slot.word :: word :: rest := by
  obtain ⟨rest, operand⟩ := head?_eq_some_iff.mp position
  cases rest with
  | nil =>
    unfold storeStorage at runs
    rw [bind_ok (modifySession_apply _ _), bind_error (need_short _ (by simp [operand]))] at runs
    cases runs
  | cons word rest => exact ⟨word, rest, operand⟩

theorem storeStorage_returns {word : Word} (operands : before.path.stack = slot.word :: word :: rest)
    (runs : storeStorage before = .ok () after) :
    slot.kept after.path.storage = some word ∧
      ∀ other, other ≠ slot → other.kept after.path.storage = other.kept before.path.storage := by
  unfold storeStorage at runs
  rw [bind_ok (modifySession_apply _ _), bind_ok (need_ok _ (by simp [operands])), bind_ok (path_apply _),
    bind_ok (modifySession_apply _ _), bind_ok (advance_apply _ _), bind_ok (pop_cons _ (by exact operands)),
    bind_ok (pop_cons _ rfl)] at runs
  cases runs
  rw [Slot.ofWord_word]
  exact ⟨Slot.kept_put_self _ _ _, fun other different => Slot.kept_put_of_ne different _ _⟩

end Memory

/-- What an instruction asks of a position in storage: a load at an address of the source, or a store. -/
inductive Request where
  | load (source : Option SourceMap) (address : Int)
  | store (word : Word)

def Request.stored? : Request → Option Word
  | load _ _ => none
  | store word => some word

def Request.met (slot : Slot) : Request → Option Word → Option Word
  | load source address, kept => (Memory.told slot kept source address).toOption
  | store word, _ => some word

namespace Deed

def request? (slot : Slot) (deed : Deed) : Option Request :=
  match deed.instruction, deed.before.path.stack with
  | .plain .sload, position :: _ =>
    if position = slot.word then some (.load deed.before.session.source deed.before.path.pc) else none
  | .plain .sstore, position :: word :: _ => if position = slot.word then some (.store word) else none
  | _, _ => none

structure Loads (slot : Slot) (word : Word) (deed : Deed) : Prop where
  load : deed.instruction = .plain .sload
  position : deed.before.path.stack.head? = some slot.word
  top : deed.after.path.stack.head? = some word

/-- If the deed accesses storage, it does so at a number or at a symbol whose name is no numeral. -/
def AtSlot (deed : Deed) : Prop :=
  deed.instruction = .plain .sload ∨ deed.instruction = .plain .sstore →
    ∃ slot : Slot, deed.before.path.stack.head? = some slot.word

variable {decider : Decider} {deed : Deed} {slot : Slot} {rest : List Word}

theorem request?_load (isLoad : deed.instruction = .plain .sload) (operand : deed.before.path.stack = slot.word :: rest)
    (asked : Slot) :
    deed.request? asked =
      if slot = asked then some (.load deed.before.session.source deed.before.path.pc) else none := by
  simp only [request?, isLoad, operand, Slot.word_inj]

theorem request?_store {word : Word} (isStore : deed.instruction = .plain .sstore)
    (operands : deed.before.path.stack = slot.word :: word :: rest) (asked : Slot) :
    deed.request? asked = if slot = asked then some (.store word) else none := by
  simp only [request?, isStore, operands, Slot.word_inj]

theorem request?_other (noLoad : deed.instruction ≠ .plain .sload) (noStore : deed.instruction ≠ .plain .sstore)
    (asked : Slot) :
    deed.request? asked = none := by
  unfold request?
  split
  · next isLoad _ =>
    exact (noLoad isLoad).elim
  · next isStore _ =>
    exact (noStore isStore).elim
  · rfl

theorem Done.load (done : deed.Done decider) (isLoad : deed.instruction = .plain .sload)
    (operand : deed.before.path.stack = slot.word :: rest) :
    ∃ word, deed.after.path.stack = word :: rest ∧
      Memory.told slot (slot.kept deed.before.path.storage) deed.before.session.source deed.before.path.pc = .ok word ∧
        slot.kept deed.after.path.storage = some word ∧
          ∀ other, other ≠ slot → other.kept deed.after.path.storage = other.kept deed.before.path.storage := by
  obtain ⟨between, block, function, surroundings, executes⟩ := done
  have unmoved := Machine.path_eq surroundings
  have unread : between.session.source = deed.before.session.source := congrArg (·.2.2) surroundings
  rw [isLoad] at executes
  rw [← unmoved] at operand ⊢
  rw [← unread]
  exact Memory.loadStorage_returns operand executes

theorem Done.store (done : deed.Done decider) (isStore : deed.instruction = .plain .sstore)
    (position : deed.before.path.stack.head? = some slot.word) :
    ∃ word rest, deed.before.path.stack = slot.word :: word :: rest ∧ slot.kept deed.after.path.storage = some word ∧
      ∀ other, other ≠ slot → other.kept deed.after.path.storage = other.kept deed.before.path.storage := by
  obtain ⟨between, block, function, surroundings, executes⟩ := done
  have unmoved := Machine.path_eq surroundings
  rw [isStore] at executes
  rw [← unmoved] at position ⊢
  have stores : Memory.storeStorage between = .ok () deed.after := executes
  obtain ⟨word, rest, operands⟩ := Memory.operands_of_storeStorage position stores
  exact ⟨word, rest, operands, Memory.storeStorage_returns operands stores⟩

theorem Done.kept (done : deed.Done decider) (proper : deed.AtSlot) (asked : Slot) :
    asked.kept deed.after.path.storage =
      (deed.request? asked).elim id (Request.met asked) (asked.kept deed.before.path.storage) := by
  by_cases isLoad : deed.instruction = .plain .sload
  · obtain ⟨slot, position⟩ := proper (.inl isLoad)
    obtain ⟨rest, operand⟩ := head?_eq_some_iff.mp position
    obtain ⟨word, _, tells, keeps, others⟩ := done.load isLoad operand
    rw [request?_load isLoad operand]
    by_cases same : slot = asked
    · subst same
      rw [if_pos rfl, keeps, Option.elim_some, Request.met, tells]
      rfl
    · simp [same, others asked (Ne.symm same)]
  · by_cases isStore : deed.instruction = .plain .sstore
    · obtain ⟨slot, position⟩ := proper (.inr isStore)
      obtain ⟨word, rest, operands, keeps, others⟩ := done.store isStore position
      rw [request?_store isStore operands]
      by_cases same : slot = asked
      · subst same
        simp [Request.met, keeps]
      · simp [same, others asked (Ne.symm same)]
    · have unchanged : deed.after.path.holdings.storage = deed.before.path.holdings.storage := by
        refine done.same fun part changes => Holdings.storage_blind ?_
        rintro rfl
        exact (Instruction.changes_storage changes).elim isLoad isStore
      rw [request?_other isLoad isStore]
      exact congrArg asked.kept unchanged

end Deed

def requests (slot : Slot) (deeds : List Deed) : List Request :=
  deeds.filterMap (Deed.request? slot)

theorem requests_cons (slot : Slot) (deed : Deed) (deeds : List Deed) :
    requests slot (deed :: deeds) = (deed.request? slot).toList ++ requests slot deeds := by
  unfold requests
  cases asked : deed.request? slot with
  | none => simp [asked]
  | some request => simp [asked]

namespace Run

variable {decider : Decider} {start last : Machine} {deeds : List Deed}

theorem kept (run : Run decider start deeds last) (proper : ∀ deed ∈ deeds, deed.AtSlot) (slot : Slot) :
    slot.kept last.path.storage = (requests slot deeds).foldr (Request.met slot) (slot.kept start.path.storage) := by
  induction run with
  | start => rfl
  | elsewhere _ held _ ih =>
    have unchanged := congrArg Holdings.storage held
    exact (congrArg slot.kept unchanged).trans (ih proper)
  | step run does ih =>
    obtain ⟨properly, earlier⟩ := forall_mem_cons.mp proper
    have changed := (Deed.done_of_step does).kept properly slot
    rw [requests_cons, foldr_append, ← ih earlier]
    refine changed.trans ?_
    cases Deed.request? slot _ with
    | none => rfl
    | some request => rfl

theorem kept_of_loads (run : Run decider start deeds last) (proper : ∀ deed ∈ deeds, deed.AtSlot) {slot : Slot}
    (unstored : (requests slot deeds).findSome? Request.stored? = none) :
    ∀ deed ∈ deeds, ∀ word, deed.Loads slot word → slot.kept last.path.storage = some word := by
  induction run with
  | start => simp
  | elsewhere _ held _ ih =>
    have unchanged := congrArg Holdings.storage held
    intro deed member word loads
    exact (congrArg slot.kept unchanged).trans (ih proper unstored deed member word loads)
  | step run does ih =>
    obtain ⟨properly, earlier⟩ := forall_mem_cons.mp proper
    have done := Deed.done_of_step does
    rw [requests_cons, findSome?_append, Option.or_eq_none_iff] at unstored
    obtain ⟨noStore, unstored⟩ := unstored
    refine forall_mem_cons.mpr ⟨fun word loads => ?_, fun deed member word loads => ?_⟩
    · obtain ⟨rest, operand⟩ := head?_eq_some_iff.mp loads.position
      obtain ⟨found, pushed, _, keeps, _⟩ := done.load loads.load operand
      have top := loads.top
      rw [pushed, head?_cons, Option.some_inj] at top
      exact keeps.trans (congrArg some top)
    · have before := ih earlier unstored deed member word loads
      refine (done.kept properly slot).trans ?_
      rw [before]
      cases asked : Deed.request? slot _ with
      | none => rfl
      | some request =>
        rw [asked] at noStore
        cases request with
        | load source address => rfl
        | store stored => cases noStore

end Run

theorem foldr_met_of_stored {slot : Slot} {asked : List Request} {stored : Word} (initial : Option Word)
    (latest : asked.findSome? Request.stored? = some stored) :
    asked.foldr (Request.met slot) initial = some stored := by
  induction asked with
  | nil => cases latest
  | cons request earlier ih =>
    cases request with
    | load source address =>
      rw [foldr_cons, ih latest]
      rfl
    | store word =>
      cases latest
      rfl

namespace Run

variable {decider : Decider} {start last : Machine} {deed : Deed} {deeds : List Deed} {slot : Slot} {rest : List Word}

theorem told_of_load (run : Run decider start (deed :: deeds) last) (proper : ∀ deed ∈ deeds, deed.AtSlot)
    (isLoad : deed.instruction = .plain .sload) (operand : deed.before.path.stack = slot.word :: rest) :
    ∃ word, deed.after.path.stack = word :: rest ∧
      Memory.told slot ((requests slot deeds).foldr (Request.met slot) (slot.kept start.path.storage))
        deed.before.session.source deed.before.path.pc = .ok word := by
  obtain ⟨word, pushed, tells, _⟩ := (run.done deed mem_cons_self).load isLoad operand
  rw [run.of_cons.kept proper slot] at tells
  exact ⟨word, pushed, tells⟩

/-- Storage is a map. On every run a load gives the word that was stored last at its position, and if none was stored
there, the word that every load since the start gave. Nothing else matters: on another run from the same start, with the
same requests to this position and any others to other positions, the same load gives the same word. -/
theorem load_recalls (run : Run decider start (deed :: deeds) last) (proper : ∀ deed ∈ deeds, deed.AtSlot)
    (isLoad : deed.instruction = .plain .sload) (operand : deed.before.path.stack = slot.word :: rest) :
    ∃ word, deed.after.path.stack = word :: rest ∧
      (∀ stored, (requests slot deeds).findSome? Request.stored? = some stored → word = stored) ∧
      ((requests slot deeds).findSome? Request.stored? = none →
        ∀ earlier ∈ deeds, ∀ loaded, earlier.Loads slot loaded → word = loaded) ∧
      ∀ (other : Deed) (others : List Deed) (end' : Machine),
        Run decider start (other :: others) end' → (∀ deed ∈ others, deed.AtSlot) →
          requests slot others = requests slot deeds →
            other.before.session.source = deed.before.session.source → other.before.path.pc = deed.before.path.pc →
              ∀ loaded, other.Loads slot loaded → word = loaded := by
  obtain ⟨word, pushed, tells⟩ := run.told_of_load proper isLoad operand
  have word_of_kept : ∀ {kept : Word},
      (requests slot deeds).foldr (Request.met slot) (slot.kept start.path.storage) = some kept → word = kept := by
    intro kept known
    rw [known] at tells
    exact (Except.ok.inj tells).symm
  refine ⟨word, pushed, fun stored latest => ?_, fun unstored earlier member loaded loads => ?_, ?_⟩
  · exact word_of_kept (foldr_met_of_stored _ latest)
  · have known := run.of_cons.kept_of_loads proper unstored earlier member loaded loads
    exact word_of_kept ((run.of_cons.kept proper slot).symm.trans known)
  · intro other others end' otherRun otherProper alike sameSource sameAddress loaded loads
    obtain ⟨otherRest, otherOperand⟩ := head?_eq_some_iff.mp loads.position
    obtain ⟨found, otherPushed, otherTells⟩ := otherRun.told_of_load otherProper loads.load otherOperand
    rw [alike, sameSource, sameAddress, tells] at otherTells
    have top := loads.top
    rw [otherPushed, head?_cons, Option.some_inj] at top
    exact (Except.ok.inj otherTells).trans top

end Run

def Machine.loadingFive : Machine :=
  { storingSeven with path := { stack := [.integer 5, .integer 7, .integer 5] } }

def Machine.namedForFive : Slot :=
  .named "Ia_store-5-" fun _ => Numeral.ne_toString_of_mem (show 'I' ∈ _ by decide) (by decide)

theorem Machine.load_recalls_five :
    ∃ first second third last,
      Run (fun _ => .satisfiable) loadingFive [third, second, first] last ∧
        first.Loads (.numbered 5) namedForFive.word ∧
          second.request? namedForFive = some (.store (.integer 7)) ∧ third.after.path.stack = [namedForFive.word] := by
  obtain ⟨_, loaded, loads, afterLoad⟩ := exists_of_seen (show
    seen (fun _ machine => machine.path.stack) (step (fun _ => .satisfiable) 0 "f()" "SLOAD" loadingFive) =
      some [namedForFive.word, .integer 7, .integer 5] by decide +kernel)
  obtain ⟨_, stored, stores, afterStore⟩ := exists_of_seen (show
    seen (fun _ machine => machine.path.stack)
      ((do
          step (fun _ => .satisfiable) 0 "f()" "SLOAD"
          step (fun _ => .satisfiable) 0 "f()" "SSTORE") loadingFive) = some [.integer 5] by decide +kernel)
  obtain ⟨_, last, ends, _⟩ := exists_of_seen (show
    seen (fun _ _ => ())
      ((do
          step (fun _ => .satisfiable) 0 "f()" "SLOAD"
          step (fun _ => .satisfiable) 0 "f()" "SSTORE"
          step (fun _ => .satisfiable) 0 "f()" "SLOAD") loadingFive) = some () by decide +kernel)
  rw [bind_ok loads] at stores ends
  rw [bind_ok stores] at ends
  have run := ((Run.start.step loads).step stores).step ends
  have first : Deed.Loads (.numbered 5) namedForFive.word ⟨Instruction.ofLine "SLOAD", loadingFive, loaded⟩ :=
    ⟨rfl, rfl, by rw [afterLoad]; rfl⟩
  have second : Deed.request? namedForFive ⟨Instruction.ofLine "SSTORE", loaded, stored⟩ =
      some (.store (.integer 7)) := by
    rw [Deed.request?_store rfl afterLoad, if_pos rfl]
  have untouched : Deed.request? (.numbered 5) ⟨Instruction.ofLine "SSTORE", loaded, stored⟩ = none := by
    rw [Deed.request?_store rfl afterLoad, if_neg (by decide)]
  have proper : ∀ deed ∈ [⟨Instruction.ofLine "SSTORE", loaded, stored⟩,
      ⟨Instruction.ofLine "SLOAD", loadingFive, loaded⟩], Deed.AtSlot deed := by
    refine forall_mem_cons.mpr ⟨fun _ => ⟨namedForFive, by rw [afterLoad]; rfl⟩, ?_⟩
    exact forall_mem_singleton.mpr fun _ => ⟨.numbered 5, rfl⟩
  obtain ⟨word, pushed, _, recalls, _⟩ := Run.load_recalls run proper rfl
    (show stored.path.stack = Slot.word (.numbered 5) :: [] from afterStore)
  have word_eq := recalls (by rw [requests_cons, untouched]; rfl) _ (by simp) _ first
  exact ⟨_, _, _, last, run, first, second, word_eq ▸ pushed⟩

end MintAudit
