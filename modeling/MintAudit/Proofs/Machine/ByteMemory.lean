import MintAudit.Proofs.Machine.ReadOverWrite

namespace MintAudit

/-!
# The bytes of memory

Memory is also kept byte by byte, for hashing.
-/

open Exec Holdings
open Effect (exists_of_seen seen)

theorem Holdings.bytes_blind {part : Part} (other : part ≠ .bytes) : Blind (fun holdings _ => holdings.bytes) part := by
  cases part <;> first | exact (other rfl).elim | simp [Blind]

theorem Instruction.changes_bytes {instruction : Instruction} (changes : .bytes ∈ instruction.changed) :
    instruction = .plain .mstore := by
  cases instruction with
  | plain opcode => cases opcode <;> first | exact absurd changes (by decide) | rfl
  | _ => cases changes

namespace Word

variable (word : Word)

theorem modulo_ne_outOfRange (modulus : Int) : word.modulo modulus ≠ .error .outOfRange := by
  cases word with
  | real value =>
    simp only [modulo, realOf]
    split
    · simp only [bind, Except.bind]
      split <;> rintro ⟨⟩
    · rintro ⟨⟩
  | narrow value =>
    simp only [modulo]
    split <;> rintro ⟨⟩
  | term value =>
    simp only [modulo]
    split <;> rintro ⟨⟩
  | _ => rintro ⟨⟩

theorem quotient_ne_outOfRange (dividend divisor : Int) :
    (quotient dividend divisor).map Word.real ≠ .error .outOfRange := by
  unfold quotient
  dsimp only
  split
  · rintro ⟨⟩
  · split <;> rintro ⟨⟩

theorem divide_ne_outOfRange (divisor : Int) : word.divide divisor ≠ .error .outOfRange := by
  cases word with
  | real value =>
    simp only [divide, realOf]
    split
    · simp only [bind, Except.bind]
      split <;> rintro ⟨⟩
    · rintro ⟨⟩
  | term value =>
    simp only [divide]
    split <;> rintro ⟨⟩
  | integer value => exact quotient_ne_outOfRange _ _
  | truth value => exact quotient_ne_outOfRange _ _
  | narrow value => exact quotient_ne_outOfRange _ _
  | _ => rintro ⟨⟩

end Word

namespace Memory

variable {decider : Decider} {before after machine grown : Machine} {address count : Nat}

/-- The bytes differ only in `count` of them from the first one on. -/
structure Rewritten (first count : Nat) (before after : Array Word) : Prop where
  size : after.size = before.size
  outside : ∀ index, index < first ∨ first + count ≤ index → after[index]? = before[index]?

theorem putByte_inside {position : Nat} (inside : position < machine.path.bytes.size) (byte : Word) :
    putByte position byte machine =
      .ok () { machine with path := { machine.path with bytes := machine.path.bytes.setIfInBounds position byte } } := by
  have found : Sequence.index? machine.path.bytes.size position = some position := by
    simp [Sequence.index?, inside, Int.not_lt.mpr (Int.natCast_nonneg position)]
  unfold putByte
  rw [bind_ok (path_apply machine)]
  simp only [found]
  rfl

theorem putBytes_inside (inside : address + count ≤ machine.path.bytes.size) (word : Word) :
    match putBytes address count word machine with
    | .ok _ after => Rewritten address count machine.path.bytes after.path.bytes
    | .error fault _ => fault ≠ .outOfRange := by
  induction count generalizing word machine with
  | zero => exact ⟨rfl, fun _ _ => rfl⟩
  | succ count ih =>
    unfold putBytes
    cases computed : word.modulo 256 with
    | error fault =>
      rintro rfl
      exact word.modulo_ne_outOfRange 256 computed
    | ok byte =>
      have written := putByte_inside (show address + count < machine.path.bytes.size by omega) byte
      push_cast at written
      rw [bind_ok (lift_ok _ _), bind_ok written]
      cases divided : word.divide 256 with
      | error fault =>
        rintro rfl
        exact word.divide_ne_outOfRange 256 divided
      | ok rest =>
        rw [bind_ok (lift_ok _ _)]
        have later := @ih { machine with path := { machine.path with
          bytes := machine.path.bytes.setIfInBounds (address + count) byte } } (by simp; omega) rest
        split
        · next ended =>
          rw [ended] at later
          refine ⟨later.size.trans (by simp), fun index beyond => ?_⟩
          rw [later.outside index (by omega)]
          exact Array.getElem?_setIfInBounds_ne (by omega)
        · next failed =>
          rwa [failed] at later

theorem extend_grows (run : extend address before = .ok () grown) (aligned : 32 ∣ before.path.bytes.size) :
    grown.path.bytes.size = max before.path.bytes.size (32 * ((address + 63) / 32)) ∧
      ∀ index < before.path.bytes.size, grown.path.bytes[index]? = before.path.bytes[index]? := by
  unfold extend at run
  rw [bind_ok (path_apply before)] at run
  dsimp only at run
  split at run
  · cases run
  · split at run
    · cases run
    · cases run
      obtain ⟨words, length⟩ := aligned
      have rounded : Int.fdiv (roundUp (address + 32)) 32 = ((address + 63) / 32 : Nat) := by
        unfold roundUp
        rw [Int.fmod_eq_emod_of_nonneg _ (by decide), Int.fdiv_eq_ediv_of_nonneg _ (by decide)]
        split <;> omega
      have present : Int.fdiv before.path.bytes.size 32 = words := by
        rw [Int.fdiv_eq_ediv_of_nonneg _ (by decide), length]
        omega
      refine ⟨?_, fun index inside => Array.getElem?_append_left inside⟩
      rw [Array.size_append, Array.size_replicate, rounded, present, length]
      omega

variable {location word : Word} {rest : List Word}

theorem keepWord_bytes {touched : Word} (run : keepWord decider location word touched before = .ok () after) :
    after.path.bytes = before.path.bytes := by
  let frame : Frame (Array Word) := .unrestricted fun holdings _ => holdings.bytes
  let _ : Journey := ⟨frame, before, before.session.scopes⟩
  have blind : Blind frame.shown .words := bytes_blind (by decide)
  have result := keepWord_goes decider blind location word touched before rfl
  simp only [Std.Do.wp, Std.Do.PredTrans.apply, EStateM.run, run] at result
  have within : Within before := ⟨.refl before.speaks_unrestricted, rfl, [], rfl⟩
  exact (result.2 within le_rfl ⟨location.only_true, word.only_true, touched.only_true⟩).1.abides.shows

/-- The bytes after a store: they cover the word, they are no longer than it takes, and none outside the word changed. -/
structure Covers (address : Nat) (before after : Array Word) : Prop where
  covered : address + 32 ≤ after.size
  size : after.size = max before.size (32 * ((address + 63) / 32))
  outside : ∀ index < before.size, index < address ∨ address + 32 ≤ index → after[index]? = before[index]?

theorem store_bytes (operands : before.path.stack = location :: word :: rest)
    (aligned : 32 ∣ before.path.bytes.size) (natural : ∀ value, location.concrete? = some value → 0 ≤ value)
    (runs : store decider before = .ok () after) :
    match location.concrete? with
    | some value => Covers value.toNat before.path.bytes after.path.bytes
    | none => after.path.bytes = before.path.bytes := by
  unfold store at runs
  rw [bind_ok (need_ok before (by simp [operands])), bind_ok (advance_apply _ _),
    bind_ok (pop_cons _ (by exact operands)), bind_ok (pop_cons _ rfl), bind_ok (path_apply _)] at runs
  cases concrete : location.concrete? with
  | none =>
    simp only [concrete] at runs
    have kept := keepWord_bytes runs
    exact kept
  | some value =>
    obtain ⟨address, rfl⟩ := Int.eq_ofNat_of_zero_le (natural value concrete)
    simp only [concrete] at runs
    obtain ⟨_, grown, grows, runs⟩ := Effect.of_bind_ok runs
    obtain ⟨_, written, writes, runs⟩ := Effect.of_bind_ok runs
    obtain ⟨size, kept⟩ := extend_grows grows aligned
    have inside : address + 32 ≤ grown.path.bytes.size := by
      rw [size]
      omega
    have rewritten := putBytes_inside inside word
    rw [writes] at rewritten
    rw [keepWord_bytes runs]
    refine ⟨?_, rewritten.size.trans size, fun index within beyond => ?_⟩
    · rw [rewritten.size]
      exact inside
    · exact (rewritten.outside index beyond).trans (kept index within)

end Memory

namespace Deed

variable {decider : Decider} {deed : Deed}

def Natural (deed : Deed) : Prop :=
  deed.instruction = .plain .mstore → ∀ location ∈ deed.before.path.stack.head?, ∀ value,
    location.concrete? = some value → 0 ≤ value

theorem Done.bytes (done : deed.Done decider) (other : deed.instruction ≠ .plain .mstore) :
    deed.after.path.bytes = deed.before.path.bytes := by
  have same : deed.after.path.holdings.bytes = deed.before.path.holdings.bytes := by
    refine done.same fun part changes => Holdings.bytes_blind ?_
    rintro rfl
    exact other (Instruction.changes_bytes changes)
  exact same

theorem Done.stored (done : deed.Done decider) (isStore : deed.instruction = .plain .mstore) (natural : deed.Natural)
    (aligned : 32 ∣ deed.before.path.bytes.size) :
    ∃ location word rest, deed.before.path.stack = location :: word :: rest ∧
      match location.concrete? with
      | some value => Memory.Covers value.toNat deed.before.path.bytes deed.after.path.bytes
      | none => deed.after.path.bytes = deed.before.path.bytes := by
  obtain ⟨between, block, function, surroundings, executes⟩ := done
  have unmoved := Machine.path_eq surroundings
  rw [isStore] at executes
  have stores : Memory.store decider between = .ok () deed.after := executes
  have start := natural isStore
  rw [← unmoved] at aligned start ⊢
  rcases stack : between.path.stack with _ | ⟨location, _ | ⟨word, rest⟩⟩
  · unfold Memory.store at stores
    rw [bind_error (need_short between (by simp [stack]))] at stores
    cases stores
  · unfold Memory.store at stores
    rw [bind_error (need_short between (by simp [stack]))] at stores
    cases stores
  · exact ⟨location, word, rest, rfl, Memory.store_bytes stack aligned (start location (by simp [stack])) stores⟩

theorem Done.aligned (done : deed.Done decider) (natural : deed.Natural) (aligned : 32 ∣ deed.before.path.bytes.size) :
    32 ∣ deed.after.path.bytes.size ∧ deed.before.path.bytes.size ≤ deed.after.path.bytes.size := by
  by_cases isStore : deed.instruction = .plain .mstore
  · obtain ⟨location, word, rest, _, stored⟩ := done.stored isStore natural aligned
    split at stored
    · rw [stored.size]
      omega
    · rw [stored]
      exact ⟨aligned, le_rfl⟩
  · rw [done.bytes isStore]
    exact ⟨aligned, le_rfl⟩

end Deed

namespace Run

variable {decider : Decider} {start last : Machine} {deeds : List Deed}

theorem aligned (run : Run decider start deeds last) (empty : start.path.bytes = #[])
    (natural : ∀ deed ∈ deeds, deed.Natural) :
    32 ∣ last.path.bytes.size ∧ ∀ deed ∈ deeds, 32 ∣ deed.before.path.bytes.size ∧
      deed.before.path.bytes.size ≤ deed.after.path.bytes.size ∧
      deed.after.path.bytes.size ≤ last.path.bytes.size := by
  induction run with
  | start => simp [empty]
  | elsewhere _ held _ ih =>
    have same := congrArg (·.bytes.size) held
    simp only [Path.holdings] at same
    rw [same]
    exact ih natural
  | step run does ih =>
    obtain ⟨here, earlier⟩ := List.forall_mem_cons.mp natural
    obtain ⟨found, before⟩ := ih earlier
    obtain ⟨left, grown⟩ := (Deed.done_of_step does).aligned here found
    refine ⟨left, List.forall_mem_cons.mpr ⟨⟨found, grown, le_rfl⟩, fun deed member => ?_⟩⟩
    obtain ⟨whole, monotone, bounded⟩ := before deed member
    exact ⟨whole, monotone, bounded.trans grown⟩

/-- From empty memory on, the bytes are a whole number of words and never become fewer. -/
theorem bytes_wellFormed (run : Run decider start deeds last) (empty : start.path.bytes = #[])
    (natural : ∀ deed ∈ deeds, deed.Natural) :
    32 ∣ last.path.bytes.size ∧
      (∀ deed ∈ deeds, 32 ∣ deed.before.path.bytes.size ∧
        deed.before.path.bytes.size ≤ deed.after.path.bytes.size ∧
        deed.after.path.bytes.size ≤ last.path.bytes.size) ∧
      (∀ deed ∈ deeds, deed.instruction = .plain .mstore → ∀ location ∈ deed.before.path.stack.head?, ∀ address : Nat,
        location.concrete? = some (address : Int) →
        address + 32 ≤ deed.after.path.bytes.size ∧
        deed.after.path.bytes.size ≤ max deed.before.path.bytes.size (32 * ((address + 63) / 32)) ∧
        ∀ index < deed.before.path.bytes.size, index < address ∨ address + 32 ≤ index →
          deed.after.path.bytes[index]? = deed.before.path.bytes[index]?) ∧
      ∀ (machine grown left : Machine) (address : Nat) (word : Word), machine.path.bytes = last.path.bytes →
        Memory.extend address machine = .ok () grown →
        Memory.putBytes address 32 word grown ≠ .error .outOfRange left := by
  obtain ⟨whole, along⟩ := run.aligned empty natural
  refine ⟨whole, along, fun deed member isStore location top address concrete => ?_, ?_⟩
  · obtain ⟨other, word, rest, stack, stored⟩ :=
      (run.done deed member).stored isStore (natural deed member) (along deed member).1
    obtain rfl : other = location := by simpa [stack] using top
    rw [concrete] at stored
    exact ⟨stored.covered, stored.size.le, stored.outside⟩
  · intro machine grown left address word same grows fails
    have size := (Memory.extend_grows grows (same ▸ whole)).1
    have inside := Memory.putBytes_inside (show address + 32 ≤ grown.path.bytes.size by omega) word
    rw [fails] at inside
    exact inside rfl

end Run

def Machine.storingAcross : Machine :=
  { storingSeven with path := { stack := [.integer 5, .integer 7] } }

theorem Machine.bytes_wellFormed_across :
    ∃ deed last, Run (fun _ => .satisfiable) storingAcross [deed] last ∧ deed.Natural ∧
      deed.before.path.bytes.size = 0 ∧ 37 ≤ last.path.bytes.size ∧ last.path.bytes.size ≤ 64 ∧
      32 ∣ last.path.bytes.size := by
  obtain ⟨_, last, stores, _⟩ := exists_of_seen (show
    seen (fun _ _ => ()) (step (fun _ => .satisfiable) 0 "f()" "MSTORE" storingAcross) = some () by decide +kernel)
  have run := Run.start.step stores
  have natural : ∀ deed ∈ [(⟨Instruction.ofLine "MSTORE", storingAcross, last⟩ : Deed)], deed.Natural := by
    refine List.forall_mem_singleton.mpr fun _ location top value concrete => ?_
    cases top
    cases concrete
    decide
  obtain ⟨whole, -, stored, -⟩ := Run.bytes_wellFormed run rfl natural
  obtain ⟨covered, bounded, -⟩ := stored _ (List.mem_singleton_self _) rfl (.integer 5) rfl 5 rfl
  exact ⟨_, last, run, natural _ (List.mem_singleton_self _), rfl, covered, bounded, whole⟩

end MintAudit
