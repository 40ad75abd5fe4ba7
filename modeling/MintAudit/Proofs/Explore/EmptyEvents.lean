import MintAudit.Proofs.Explore.Settlement
import MintAudit.Proofs.Explore.Sightings
import MintAudit.Proofs.Explore.StartBlocks

namespace MintAudit

/-!
# Which transfer events are reported as empty

A transfer event is noted as empty if nothing was written to storage since the function last changed.
-/

open Exec
open List hiding after
open Holdings (Blind)

structure Ledger where
  function : String := ""
  signature : String := ""
  stored : Bool := false
  notes : List String := []

inductive Ledger.Entry where
  | call (function : String)
  | enter (signature : String)
  | store
  | log
  deriving DecidableEq, Repr

namespace Ledger

def emptyNote (signature : String) : String :=
  signature ++ ":standard1"

theorem emptyNote_eq (signature : String) : emptyNote signature = signature ++ ":" ++ "standard1" := by
  rw [String.append_assoc]
  rfl

def note (ledger : Ledger) : Entry → Ledger
  | .call function => if function = ledger.function then ledger else { ledger with function, stored := false }
  | .enter signature => { ledger with signature }
  | .store => { ledger with stored := true }
  | .log =>
    if ledger.stored || ledger.notes.contains (emptyNote ledger.signature) then
      ledger
    else
      { ledger with notes := ledger.notes ++ [emptyNote ledger.signature] }

def after (ledger : Ledger) (history : List Entry) : Ledger :=
  history.foldl note ledger

/-- What is left of the notes in the end: a write to storage since the function changed takes back the first of them. -/
def reported (ledger : Ledger) : List String :=
  if ledger.stored then ledger.notes.tail else ledger.notes

theorem after_append (ledger : Ledger) (past recent : List Entry) :
    ledger.after (past ++ recent) = (ledger.after past).after recent :=
  foldl_append

theorem after_cons (ledger : Ledger) (entry : Entry) (rest : List Entry) :
    ledger.after (entry :: rest) = (ledger.note entry).after rest :=
  rfl

variable {ledger : Ledger} {history : List Entry}

theorem note_log (unstored : ledger.stored = false) :
    ledger.note .log =
      { ledger with notes :=
          if ledger.notes.contains (emptyNote ledger.signature) then
            ledger.notes
          else
            ledger.notes ++ [emptyNote ledger.signature] } := by
  rw [note, unstored, Bool.false_or]
  split <;> rw [← unstored]

theorem mem_notes_note (ledger : Ledger) (entry : Entry) (text : String) :
    text ∈ (ledger.note entry).notes ↔
      text ∈ ledger.notes ∨ entry = .log ∧ ¬ ledger.stored = true ∧ text = emptyNote ledger.signature := by
  cases entry with
  | call function =>
    rw [note]
    split <;> simp
  | enter signature => simp [note]
  | store => simp [note]
  | log =>
    rw [note]
    cases ledger.stored with
    | true => simp
    | false =>
      by_cases present : emptyNote ledger.signature ∈ ledger.notes
      · simp only [contains_iff_mem, present, Bool.false_or, ↓reduceIte, true_and, Bool.false_eq_true,
          not_false_eq_true]
        rw [or_iff_left_of_imp]
        rintro rfl
        exact present
      · simp [present]

theorem nodup_notes_after (distinct : ledger.notes.Nodup) (history : List Entry) :
    (ledger.after history).notes.Nodup := by
  refine List.foldlRecOn (motive := fun ledger => ledger.notes.Nodup) history note distinct fun _ distinct entry _ => ?_
  cases entry with
  | call function =>
    rw [note]
    split <;> exact distinct
  | enter signature => exact distinct
  | store => exact distinct
  | log =>
    rw [note]
    split
    · exact distinct
    · next absent =>
      rw [Bool.or_eq_true, not_or, contains_iff_mem] at absent
      exact distinct.append (nodup_singleton _) (disjoint_singleton.mpr absent.2)

theorem signed_after (holds : String → Prop) (initially : holds ledger.signature) (blank : ledger.notes = [])
    (entered : ∀ signature, Entry.enter signature ∈ history → holds signature) :
    ∀ text ∈ (ledger.after history).notes, ∃ signature, holds signature ∧ text = emptyNote signature := by
  have both : holds (ledger.after history).signature ∧
      ∀ text ∈ (ledger.after history).notes, ∃ signature, holds signature ∧ text = emptyNote signature := by
    refine List.foldlRecOn (motive := fun ledger =>
        holds ledger.signature ∧ ∀ text ∈ ledger.notes, ∃ signature, holds signature ∧ text = emptyNote signature)
      history note ⟨initially, by simp [blank]⟩ fun ledger signed entry member => ⟨?_, ?_⟩
    · cases entry with
      | call function =>
        rw [note]
        split <;> exact signed.1
      | enter signature => exact entered signature member
      | store => exact signed.1
      | log =>
        rw [note]
        split <;> exact signed.1
    · intro text noted
      rcases (mem_notes_note ledger entry text).mp noted with before | ⟨_, _, isNew⟩
      · exact signed.2 text before
      · exact ⟨ledger.signature, signed.1, isNew⟩
  exact both.2

def LogsFirst (history : List Entry) : Prop :=
  ∃ earlier later, history = earlier ++ .log :: later ∧ .store ∉ earlier

theorem logsFirst_cons (entry : Entry) (rest : List Entry) :
    LogsFirst (entry :: rest) ↔ entry = .log ∨ ¬ entry = .store ∧ LogsFirst rest := by
  constructor
  · rintro ⟨_ | ⟨first, earlier⟩, later, parted, unwritten⟩
    · exact .inl (List.cons.inj parted).1
    · obtain ⟨rfl, rfl⟩ := List.cons.inj parted
      rw [mem_cons, not_or] at unwritten
      exact .inr ⟨Ne.symm unwritten.1, earlier, later, rfl, unwritten.2⟩
  · rintro (rfl | ⟨other, earlier, later, rfl, unwritten⟩)
    · exact ⟨[], rest, rfl, not_mem_nil⟩
    · exact ⟨entry :: earlier, later, rfl, by simp [unwritten, Ne.symm other]⟩

theorem logsFirst_iff (unwritten : .store ∉ history) : LogsFirst history ↔ .log ∈ history := by
  constructor
  · rintro ⟨earlier, later, rfl, _⟩
    simp
  · intro logged
    obtain ⟨earlier, later, rfl⟩ := append_of_mem logged
    exact ⟨earlier, later, rfl, fun written => unwritten (mem_append_left _ written)⟩

theorem after_within (ledger : Ledger) (calls : ∀ other, Entry.call other ∈ history → other = ledger.function)
    (enters : ∀ other, Entry.enter other ∈ history → other = ledger.signature) :
    (ledger.after history).function = ledger.function ∧ (ledger.after history).signature = ledger.signature ∧
      ((ledger.after history).stored = true ↔ ledger.stored = true ∨ .store ∈ history) ∧
      (emptyNote ledger.signature ∈ (ledger.after history).notes ↔
        emptyNote ledger.signature ∈ ledger.notes ∨ ¬ ledger.stored = true ∧ LogsFirst history) := by
  induction history generalizing ledger with
  | nil => simp [after, LogsFirst]
  | cons entry rest ih =>
    have stays : (ledger.note entry).function = ledger.function ∧ (ledger.note entry).signature = ledger.signature ∧
        ((ledger.note entry).stored = true ↔ ledger.stored = true ∨ entry = .store) := by
      cases entry with
      | call other => simp [note, calls other mem_cons_self]
      | enter other => simp [note, enters other mem_cons_self]
      | store => simp [note]
      | log =>
        rw [note]
        split <;> simp
    obtain ⟨function, signature, stored⟩ := stays
    have later := ih (ledger.note entry)
      (by rw [function]; exact fun other member => calls other (mem_cons_of_mem _ member))
      (by rw [signature]; exact fun other member => enters other (mem_cons_of_mem _ member))
    rw [function, signature, stored, mem_notes_note] at later
    obtain ⟨laterFunction, laterSignature, laterStored, laterNotes⟩ := later
    refine ⟨laterFunction, laterSignature, ?_, ?_⟩
    · rw [after_cons, laterStored, or_assoc, mem_cons, @eq_comm _ Entry.store]
    · rw [after_cons, laterNotes, logsFirst_cons]
      tauto

theorem mem_reported_of_single {text : String} (single : ∀ other ∈ ledger.notes, other = text)
    (distinct : ledger.notes.Nodup) :
    text ∈ ledger.reported ↔ ¬ ledger.stored = true ∧ text ∈ ledger.notes := by
  have alike : ledger.notes = List.replicate ledger.notes.length text := eq_replicate_of_mem single
  have few : ledger.notes.length ≤ 1 := by
    rw [alike] at distinct
    exact nodup_replicate.mp distinct
  unfold reported
  cases ledger.stored with
  | false => simp
  | true =>
    have none : ledger.notes.tail = [] := by
      rw [alike, tail_replicate, replicate_eq_nil_iff]
      omega
    simp [none]

theorem mem_reported_after {function signature : String} (own : function ≠ "fallback") {first behind : List Entry}
    (firstCalls : ∀ other, Entry.call other ∉ first) (calls : ∀ other, Entry.call other ∈ behind → other = function)
    (enters : ∀ other, Entry.enter other ∈ first ++ behind → other = signature)
    (begins : ∀ entry rest, behind = entry :: rest → entry = .call function) :
    emptyNote signature ∈ (({} : Ledger).after (.call "fallback" :: .enter signature :: (first ++ behind))).reported ↔
      .store ∉ behind ∧ (behind = [] → .store ∉ first) ∧ (.log ∈ behind ∨ LogsFirst first) := by
  let entered : Ledger := { function := "fallback", signature }
  show emptyNote signature ∈ (entered.after (first ++ behind)).reported ↔ _
  have single : ∀ text ∈ (entered.after (first ++ behind)).notes, text = emptyNote signature := by
    intro text noted
    obtain ⟨_, rfl, same⟩ := signed_after (· = signature) rfl rfl enters text noted
    exact same
  obtain ⟨inFirst, signed, stored, notes⟩ := entered.after_within
    (fun other member => (firstCalls other member).elim)
    (fun other member => enters other (mem_append_left _ member))
  rw [mem_reported_of_single single (nodup_notes_after nodup_nil _), after_append]
  generalize entered.after first = ledger at *
  cases behind with
  | nil =>
    show ¬ ledger.stored = true ∧ emptyNote entered.signature ∈ ledger.notes ↔ _
    rw [stored, notes]
    simp [entered]
  | cons entry rest =>
    obtain rfl := begins entry rest rfl
    have anew : ledger.note (.call function) = { ledger with function, stored := false } := by
      rw [note, if_neg fun same => own (same.trans inFirst)]
    obtain ⟨_, _, restStored, restNotes⟩ := Ledger.after_within { ledger with function, stored := false }
      (fun other member => calls other (mem_cons_of_mem _ member))
      (fun other member => (enters other (by simp [member])).trans signed.symm)
    have same : ledger.signature = signature := signed
    rw [same] at anew restStored restNotes
    rw [after_cons, anew, restStored, restNotes, show emptyNote signature ∈ ledger.notes ↔ _ from notes]
    by_cases written : .store ∈ rest
    · simp [written]
    · rw [logsFirst_iff written]
      simp [entered, written, or_comm]

def ofWatch (watch : Watch) : Ledger where
  function := watch.previousFunction
  signature := watch.currentFunction
  stored := watch.stored
  notes := watch.findings.emptyEvent.notes

def frame : Frame Ledger :=
  .unrestricted fun _ watch => ofWatch watch

theorem blind {part : Holdings.Part} (noStore : part ≠ .stored) (noFinding : part ≠ .findings) :
    Blind frame.shown part := by
  cases part with
  | stored => exact (noStore rfl).elim
  | findings => exact (noFinding rfl).elim
  | loads =>
    intro holdings watch word
    show ofWatch (Environment.countLoad word watch) = ofWatch watch
    unfold Environment.countLoad
    dsimp only
    split
    · rfl
    · split
      · rfl
      · split <;> rfl
  | _ => simp [Blind, frame, Frame.unrestricted, ofWatch]

end Ledger

theorem TransferEvent.checkSender_emptyEvent (decider : Decider) (scene : Scene) (findings : Findings) :
    (checkSender decider scene findings).findings.emptyEvent = findings.emptyEvent := by
  unfold checkSender
  split
  · split
    · rfl
    · dsimp only
      split <;> split <;> rfl
  · rfl

theorem TransferEvent.inspect_emptyEvent (decider : Decider) (scene : Scene) (findings : Findings) :
    (inspect decider scene findings).findings.emptyEvent =
      if isEvent scene = .ok true ∧ scene.stored = false then
        findings.emptyEvent.note (Ledger.emptyNote scene.function)
      else
        findings.emptyEvent := by
  unfold inspect
  split
  · next fault failed =>
    simp [failed]
  · next other =>
    simp [other]
  · next event =>
    cases stored : scene.stored with
    | false => simp [event, Ledger.emptyNote]
    | true =>
      simp only [event, Bool.not_true, Bool.false_eq_true, ↓reduceIte, and_false, Bool.true_eq_false]
      split
      · rfl
      · exact checkSender_emptyEvent decider scene _

def Instruction.writes : Instruction → Bool
  | .plain .sstore => true
  | _ => false

theorem Instruction.of_writes {instruction : Instruction} (writes : instruction.writes = true) :
    instruction = .plain .sstore := by
  unfold Instruction.writes at writes
  split at writes
  · rfl
  · cases writes

namespace Machine

variable (decider : Decider) (block : Int) (function : String)

def entries (instruction : Instruction) (machine : Machine) : List Ledger.Entry :=
  if TransferEvent.isEvent (machine.scene instruction) = .ok true then
    [.log]
  else if instruction.writes && showProgress.returns machine then
    [.store]
  else
    []

def ledger (machine : Machine) : Ledger :=
  .ofWatch machine.session.watch

theorem conclude_ledger (outcome : TransferEvent.Outcome) (machine : Machine) :
    ((conclude outcome).after machine).ledger = { machine.ledger with notes := outcome.findings.emptyEvent.notes } := by
  unfold conclude
  rw [after_bind_of_ok (modifySession_apply _ _)]
  cases outcome.fault <;> rfl

variable (instruction : Instruction) (machine : Machine)

theorem inspect_ledger :
    ((inspect decider instruction).after machine).ledger =
      if TransferEvent.isEvent (machine.scene instruction) = .ok true then
        machine.ledger.note .log
      else
        machine.ledger := by
  have same : (inspect decider instruction).after machine =
      (conclude (TransferEvent.inspect decider (machine.scene instruction) machine.session.watch.findings)).after
        machine := by
    unfold after
    rw [inspect_eq]
  rw [same, conclude_ledger, TransferEvent.inspect_emptyEvent]
  by_cases event : TransferEvent.isEvent (machine.scene instruction) = .ok true
  · rw [if_pos event]
    cases stored : (machine.scene instruction).stored with
    | true =>
      rw [if_neg (by simp), Ledger.note, show machine.ledger.stored = true from stored]
      rfl
    | false =>
      rw [if_pos ⟨event, rfl⟩, Ledger.note_log stored]
      rfl
  · rw [if_neg event, if_neg fun both => event both.1]
    rfl

theorem inspect_of_no_event {instruction : Instruction} {machine : Machine}
    (other : TransferEvent.isEvent (machine.scene instruction) = .ok false) :
    inspect decider instruction machine = .ok () machine := by
  rw [inspect_eq]
  unfold TransferEvent.inspect
  rw [other]
  rfl

theorem showProgress_reads : Reads showProgress := by
  unfold showProgress
  refine session_reads.bind fun session => ?_
  dsimp only
  split
  · exact throw_reads _
  · refine (lift_reads _).bind fun percent => ?_
    split
    · exact throw_reads _
    · exact pure_reads _

theorem storeStorage_watch (before : Machine) :
    (Memory.storeStorage.after before).session.watch = { before.session.watch with stored := true } := by
  obtain ⟨session, path⟩ := before
  obtain ⟨stack⟩ := path
  unfold after
  rcases stack with _ | ⟨position, _ | ⟨word, rest⟩⟩ <;> rfl

theorem stored_of_mem_changed {instruction : Instruction} (changes : .stored ∈ instruction.changed) :
    instruction.writes = true := by
  cases instruction with
  | plain opcode =>
    change .stored ∈ opcode.changed at changes
    unfold Opcode.changed at changes
    split at changes <;> simp_all [Instruction.writes]
  | _ => cases changes

theorem findings_not_mem_changed : .findings ∉ instruction.changed := by
  intro changes
  cases instruction with
  | plain opcode =>
    change .findings ∈ opcode.changed at changes
    unfold Opcode.changed at changes
    split at changes <;> simp_all
  | _ => cases changes

theorem execute_ledger :
    ((showProgress >>= fun _ => execute decider block function instruction).after machine).ledger =
      if instruction.writes && showProgress.returns machine then machine.ledger.note .store else machine.ledger := by
  cases writes : instruction.writes with
  | false =>
    have executes : Assuming decider Ledger.frame instruction.stride machine.session.names.other
        (execute decider block function instruction) fun _ _ => True := by
      refine execute_assuming decider block function fun part changes => Ledger.blind ?_ ?_
      · rintro rfl
        simp [stored_of_mem_changed changes] at writes
      · rintro rfl
        exact findings_not_mem_changed instruction changes
    exact ((showProgress_steady.bindAssuming fun _ _ => executes).abides machine.speaks_unrestricted).shows
  | true =>
    obtain rfl := Instruction.of_writes writes
    rw [Bool.true_and]
    rcases showProgress_reads.eq machine with ⟨value, shown⟩ | ⟨fault, failed⟩
    · rw [after_bind_of_ok shown, returns_of_ok shown, if_pos rfl]
      exact congrArg Ledger.ofWatch (storeStorage_watch machine)
    · rw [after_bind_of_error failed, returns_of_error failed, if_neg (by simp)]

theorem perform_ledger :
    ((perform decider block function instruction).after machine).ledger =
      machine.ledger.after (entries instruction machine) := by
  by_cases fails : instruction = .failing
  · subst fails
    rfl
  · have parted : perform decider block function instruction = inspect decider instruction >>= fun _ =>
          showProgress >>= fun _ => execute decider block function instruction := by
      cases instruction with
      | failing => exact (fails rfl).elim
      | _ => rfl
    have executed := execute_ledger decider block function instruction
    rw [parted, entries]
    cases writes : instruction.writes with
    | true =>
      have other : TransferEvent.isEvent (machine.scene instruction) = .ok false := by
        rw [Instruction.of_writes writes]
        rfl
      have silent : ¬ (Except.ok false : Except Fault Bool) = .ok true := by simp
      rw [after_bind_of_ok (inspect_of_no_event decider other), executed, writes, other, if_neg silent]
      split <;> rfl
    | false =>
      have inspected := inspect_ledger decider instruction machine
      simp only [writes, Bool.false_and, Bool.false_eq_true, ↓reduceIte] at executed ⊢
      have same : ((inspect decider instruction >>= fun _ =>
          showProgress >>= fun _ => execute decider block function instruction).after machine).ledger =
          ((inspect decider instruction).after machine).ledger := by
        cases run : inspect decider instruction machine with
        | ok value next => rw [after_bind_of_ok run, after_of_ok run, executed]
        | error fault next => rw [after_bind_of_error run, after_of_error run]
      rw [same, inspected]
      split <;> rfl

end Machine

namespace Explore

def Moment.entries (moment : Moment) : List Ledger.Entry :=
  if moment.step?.isSome then
    Machine.entries moment.instruction (moment.machine.counted moment.block moment.function (Text.strip moment.line))
  else
    []

section Entries

variable (decider : Decider)

def Visit.deeds (visit : Visit) : List Ledger.Entry :=
  (visit.moments decider).flatMap Moment.entries

def Visit.entries (visit : Visit) : List Ledger.Entry :=
  .call visit.function :: (visit.signature?.toList.map .enter ++ visit.deeds decider)

theorem executeLine_ledger (moment : Moment) :
    ((executeLine decider moment.block moment.function moment.line).after moment.machine).ledger =
      moment.machine.ledger.after moment.entries := by
  rcases @executeLine_eq decider moment with ⟨unrecorded, fault, failed⟩ | ⟨text, _, _, recorded, run⟩
  · rw [Moment.entries, unrecorded, after_of_error failed]
    rfl
  · have counted : (moment.machine.counted moment.block moment.function (Text.strip moment.line)).ledger =
      moment.machine.ledger := rfl
    rw [Moment.entries, recorded, Moment.after_eq run, Option.isSome_some, if_pos rfl, ← counted]
    generalize moment.machine.counted moment.block moment.function (Text.strip moment.line) = machine
    generalize moment.instruction = instruction
    have performed := Machine.perform_ledger decider moment.block moment.function instruction machine
    cases ended : Machine.perform decider moment.block moment.function instruction machine with
    | error fault next =>
      rw [after_of_error ended] at performed
      rw [after_bind_of_error ended, performed]
    | ok value next =>
      rw [after_of_ok ended] at performed
      rw [after_bind_of_ok ended, ← performed]
      exact ((noteSource_steady (Ledger.blind nofun nofun) _ text).abides next.speaks_unrestricted).shows

theorem ledger_linking :
    Linking decider fun moments before after => after.ledger = before.ledger.after (moments.flatMap Moment.entries) where
  refl _ := rfl
  trans first second := by rw [flatMap_append, Ledger.after_append, ← first, second]
  line moment := by
    rw [flatMap_singleton]
    exact executeLine_ledger decider moment
  ending block function machine := by
    have steady := @comeToEnd_steady _ Ledger.frame machine.session.names.other block function
    exact (steady.abides machine.speaks_unrestricted).shows

theorem Visit.ofWatch_noted (visit : Visit) :
    Ledger.ofWatch visit.noted =
      visit.machine.ledger.after (.call visit.function :: visit.signature?.toList.map .enter) := by
  have called : Ledger.ofWatch (visit.machine.session.watch.call visit.function) =
      visit.machine.ledger.note (.call visit.function) := by
    unfold Watch.call Ledger.note
    by_cases same : visit.function = visit.machine.session.watch.previousFunction
    · rw [if_pos same]
      exact (if_pos same).symm
    · rw [if_neg same]
      exact (if_neg same).symm
  rw [Ledger.after_cons, ← called]
  unfold Visit.noted
  cases visit.signature? <;> rfl

theorem ledger_tracking :
    Tracking decider (fun session => Ledger.ofWatch session.watch)
      fun visit ledger => ledger.after (visit.entries decider) where
  hidden _ := rfl
  left _ _ _ _ := rfl
  reached visit := by
    have linked := (ledger_linking decider).reached visit
    rw [Visit.approach_after] at linked
    have approached : (rewatched visit.noted { visit.machine with session := visit.entered }).ledger = _ :=
      visit.ofWatch_noted
    rw [approached, ← Ledger.after_append] at linked
    exact linked

/-- What an exploration enters in the ledger, call after call. -/
def Visit.history (visit : Visit) : List Ledger.Entry :=
  (visit.tour decider).flatMap (Visit.entries decider)

theorem Visit.ledger_explored (visit : Visit) :
    (visit.explored decider).ledger = visit.machine.ledger.after (visit.history decider) := by
  unfold history Ledger.after
  rw [foldl_flatMap]
  exact (ledger_tracking decider).explored visit

end Entries

variable {decider : Decider}

variable (decider) in
def Visit.behind (visit : Visit) : List Visit :=
  (visit.successors decider).flatMap (tour decider)

namespace Visit

theorem function_of_mem_successors {visit next : Visit} (made : next ∈ visit.successors decider) :
    next.function = visit.name := by
  obtain ⟨exit, found, member⟩ := exists_exit made
  obtain ⟨_, _, _, rfl, _⟩ := Exit.exists_of_mem_successors member
  obtain ⟨_, arrived, _, _⟩ := exit?_eq_some found
  obtain ⟨_, _, _, approaches, _⟩ := of_atEnd arrived
  exact (of_ready approaches).1

theorem function_of_mem_behind {start visit : Visit}
    (fits : ∀ next ∈ start.behind decider, ∀ other, next.signature? = some other → signatureName other = start.name)
    (member : visit ∈ start.behind decider) :
    visit.function = start.name := by
  induction start using induction decider with
  | step start ih =>
    obtain ⟨next, made, inside⟩ := mem_flatMap.mp member
    have within : ∀ call ∈ next.tour decider, call ∈ start.behind decider :=
      fun call inside => mem_flatMap.mpr ⟨next, made, inside⟩
    have passed := function_of_mem_successors made
    have named : next.name = start.name := by
      have here : next ∈ next.tour decider := by
        rw [tour_eq]
        exact mem_cons_self
      unfold name at passed ⊢
      cases entered : next.signature? with
      | none => exact passed
      | some other => exact fits next (within next here) other entered
    rw [tour_eq] at inside within
    rcases mem_cons.mp inside with rfl | deeper
    · exact passed
    · refine (ih next made ?_ deeper).trans named
      rw [named]
      exact fun call below => fits call (within call (mem_cons_of_mem _ below))

variable {visit : Visit} {entry : Ledger.Entry} {signature : String} {start : Visit}

theorem deeds_only (member : entry ∈ visit.deeds decider) : entry = .store ∨ entry = .log := by
  obtain ⟨moment, _, inside⟩ := mem_flatMap.mp member
  unfold Moment.entries Machine.entries at inside
  split at inside
  · split at inside
    · exact .inr (mem_singleton.mp inside)
    · split at inside
      · exact .inl (mem_singleton.mp inside)
      · cases inside
  · cases inside

theorem cases_of_mem_entries (member : entry ∈ visit.entries decider) :
    entry = .call visit.function ∨ (∃ signature, visit.signature? = some signature ∧ entry = .enter signature) ∨
      entry = .store ∨ entry = .log := by
  rcases mem_cons.mp member with called | later
  · exact .inl called
  · rcases mem_append.mp later with entered | done
    · obtain ⟨signature, starts, rfl⟩ := mem_map.mp entered
      exact .inr (.inl ⟨signature, Option.mem_toList.mp starts, rfl⟩)
    · exact .inr (.inr (deeds_only done))

theorem call_mem_entries {function : String} (member : .call function ∈ visit.entries decider) :
    function = visit.function := by
  simpa using cases_of_mem_entries member

theorem enter_mem_entries (member : .enter signature ∈ visit.entries decider) : visit.signature? = some signature := by
  simpa using cases_of_mem_entries member

theorem store_mem_entries (visit : Visit) : .store ∈ visit.entries decider ↔ .store ∈ visit.deeds decider := by
  simp [entries]

theorem log_mem_entries (visit : Visit) : .log ∈ visit.entries decider ↔ .log ∈ visit.deeds decider := by
  simp [entries]

variable (decider) in
theorem history_of_entered (entered : start.signature? = some signature) :
    start.history decider =
      .call start.function :: .enter signature ::
        (start.deeds decider ++ (start.behind decider).flatMap (entries decider)) := by
  unfold history
  rw [tour_eq, flatMap_cons, entries, entered]
  rfl

theorem signature?_of_mem_tour {start visit : Visit} {map : SourceMap}
    (source : start.machine.session.source = some map) (member : visit ∈ start.tour decider)
    (entered : visit.signature? = some signature) :
    ∃ entry ∈ map.functions, entry.2 = signature := by
  have known : visit.machine.session.source.map SourceMap.functions = some map.functions := by
    have lasting := congrArg (fun standing : Standing => standing.source.map SourceMap.functions)
      (lasting_of_mem_tour decider member)
    simpa [Session.lasting, Session.standing, source, Function.comp_def] using lasting
  obtain ⟨other, found, functions⟩ := Option.map_eq_some_iff.mp known
  unfold signature? Session.signatureAt? at entered
  split at entered
  · cases entered
  · rw [found, Option.bind_some, functions] at entered
    obtain ⟨selector, _, named⟩ := Option.bind_eq_some_iff.mp entered
    exact Table.exists_mem_of_get? named

theorem mem_reported_of_single (entered : start.signature? = some signature) (outside : start.function = "fallback")
    (own : signatureName signature ≠ "fallback")
    (single : ∀ visit ∈ start.behind decider, ∀ other, visit.signature? = some other → other = signature) :
    Ledger.emptyNote signature ∈ (({} : Ledger).after (start.history decider)).reported ↔
      (∀ visit ∈ start.behind decider, .store ∉ visit.deeds decider) ∧
        (start.behind decider = [] → .store ∉ start.deeds decider) ∧
        ((∃ visit ∈ start.behind decider, .log ∈ visit.deeds decider) ∨
          ∃ earlier later, start.deeds decider = earlier ++ .log :: later ∧ .store ∉ earlier) := by
  have name : start.name = signatureName signature := by rw [Visit.name, entered]; rfl
  have function : ∀ visit ∈ start.behind decider, visit.function = signatureName signature := by
    intro visit member
    rw [← name]
    refine function_of_mem_behind (fun next behind other starts => ?_) member
    rw [single next behind other starts, name]
  have deedsOnly : ∀ entry ∈ start.deeds decider, entry = .store ∨ entry = .log := fun _ => deeds_only
  have calls : ∀ other, .call other ∈ (start.behind decider).flatMap (entries decider) →
      other = signatureName signature := by
    intro other member
    obtain ⟨visit, behind, inside⟩ := mem_flatMap.mp member
    exact (call_mem_entries inside).trans (function visit behind)
  have enters : ∀ other, .enter other ∈ start.deeds decider ++ (start.behind decider).flatMap (entries decider) →
      other = signature := by
    intro other member
    rcases mem_append.mp member with done | later
    · simpa using deedsOnly _ done
    · obtain ⟨visit, behind, inside⟩ := mem_flatMap.mp later
      exact single visit behind other (enter_mem_entries inside)
  have begins : ∀ entry rest, (start.behind decider).flatMap (entries decider) = entry :: rest →
      entry = .call (signatureName signature) := by
    intro entry rest shape
    cases parts : start.behind decider with
    | nil => simp [parts] at shape
    | cons visit more =>
      rw [parts, flatMap_cons, entries] at shape
      injection shape with same _
      rw [← same, function visit (by simp [parts])]
  have none : (start.behind decider).flatMap (entries decider) = [] ↔ start.behind decider = [] := by
    cases start.behind decider with
    | nil => simp
    | cons visit more => simp [entries]
  rw [history_of_entered decider entered, outside,
    Ledger.mem_reported_after own (fun other member => by simpa using deedsOnly _ member) calls enters begins, none]
  simp only [mem_flatMap, not_exists, not_and, store_mem_entries, log_mem_entries, Ledger.LogsFirst]

end Visit

theorem emptyEventIndex?_of_first {notes : List String} (all : ∀ note ∈ notes, noteDetail note = .ok "standard1") :
    emptyEventIndex? 0 notes = .ok (if notes = [] then none else some 0) := by
  cases notes with
  | nil => rfl
  | cons note rest =>
    unfold emptyEventIndex?
    rw [all note mem_cons_self]
    rfl

theorem retract_first {finding kept : Finding} (all : ∀ note ∈ finding.notes, noteDetail note = .ok "standard1")
    (run : retract 0 finding = .ok kept) :
    kept.notes = finding.notes.tail := by
  have index := emptyEventIndex?_of_first all
  unfold retract at run
  rw [List.drop_zero, index] at run
  by_cases none : finding.notes = []
  · rw [if_neg (by simp [none])] at run
    cases run
    simp [none]
  · rw [if_pos (length_pos_iff.mpr none), if_neg none] at run
    cases run
    exact eraseIdx_zero

theorem settle_emptyEvent (watch : Watch) : (settle true watch).emptyEvent = watch.findings.emptyEvent := by
  unfold settle
  rw [if_neg (by simp)]
  split
  · rfl
  · split <;> rfl

theorem settlePausable_emptyEvent :
    Effect.Preserves (fun machine : Machine => machine.session.watch.findings.emptyEvent) settlePausable := by
  unfold settlePausable
  refine .bind ⟨fun _ => rfl⟩ fun session => ?_
  cases session.source with
  | none => exact .throw _
  | some map =>
    refine .ite (.bind ⟨fun _ => rfl⟩ fun _ => ?_) (.pure _)
    split
    · exact .throw _
    · exact .pure _

theorem startBlocks_keeps (description : Option String) :
    Effect.Preserves (fun machine : Machine => (machine.session.watch, machine.session.source))
      (startBlocks description) := by
  unfold startBlocks
  refine .bind ⟨fun _ => rfl⟩ fun session => ?_
  cases session.source with
  | none => exact .pure _
  | some map =>
    refine .bind ⟨fun machine => ?_⟩ fun starts => .bind ⟨fun _ => rfl⟩ fun _ => ?_
    · cases session.graph.functionStarts <;> rfl
    · cases session.settings.targetFunction with
      | none => exact .pure _
      | some selector =>
        refine .ite (.pure _) ?_
        cases blockOf? starts selector with
        | none => exact .throw _
        | some block => exact .pure _

theorem noteDetail_of_mem_notes {history : List Ledger.Entry}
    (plain : ∀ signature, .enter signature ∈ history → ':' ∉ signature.toList) :
    ∀ note ∈ (({} : Ledger).after history).notes, noteDetail note = .ok "standard1" := by
  intro note member
  obtain ⟨signature, without, rfl⟩ :=
    Ledger.signed_after (fun signature => ':' ∉ signature.toList) (by decide) rfl plain note member
  rw [Ledger.emptyNote_eq]
  exact noteDetail_append ⟨without, by decide⟩

theorem exploreFrom_notes {block : Int} {machine next : Machine} (blank : machine.ledger = {})
    (details : ∀ note ∈ ((beginning block machine).explored decider).ledger.notes, noteDetail note = .ok "standard1")
    (run : exploreFrom decider block machine = .ok () next) :
    next.session.watch.findings.emptyEvent.notes = ((beginning block machine).explored decider).ledger.reported := by
  obtain ⟨finding, rfl, kept⟩ := exploreFrom_eq_ok run
  have noNotes : machine.session.watch.findings.emptyEvent.notes = [] := congrArg Ledger.notes blank
  show finding.notes = _
  rw [noNotes, length_nil] at kept
  split at kept
  · next stored =>
    exact (retract_first details kept).trans (if_pos stored).symm
  · next unstored =>
    cases kept
    exact (if_neg unstored).symm

theorem exploreAll_notes {description : Option String} {machine ready after : Machine} {block : Int} {map : SourceMap}
    (fresh : machine.session.watch = initialWatch machine.session.settings description)
    (source : machine.session.source = some map) (plain : ∀ entry ∈ map.functions, ':' ∉ entry.2.toList)
    (starts : startBlocks description machine = .ok [block] ready)
    (explores : exploreAll decider description machine = .ok () after) :
    after.session.watch.findings.emptyEvent.notes =
      (({} : Ledger).after ((beginning block ready).history decider)).reported := by
  have kept := (startBlocks_keeps description).of_ok starts
  have blank : ready.ledger = {} := congrArg Ledger.ofWatch ((Prod.mk.inj kept).1.trans fresh)
  have knows : (beginning block ready).machine.session.source = some map := (Prod.mk.inj kept).2.trans source
  have ledger := (beginning block ready).ledger_explored decider
  rw [show (beginning block ready).machine.ledger = {} from blank] at ledger
  have details := noteDetail_of_mem_notes fun signature
      (entered : .enter signature ∈ (beginning block ready).history decider) => by
    obtain ⟨visit, member, inside⟩ := mem_flatMap.mp entered
    obtain ⟨entry, known, rfl⟩ := Visit.signature?_of_mem_tour knows member (Visit.enter_mem_entries inside)
    exact plain entry known
  rw [← ledger] at details ⊢
  have whole := explores
  unfold exploreAll at whole
  rw [bind_ok starts] at whole
  obtain ⟨_, explored, ran, _⟩ := of_bind_ok whole
  rw [exploreAll_eq starts ran] at explores
  have settled : after.session.watch.findings.emptyEvent = explored.session.watch.findings.emptyEvent :=
    (settlePausable_emptyEvent.of_ok explores).trans (settle_emptyEvent explored.session.watch)
  obtain ⟨_, _, single, done⟩ := of_bind_ok ran
  cases done
  rw [settled]
  exact exploreFrom_notes blank details single

/-- A function is reported exactly if nothing is written in the calls behind its first block, or in that block if there
are none, and a transfer is logged in one of them, or in the first block before anything is written there. -/
theorem exploreAll_emptyEvents {decider : Decider} {description : Option String} {machine ready after : Machine}
    {block : Int} {map : SourceMap} (fresh : machine.session.watch = initialWatch machine.session.settings description)
    (source : machine.session.source = some map) (plain : ∀ entry ∈ map.functions, ':' ∉ entry.2.toList)
    (starts : startBlocks description machine = .ok [block] ready)
    (explores : exploreAll decider description machine = .ok () after) :
    let start := beginning block ready
    ∃ report notes, (Report.fresh true).addFindings after.session.watch.findings = .ok report ∧
      report.Shows .emptyTransferEvent notes ∧
      notes = (({} : Ledger).after (start.history decider)).reported ∧
      ∀ signature, start.signature? = some signature → signatureName signature ≠ "fallback" →
        (∀ visit ∈ start.behind decider, ∀ other, visit.signature? = some other → other = signature) →
        (Ledger.emptyNote signature ∈ notes ↔ (∀ visit ∈ start.behind decider, .store ∉ visit.deeds decider) ∧
          (start.behind decider = [] → .store ∉ start.deeds decider) ∧
          ((∃ visit ∈ start.behind decider, .log ∈ visit.deeds decider) ∨
            ∃ earlier later, start.deeds decider = earlier ++ .log :: later ∧ .store ∉ earlier)) := by
  intro start
  obtain ⟨report, adds, shows⟩ := Report.addFindings_shows Report.fresh_shows after.session.watch.findings
  have noted := exploreAll_notes fresh source plain starts explores
  refine ⟨report, _, adds, shows .emptyTransferEvent, noted, fun signature entered own single => ?_⟩
  show Ledger.emptyNote signature ∈ after.session.watch.findings.emptyEvent.notes ↔ _
  rw [noted]
  exact Visit.mem_reported_of_single entered rfl own single

def storeThenLog : Machine where
  session :=
    { settings := { targetFunction := some "40c10f19" }
      graph :=
        { instructions :=
            [(0, "PUSH4 0x40c10f19"), (5, "EQ"), (6, "PUSH2 0x000b"), (9, "JUMPI"), (10, "STOP"), (11, "SSTORE "),
              (12, "JUMP "), (13, "JUMPDEST "), (14, "LOG4 "), (15, "STOP ")]
          ends := [(11, 12), (13, 15)]
          kinds := [(11, .unconditional), (13, .terminal)]
          blocks :=
            [(11, { start := 11, stop := 12, lines := ["SSTORE ", "JUMP "], kind := some .unconditional }),
              (13, { start := 13, stop := 15, lines := ["JUMPDEST ", "LOG4 ", "STOP "], kind := some .terminal })]
          edges := [(11, []), (13, [])] }
      source := some { functions := [("40c10f19", "mint(address,uint256)")] }
      watch := initialWatch { targetFunction := some "40c10f19" } none }
  path :=
    { Path.initial with
      stack := [.integer 0, .integer 5, .integer 13, .integer 0, .integer 0, .integer TransferEvent.signature,
        .integer 0, .integer 0, .integer 0] }

def storeThenLogReady : Machine :=
  { storeThenLog with session := { storeThenLog.session with functionStarts := [(11, "40c10f19")] } }

theorem startBlocks_storeThenLog : startBlocks none storeThenLog = .ok [11] storeThenLogReady := by
  have dispatcher : storeThenLog.session.graph.functionStarts = .ok [(11, "40c10f19")] := by decide +kernel
  unfold startBlocks
  rw [bind_ok (session_apply _)]
  change (lift storeThenLog.session.graph.functionStarts >>= _) storeThenLog = _
  rw [dispatcher, bind_ok (lift_ok _ _)]
  rfl

def storeThenLogStart : Visit :=
  beginning 11 storeThenLogReady

def storeThenLogNext : Visit :=
  (storeThenLogStart.successors .permissive).getD 0 storeThenLogStart

theorem behind_storeThenLogStart : storeThenLogStart.behind .permissive = [storeThenLogNext] := by
  have one : (storeThenLogStart.successors .permissive).length = 1 := by decide +kernel
  have none : (storeThenLogNext.successors .permissive).length = 0 := by decide +kernel
  have next : storeThenLogStart.successors .permissive = [storeThenLogNext] := by
    unfold storeThenLogNext
    obtain ⟨visit, shape⟩ := length_eq_one_iff.mp one
    rw [shape, getD_cons_zero]
  rw [Visit.behind, next, flatMap_singleton, Visit.tour_eq, length_eq_zero_iff.mp none, flatMap_nil]

theorem exploreAll_emptyEvents_storeThenLog :
    .store ∈ storeThenLogStart.deeds .permissive ∧
    ∃ after report notes, exploreAll .permissive none storeThenLog = .ok () after ∧
      (Report.fresh true).addFindings after.session.watch.findings = .ok report ∧
      report.Shows .emptyTransferEvent notes ∧ "mint(address,uint256):standard1" ∈ notes := by
  refine ⟨by decide +kernel, ?_⟩
  obtain ⟨_, explores⟩ := @ok_of_returns _ (exploreAll .permissive none) storeThenLog (by decide +kernel)
  obtain ⟨report, notes, adds, shows, _, reported⟩ :=
    exploreAll_emptyEvents rfl rfl (by decide) startBlocks_storeThenLog explores
  refine ⟨_, report, notes, explores, adds, shows, ?_⟩
  have behind : (beginning 11 storeThenLogReady).behind .permissive = [storeThenLogNext] := behind_storeThenLogStart
  refine (reported "mint(address,uint256)" (by decide +kernel) (by decide +kernel) ?_).mpr ⟨?_, ?_, ?_⟩
  · have noEntry : storeThenLogNext.signature? = none := by decide +kernel
    simp [behind, noEntry]
  · have unwritten : .store ∉ storeThenLogNext.deeds .permissive := by decide +kernel
    simpa [behind] using unwritten
  · simp [behind]
  · have logged : .log ∈ storeThenLogNext.deeds .permissive := by decide +kernel
    simp [behind, logged]

end Explore

end MintAudit
