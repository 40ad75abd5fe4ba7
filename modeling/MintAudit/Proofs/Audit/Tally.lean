import MintAudit.Audit.Basic
import MintAudit.Proofs.Graph.WellFormed
import MintAudit.Proofs.Listing.Disassembly

namespace MintAudit

/-!
# Tallies of audits

An audit analyzes its contracts one after another.
-/

/-! ## Consistent reports -/

theorem NotedKind.label_injective : Function.Injective NotedKind.label := by
  intro first second same
  cases first <;> cases second <;> first
    | rfl
    | simp [NotedKind.label] at same

def Findings.about (findings : Findings) : NotedKind → Finding
  | .privilegedAddress => findings.privileged
  | .unrestrictedFrom => findings.unrestricted
  | .emptyTransferEvent => findings.emptyEvent

namespace Report

def listed? (report : Report) (kind : NotedKind) : Option Entry :=
  report.analysis.bind (Table.get? kind.label)

def flag? (report : Report) (kind : NotedKind) : Option Bool :=
  report.flags.bind (Table.get? kind.label)

/-- The report lists these notes about a kind of problem, and flags it if there are any. -/
structure Shows (report : Report) (kind : NotedKind) (notes : List String) : Prop where
  listed : report.listed? kind = some (.notes notes)
  flagged : report.flag? kind = some (!notes.isEmpty)

theorem fresh_shows (kind : NotedKind) : (fresh true).Shows kind [] := by
  cases kind <;> exact ⟨rfl, rfl⟩

variable {report : Report} {notes : NotedKind → List String} {summary : Summary}

theorem addFinding_shows {kind : NotedKind} (blank : report.Shows kind []) (finding : Finding) :
    ∃ after, report.addFinding kind finding = .ok after ∧ after.Shows kind finding.notes ∧
      ∀ other notes, other ≠ kind → report.Shows other notes → after.Shows other notes := by
  -- Nothing is written for any other status, and then there are no notes either.
  by_cases found : finding.status = 1
  · obtain ⟨analysis, written, -⟩ := Option.bind_eq_some_iff.mp blank.listed
    obtain ⟨flags, flagged, -⟩ := Option.bind_eq_some_iff.mp blank.flagged
    have noted : finding.notes.isEmpty = false := by simpa using finding.found.mp found
    refine ⟨{ report with
      analysis := some (Table.put kind.label (.notes finding.notes) analysis)
      flags := some (Table.put kind.label true flags) }, ?_, ⟨?_, ?_⟩, ?_⟩
    · simp [addFinding, found, written, flagged, pure, Except.pure]
    · simp [listed?, Table.get?_put_self]
    · simp [flag?, Table.get?_put_self, noted]
    · intro other notes different shown
      have apart : other.label ≠ kind.label := fun same => different (NotedKind.label_injective same)
      have listed := shown.listed
      have otherFlag := shown.flagged
      rw [listed?, written] at listed
      rw [flag?, flagged] at otherFlag
      exact ⟨(Table.get?_put_of_ne apart _ _).trans listed, (Table.get?_put_of_ne apart _ _).trans otherFlag⟩
  · have unnoted : finding.notes = [] := by
      by_contra noted
      exact found (finding.found.mpr noted)
    refine ⟨report, ?_, unnoted ▸ blank, fun _ _ _ shown => shown⟩
    simp [addFinding, found, pure, Except.pure]

theorem addFindings_shows (blank : ∀ kind, report.Shows kind []) (findings : Findings) :
    ∃ after, report.addFindings findings = .ok after ∧ ∀ kind, after.Shows kind (findings.about kind).notes := by
  obtain ⟨first, added, unrestricted, keepsFirst⟩ := addFinding_shows (blank .unrestrictedFrom) findings.unrestricted
  obtain ⟨second, addedNext, privileged, keepsSecond⟩ :=
    addFinding_shows (keepsFirst .privilegedAddress [] (by decide) (blank _)) findings.privileged
  have stillBlank : second.Shows .emptyTransferEvent [] :=
    keepsSecond _ [] (by decide) (keepsFirst _ [] (by decide) (blank _))
  obtain ⟨last, addedLast, emptyEvent, keepsLast⟩ := addFinding_shows stillBlank findings.emptyEvent
  refine ⟨last, by simp [addFindings, added, addedNext, addedLast, bind, Except.bind], ?_⟩
  intro kind
  cases kind with
  | privilegedAddress => exact keepsLast _ _ (by decide) privileged
  | unrestrictedFrom => exact keepsLast _ _ (by decide) (keepsSecond _ _ (by decide) unrestricted)
  | emptyTransferEvent => exact emptyEvent

end Report

namespace Explore

end Explore

namespace Reports

theorem find?_keep_self (file name : String) (report : Report) (reports : Reports) :
    (reports.keep file name report).find? file name = some report := by
  simp [find?, keep, Table.get?_put_self]

theorem find?_keep_of_ne {file name otherFile otherName : String} (different : (otherFile, otherName) ≠ (file, name))
    (report : Report) (reports : Reports) :
    (reports.keep file name report).find? otherFile otherName = reports.find? otherFile otherName := by
  by_cases sameFile : otherFile = file
  · subst sameFile
    have differentName : otherName ≠ name := fun same => different (by rw [same])
    cases known : Table.get? otherFile reports with
    | none => simp [find?, keep, known, Table.get?_put_self, Table.get?_put_of_ne differentName, Table.get?]
    | some named => simp [find?, keep, known, Table.get?_put_self, Table.get?_put_of_ne differentName]
  · simp [find?, keep, Table.get?_put_of_ne sameFile]

end Reports

def AuditRun.contract (run : AuditRun) : String × String :=
  (run.file, run.name)

/-- The tally sums up runs: it has the report of the last run on every contract and no other, and its code is one exactly
if some run has the code one. -/
structure Tally.Sums (tally : Tally) (runs : List AuditRun) : Prop where
  kept : ∀ earlier run later, runs = earlier ++ run :: later → (∀ other ∈ later, other.contract ≠ run.contract) →
    tally.reports.find? run.file run.name = some run.report
  only : ∀ file name report, tally.reports.find? file name = some report →
    ∃ run ∈ runs, run.contract = (file, name) ∧ run.report = report
  code : tally.code = 1 ↔ ∃ run ∈ runs, run.code = 1

theorem Tally.Sums.nil : Sums {} [] where
  kept _ _ _ split := by simp at split
  only _ _ _ found := by simp [Reports.find?, Table.get?] at found
  code := by simp

theorem Tally.Sums.add {tally : Tally} {runs : List AuditRun} (sums : tally.Sums runs) (run : AuditRun) :
    (tally.add run).Sums (runs ++ [run]) where
  kept earlier old later split apart := by
    -- Either the run that was added is meant, or one before it on another contract.
    rcases List.eq_nil_or_concat later with rfl | ⟨between, last, rfl⟩
    · obtain ⟨-, rfl⟩ := List.append_inj' split rfl |>.imp_right List.singleton_inj.mp
      exact Reports.find?_keep_self _ _ _ _
    · rw [List.concat_eq_append, ← List.cons_append, ← List.append_assoc] at split
      obtain ⟨front, lastSame⟩ := List.append_inj' split rfl
      obtain rfl := List.singleton_inj.mp lastSame
      have different : (old.file, old.name) ≠ (run.file, run.name) := (apart run (by simp)).symm
      refine (Reports.find?_keep_of_ne different _ _).trans (sums.kept earlier old between front ?_)
      intro other member
      exact apart other (by simp [member])
  only file name report found := by
    by_cases same : (file, name) = run.contract
    · obtain ⟨rfl, rfl⟩ := Prod.mk.inj same
      rw [Tally.add, Reports.find?_keep_self] at found
      exact ⟨run, by simp, rfl, Option.some.inj found⟩
    · rw [Tally.add, Reports.find?_keep_of_ne same] at found
      obtain ⟨old, member, contract, reported⟩ := sums.only file name report found
      exact ⟨old, by simp [member], contract, reported⟩
  code := by
    by_cases positive : run.code = 1
    · simp [Tally.add, positive]
    · simp [Tally.add, positive, sums.code]

namespace Audit

open Effect (exists_of_seen of_bind_ok seen)

variable {decider : Decider}

variable {audit after : Audit} {run : AuditRun} {input : Input} {runs : List AuditRun} {inputs : List Input}

open Listing

end Audit
end MintAudit
