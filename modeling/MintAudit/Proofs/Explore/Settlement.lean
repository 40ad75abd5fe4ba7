import MintAudit.Proofs.Audit.Tally
import MintAudit.Proofs.Explore.Succession
import MintAudit.Proofs.Number.Numeral

namespace MintAudit

/-!
# Settling the findings

When all functions are explored, the findings about privileged addresses of a contract that can be paused are gone
through once more, and those about its owner are dropped.
-/

open Exec List

namespace Explore

structure Privilege where
  function : String
  word : String
  plain : ':' ∉ function.toList ∧ ':' ∉ word.toList

def Privilege.text (privilege : Privilege) : String :=
  privilege.function ++ ":" ++ privilege.word

def Privilege.variableName (privilege : Privilege) : String :=
  String.ofList (privilege.word.toList.rtakeWhile (· ≠ '-'))

theorem noteDetail_append {function detail : String} (single : ':' ∉ function.toList ∧ ':' ∉ detail.toList) :
    noteDetail (function ++ ":" ++ detail) = .ok detail := by
  have shape : function ++ ":" ++ detail = String.ofList (function.toList ++ ':' :: detail.toList) :=
    String.toList_injective (by simp)
  rw [noteDetail, shape, Text.splitOnChar_append single.1, Text.splitOnChar_of_not_mem single.2]
  simp

variable {notes : List String}

theorem dropOwnerNotes_succ (rounds : Nat) {index : Nat} {privilege : Privilege}
    (here : notes[index]? = some privilege.text) :
    dropOwnerNotes true (rounds + 1) index notes =
      dropOwnerNotes true rounds (index + 1)
        (if privilege.variableName = "_owner" then notes.eraseIdx index else notes) := by
  have last := Text.getLast?_splitOnChar '-' privilege.word.toList
  rw [String.ofList_toList] at last
  rw [dropOwnerNotes, here]
  dsimp only
  rw [Privilege.text, noteDetail_append privilege.plain]
  dsimp only
  rw [last, Bool.true_and]
  by_cases owner : privilege.variableName = "_owner"
  · rw [if_pos owner, if_pos (by simpa [Privilege.variableName] using owner)]
  · rw [if_neg owner, if_neg (by simpa [Privilege.variableName] using owner)]

theorem dropOwnerNotes_runs_out {rounds index : Nat}
    (findings : ∀ note ∈ notes, ∃ privilege : Privilege, note = privilege.text) (left : 0 < rounds)
    (more : notes.length < index + rounds) :
    (dropOwnerNotes true rounds index notes).2 = some .outOfRange := by
  induction rounds generalizing index notes with
  | zero => omega
  | succ rounds ih =>
    cases here : notes[index]? with
    | none => simp [dropOwnerNotes, here]
    | some note =>
      obtain ⟨privilege, rfl⟩ := findings note (mem_of_getElem? here)
      have within : index < notes.length := (List.getElem?_eq_some_iff.mp here).1
      rw [dropOwnerNotes_succ rounds here]
      split
      · refine ih (fun note kept => findings note ?_) (by omega) ?_
        · exact (eraseIdx_sublist _ _).subset kept
        · rw [length_eraseIdx_of_lt within]
          omega
      · exact ih findings (by omega) (by omega)

section Rounds

variable (done : List Privilege) {rest : List Privilege}

theorem getElem?_texts (privilege : Privilege) (more : List Privilege) :
    ((done ++ privilege :: more).map Privilege.text)[done.length]? = some privilege.text := by
  simp

theorem dropOwnerNotes_of_last (others : ∀ privilege ∈ rest.dropLast, privilege.variableName ≠ "_owner") :
    dropOwnerNotes true rest.length done.length ((done ++ rest).map Privilege.text) =
      ((done ++ rest.filter (·.variableName ≠ "_owner")).map Privilege.text, none) := by
  induction rest generalizing done with
  | nil => simp [dropOwnerNotes]
  | cons privilege more ih =>
    rw [length_cons, dropOwnerNotes_succ _ (getElem?_texts done privilege more)]
    by_cases owner : privilege.variableName = "_owner"
    · have last : more = [] := by
        cases more with
        | nil => rfl
        | cons next later => exact (others privilege (by simp) owner).elim
      subst last
      simp [owner, dropOwnerNotes, eraseIdx_append_of_length_le]
    · have onward := ih (done ++ [privilege]) fun other member => others other (by
        cases more with
        | nil => cases member
        | cons next later => exact mem_cons_of_mem _ member)
      simpa [owner] using onward

theorem dropOwnerNotes_of_earlier (owner : ∃ privilege ∈ rest.dropLast, privilege.variableName = "_owner") :
    (dropOwnerNotes true rest.length done.length ((done ++ rest).map Privilege.text)).2 = some .outOfRange := by
  induction rest generalizing done with
  | nil => simp at owner
  | cons privilege more ih =>
    have long : 0 < more.length := by
      cases more with
      | nil => simp at owner
      | cons next later => simp
    rw [length_cons, dropOwnerNotes_succ _ (getElem?_texts done privilege more)]
    by_cases here : privilege.variableName = "_owner"
    · rw [if_pos here]
      refine dropOwnerNotes_runs_out (fun note kept => ?_) long ?_
      · obtain ⟨privilege, _, rfl⟩ := mem_map.mp ((eraseIdx_sublist _ _).subset kept)
        exact ⟨privilege, rfl⟩
      · rw [length_eraseIdx_of_lt (by simp)]
        simp
    · obtain ⟨other, member, found⟩ := owner
      have later : other ∈ more.dropLast := by
        cases more with
        | nil => simp at long
        | cons next later =>
          rcases mem_cons.mp member with rfl | deeper
          · exact (here found).elim
          · exact deeper
      have onward := ih (done ++ [privilege]) ⟨other, later, found⟩
      simpa [here] using onward

end Rounds

theorem settlePausable_notes {machine : Machine} {map : SourceMap} (source : machine.session.source = some map)
    (named : "ERC721Pausable".toList <:+: map.source.content.toList) {dropped : List String × Option Fault}
    (rounds : dropOwnerNotes machine.session.watch.pausable machine.session.watch.findings.privileged.notes.length 0
      machine.session.watch.findings.privileged.notes = dropped) :
    ∃ after, settlePausable machine = dropped.2.elim (.ok () after) (.error · after) ∧
      after.session.watch.findings.privileged.notes = dropped.1 := by
  unfold settlePausable
  rw [bind_ok (session_apply machine)]
  simp only [source, (Text.contains_iff _ _).mpr named, Bool.true_and]
  subst rounds
  by_cases empty : machine.session.watch.findings.privileged.notes = []
  · rw [if_neg (by simp [empty])]
    exact ⟨machine, by simp [empty, dropOwnerNotes], by simp [empty, dropOwnerNotes]⟩
  · rw [if_pos (by simpa using empty), bind_ok (modifySession_apply _ _)]
    generalize (dropOwnerNotes _ _ _ _).2 = failure
    cases failure with
    | none => exact ⟨_, rfl, rfl⟩
    | some fault => exact ⟨_, rfl, rfl⟩

def settled (hasStart : Bool) (machine : Machine) : Machine :=
  { machine with session :=
    { machine.session with watch := { machine.session.watch with findings := settle hasStart machine.session.watch } } }

theorem exploreAll_eq {decider : Decider} {description : Option String} {machine ready explored : Machine}
    {blocks : List Int} (starts : startBlocks description machine = .ok blocks ready)
    (explores : blocks.forM (exploreFrom decider) ready = .ok () explored) :
    exploreAll decider description machine = settlePausable (settled (!blocks.isEmpty) explored) := by
  unfold exploreAll
  rw [bind_ok starts, bind_ok explores, bind_ok (modifySession_apply _ _)]
  rfl

/-- A contract that can be paused is settled exactly if no finding but the last one is about its owner. Then all findings
that are not about the owner are reported, in their order; otherwise the findings run out. -/
theorem exploreAll_pausable {decider : Decider} {description : Option String} {machine ready explored : Machine}
    {blocks : List Int} (starts : startBlocks description machine = .ok blocks ready)
    (explores : blocks.forM (exploreFrom decider) ready = .ok () explored) {map : SourceMap}
    (source : explored.session.source = some map) (named : "ERC721Pausable".toList <:+: map.source.content.toList)
    (pausable : explored.session.watch.pausable = true) {privileges : List Privilege}
    (found : (settle (!blocks.isEmpty) explored.session.watch).privileged.notes = privileges.map Privilege.text) :
    ((∀ privilege ∈ privileges.dropLast, privilege.variableName ≠ "_owner") →
      ∃ after report, exploreAll decider description machine = .ok () after ∧
        (Report.fresh true).addFindings after.session.watch.findings = .ok report ∧
        report.Shows .privilegedAddress ((privileges.filter (·.variableName ≠ "_owner")).map Privilege.text)) ∧
    ((∃ privilege ∈ privileges.dropLast, privilege.variableName = "_owner") →
      ∃ after, exploreAll decider description machine = .error .outOfRange after) := by
  have settles := @settlePausable_notes (settled (!blocks.isEmpty) explored) map source named
  have notes : (settled (!blocks.isEmpty) explored).session.watch.findings.privileged.notes =
    privileges.map Privilege.text := found
  have can : (settled (!blocks.isEmpty) explored).session.watch.pausable = true := pausable
  rw [notes, can, length_map] at settles
  rw [exploreAll_eq starts explores]
  constructor
  · intro others
    obtain ⟨after, returns, kept⟩ := settles (dropOwnerNotes_of_last [] others)
    obtain ⟨report, adds, shows⟩ := Report.addFindings_shows Report.fresh_shows after.session.watch.findings
    refine ⟨after, report, returns, adds, ?_⟩
    have shown := shows .privilegedAddress
    rwa [Findings.about, kept] at shown
  · intro owner
    obtain ⟨after, ends, _⟩ := settles rfl
    have fault := dropOwnerNotes_of_earlier [] owner
    rw [length_nil, nil_append] at fault
    rw [fault] at ends
    exact ⟨after, ends⟩

def byOwner : Privilege := ⟨"transferFrom(address,address,uint256)", "Ia_store-0-_owner", by decide⟩

def byMinter : Privilege := ⟨"transferFrom(address,address,uint256)", "Ia_store-6-minter", by decide⟩

def paused (privileges : List Privilege) : Machine where
  session :=
    { graph :=
        { instructions :=
            [(0, "PUSH4 0x23b872dd"), (5, "EQ"), (6, "PUSH2 0x000b"), (9, "JUMPI"), (10, "STOP"), (11, "STOP")]
          ends := [(11, 11)]
          kinds := [(11, .terminal)]
          blocks := [(11, { start := 11, stop := 11, lines := ["STOP "], kind := some .terminal })]
          edges := [(11, [])] }
      source :=
        some
          { source := SourceText.ofString "contract ERC721Pausable"
            functions := [("23b872dd", "transferFrom(address,address,uint256)")] }
      watch :=
        { pausable := true
          owner := .integer 1
          findings := { privileged := privileges.foldl (fun finding privilege => finding.note privilege.text) .nothing } } }
  path := Path.initial

def pausedAtStart (privileges : List Privilege) : Machine :=
  { paused privileges with session := { (paused privileges).session with functionStarts := [(11, "23b872dd")] } }

theorem startBlocks_paused (privileges : List Privilege) :
    startBlocks none (paused privileges) = .ok [11] (pausedAtStart privileges) := by
  have dispatcher : (paused privileges).session.graph.functionStarts = .ok [(11, "23b872dd")] := by
    change (paused []).session.graph.functionStarts = _
    decide +kernel
  unfold startBlocks
  rw [bind_ok (session_apply _)]
  change (lift (paused privileges).session.graph.functionStarts >>= _) (paused privileges) = _
  rw [dispatcher, bind_ok (lift_ok _ _)]
  rfl

def pausedExplored (privileges : List Privilege) : Machine :=
  after ([11].forM (exploreFrom .permissive)) (pausedAtStart privileges)

theorem explores_paused {privileges : List Privilege}
    (runs : ([11].forM (exploreFrom .permissive)).returns (pausedAtStart privileges) = true) :
    [11].forM (exploreFrom .permissive) (pausedAtStart privileges) = .ok () (pausedExplored privileges) := by
  obtain ⟨⟨⟩, run⟩ := ok_of_returns runs
  exact run

theorem source_paused {privileges : List Privilege}
    (kept : (pausedExplored privileges).session.source.map (·.source.content) = some "contract ERC721Pausable") :
    ∃ map, (pausedExplored privileges).session.source = some map ∧
      "ERC721Pausable".toList <:+: map.source.content.toList := by
  obtain ⟨map, source, content⟩ := Option.map_eq_some_iff.mp kept
  exact ⟨map, source, by rw [content]; exact ⟨"contract ".toList, [], by decide⟩⟩

theorem exploreAll_pausable_owner :
    (∃ after report, exploreAll .permissive none (paused [byMinter, byOwner]) = .ok () after ∧
      (Report.fresh true).addFindings after.session.watch.findings = .ok report ∧
      report.Shows .privilegedAddress ["transferFrom(address,address,uint256):Ia_store-6-minter"]) ∧
    ∃ after, exploreAll .permissive none (paused [byOwner, byMinter]) = .error .outOfRange after := by
  constructor
  · obtain ⟨_, source, named⟩ := @source_paused [byMinter, byOwner] (by decide +kernel)
    obtain ⟨settles, _⟩ := exploreAll_pausable (startBlocks_paused _) (explores_paused (by decide +kernel)) source named
      (by decide +kernel) (show _ = [byMinter, byOwner].map Privilege.text by decide +kernel)
    exact settles (by decide +kernel)
  · obtain ⟨_, source, named⟩ := @source_paused [byOwner, byMinter] (by decide +kernel)
    obtain ⟨_, runsOut⟩ := exploreAll_pausable (startBlocks_paused _) (explores_paused (by decide +kernel)) source named
      (by decide +kernel) (show _ = [byOwner, byMinter].map Privilege.text by decide +kernel)
    exact runsOut (by decide +kernel)

end Explore

end MintAudit
