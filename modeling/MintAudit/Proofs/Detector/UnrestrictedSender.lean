import MintAudit.Proofs.Explore.Smooth
import MintAudit.Proofs.Number.Numeral

namespace MintAudit

/-!
# Privileged addresses and unrestricted senders

At a transfer event in a transfer function a scope is opened, in which the sender and the owner are different
addresses, and it is asked whether the assumed conditions can hold there.
-/

/-! ## Addresses that the caller is compared with -/

open Walk List

namespace TransferEvent

def leafName : Term → List String
  | .symbol name _ => [name]
  | .truth value => [if value then "true" else "false"]
  | _ => []

/-- The names in a term: those of the leaves at each depth from left to right, one depth after another. -/
def names (term : Term) : List String :=
  (List.range term.size).flatMap fun depth => Walk.atDepth leafName Term.operands depth term

theorem leafNames_eq_run (fuel : Nat) (queue : List Term) :
    leafNames fuel queue = run leafName Term.operands fuel queue := by
  fun_induction leafNames fuel queue with
  | case1 => rfl
  | case2 fuel => cases fuel <;> rfl
  | case3 fuel rest name width ih => simp [run, leafName, Term.operands, ih]
  | case4 fuel rest value ih => simp [run, leafName, Term.operands, ih]
  | case5 fuel rest width value ih => simp [run, leafName, Term.operands, ih]
  | case6 fuel rest term noSymbol noTruth noLiteral ih =>
    have none : leafName term = [] := by
      cases term with
      | symbol name width => exact (noSymbol name width rfl).elim
      | truth value => exact (noTruth value rfl).elim
      | _ => rfl
    rw [run, none, nil_append, ih]

theorem leafNames_eq_names (term : Term) : leafNames (term.size + 1) [term] = names term := by
  have alone : total [term] = term.size := by simp [total]
  rw [leafNames_eq_run, run_eq_levels total_operands_lt (show ∀ other ∈ [term], other.size ≤ term.size by simp) (by omega)]
  simp [names]

theorem equationNames_eq (left right : Term) : equationNames left right = names left ++ names right := by
  rw [equationNames, leafNames_eq_names, leafNames_eq_names]

/-- The equation is in the term, and not inside another one. -/
inductive Outermost : Term → Term × Term → Prop where
  | here
      (left right : Term) :
      Outermost (.binary .eq left right) (left, right)
  | within
      {term operand : Term}
      {equation : Term × Term}
      (other : ∀ left right, term ≠ .binary .eq left right)
      (isOperand : operand ∈ term.operands)
      (inOperand : Outermost operand equation) :
      Outermost term equation

def sides : Term → List (Term × Term)
  | .binary .eq left right => [(left, right)]
  | _ => []

def searched : Term → List Term
  | .binary .eq _ _ => []
  | term => term.operands

theorem total_searched_lt (term : Term) : total (searched term) < term.size := by
  unfold searched
  split
  · simp [total, Term.size]
  · exact total_operands_lt term

theorem equations_eq_run (fuel : Nat) (queue : List Term) : equations fuel queue = run sides searched fuel queue := by
  fun_induction equations fuel queue with
  | case1 => rfl
  | case2 fuel => cases fuel <;> rfl
  | case3 fuel rest left right ih => simp [run, sides, searched, ih]
  | case4 fuel rest term other ih =>
    have none : sides term = [] := by
      unfold sides
      split
      · exact (other _ _ rfl).elim
      · rfl
    have all : searched term = term.operands := by
      unfold searched
      split
      · exact (other _ _ rfl).elim
      · rfl
    rw [run, none, all, nil_append, ih]

theorem outermost_iff {term : Term} {equation : Term × Term} :
    Outermost term equation ↔ ∃ depth, equation ∈ atDepth sides searched depth term := by
  constructor
  · intro outermost
    induction outermost with
    | here left right => exact ⟨0, mem_singleton.mpr rfl⟩
    | within other isOperand _ ih =>
      obtain ⟨depth, present⟩ := ih
      refine ⟨depth + 1, mem_flatMap.mpr ⟨_, ?_, present⟩⟩
      unfold searched
      split
      · exact (other _ _ rfl).elim
      · exact isOperand
  · rintro ⟨depth, present⟩
    induction depth generalizing term with
    | zero =>
      unfold atDepth sides at present
      split at present
      · cases mem_singleton.mp present
        exact .here _ _
      · cases present
    | succ depth ih =>
      obtain ⟨operand, isSearched, inOperand⟩ := mem_flatMap.mp present
      unfold searched at isSearched
      split at isSearched
      · cases isSearched
      · next other =>
        exact .within other isSearched (ih inOperand)

theorem mem_allEquations_iff {conditions : List Term} {equation : Term × Term} :
    equation ∈ allEquations conditions ↔ ∃ condition ∈ conditions, Outermost condition equation := by
  rw [allEquations, mem_flatMap]
  refine exists_congr fun condition => and_congr_right fun _ => ?_
  have alone : total [condition] = condition.size := by simp [total]
  rw [equations_eq_run, mem_run_iff total_searched_lt (by omega), outermost_iff]
  simp

theorem forall_mem_allEquations_iff {conditions : List Term} {holds : Term × Term → Prop} :
    (∀ equation ∈ allEquations conditions, holds equation) ↔
      ∀ condition ∈ conditions, ∀ equation, Outermost condition equation → holds equation := by
  simp only [mem_allEquations_iff]
  constructor
  · intro all condition assumed equation outermost
    exact all equation ⟨condition, assumed, outermost⟩
  · rintro all equation ⟨condition, assumed, outermost⟩
    exact all condition assumed equation outermost

def Bracketed (text : List Char) : Prop :=
  ∃ word, word ≠ [] ∧ (∀ character ∈ word, Text.isWordCharacter character = true) ∧ '[' :: word ++ [']'] <:+: text

/-- The name that the caller is taken to be compared with in an equation with these names. -/
inductive Compared : List String → String → Prop where
  | first
      {other : String}
      {rest : List String}
      (different : other ≠ "Is")
      (caller : "Is" ∈ rest) :
      Compared (other :: rest) other
  | second
      {other : String}
      {rest : List String} :
      Compared ("Is" :: other :: rest) other

theorem Compared.eq_first {other first : String} {rest : List String} (compared : Compared (first :: rest) other)
    (different : first ≠ "Is") :
    other = first := by
  cases compared with
  | first => rfl
  | second => exact (different rfl).elim

theorem closed_iff (text : List Char) :
    (∃ word, word ≠ [] ∧ (∀ character ∈ word, Text.isWordCharacter character = true) ∧ word ++ [']'] <+: text) ↔
      (!(text.takeWhile Text.isWordCharacter).isEmpty &&
        (text.dropWhile Text.isWordCharacter).head? == some ']') = true := by
  simp only [Bool.and_eq_true, Bool.not_eq_true', isEmpty_eq_false_iff, beq_iff_eq]
  constructor
  · rintro ⟨word, filled, all, behind, rfl⟩
    have stops : Text.isWordCharacter ']' = false := by decide
    rw [List.append_assoc, takeWhile_append_of_pos all, dropWhile_append_of_pos all]
    simp [stops, filled]
  · rintro ⟨filled, closed⟩
    obtain ⟨behind, remaining⟩ := head?_eq_some_iff.mp closed
    refine ⟨_, filled, fun character => mem_takeWhile_imp, behind, ?_⟩
    rw [List.append_assoc, singleton_append, ← remaining, takeWhile_append_dropWhile]

theorem hasIndex_iff (text : List Char) : hasIndex text = true ↔ Bracketed text := by
  unfold Bracketed
  induction text with
  | nil => simp [hasIndex]
  | cons character rest ih =>
    by_cases opens : character = '['
    · subst opens
      rw [hasIndex, Bool.or_eq_true, ← closed_iff, ih, ← exists_or]
      refine exists_congr fun word => ?_
      rw [List.cons_append, infix_cons_iff, cons_prefix_cons]
      tauto
    · have skipped : hasIndex (character :: rest) = hasIndex rest := by
        rw [hasIndex]
        simpa using opens
      rw [skipped, ih]
      refine exists_congr fun word => ?_
      rw [List.cons_append, infix_cons_iff, cons_prefix_cons]
      simp [Ne.symm opens]

theorem comparedWithCaller_spec (listed : List String) :
    (listed = ["Is"] → comparedWithCaller listed = .error .outOfRange) ∧
      (listed ≠ ["Is"] →
        ∃ found, comparedWithCaller listed = .ok found ∧ ∀ other, found = some other ↔ Compared listed other) := by
  refine ⟨fun alone => alone ▸ rfl, fun accompanied => ?_⟩
  cases listed with
  | nil =>
    refine ⟨none, rfl, fun other => ⟨fun found => ?_, fun compared => ?_⟩⟩
    · cases found
    · cases compared
  | cons first rest =>
    by_cases isCaller : first = "Is"
    · subst isCaller
      cases rest with
      | nil => exact (accompanied rfl).elim
      | cons second rest =>
        refine ⟨some second, rfl, fun other => ⟨fun found => ?_, fun compared => ?_⟩⟩
        · cases found
          exact .second
        · cases compared with
          | first different => exact (different rfl).elim
          | second => rfl
    · by_cases caller : "Is" ∈ rest
      · refine ⟨some first, by simp [comparedWithCaller, isCaller, caller], fun other =>
          ⟨fun found => ?_, fun compared => ?_⟩⟩
        · cases found
          exact .first isCaller caller
        · rw [compared.eq_first isCaller]
      · refine ⟨none, by simp [comparedWithCaller, Ne.symm isCaller, caller], fun other =>
          ⟨fun found => ?_, fun compared => ?_⟩⟩
        · cases found
        · cases compared with
          | first _ present => exact (caller present).elim
          | second => exact (isCaller rfl).elim

def bothNames (equation : Term × Term) : List String :=
  names equation.1 ++ names equation.2

/-- The note that an equation gives about a function: the caller is taken to be compared with a word of storage that is
no element of a mapping. -/
def Marks (function : String) (equation : Term × Term) (note : String) : Prop :=
  ∃ other, Compared (bothNames equation) other ∧ "Ia_store".toList <+: other.toList ∧ ¬ Bracketed other.toList ∧
    note = function ++ ":" ++ other

theorem mem_note_iff (finding : Finding) (text note : String) :
    note ∈ (finding.note text).notes ↔ note ∈ finding.notes ∨ note = text := by
  by_cases present : text ∈ finding.notes
  · simp only [Finding.note, contains_iff_mem, present, if_true]
    refine ⟨.inl, ?_⟩
    rintro (old | rfl)
    · exact old
    · exact present
  · simp [Finding.note, present]

theorem notePrivileged_spec (function : String) (finding : Finding) (equation : Term × Term) :
    (bothNames equation = ["Is"] → notePrivileged function finding equation = .error .outOfRange) ∧
      (bothNames equation ≠ ["Is"] →
        ∃ after, notePrivileged function finding equation = .ok after ∧
          ∀ note, note ∈ after.notes ↔ note ∈ finding.notes ∨ Marks function equation note) := by
  obtain ⟨faults, returns⟩ := comparedWithCaller_spec (bothNames equation)
  unfold notePrivileged
  rw [equationNames_eq]
  refine ⟨fun alone => ?_, fun accompanied => ?_⟩
  · rw [← bothNames, faults alone]
    rfl
  · obtain ⟨found, compares, isCompared⟩ := returns accompanied
    rw [← bothNames, compares]
    cases found with
    | none =>
      refine ⟨finding, rfl, fun note => ⟨.inl, ?_⟩⟩
      rintro (old | ⟨other, compared, _⟩)
      · exact old
      · cases (isCompared other).mpr compared
    | some other =>
      have marks_iff : ∀ note, Marks function equation note ↔
          ("Ia_store".toList <+: other.toList ∧ ¬ Bracketed other.toList) ∧ note = function ++ ":" ++ other := by
        intro note
        constructor
        · rintro ⟨name, compared, stored, plain, rfl⟩
          cases (isCompared name).mpr compared
          exact ⟨⟨stored, plain⟩, rfl⟩
        · rintro ⟨⟨stored, plain⟩, rfl⟩
          exact ⟨other, (isCompared other).mp rfl, stored, plain, rfl⟩
      have tested : (Text.startsWith other "Ia_store" && !hasIndex other.toList) = true ↔
          "Ia_store".toList <+: other.toList ∧ ¬ Bracketed other.toList := by
        rw [Bool.and_eq_true, Bool.not_eq_true', Text.startsWith, Text.startsWithChars_iff, ← hasIndex_iff,
          Bool.not_eq_true]
      by_cases stands : "Ia_store".toList <+: other.toList ∧ ¬ Bracketed other.toList
      · refine ⟨finding.note (function ++ ":" ++ other), if_pos (tested.mpr stands), fun note => ?_⟩
        rw [mem_note_iff, marks_iff, and_iff_right stands]
      · refine ⟨finding, if_neg (mt tested.mp stands), fun note => ?_⟩
        rw [marks_iff, or_iff_left fun marks => stands marks.1]

structure Searched (function : String) (equations : List (Term × Term)) (before after : Finding)
    (fault : Option Fault) : Prop where
  faults : fault = none ∨ fault = some .outOfRange
  returns : fault = none ↔ ∀ equation ∈ equations, bothNames equation ≠ ["Is"]
  kept : ∀ note ∈ before.notes, note ∈ after.notes
  marked : ∀ note ∈ after.notes, note ∈ before.notes ∨ ∃ equation ∈ equations, Marks function equation note
  complete : fault = none → ∀ equation ∈ equations, ∀ note, Marks function equation note → note ∈ after.notes

theorem foldKeeping_searched (function : String) (equations : List (Term × Term)) (before : Finding) :
    Searched function equations before (foldKeeping (notePrivileged function) before equations).1
      (foldKeeping (notePrivileged function) before equations).2 := by
  induction equations generalizing before with
  | nil =>
    exact
      { faults := .inl rfl
        returns := by simp [foldKeeping]
        kept := fun _ => id
        marked := fun _ => .inl
        complete := by simp }
  | cons equation rest ih =>
    obtain ⟨faults, returns⟩ := notePrivileged_spec function before equation
    by_cases alone : bothNames equation = ["Is"]
    · have stops : foldKeeping (notePrivileged function) before (equation :: rest) = (before, some .outOfRange) := by
        rw [foldKeeping, faults alone]
      rw [stops]
      exact
        { faults := .inr rfl
          returns := by simp [alone]
          kept := fun _ => id
          marked := fun _ => .inl
          complete := by simp }
    · obtain ⟨next, noted, added⟩ := returns alone
      have goesOn : foldKeeping (notePrivileged function) before (equation :: rest) =
          foldKeeping (notePrivileged function) next rest := by
        rw [foldKeeping, noted]
      have later := ih next
      rw [goesOn]
      exact
        { faults := later.faults
          returns := by rw [later.returns, forall_mem_cons, and_iff_right alone]
          kept := fun note old => later.kept note ((added note).mpr (.inl old))
          marked := by
            intro note present
            rcases later.marked note present with early | ⟨other, member, marks⟩
            · rcases (added note).mp early with old | marks
              · exact .inl old
              · exact .inr ⟨equation, mem_cons_self, marks⟩
            · exact .inr ⟨other, mem_cons_of_mem _ member, marks⟩
          complete := by
            intro unfaulted
            refine forall_mem_cons.mpr ⟨fun note marks => ?_, later.complete unfaulted⟩
            exact later.kept note ((added note).mpr (.inr marks)) }

/-- At a transfer event, after storage was written and in no transfer function, the assumed conditions are searched for
equations that are not inside another one. -/
theorem inspect_marks {scene : Scene} (decider : Decider) (findings : Findings) (event : isEvent scene = .ok true)
    (stored : scene.stored = true) (ordinary : isTransfer scene.function = false) :
    ∃ privileged fault,
      inspect decider scene findings = ⟨{ findings with privileged := privileged }, scene.scopes, fault⟩ ∧
      (fault = none ∨ fault = some .outOfRange) ∧
      (fault = none ↔
        ∀ condition ∈ scene.scopes.assertions, ∀ equation, Outermost condition equation → bothNames equation ≠ ["Is"]) ∧
      (∀ note ∈ findings.privileged.notes, note ∈ privileged.notes) ∧
      (∀ note ∈ privileged.notes, note ∈ findings.privileged.notes ∨
        ∃ condition ∈ scene.scopes.assertions, ∃ equation,
          Outermost condition equation ∧ Marks scene.function equation note) ∧
      (fault = none → ∀ condition ∈ scene.scopes.assertions, ∀ equation, Outermost condition equation →
        ∀ note, Marks scene.function equation note → note ∈ privileged.notes) := by
  have searched := foldKeeping_searched scene.function (allEquations scene.scopes.assertions) findings.privileged
  generalize run : foldKeeping (notePrivileged scene.function) findings.privileged
    (allEquations scene.scopes.assertions) = result at searched
  obtain ⟨privileged, fault⟩ := result
  refine ⟨privileged, fault, ?_, searched.faults, ?_, searched.kept, fun note present => ?_, ?_⟩
  · have checked : checkSender decider scene { findings with privileged := privileged } =
        ⟨{ findings with privileged := privileged }, scene.scopes, none⟩ := by
      rw [checkSender, ordinary]
      rfl
    unfold inspect
    simp only [event, stored, run, Bool.not_true, Bool.false_eq_true, if_false]
    cases fault with
    | some fault => rfl
    | none => exact checked
  · exact searched.returns.trans forall_mem_allEquations_iff
  · rcases searched.marked note present with old | ⟨equation, member, marks⟩
    · exact .inl old
    · obtain ⟨condition, assumed, outermost⟩ := mem_allEquations_iff.mp member
      exact .inr ⟨condition, assumed, equation, outermost, marks⟩
  · intro unfaulted condition assumed equation outermost
    exact searched.complete unfaulted equation (mem_allEquations_iff.mpr ⟨condition, assumed, outermost⟩)

def taken (equation : Term × Term) : Term :=
  .binary .ne (.choice (.binary .eq equation.1 equation.2) (.literal 256 1) (.literal 256 0)) (.literal 256 0)

def minting (equation : Term × Term) : Scene where
  logsFourTopics := true
  stack := [.integer 0, .integer 0, .integer signature]
  scopes := { base := [taken equation] }
  sender := .absent
  owner := .absent
  stored := true
  function := "mint(address,uint256)"

def callerAlone : Term × Term :=
  (.binary .and (.symbol "Is" 256) (.literal 256 (2 ^ 160 - 1)), .literal 256 5)

def ownerBehind : Term × Term :=
  (.binary .and (.symbol "mask" 256) (.symbol "Is" 256), .symbol "Ia_store-0-_owner" 256)

theorem outermost_taken_iff {equation found : Term × Term} : Outermost (taken equation) found ↔ found = equation := by
  have all : allEquations [taken equation] = [equation] := by
    simp [taken, allEquations, equations, Term.size, Term.operands]
  rw [← mem_singleton, ← all, mem_allEquations_iff]
  simp

theorem inspect_marks_missed :
    (inspect (fun _ => .satisfiable) (minting callerAlone) {}).fault = some .outOfRange ∧
      (inspect (fun _ => .satisfiable) (minting ownerBehind) {}).fault = none ∧
        "Is" ∈ bothNames ownerBehind ∧ "Ia_store-0-_owner" ∈ bothNames ownerBehind ∧
          (inspect (fun _ => .satisfiable) (minting ownerBehind) {}).findings.privileged.notes = [] := by
  obtain ⟨_, first, runsFirst, kinds, returnsFirst, _⟩ :=
    inspect_marks (fun _ => .satisfiable) {} (show isEvent (minting callerAlone) = .ok true by decide) rfl (by decide)
  obtain ⟨privileged, second, runsSecond, _, returnsSecond, _, marked, _⟩ :=
    inspect_marks (fun _ => .satisfiable) {} (show isEvent (minting ownerBehind) = .ok true by decide) rfl (by decide)
  rw [runsFirst, runsSecond]
  have alone : bothNames callerAlone = ["Is"] := by decide
  have listed : bothNames ownerBehind = ["mask", "Is", "Ia_store-0-_owner"] := by decide
  refine ⟨kinds.resolve_left fun returned => ?_, ?_, by simp [listed], by simp [listed], ?_⟩
  · exact returnsFirst.mp returned _ mem_cons_self _ (outermost_taken_iff.mpr rfl) alone
  · refine returnsSecond.mpr fun condition assumed equation outermost => ?_
    obtain rfl := mem_singleton.mp assumed
    obtain rfl := outermost_taken_iff.mp outermost
    simp [listed]
  · refine eq_nil_iff_forall_not_mem.mpr fun note present => ?_
    obtain old | ⟨condition, assumed, equation, outermost, other, compared, stored, _⟩ := marked note present
    · cases old
    · obtain rfl := mem_singleton.mp assumed
      obtain rfl := outermost_taken_iff.mp outermost
      rw [listed] at compared
      obtain rfl := compared.eq_first (by decide)
      exact absurd stored (by decide)

end TransferEvent

/-! ## Senders that need not be the owner -/

namespace TransferEvent

/-- The conditions can hold while two words name different addresses. -/
def CanDiffer (conditions : List Term) (first second : Term) : Prop :=
  ∃ assignment, (∀ condition ∈ conditions, Term.Holds assignment condition) ∧
    first.eval assignment % 2 ^ 160 ≠ second.eval assignment % 2 ^ 160

theorem addressBits_of_kind {word : Term} (kind : word.kind = .bits Word.size) :
    addressBits (.term word) = .ok (.unary (.extract 159 0) word) := by
  simp [addressBits, kind, Word.size]

theorem differentAddresses_spec {sender owner : Term} (senderKind : sender.kind = .bits Word.size)
    (ownerKind : owner.kind = .bits Word.size) :
    ∃ different, differentAddresses (.term sender) (.term owner) = .ok different ∧
      ∀ assignment, Term.Holds assignment different ↔
        sender.eval assignment % 2 ^ 160 ≠ owner.eval assignment % 2 ^ 160 := by
  refine ⟨.binary .ne (.choice (.binary .ne (.unary (.extract 159 0) sender) (.unary (.extract 159 0) owner))
    (.literal Word.size 1) (.literal Word.size 0)) (.literal Word.size 0), ?_, fun assignment => ?_⟩
  · unfold differentAddresses
    rw [addressBits_of_kind senderKind, addressBits_of_kind ownerKind]
    rfl
  · simp [Term.Holds, Term.eval, BinaryOp.apply, UnaryOp.apply, Word.size]

theorem checkSender_spec {decider : Decider} (sound : decider.Sound) (complete : decider.Complete) {scene : Scene}
    (transfer : isTransfer scene.function = true) {sender owner : Term} (sends : scene.sender = .term sender)
    (owns : scene.owner = .term owner) (senderKind : sender.kind = .bits Word.size)
    (ownerKind : owner.kind = .bits Word.size) (findings : Findings) :
    (CanDiffer scene.scopes.assertions sender owner →
      checkSender decider scene findings =
        ⟨{ findings with unrestricted := findings.unrestricted.note scene.function }, scene.scopes, none⟩) ∧
    (¬ CanDiffer scene.scopes.assertions sender owner →
      checkSender decider scene findings = ⟨findings, scene.scopes, none⟩) := by
  obtain ⟨different, found, holds⟩ := differentAddresses_spec senderKind ownerKind
  have asked : decider (scene.scopes.enter.assume different).assertions ≠ .unsatisfiable ↔
      CanDiffer scene.scopes.assertions sender owner := by
    rw [sound.possible_iff complete, Scopes.assertions_assume, Scopes.assertions_enter]
    simp only [Satisfiable, CanDiffer, forall_mem_append, forall_mem_singleton, holds]
  unfold checkSender
  rw [if_pos transfer, sends, owns, found]
  dsimp only
  rw [Scopes.leave_assume_enter]
  constructor
  · intro differs
    rw [if_neg (asked.mpr differs)]
  · intro same
    rw [if_pos (not_not.mp (mt asked.mp same))]

theorem notes_note (function : String) (finding : Finding) :
    (finding.note function).status = 1 ∧ finding.notes <+: (finding.note function).notes ∧
      (∀ note, note ∈ (finding.note function).notes ↔ note ∈ finding.notes ∨ note = function) ∧
      (finding.note function).notes.count function = 1 := by
  refine ⟨rfl, ?_, fun note => mem_note_iff _ _ _, count_eq_one_of_mem (finding.note function).distinct ?_⟩
  · unfold Finding.note
    dsimp only
    split
    · exact prefix_rfl
    · exact prefix_append _ _
  · exact (mem_note_iff _ _ _).mpr (.inr rfl)

/-- At a transfer event in a transfer function, after storage was written, the search for privileged addresses comes
first and may fail. If it does not, the function is reported exactly if the assumed conditions can hold while the sender
and the owner have different low 160 bits: then it is noted, once and behind what was noted before, and otherwise nothing
changes. Either way the scopes are as they were. -/
theorem inspect_unrestricted {decider : Decider} (sound : decider.Sound) (complete : decider.Complete) {scene : Scene}
    (event : isEvent scene = .ok true) (stored : scene.stored = true)
    (transfer : "(address,address,uint256)".toList <:+: scene.function.toList ∨
      "(address, address, uint256)".toList <:+: scene.function.toList)
    {sender owner : Term}
    (sends : scene.sender = .term sender)
    (owns : scene.owner = .term owner)
    (senderKind : sender.kind = .bits Word.size)
    (ownerKind : owner.kind = .bits Word.size)
    (findings : Findings) :
    ∃ privileged unrestricted fault,
      inspect decider scene findings =
        ⟨{ findings with privileged := privileged, unrestricted := unrestricted }, scene.scopes, fault⟩ ∧
      (fault = none ↔
        ∀ condition ∈ scene.scopes.assertions, ∀ equation, Outermost condition equation → bothNames equation ≠ ["Is"]) ∧
      (fault = none → CanDiffer scene.scopes.assertions sender owner →
        unrestricted.status = 1 ∧ findings.unrestricted.notes <+: unrestricted.notes ∧
          (∀ note, note ∈ unrestricted.notes ↔ note ∈ findings.unrestricted.notes ∨ note = scene.function) ∧
          unrestricted.notes.count scene.function = 1) ∧
      (fault ≠ none ∨ ¬ CanDiffer scene.scopes.assertions sender owner → unrestricted = findings.unrestricted) := by
  have named : isTransfer scene.function = true := by
    rwa [isTransfer, Bool.or_eq_true, Text.contains_iff, Text.contains_iff]
  have searched := foldKeeping_searched scene.function (allEquations scene.scopes.assertions) findings.privileged
  unfold inspect
  generalize foldKeeping (notePrivileged scene.function) findings.privileged
    (allEquations scene.scopes.assertions) = result at searched ⊢
  obtain ⟨privileged, fault⟩ := result
  have returns := searched.returns.trans forall_mem_allEquations_iff
  simp only [event, stored, Bool.not_true, Bool.false_eq_true, if_false]
  cases fault with
  | some fault => exact ⟨privileged, findings.unrestricted, some fault, rfl, returns, nofun, fun _ => rfl⟩
  | none =>
    obtain ⟨reports, keeps⟩ := checkSender_spec sound complete named sends owns senderKind ownerKind
      { findings with privileged := privileged }
    by_cases differs : CanDiffer scene.scopes.assertions sender owner
    · refine ⟨privileged, _, none, reports differs, returns, fun _ _ => ?_, ?_⟩
      · exact notes_note scene.function findings.unrestricted
      · rintro (failed | same)
        · exact (failed rfl).elim
        · exact (same differs).elim
    · exact ⟨privileged, findings.unrestricted, none, keeps differs, returns,
        fun _ able => (differs able).elim, fun _ => rfl⟩

def transferring (conditions : List Term) : Scene where
  logsFourTopics := true
  stack := [.integer 0, .integer 0, .integer signature]
  scopes := { base := conditions }
  sender := .term (.symbol "Id_1" 256)
  owner := .term (.symbol "Ia_store-0-_owner" 256)
  stored := true
  function := "transferFrom(address,address,uint256)"

def sentByOwner : Term :=
  .binary .eq (.symbol "Id_1" 256) (.symbol "Ia_store-0-_owner" 256)

theorem inspect_unrestricted_transferring :
    (inspect .exact (transferring []) {}).fault = none ∧
      (inspect .exact (transferring []) {}).findings.unrestricted.notes.count "transferFrom(address,address,uint256)" = 1 ∧
      (inspect .exact (transferring [sentByOwner]) {}).fault = none ∧
      (inspect .exact (transferring [sentByOwner]) {}).findings.unrestricted.notes = [] := by
  have contained : "(address,address,uint256)".toList <:+: "transferFrom(address,address,uint256)".toList := by
    decide +kernel
  have event : ∀ conditions, isEvent (transferring conditions) = .ok true := fun _ => rfl
  obtain ⟨_, free, failedFree, runsFree, returnsFree, reported, _⟩ :=
    @inspect_unrestricted .exact Decider.exact_sound Decider.exact_complete (transferring []) (event []) rfl
      (.inl contained) _ _ rfl rfl rfl rfl {}
  obtain ⟨_, bound, failedBound, runsBound, returnsBound, _, kept⟩ :=
    @inspect_unrestricted .exact Decider.exact_sound Decider.exact_complete (transferring [sentByOwner])
      (event [sentByOwner]) rfl (.inl contained) _ _ rfl rfl rfl rfl {}
  have differs : CanDiffer [] (.symbol "Id_1" 256) (.symbol "Ia_store-0-_owner" 256) :=
    ⟨fun name _ => if name = "Id_1" then 1 else 0, by simp, by decide⟩
  have same : ¬ CanDiffer [sentByOwner] (.symbol "Id_1" 256) (.symbol "Ia_store-0-_owner" 256) := by
    rintro ⟨assignment, holds, differs⟩
    have equal : Term.eval assignment (.symbol "Id_1" 256) = Term.eval assignment (.symbol "Ia_store-0-_owner" 256) := by
      simpa [Term.Holds, sentByOwner, Term.eval, BinaryOp.apply] using holds sentByOwner mem_cons_self
    exact differs (by rw [equal])
  have silentFree : failedFree = none := returnsFree.mpr fun _ member => absurd member not_mem_nil
  have silentBound : failedBound = none := by
    have all : allEquations [sentByOwner] = [(.symbol "Id_1" 256, .symbol "Ia_store-0-_owner" 256)] := rfl
    refine returnsBound.mpr (forall_mem_allEquations_iff.mp fun equation member => ?_)
    obtain rfl := mem_singleton.mp (all ▸ member)
    decide
  rw [runsFree, runsBound]
  exact ⟨silentFree, (reported silentFree differs).2.2.2, silentBound, congrArg Finding.notes (kept (.inr same))⟩

end TransferEvent

end MintAudit
