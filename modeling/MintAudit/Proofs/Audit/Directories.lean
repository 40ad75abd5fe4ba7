import MintAudit.Audit.Basic
import MintAudit.Proofs.Number.Numeral
import MintAudit.Proofs.Table

namespace MintAudit

/-!
# Making directories

A path is cut from its end until a part of it is a directory, and the directories behind that part are made one after
another.
-/

open List

theorem Text.splitOnChar_between (separator : Char) (front back : List Char) :
    splitOnChar separator (String.ofList (front ++ separator :: back)) =
      splitOnChar separator (String.ofList front) ++ splitOnChar separator (String.ofList back) := by
  have cut : cutsAt (· == separator) (front ++ separator :: back) =
      cutsAt (· == separator) front ++ cutsAt (· == separator) back := by
    induction front with
    | nil => simp [cutsAt]
    | cons first others ih =>
      have some : cutsAt (· == separator) others ≠ [] := by
        simpa [splitOnChar, splitAt] using splitOnChar_ne_nil separator (String.ofList others)
      obtain ⟨piece, pieces, cuts⟩ := exists_cons_of_ne_nil some
      rw [cons_append, cutsAt, cutsAt, ih, cuts]
      split <;> rfl
  simp [splitOnChar, splitAt, cut]

namespace PathName

structure Gap (front gap step : List Char) : Prop where
  slashes : ∀ character ∈ gap, character = '/'
  step : '/' ∉ step
  parted : front ≠ [] → gap ≠ [] ∨ ∃ others, front = others ++ ['/']

theorem splitLast_gap (path : String) :
    ∃ gap, path.toList = (splitLast path).1.toList ++ gap ++ (splitLast path).2.toList ∧
      Gap (splitLast path).1.toList gap (splitLast path).2.toList := by
  generalize split : path.toList.rdropWhile (· ≠ '/') = front
  have whole : path.toList = front ++ path.toList.rtakeWhile (· ≠ '/') := by
    rw [← split, rdropWhile_append_rtakeWhile]
  have step : (splitLast path).2.toList = path.toList.rtakeWhile (· ≠ '/') := String.toList_ofList
  have plain : '/' ∉ path.toList.rtakeWhile (· ≠ '/') := fun member => by simpa using mem_rtakeWhile_imp member
  have first : (splitLast path).1.toList = withoutEnd front := by
    rw [← split]
    exact String.toList_ofList
  have last (some : front ≠ []) : front.getLast some = '/' := by
    subst split
    simpa using rdropWhile_last_not _ _ some
  rw [step, first, withoutEnd]
  change ∃ gap, _ = (if (front.rdropWhile (· == '/')).isEmpty then _ else front.rdropWhile (· == '/')) ++ gap ++ _ ∧
    Gap (if (front.rdropWhile (· == '/')).isEmpty then _ else front.rdropWhile (· == '/')) gap _
  split
  · refine ⟨[], by simpa using whole, by simp, plain, fun some => .inr ⟨front.dropLast, ?_⟩⟩
    rw [← last some, dropLast_append_getLast]
  · next other =>
    have parts : front.rdropWhile (· == '/') ++ front.rtakeWhile (· == '/') = front := rdropWhile_append_rtakeWhile ..
    refine ⟨front.rtakeWhile (· == '/'), parts.symm ▸ whole, ⟨fun character member => ?_, plain, ?_⟩⟩
    · simpa using mem_rtakeWhile_imp member
    intro _
    refine .inl fun none => ?_
    have there : front ≠ [] := by
      rintro rfl
      exact other rfl
    exact rtakeWhile_eq_nil_iff.mp none there (by simp [last there])

theorem length_splitLast_lt {path : String} (other : (splitLast path).1 ≠ path) :
    (splitLast path).1.length < path.length := by
  obtain ⟨gap, whole, -⟩ := splitLast_gap path
  rw [← String.length_toList, ← @String.length_toList path, whole]
  simp only [length_append]
  by_contra short
  have none : gap = [] ∧ (splitLast path).2.toList = [] := by
    simp only [← length_eq_zero_iff]
    omega
  rw [none.1, none.2, append_nil, append_nil] at whole
  exact other (String.toList_inj.mp whole.symm)

end PathName

namespace Workspace

variable {disk : Workspace}

/-- Every directory and every file lies in a directory, and no directory is written with a slash at its end. -/
structure Tree (disk : Workspace) : Prop where
  directory : ∀ path ∈ disk.directories, disk.hasDirectory (parent path)
  file : ∀ path ∈ Table.keys disk.files, disk.hasDirectory (parent path)
  settled : ∀ path ∈ disk.directories, path.toList.getLast? ≠ some '/'

theorem follow_empty (path step : String) :
    (disk.follow path "").bind (disk.follow · step) = disk.follow path step := by
  by_cases there : disk.hasDirectory path
  · simp [follow, there, Except.bind]
  · simp [follow, there, Except.bind]

def through (disk : Workspace) (characters : List Char) (start : String) : Except Fault String :=
  (Text.splitOnChar '/' (String.ofList characters)).foldlM disk.follow start

theorem through_slash {step : List Char} (plain : '/' ∉ step) (front : List Char) (start : String) :
    disk.through (front ++ '/' :: step) start =
      (disk.through front start).bind (disk.follow · (String.ofList step)) := by
  rw [through, Text.splitOnChar_between, Text.splitOnChar_of_not_mem plain, foldlM_append]
  simp only [foldlM_cons, foldlM_nil, bind_pure]
  rfl

theorem through_gap {front gap step : List Char} (parts : PathName.Gap front gap step) (some : front ≠ [])
    (start : String) :
    disk.through (front ++ gap ++ step) start =
      (disk.through front start).bind (disk.follow · (String.ofList step)) := by
  induction gap generalizing front with
  | nil =>
    obtain ⟨others, rfl⟩ := (parts.parted some).resolve_left fun other => other rfl
    rw [append_nil, append_assoc, singleton_append, through_slash parts.step, through_slash not_mem_nil]
    cases disk.through others start with
    | error fault => rfl
    | ok found => exact (follow_empty found _).symm
  | cons slash rest ih =>
    obtain ⟨rfl, slashes⟩ := forall_mem_cons.mp parts.slashes
    have further := @ih (front ++ ['/']) ⟨slashes, parts.step, fun _ => .inr ⟨front, rfl⟩⟩ (by simp)
    rw [through_slash not_mem_nil] at further
    rw [show front ++ '/' :: rest ++ step = front ++ ['/'] ++ rest ++ step by simp, further]
    cases disk.through front start with
    | error fault => rfl
    | ok found => exact follow_empty found _

theorem locate_gap {front gap step : List Char} (parts : PathName.Gap front gap step) (some : front ≠ []) :
    disk.locate (String.ofList (front ++ gap ++ step)) =
      (disk.locate (String.ofList front)).bind (disk.follow · (String.ofList step)) := by
  obtain ⟨first, others, rfl⟩ := exists_cons_of_ne_nil some
  have full (characters : List Char) : (String.ofList (first :: characters)).isEmpty = false := by
    simp
  have starts (characters : List Char) :
      Text.startsWith (String.ofList (first :: characters)) "/" = (first == '/') := by
    simp [Text.startsWith, Text.startsWithChars]
  have leads := @through_gap disk _ _ _ parts some
  simp only [cons_append] at leads ⊢
  simp only [locate, full, starts, Bool.false_eq_true, if_false]
  exact leads _

theorem locate_splitLast {path : String} (some : (PathName.splitLast path).1 ≠ "") :
    disk.locate path =
      (disk.locate (PathName.splitLast path).1).bind (disk.follow · (PathName.splitLast path).2) := by
  obtain ⟨gap, whole, parts⟩ := PathName.splitLast_gap path
  have leads := @locate_gap disk _ _ _ parts (by simpa using some)
  rw [← whole] at leads
  simpa only [String.ofList_toList] using leads

end Workspace

namespace PathName

def Proper (step : String) : Prop :=
  step ≠ "" ∧ step ≠ "." ∧ step ≠ ".."

variable {path step : String}

theorem endsWith_slash (path : String) : Text.endsWith path "/" = true ↔ path.toList.getLast? = some '/' := by
  rw [← head?_reverse, Text.endsWith]
  cases path.toList.reverse with
  | nil => simp [Text.startsWithChars]
  | cons last others => simp [Text.startsWithChars]

theorem join_of_plain (plain : '/' ∉ step.toList) :
    join path step = if path = "" ∨ path.toList.getLast? = some '/' then path ++ step else path ++ "/" ++ step := by
  have start : Text.startsWith step "/" = false := by
    cases characters : step.toList with
    | nil => simp [Text.startsWith, Text.startsWithChars, characters]
    | cons first others =>
      simp only [characters, mem_cons, not_or] at plain
      simp [Text.startsWith, Text.startsWithChars, characters, Ne.symm plain.1]
  simp [join, start, endsWith_slash]

theorem rdropWhile_append_plain {front step : List Char} (plain : '/' ∉ step)
    (ends : front = [] ∨ front.getLast? = some '/') :
    (front ++ step).rdropWhile (· ≠ '/') = front := by
  have names : ∀ character ∈ step.reverse, decide (character ≠ '/') = true := by
    intro character member
    rw [decide_eq_true_eq]
    rintro rfl
    exact plain (mem_reverse.mp member)
  rw [rdropWhile, reverse_append, dropWhile_append_of_pos names]
  rcases ends with rfl | last
  · rfl
  · obtain ⟨others, rfl⟩ := getLast?_eq_some_iff.mp last
    simp

theorem withoutEnd_slash {front : List Char} (some : front ≠ []) (settled : front.getLast? ≠ .some '/') :
    withoutEnd (front ++ ['/']) = front := by
  have kept : (front ++ ['/']).rdropWhile (· == '/') = front := by
    rw [rdropWhile_concat_pos _ _ _ rfl, rdropWhile_eq_self_iff]
    intro nonempty slash
    rw [getLast?_eq_some_getLast nonempty] at settled
    exact settled (by simpa using slash)
  change (if ((front ++ ['/']).rdropWhile (· == '/')).isEmpty then _ else (front ++ ['/']).rdropWhile (· == '/')) = front
  rw [kept, if_neg (by simpa using some)]

theorem splitLast_join (settled : path = "/" ∨ path.toList.getLast? ≠ some '/') (plain : '/' ∉ step.toList) :
    (splitLast (join path step)).1 = path := by
  have split (front : List Char) (whole : (join path step).toList = front ++ step.toList)
      (ends : front = [] ∨ front.getLast? = some '/') :
      (splitLast (join path step)).1 = String.ofList (withoutEnd front) := by
    change String.ofList (withoutEnd ((join path step).toList.rdropWhile (· ≠ '/'))) = _
    rw [whole, rdropWhile_append_plain plain ends]
  rw [join_of_plain plain] at split ⊢
  by_cases empty : path = ""
  · subst empty
    exact split [] (by simp) (.inl rfl)
  · rcases settled with rfl | settled
    · exact split ['/'] (by simp) (.inr rfl)
    · have other : ¬ (path = "" ∨ path.toList.getLast? = some '/') := not_or.mpr ⟨empty, settled⟩
      rw [if_neg other] at split ⊢
      rw [split (path.toList ++ ['/']) (by simp) (.inr (by simp)), withoutEnd_slash (by simpa using empty) settled,
        String.ofList_toList]

theorem getLast?_join (plain : '/' ∉ step.toList) (some : step ≠ "") : (join path step).toList.getLast? ≠ .some '/' := by
  intro last
  have nonempty : step.toList ≠ [] := by simpa using some
  have ends : ∃ front, (join path step).toList = front ++ step.toList := by
    rw [join_of_plain plain]
    split
    · exact ⟨path.toList, by simp⟩
    · exact ⟨path.toList ++ ['/'], by simp⟩
  obtain ⟨front, whole⟩ := ends
  rw [whole, getLast?_append_of_ne_nil _ nonempty] at last
  exact plain (mem_of_getLast? last)

end PathName

/-! ## Searching -/

namespace Download

open PathName

inductive Leads (front : String) : List String → String → Prop
  | here : Leads front [] front
  | step {steps : List String} {path : String} (leads : Leads front steps (splitLast path).1) :
      Leads front (steps ++ [(splitLast path).2]) path

/-- The longest front part of a path that is there, and the steps that lead from it to the path. -/
inductive Found (isThere : String → Bool) (front : String) : List String → String → Prop
  | here (there : isThere front) : Found isThere front [] front
  | step {steps : List String} {path : String} (missing : isThere path = false)
      (found : Found isThere front steps (splitLast path).1) :
      Found isThere front (steps ++ [(splitLast path).2]) path

variable {isThere : String → Bool} {front path : String} {steps : List String}

theorem Found.leads (found : Found isThere front steps path) : Leads front steps path := by
  induction found with
  | here there => exact .here
  | step missing found ih => exact .step ih

theorem Found.there (found : Found isThere front steps path) : isThere front := by
  induction found with
  | here there => exact there
  | step missing found ih => exact ih

theorem Leads.found (leads : Leads front steps path) (there : isThere front) :
    ∃ nearest behind, Found isThere nearest behind path ∧ behind <:+ steps := by
  induction leads with
  | here => exact ⟨front, [], .here there, nil_suffix⟩
  | @step steps path leads ih =>
    cases missing : isThere path with
    | true => exact ⟨path, [], .here missing, nil_suffix⟩
    | false =>
      obtain ⟨nearest, behind, found, earlier, rfl⟩ := ih
      exact ⟨nearest, _, .step missing found, earlier, by rw [append_assoc]⟩

theorem Found.ne_of_missing (found : Found isThere front steps path) (missing : isThere path = false) :
    (splitLast path).1 ≠ path := by
  induction found with
  | here there => simp [there] at missing
  | step _ found ih =>
    intro same
    rw [same] at ih
    exact ih missing same

theorem Found.missingSteps (found : Found isThere front steps path) {fuel : Nat} (enough : path.length < fuel)
    (behind : List String) :
    missingSteps isThere behind fuel path = some (front, steps ++ behind) := by
  induction found generalizing fuel behind with
  | here there =>
    obtain ⟨fuel, rfl⟩ := Nat.exists_eq_add_one_of_ne_zero (Nat.ne_of_gt (Nat.zero_lt_of_lt enough))
    rw [Download.missingSteps, if_pos there]
    rfl
  | @step steps path missing found ih =>
    obtain ⟨fuel, rfl⟩ := Nat.exists_eq_add_one_of_ne_zero (Nat.ne_of_gt (Nat.zero_lt_of_lt enough))
    have other := (Found.step missing found).ne_of_missing missing
    have shorter := length_splitLast_lt other
    rw [Download.missingSteps, if_neg (by simp [missing])]
    simp only [beq_iff_eq, other, if_false]
    rw [ih (by omega), append_assoc, singleton_append]

theorem Found.unique {nearest : String} {behind : List String} (found : Found isThere front steps path)
    (other : Found isThere nearest behind path) : steps = behind := by
  have same := (found.missingSteps (Nat.lt_succ_self _) []).symm.trans (other.missingSteps (Nat.lt_succ_self _) [])
  simp only [append_nil, Option.some_inj, Prod.mk.injEq] at same
  exact same.2

theorem missingSteps_eq_none (nowhere : ∀ front steps, ¬ Found isThere front steps path) (fuel : Nat)
    (behind : List String) :
    missingSteps isThere behind fuel path = none := by
  induction fuel generalizing path behind with
  | zero => rfl
  | succ fuel ih =>
    have missing : isThere path = false := by
      by_contra there
      exact nowhere path [] (.here (by simpa using there))
    rw [Download.missingSteps, if_neg (by simp [missing])]
    dsimp only
    split
    · rfl
    · exact ih (fun front steps found => nowhere front _ (.step missing found)) _

theorem Found.part (found : Found isThere front steps path) {first : List String} (begins : first <+: steps)
    (some : first ≠ []) :
    ∃ part rest, Leads front first part ∧ Leads part rest path ∧ isThere part = false := by
  induction found with
  | here there => exact absurd (prefix_nil.mp begins) some
  | @step steps path missing found ih =>
    rcases prefix_concat_iff.mp begins with rfl | shorter
    · exact ⟨path, [], .step found.leads, .here, missing⟩
    · obtain ⟨part, rest, leads, onward, absent⟩ := ih shorter
      exact ⟨part, _, leads, .step onward, absent⟩

end Download

/-! ## Making -/

namespace Workspace

open PathName

variable {disk : Workspace} {path step place : String}

def grown (disk : Workspace) (made : List String) : Workspace :=
  { disk with directories := disk.directories ++ made }

def Free (disk : Workspace) (place : String) : Prop :=
  disk.hasDirectory place = false ∧ place ∉ Table.keys disk.files

theorem hasDirectory_grown (made : List String) :
    (disk.grown made).hasDirectory place = true ↔ disk.hasDirectory place = true ∨ place ∈ made := by
  simp [hasDirectory, grown, or_assoc]

theorem follow_grown {found : String} (made : List String) (follows : disk.follow path step = .ok found) :
    (disk.grown made).follow path step = .ok found := by
  unfold follow at follows ⊢
  by_cases there : disk.hasDirectory path
  · have still := (hasDirectory_grown made).mpr (.inl there)
    simpa [there, still] using follows
  · simp [there] at follows

theorem locate_grown (made : List String) (located : disk.locate path = .ok place) :
    (disk.grown made).locate path = .ok place := by
  have fold (steps : List String) (start : String) (leads : steps.foldlM disk.follow start = .ok place) :
      steps.foldlM (disk.grown made).follow start = .ok place := by
    induction steps generalizing start with
    | nil => exact leads
    | cons step rest ih =>
      rw [foldlM_cons] at leads ⊢
      obtain ⟨next, follows, onward⟩ := Effect.of_except_bind_ok leads
      rw [follow_grown made follows]
      exact ih next onward
  unfold locate at located ⊢
  split at located
  · cases located
  · rw [if_neg ‹_›]
    exact fold _ _ located

theorem locate_join (located : disk.locate path = .ok place) (plain : '/' ∉ step.toList) :
    disk.locate (join path step) = disk.follow place step := by
  have nonempty : path ≠ "" := by
    rintro rfl
    cases located
  have split (gap : List Char) (parts : Gap path.toList gap step.toList)
      (whole : (join path step).toList = path.toList ++ gap ++ step.toList) :
      disk.locate (join path step) = disk.follow place step := by
    have leads := @locate_gap disk _ _ _ parts (by simpa using nonempty)
    rw [← whole, String.ofList_toList, String.ofList_toList, String.ofList_toList, located] at leads
    exact leads
  by_cases last : path.toList.getLast? = some '/'
  · refine split [] ⟨by simp, plain, fun _ => .inr (getLast?_eq_some_iff.mp last)⟩ ?_
    rw [join_of_plain plain, if_pos (.inr last)]
    simp
  · refine split ['/'] ⟨by simp, plain, fun _ => .inl (by simp)⟩ ?_
    rw [join_of_plain plain, if_neg (not_or.mpr ⟨nonempty, last⟩)]
    simp

namespace Tree

variable (tree : disk.Tree)

include tree

theorem settled_of_hasDirectory (there : disk.hasDirectory path) :
    path = "/" ∨ path.toList.getLast? ≠ some '/' := by
  simp only [hasDirectory, String.isEmpty_iff, Bool.or_eq_true, beq_iff_eq, contains_iff_mem] at there
  rcases there with (rfl | rfl) | member
  · exact .inr (by simp)
  · exact .inl rfl
  · exact .inr (tree.settled path member)

theorem hasDirectory_parent (there : disk.hasDirectory path) : disk.hasDirectory (parent path) := by
  have known := there
  simp only [hasDirectory, String.isEmpty_iff, Bool.or_eq_true, beq_iff_eq, contains_iff_mem] at known
  rcases known with (rfl | rfl) | member
  · rfl
  · rfl
  · exact tree.directory path member

theorem follow_improper (there : disk.hasDirectory path) (improper : ¬ Proper step) :
    ∃ found, disk.follow path step = .ok found ∧ disk.hasDirectory found := by
  unfold Proper at improper
  by_cases up : step = ".."
  · subst up
    exact ⟨parent path, by simp [follow, there], tree.hasDirectory_parent there⟩
  · have stays : step = "" ∨ step = "." := by tauto
    exact ⟨path, by simp [follow, there, stays], there⟩

end Tree

theorem follow_proper (there : disk.hasDirectory path) (proper : Proper step) :
    disk.follow path step = .ok (join path step) := by
  obtain ⟨some, stay, up⟩ := proper
  simp [follow, there, some, stay, up]

theorem Tree.grow (tree : disk.Tree) (there : disk.hasDirectory path) (plain : '/' ∉ step.toList)
    (proper : Proper step) : (disk.grown [join path step]).Tree where
  directory other member := by
    rw [hasDirectory_grown]
    rcases mem_append.mp member with old | new
    · exact .inl (tree.directory other old)
    · obtain rfl := mem_singleton.mp new
      rw [parent, splitLast_join (tree.settled_of_hasDirectory there) plain]
      exact .inl there
  file other member := (hasDirectory_grown _).mpr (.inl (tree.file other member))
  settled other member := by
    rcases mem_append.mp member with old | new
    · exact tree.settled other old
    · obtain rfl := mem_singleton.mp new
      exact getLast?_join plain proper.1

theorem Tree.free_join (tree : disk.Tree) (free : disk.Free place) (settled : place.toList.getLast? ≠ some '/')
    (plain : '/' ∉ step.toList) (some : step ≠ "") : (disk.grown [place]).Free (join place step) := by
  have up : parent (join place step) = place := splitLast_join (.inr settled) plain
  refine ⟨?_, fun member => ?_⟩
  · rw [Bool.eq_false_iff, ne_eq, hasDirectory_grown, mem_singleton]
    rintro (old | same)
    · have there := tree.hasDirectory_parent old
      rw [up, free.1] at there
      cases there
    · have longer : place.length < (join place step).length := by
        have : 0 < step.length := by
          rw [← String.length_toList]
          exact length_pos_iff.mpr (by simpa using some)
        rw [join_of_plain plain]
        split
        · simpa using this
        · simp only [String.length_append]
          omega
      rw [same] at longer
      exact longer.ne rfl
  · have there := tree.file _ member
    rw [up, free.1] at there
    cases there

theorem makeDirectory_apply (located : disk.locate path = .ok place) :
    Work.makeDirectory path disk =
      if disk.hasDirectory place || Table.has place disk.files then .error .existingFile disk
      else .ok () (disk.grown [place]) := by
  simp only [Work.makeDirectory, Effect.get_bind_apply, located]
  rw [Work.ofExcept, pure_bind]
  split <;> rfl

end Workspace

namespace Download

open PathName Workspace

variable {disk : Workspace} {path place front : String} {steps : List String}

def makeAll (steps : List String) (path : String) : Work String :=
  steps.foldlM
    (fun path step => do
      let next := PathName.join path step
      Work.makeDirectory next
      return next)
    path

def way (place : String) : List String → List String
  | [] => []
  | step :: rest => join place step :: way (join place step) rest

theorem way_append (first rest : List String) :
    way place (first ++ rest) = way place first ++ way (first.foldl join place) rest := by
  induction first generalizing place with
  | nil => rfl
  | cons step others ih => rw [cons_append, way, way, ih, cons_append, foldl_cons]

theorem mem_way {found : String} (member : found ∈ way place steps) :
    ∃ first, first <+: steps ∧ first ≠ [] ∧ found = first.foldl join place := by
  induction steps generalizing place with
  | nil => cases member
  | cons step rest ih =>
    rcases mem_cons.mp member with rfl | later
    · exact ⟨[step], by simp, cons_ne_nil _ _, rfl⟩
    · obtain ⟨first, begins, -, same⟩ := ih later
      exact ⟨step :: first, (cons_prefix_cons).mpr ⟨rfl, begins⟩, cons_ne_nil _ _, same⟩

theorem makeAll_cases (tree : disk.Tree) (located : disk.locate path = .ok place)
    (there : disk.hasDirectory place) (plain : ∀ step ∈ steps, '/' ∉ step.toList)
    (free : ∀ step ∈ steps.head?, Proper step → disk.Free (join place step)) :
    ((∀ step ∈ steps, Proper step) →
        ∃ last, makeAll steps path disk = .ok last (disk.grown (way place steps))) ∧
      ((∃ step ∈ steps, ¬ Proper step) → ∃ after, makeAll steps path disk = .error .existingFile after) := by
  induction steps generalizing disk path place with
  | nil => exact ⟨fun _ => ⟨path, by simp [makeAll, grown, way]; rfl⟩, by simp⟩
  | cons step rest ih =>
    obtain ⟨here, later⟩ := forall_mem_cons.mp plain
    have leads := locate_join located here
    have begins : makeAll (step :: rest) path disk =
        (Work.makeDirectory (join path step) >>= fun _ => makeAll rest (join path step)) disk := by
      rw [makeAll, foldlM_cons, bind_assoc]
      rfl
    rw [begins, Effect.bind_apply]
    by_cases proper : Proper step
    · obtain ⟨open_, fileless⟩ := free step rfl proper
      rw [follow_proper there proper] at leads
      have makes := makeDirectory_apply leads
      rw [open_, Bool.false_or, if_neg (by simpa [Table.has_iff_mem_keys] using fileless)] at makes
      rw [makes]
      obtain ⟨goes, stops⟩ := @ih (disk.grown [join place step]) (join path step) (join place step)
        (tree.grow there here proper) (locate_grown _ leads) ((hasDirectory_grown _).mpr (.inr (mem_singleton_self _)))
        later fun next first named =>
          tree.free_join ⟨open_, fileless⟩ (getLast?_join here proper.1) (later next (mem_of_head? first)) named.1
      refine ⟨fun all => ?_, fun some => ?_⟩
      · obtain ⟨last, makesAll⟩ := goes (forall_mem_cons.mp all).2
        refine ⟨last, makesAll.trans ?_⟩
        simp [grown, way]
      · obtain ⟨after, fails⟩ := stops (by simpa [proper] using some)
        exact ⟨after, fails⟩
    · obtain ⟨found, follows, known⟩ := tree.follow_improper there proper
      have makes := makeDirectory_apply (leads.trans follows)
      rw [known, Bool.true_or, if_pos rfl] at makes
      rw [makes]
      exact ⟨fun all => absurd (all step mem_cons_self) proper, fun _ => ⟨disk, rfl⟩⟩

theorem Leads.locate (leads : Leads front steps path) (located : disk.locate front = .ok place)
    (there : disk.hasDirectory place) (proper : ∀ step ∈ steps, Proper step)
    (made : ∀ found ∈ way place steps, disk.hasDirectory found) :
    disk.locate path = .ok (steps.foldl join place) ∧ disk.hasDirectory (steps.foldl join place) := by
  induction leads with
  | here => exact ⟨located, there⟩
  | @step steps path leads ih =>
    obtain ⟨before, here⟩ := forall_mem_append.mp proper
    rw [way_append] at made
    obtain ⟨earlier, last⟩ := forall_mem_append.mp made
    obtain ⟨leadsTo, known⟩ := ih before earlier
    rw [foldl_append]
    refine ⟨?_, last _ (mem_singleton_self _)⟩
    rw [locate_splitLast, leadsTo]
    · have follows := follow_proper known (here _ (mem_singleton_self _))
      simpa only [Except.bind, foldl_cons, foldl_nil] using follows
    · intro none
      rw [none] at leadsTo
      cases leadsTo

theorem Leads.plain (leads : Leads front steps path) : ∀ step ∈ steps, '/' ∉ step.toList := by
  induction leads with
  | here => simp
  | @step steps path leads ih =>
    obtain ⟨_, -, parts⟩ := splitLast_gap path
    exact forall_mem_append.mpr ⟨ih, by simpa using parts.step⟩

theorem isDirectory_iff : disk.isDirectory path = true ↔
    ∃ place, disk.locate path = .ok place ∧ disk.hasDirectory place := by
  unfold isDirectory
  cases disk.locate path <;> simp

theorem Leads.of_nil (leads : Leads front [] path) : path = front := by
  generalize none : [] = steps at leads
  cases leads with
  | here => rfl
  | step leads => simp at none

theorem Leads.singleton {step : String} (leads : Leads front [step] path) : splitLast path = (front, step) := by
  generalize steps : [step] = all at leads
  cases leads with
  | here => cases steps
  | @step before _ leads =>
    obtain ⟨rfl, same⟩ := append_inj' (steps.symm.trans (nil_append _).symm) rfl
    cases same
    exact Prod.ext leads.of_nil rfl

theorem Found.free (found : Found (fun part => disk.isDirectory part) front steps path)
    (clear : ∀ part rest, Leads part rest path → disk.isFile part = false)
    (located : disk.locate front = .ok place) (there : disk.hasDirectory place) :
    ∀ step ∈ steps.head?, Proper step → disk.Free (join place step) := by
  intro step first proper
  obtain ⟨rest, rfl⟩ : ∃ rest, steps = step :: rest := head?_eq_some_iff.mp first
  obtain ⟨part, behind, leads, onward, absent⟩ := @Found.part _ _ _ _ found [step] (by simp) (cons_ne_nil _ _)
  have split := leads.singleton
  have leadsTo : disk.locate part = .ok (join place step) := by
    rw [locate_splitLast, split, located]
    · exact follow_proper there proper
    · rw [split]
      rintro rfl
      cases located
  have fileless := clear part behind onward
  simp only [isDirectory, isFile, leadsTo] at absent fileless
  exact ⟨absent, fun member => by simp [(Table.has_iff_mem_keys _ _).mpr member] at fileless⟩

theorem makeDirectories_of_found (found : Found (fun part => disk.isDirectory part) front steps path) :
    makeDirectories path disk = (makeAll steps front >>= fun _ => pure ()) disk := by
  rw [makeDirectories, Effect.get_bind_apply, found.missingSteps (Nat.lt_succ_self _), append_nil]
  rfl

theorem makeDirectories_of_nowhere
    (nowhere : ∀ front steps, ¬ Found (fun part => disk.isDirectory part) front steps path) :
    makeDirectories path disk = .error .timeLimit disk := by
  rw [makeDirectories, Effect.get_bind_apply, missingSteps_eq_none nowhere]
  rfl

/-- In a tree with no file on the way, the directories of a path are made exactly if some front part of the path is a
directory and every step behind it is a name. Then only parts of the path that were missing are made. The search never
ends if no front part is a directory, and a step that is no name is taken for a directory that exists. -/
theorem makeDirectories_iff (tree : disk.Tree)
    (clear : ∀ part rest, Leads part rest path → disk.isFile part = false) :
    ((∃ after, makeDirectories path disk = .ok () after) ↔
        ∃ front steps, Leads front steps path ∧ disk.isDirectory front = true ∧ ∀ step ∈ steps, Proper step) ∧
      (∀ after, makeDirectories path disk = .ok () after →
        after.isDirectory path = true ∧
          ∃ made, after = { disk with directories := disk.directories ++ made } ∧
            ∀ place ∈ made, ∃ part rest, Leads part rest path ∧ disk.isDirectory part = false ∧
              after.locate part = .ok place) ∧
      ((∀ front steps, Leads front steps path → disk.isDirectory front = false) →
        makeDirectories path disk = .error .timeLimit disk) ∧
      ∀ fault after, makeDirectories path disk = .error fault after →
        fault = .existingFile ∨
          fault = .timeLimit ∧ ∀ front steps, Leads front steps path → disk.isDirectory front = false := by
  by_cases somewhere : ∃ front steps, Found (fun part => disk.isDirectory part) front steps path
  · obtain ⟨front, steps, found⟩ := somewhere
    obtain ⟨place, located, there⟩ := isDirectory_iff.mp found.there
    obtain ⟨goes, stops⟩ := makeAll_cases tree located there found.leads.plain (found.free clear located there)
    rw [makeDirectories_of_found found, Effect.bind_apply]
    by_cases all : ∀ step ∈ steps, Proper step
    · obtain ⟨last, makes⟩ := goes all
      rw [makes]
      have known (first : List String) (begins : first <+: steps) (part : String) (leads : Leads front first part) :=
        leads.locate (locate_grown (way place steps) located) ((hasDirectory_grown _).mpr (.inl there))
          (fun step member => all step (begins.subset member)) fun other member => by
            obtain ⟨rest, rfl⟩ := begins
            exact (hasDirectory_grown _).mpr (.inr (by rw [way_append]; exact mem_append_left _ member))
      refine ⟨⟨fun _ => ⟨front, steps, found.leads, found.there, all⟩, fun _ => ⟨_, rfl⟩⟩, fun after run => ?_,
        fun none => ?_, fun fault after run => by cases run⟩
      · cases run
        refine ⟨isDirectory_iff.mpr ⟨_, known steps (prefix_refl _) path found.leads⟩, way place steps, rfl, ?_⟩
        intro other member
        obtain ⟨first, begins, some, rfl⟩ := mem_way member
        obtain ⟨part, rest, leads, onward, absent⟩ := found.part begins some
        exact ⟨part, rest, onward, absent, (known first begins part leads).1⟩
      · have := found.there
        simp [none front steps found.leads] at this
    · obtain ⟨after, fails⟩ := stops (by simpa using all)
      rw [fails]
      refine ⟨⟨?_, ?_⟩, fun _ run => (by cases run), fun none => ?_, fun _ _ run => .inl (by cases run; rfl)⟩
      · rintro ⟨_, run⟩
        cases run
      · rintro ⟨_, _, leads, known, proper⟩
        obtain ⟨_, _, other, ends⟩ := @Leads.found (fun part => disk.isDirectory part) _ _ _ leads known
        exact absurd (fun step member => proper step (ends.subset (found.unique other ▸ member))) all
      · have := found.there
        simp [none front steps found.leads] at this
  · simp only [not_exists] at somewhere
    have missing (front : String) (steps : List String) (leads : Leads front steps path) :
        disk.isDirectory front = false := by
      by_contra there
      obtain ⟨nearest, behind, found, -⟩ :=
        @Leads.found (fun part => disk.isDirectory part) _ _ _ leads (by simpa using there)
      exact somewhere nearest behind found
    rw [makeDirectories_of_nowhere somewhere]
    refine ⟨⟨?_, ?_⟩, fun _ run => (by cases run), fun _ => rfl, fun _ _ run => .inr ⟨by cases run; rfl, missing⟩⟩
    · rintro ⟨_, run⟩
      cases run
    · rintro ⟨front, steps, leads, known, _⟩
      simp [missing front steps leads] at known

theorem makeDirectories_iff_below :
    (∃ after, makeDirectories "./a/b" {} = .ok () after ∧ after.isDirectory "./a/b" = true) ∧
      Effect.outcome (makeDirectories "./a/b/" {}) = .error .existingFile := by
  have tree : Workspace.Tree {} := ⟨by simp, by simp [Table.keys], by simp⟩
  have fileless (part : String) : isFile part {} = false := by
    unfold isFile
    split <;> simp [Table.has, Table.get?]
  have last : splitLast "./a/b" = ("./a", "b") := by decide +kernel
  have first : splitLast "./a" = (".", "a") := by decide +kernel
  have leads : Leads "." ["a", "b"] "./a/b" := by
    have near := @Leads.step "." [] "./a" (by rw [first]; exact .here)
    rw [first] at near
    have far := @Leads.step "." ["a"] "./a/b" (by rw [last]; exact near)
    rwa [last] at far
  obtain ⟨makes, known, -⟩ := @makeDirectories_iff _ "./a/b" tree fun part _ _ => fileless part
  obtain ⟨after, run⟩ := makes.mpr ⟨".", _, leads, by decide +kernel, by simp [Proper]⟩
  exact ⟨⟨after, run, (known after run).1⟩, by decide +kernel⟩

end Download

end MintAudit
