import MintAudit.Proofs.Machine.Underway
import MintAudit.Proofs.Word.Symbols

namespace MintAudit

/-!
# What computations leave alone

A computation of the machine is orderly if it closes every scope that it opens, moves the program counter by a
distance, leaves alone what the exploration relies on and puts only symbols with names from a vocabulary into the
machine.
-/

namespace Names

/-- What the numbered names begin with that get on the stack. -/
def starts : List String :=
  ["some_var_", "gas_", "balance_"]

theorem starts_getLast? : ∀ start ∈ starts, ∀ last ∈ start.toList.getLast?, last.isDigit = false := by
  simp [starts]

variable {start other : String}

theorem rdropWhile_isDigit (number : Nat) (ends : ∀ last ∈ start.toList.getLast?, last.isDigit = false) :
    (start ++ toString number).toList.rdropWhile Char.isDigit = start.toList := by
  have digits : ∀ digit ∈ (toString number).toList.reverse, digit.isDigit = true := by
    intro digit member
    exact Nat.isDigit_of_mem_toDigits (b := 10) (n := number) (by decide) (by decide) (by simpa using member)
  rw [String.toList_append, List.rdropWhile, List.reverse_append, List.dropWhile_append_of_pos digits]
  refine List.rdropWhile_eq_self_iff.mpr fun some digit => ?_
  rw [ends _ (List.getLast?_eq_some_getLast some)] at digit
  cases digit

/-- A start that ends with no digit and the number behind it can be told apart. -/
theorem append_inj {number another : Nat} (ends : ∀ last ∈ start.toList.getLast?, last.isDigit = false)
    (otherEnds : ∀ last ∈ other.toList.getLast?, last.isDigit = false)
    (same : start ++ toString number = other ++ toString another) :
    start = other ∧ number = another := by
  have starts : start = other := by
    rw [← String.toList_inj, ← rdropWhile_isDigit number ends, same, rdropWhile_isDigit another otherEnds]
  subst starts
  exact ⟨rfl, Nat.repr_inj.mp ((String.append_right_inj _).mp same)⟩

end Names

/-- Which names of symbols may be in use once so many numbered names were given out. -/
structure Vocabulary where
  Admits : Nat → String → Prop
  grows : ∀ {few many : Nat} {name : String}, few ≤ many → Admits few name → Admits many name
  generated : ∀ start ∈ Names.starts, ∀ number : Nat, Admits number (start ++ toString number)
  plain : ∀ {name : String}, (∀ start ∈ Names.starts, ∀ number : Nat, name ≠ start ++ toString number) →
    ∀ given, Admits given name

namespace Vocabulary

def unrestricted : Vocabulary where
  Admits _ _ := True
  grows _ _ := trivial
  generated _ _ _ := trivial
  plain _ _ := trivial

theorem admits_of_head (vocabulary : Vocabulary) {name : String}
    (head : name.toList.head? ∉ [some 's', some 'g', some 'b']) (given : Nat) :
    vocabulary.Admits given name := by
  refine vocabulary.plain (fun start member number same => ?_) given
  rw [same, String.toList_append] at head
  simp only [Names.starts, List.mem_cons, List.not_mem_nil, or_false] at member
  rcases member with rfl | rfl | rfl <;> exact head (by simp)

theorem admits_append (vocabulary : Vocabulary) (first : Char) (different : first ∉ ['s', 'g', 'b']) {start : String}
    (head : start.toList.head? = some first) (rest : String) (given : Nat) :
    vocabulary.Admits given (start ++ rest) := by
  refine vocabulary.admits_of_head ?_ given
  rw [String.toList_append, List.head?_append, head]
  simpa using different

end Vocabulary

section Speaking

variable (vocabulary : Vocabulary) (given : Nat)

/-- The words of the path, as far as they can get into a condition, speak the vocabulary. -/
structure Path.Speaks (path : Path) : Prop where
  stack : ∀ word ∈ path.stack, word.Only (vocabulary.Admits given)
  memory : ∀ entry ∈ path.memory, entry.2.Only (vocabulary.Admits given)
  hashes : ∀ entry ∈ path.hashes, entry.2.Only (vocabulary.Admits given)
  balances : ∀ entry ∈ path.balances, entry.2.Only (vocabulary.Admits given)
  storage : ∀ entry ∈ path.storage, entry.2.Only (vocabulary.Admits given)
  touched : path.touched.Only (vocabulary.Admits given)
  conditions : ∀ word ∈ path.conditions, word.Only (vocabulary.Admits given)

/-- The conditions that the blocks hold speak the vocabulary, and so do the parameters in the source. -/
structure Session.Speaks (session : Session) : Prop where
  branches : ∀ entry ∈ session.graph.blocks, ∀ branch ∈ entry.2.branch, branch.Only (vocabulary.Admits given)
  parameters : ∀ map ∈ session.source, ∀ entry ∈ map.parameters, ∀ parameter ∈ entry.2,
    vocabulary.Admits 0 parameter.name

structure Machine.Speaks (machine : Machine) : Prop where
  path : machine.path.Speaks vocabulary machine.session.names.other
  session : machine.session.Speaks vocabulary machine.session.names.other

variable {vocabulary}

theorem Path.Speaks.mono {few many : Nat} (more : few ≤ many) {path : Path} (speaks : path.Speaks vocabulary few) :
    path.Speaks vocabulary many where
  stack word member := (speaks.stack word member).mono fun _ => vocabulary.grows more
  memory entry member := (speaks.memory entry member).mono fun _ => vocabulary.grows more
  hashes entry member := (speaks.hashes entry member).mono fun _ => vocabulary.grows more
  balances entry member := (speaks.balances entry member).mono fun _ => vocabulary.grows more
  storage entry member := (speaks.storage entry member).mono fun _ => vocabulary.grows more
  touched := speaks.touched.mono fun _ => vocabulary.grows more
  conditions word member := (speaks.conditions word member).mono fun _ => vocabulary.grows more

theorem Session.Speaks.mono {few many : Nat} (more : few ≤ many) {session : Session}
    (speaks : session.Speaks vocabulary few) :
    session.Speaks vocabulary many where
  branches entry member branch present :=
    (speaks.branches entry member branch present).mono fun _ => vocabulary.grows more
  parameters := speaks.parameters

theorem Machine.speaks_unrestricted (machine : Machine) :
    machine.Speaks .unrestricted where
  path :=
    { stack := fun word _ => word.only_true
      memory := fun entry _ => entry.2.only_true
      hashes := fun entry _ => entry.2.only_true
      balances := fun entry _ => entry.2.only_true
      storage := fun entry _ => entry.2.only_true
      touched := machine.path.touched.only_true
      conditions := fun word _ => word.only_true }
  session := ⟨fun _ _ branch _ => branch.only_true, fun _ _ _ _ _ _ => trivial⟩

end Speaking

structure Standing where
  unitTest : Int
  gasLimit : Int
  loopLimit : Int
  kinds : Table Int JumpKind
  layout : Table Int (List String × Option (Option Int))
  functionStarts : Table Int String
  source : Option SourceMap
  takenEdges : Table (Int × Int) Int
  finishedPaths : Nat
  trace : List Step

def Block.layout (block : Block) : List String × Option (Option Int) :=
  (block.lines, block.fallsTo)

def Graph.layout (graph : Graph) : Table Int (List String × Option (Option Int)) :=
  graph.blocks.map fun entry => (entry.1, entry.2.layout)

def Session.standing (session : Session) : Standing where
  unitTest := session.settings.unitTest
  gasLimit := session.settings.gasLimit
  loopLimit := session.settings.loopLimit
  kinds := session.graph.kinds
  layout := session.graph.layout
  functionStarts := session.functionStarts
  source := session.source.map fun map => { map with «variables» := [] }
  takenEdges := session.takenEdges
  finishedPaths := session.finishedPaths
  trace := session.trace

def Machine.rescoped (scopes : Scopes) (machine : Machine) : Machine :=
  { machine with session := { machine.session with scopes := scopes } }

structure Frame (γ : Type) extends Vocabulary where
  shown : Holdings → Watch → γ

def Frame.shows (frame : Frame γ) (machine : Machine) : γ :=
  frame.shown machine.path.holdings machine.session.watch

def Frame.unrestricted (shown : Holdings → Watch → γ) : Frame γ where
  toVocabulary := .unrestricted
  shown := shown

def Vocabulary.frame (vocabulary : Vocabulary) : Frame Unit where
  toVocabulary := vocabulary
  shown _ _ := ()

theorem Vocabulary.blind (vocabulary : Vocabulary) (part : Holdings.Part) :
    Holdings.Blind vocabulary.frame.shown part := by
  cases part <;> simp [Holdings.Blind, frame]

structure Machine.Abides (frame : Frame γ) (before after : Machine) : Prop where
  standing : after.session.standing = before.session.standing
  visitedPcs : after.session.visitedPcs = before.session.visitedPcs
  gas : after.path.gas = before.path.gas
  names : before.session.names ≤ after.session.names
  shows : frame.shows after = frame.shows before
  speaks : after.Speaks frame.toVocabulary

namespace Machine.Abides

variable {frame : Frame γ}

theorem refl {machine : Machine} (speaks : machine.Speaks frame.toVocabulary) : machine.Abides frame machine :=
  ⟨rfl, rfl, rfl, le_rfl, rfl, speaks⟩

theorem trans {before between after : Machine} (first : before.Abides frame between)
    (second : between.Abides frame after) :
    before.Abides frame after :=
  ⟨second.standing.trans first.standing, second.visitedPcs.trans first.visitedPcs, second.gas.trans first.gas,
    first.names.trans second.names, second.shows.trans first.shows, second.speaks⟩

theorem given {before after : Machine} (abides : before.Abides frame after) :
    before.session.names.other ≤ after.session.names.other :=
  abides.names.2.2

end Machine.Abides

namespace Exec

def Orderly (frame : Frame γ) (depth : Nat) (distance : Int) (given : Nat) (computation : Exec α)
    (gives : Nat → α → Prop) :
    Prop :=
  ∀ (before : Machine) (outer : Scopes), before.session.names.other = given → before.Speaks frame.toVocabulary →
    (∃ own, own.length = depth ∧ before.session.scopes = outer.opening own) →
    match computation before with
    | .ok value after =>
      before.Abides frame after ∧ after.session.scopes = outer ∧
        after.path.conditions = before.path.conditions ∧ after.path.pc = before.path.pc + distance ∧
        gives after.session.names.other value
    | .error _ after => before.Abides frame after ∧ after.session.scopes.Above outer

def Steady (frame : Frame γ) (given : Nat) (computation : Exec α) (holds : α → Prop) : Prop :=
  Orderly frame 0 0 given computation fun now value => now = given ∧ holds value

def Tidy (frame : Frame γ) (distance : Int) (given : Nat) (computation : Exec α) : Prop :=
  Orderly frame 0 distance given computation fun _ _ => True

variable {γ : Type} {frame : Frame γ} {depth given : Nat} {distance : Int}

variable {gives : Nat → α → Prop} {computation : Exec α} {holds : α → Prop} {next : Unit → Exec α}

theorem Orderly.of_abides
    (result : ∀ before : Machine, before.session.names.other = given → before.Speaks frame.toVocabulary →
      match computation before with
      | .ok value after =>
        before.Abides frame after ∧ after.session.scopes = before.session.scopes ∧
          after.path.conditions = before.path.conditions ∧ after.path.pc = before.path.pc ∧
          gives after.session.names.other value
      | .error _ after => before.Abides frame after ∧ after.session.scopes = before.session.scopes) :
    Orderly frame 0 0 given computation gives := by
  rintro before outer names speaks ⟨own, none, scopes⟩
  obtain rfl := List.length_eq_zero_iff.mp none
  have ends := result before names speaks
  cases run : computation before with
  | ok value after =>
    rw [run] at ends
    obtain ⟨abides, same, conditions, pc, holds⟩ := ends
    exact ⟨abides, same.trans scopes, conditions, pc.trans (add_zero _).symm, holds⟩
  | error fault after =>
    rw [run] at ends
    exact ⟨ends.1, (ends.2.trans scopes).symm ▸ Scopes.Above.refl outer⟩

theorem Orderly.of_pure {value : α} (holds : gives given value) : Orderly frame 0 0 given (pure value) gives :=
  .of_abides fun _ names speaks => ⟨.refl speaks, rfl, rfl, rfl, names ▸ holds⟩

theorem Orderly.of_throw (fault : Fault) : Orderly frame depth distance given (throw fault) gives := by
  rintro before outer rfl speaks ⟨own, _, scopes⟩
  exact ⟨.refl speaks, scopes ▸ Scopes.above_opening outer own⟩

theorem Orderly.mono {gives more : Nat → α → Prop} (orderly : Orderly frame depth distance given computation gives)
    (weaker : ∀ now value, given ≤ now → gives now value → more now value) :
    Orderly frame depth distance given computation more := by
  intro before outer names speaks opened
  have result := orderly before outer names speaks opened
  split at result
  · obtain ⟨abides, scopes, conditions, pc, holds⟩ := result
    exact ⟨abides, scopes, conditions, pc, weaker _ _ (names ▸ abides.given) holds⟩
  · exact result

section Sequencing

variable {gives : Nat → β → Prop} {next : α → Exec β} {between : Nat → α → Prop} {result : Except Fault α}

theorem Orderly.seq {farther : Int} (first : Orderly frame 0 distance given computation between)
    (second : ∀ now value, given ≤ now → between now value → Orderly frame depth farther now (next value) gives) :
    Orderly frame depth (distance + farther) given (computation >>= next) gives := by
  rintro before outer names speaks ⟨own, count, scopes⟩
  have result := first before before.session.scopes names speaks ⟨[], rfl, rfl⟩
  rw [bind_apply]
  cases run : computation before with
  | ok value middle =>
    rw [run] at result
    obtain ⟨abides, sameScopes, sameConditions, moved, holds⟩ := result
    have onward := second _ value (names ▸ abides.given) holds middle outer rfl abides.speaks
      ⟨own, count, sameScopes.trans scopes⟩
    dsimp only
    cases continued : next value middle with
    | ok value after =>
      rw [continued] at onward
      obtain ⟨later, closed, conditions, movedOn, holds⟩ := onward
      exact ⟨abides.trans later, closed, conditions.trans sameConditions, by rw [movedOn, moved, add_assoc], holds⟩
    | error fault after =>
      rw [continued] at onward
      exact ⟨abides.trans onward.1, onward.2⟩
  | error fault after =>
    rw [run] at result
    exact ⟨result.1, result.2.trans (scopes ▸ Scopes.above_opening outer own)⟩

theorem Orderly.bind (first : Orderly frame 0 0 given computation between)
    (second : ∀ now value, given ≤ now → between now value → Orderly frame depth distance now (next value) gives) :
    Orderly frame depth distance given (computation >>= next) gives :=
  zero_add distance ▸ first.seq second

theorem Steady.bind (first : Steady frame given computation holds)
    (second : ∀ value, holds value → Orderly frame depth distance given (next value) gives) :
    Orderly frame depth distance given (computation >>= next) gives := by
  refine Orderly.bind first ?_
  rintro _ value _ ⟨rfl, valueHolds⟩
  exact second value valueHolds

theorem Steady.tidy (steady : Steady frame given computation holds) : Tidy frame 0 given computation :=
  Orderly.mono steady fun _ _ _ _ => trivial

theorem Steady.giving {computation : Exec Word}
    (steady : Steady frame given computation (Word.Only (frame.Admits given))) :
    Orderly frame 0 0 given computation fun now word => word.Only (frame.Admits now) := by
  refine Orderly.mono steady ?_
  rintro _ word _ ⟨rfl, only⟩
  exact only

theorem Steady.of_pure {value : α} (fact : holds value) : Steady frame given (pure value) holds :=
  Orderly.of_pure ⟨rfl, fact⟩

theorem lift_steady (gives : Gives holds result) : Steady frame given (lift result) holds := by
  cases result with
  | ok value => exact Steady.of_pure gives
  | error fault => exact Orderly.of_throw fault

theorem Orderly.lift (onward : ∀ value, Orderly frame depth distance given (next value) gives) :
    Orderly frame depth distance given (Exec.lift result >>= next) gives :=
  (lift_steady (.anything result)).bind fun value _ => onward value

theorem discard_lift_steady (result : Except Fault α) : Steady frame given (discard (lift result)) fun _ => True := by
  cases result with
  | ok value => exact Steady.of_pure trivial
  | error fault => exact Orderly.of_throw fault

end Sequencing

variable {change : Session → Session} {flag : Flag}

theorem session_steady : Steady frame given session fun session => session.Speaks frame.toVocabulary given :=
  .of_abides fun _ names speaks => ⟨.refl speaks, rfl, rfl, rfl, names, names ▸ speaks.session⟩

theorem path_steady : Steady frame given path fun path => path.Speaks frame.toVocabulary given :=
  .of_abides fun _ names speaks => ⟨.refl speaks, rfl, rfl, rfl, names, names ▸ speaks.path⟩

theorem modifyPath_steady {change : Path → Path}
    (speaks : ∀ path, path.Speaks frame.toVocabulary given → (change path).Speaks frame.toVocabulary given)
    (shows : ∀ path, frame.shown (change path).holdings = frame.shown path.holdings)
    (same : ∀ path, (change path).gas = path.gas ∧ (change path).conditions = path.conditions ∧
      (change path).pc = path.pc) :
    Steady frame given (modifyPath change) fun _ => True := by
  refine .of_abides ?_
  rintro before rfl speaking
  obtain ⟨gas, conditions, pc⟩ := same before.path
  exact ⟨⟨rfl, rfl, gas, le_rfl, congrFun (shows _) _, speaks _ speaking.path, speaking.session⟩, rfl, conditions, pc,
    rfl, trivial⟩

theorem modifySession_steady
    (speaks : ∀ session, session.Speaks frame.toVocabulary given → (change session).Speaks frame.toVocabulary given)
    (shows : ∀ session holdings, frame.shown holdings (change session).watch = frame.shown holdings session.watch)
    (same : ∀ session, (change session).standing = session.standing ∧
      (change session).visitedPcs = session.visitedPcs ∧ (change session).names = session.names ∧
      (change session).scopes = session.scopes) :
    Steady frame given (modifySession change) fun _ => True := by
  refine .of_abides ?_
  rintro before rfl speaking
  obtain ⟨standing, visitedPcs, names, scopes⟩ := same before.session
  refine ⟨⟨standing, visitedPcs, rfl, names.ge, shows _ _, ?_, ?_⟩, scopes, rfl, rfl, congrArg Names.other names, trivial⟩
  · show before.path.Speaks frame.toVocabulary (change before.session).names.other
    rw [names]
    exact speaking.path
  · show (change before.session).Speaks frame.toVocabulary (change before.session).names.other
    rw [names]
    exact speaks _ speaking.session

theorem modifyPath_plain {change : Path → Path}
    (same : ∀ path, ∃ calls visited gates known, change path = { path with calls, visited, gates, known }) :
    Steady frame given (modifyPath change) fun _ => True := by
  refine modifyPath_steady (fun path speaks => ?_) (fun path => ?_) (fun path => ?_)
  all_goals obtain ⟨calls, visited, gates, known, equal⟩ := same path
  all_goals rw [equal]
  · exact ⟨speaks.stack, speaks.memory, speaks.hashes, speaks.balances, speaks.storage, speaks.touched,
      speaks.conditions⟩
  · rfl
  · exact ⟨rfl, rfl, rfl⟩

theorem modifySession_plain
    (same : ∀ session, ∃ watch callsAffect, change session = { session with watch, callsAffect } ∧
      ∀ holdings, frame.shown holdings watch = frame.shown holdings session.watch) :
    Steady frame given (modifySession change) fun _ => True := by
  refine modifySession_steady (fun session speaks => ?_) (fun session holdings => ?_) (fun session => ?_)
  all_goals obtain ⟨watch, callsAffect, equal, shows⟩ := same session
  all_goals rw [equal]
  · exact ⟨speaks.branches, speaks.parameters⟩
  · exact shows holdings
  · exact ⟨rfl, rfl, rfl, rfl⟩

theorem advance_orderly (count : Int) : Orderly frame 0 count given (advance count) fun now _ => now = given := by
  rintro before outer rfl speaks ⟨own, none, scopes⟩
  obtain rfl := List.length_eq_zero_iff.mp none
  exact ⟨⟨rfl, rfl, rfl, le_rfl, rfl, { speaks.path with }, speaks.session⟩, scopes, rfl, rfl, rfl⟩

theorem advance_tidy (count : Int) : Tidy frame count given (advance count) :=
  (advance_orderly count).mono fun _ _ _ _ => trivial

theorem Orderly.advance (onward : Orderly frame depth 0 given (next ()) gives) :
    Orderly frame depth distance given (Exec.advance distance >>= next) gives := by
  have moved : Orderly frame depth (distance + 0) given (Exec.advance distance >>= next) gives := by
    refine (advance_orderly distance).seq ?_
    rintro _ _ _ rfl
    exact onward
  rwa [add_zero] at moved

theorem push_steady {word : Word} (only : word.Only (frame.Admits given)) :
    Steady frame given (push word) fun _ => True :=
  modifyPath_steady
    (fun _ speaks => { speaks with stack := List.forall_mem_cons.mpr ⟨only, speaks.stack⟩ })
    (fun _ => rfl) fun _ => ⟨rfl, rfl, rfl⟩

theorem need_steady (count : Nat) : Steady frame given (need count) fun _ => True := by
  unfold need
  refine path_steady.bind fun path _ => ?_
  split
  · exact Orderly.of_throw _
  · exact Steady.of_pure trivial

theorem pop_steady : Steady frame given pop (Word.Only (frame.Admits given)) := by
  refine .of_abides ?_
  rintro before rfl speaks
  cases stack : before.path.stack with
  | nil =>
    rw [pop_nil before stack]
    exact ⟨.refl speaks, rfl⟩
  | cons word rest =>
    have all := List.forall_mem_cons.mp (stack ▸ speaks.path.stack)
    rw [pop_cons before stack]
    exact ⟨⟨rfl, rfl, rfl, le_rfl, rfl, { speaks.path with stack := all.2 }, speaks.session⟩, rfl, rfl, rfl, rfl, all.1⟩

theorem discard_pop_steady : Steady frame given (discard pop) fun _ => True :=
  pop_steady.bind fun _ _ => Steady.of_pure trivial

theorem drop_steady (count : Nat) : Steady frame given (drop count) fun _ => True := by
  induction count with
  | zero =>
    rw [drop_zero]
    exact Steady.of_pure trivial
  | succ count ih =>
    rw [drop_succ]
    exact discard_pop_steady.bind fun _ _ => ih

theorem freshName_orderly {take : Names → String × Names} (proceeds : Names.Proceeds take) :
    Orderly frame 0 0 given (freshName take) fun now name =>
      ∃ names : Names, names.other = given ∧ (take names).2.other = now ∧ (take names).1 = name := by
  refine .of_abides ?_
  rintro before rfl speaks
  have later := proceeds before.session.names
  have speaksStill : before.session.Speaks frame.toVocabulary (take before.session.names).2.other :=
    speaks.session.mono later.2.2
  exact ⟨⟨rfl, rfl, rfl, later, rfl, speaks.path.mono later.2.2, speaksStill.branches, speaksStill.parameters⟩, rfl, rfl,
    rfl, before.session.names, rfl, rfl, rfl⟩

theorem numberedName_orderly (start : String) :
    Orderly frame 0 0 given (freshName (Names.numbered start)) fun now name =>
      now = given + 1 ∧ name = start ++ toString now := by
  refine (freshName_orderly (Names.numbered_proceeds start)).mono ?_
  rintro _ _ _ ⟨names, rfl, rfl, rfl⟩
  exact ⟨rfl, rfl⟩

theorem register_steady (name : String) : Steady frame given (register name) fun _ => True :=
  modifyPath_plain fun _ => ⟨_, _, _, _, rfl⟩

theorem symbolNamed_steady {name : String} (admitted : frame.Admits given name) :
    Steady frame given (symbolNamed name) (Word.Only (frame.Admits given)) :=
  (register_steady name).bind fun _ _ => Steady.of_pure admitted

end Exec

end MintAudit
