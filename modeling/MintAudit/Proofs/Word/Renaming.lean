import MintAudit.Machine.Memory
import MintAudit.Proofs.Number.Numeral

namespace MintAudit

/-!
# Names of storage

The word of storage at a position is named by the position and the variable that is kept there, with dashes in front
of them.
-/

open List

namespace Term

def Every (holds : String × Nat → Prop) : Term → Prop
  | symbol name width => holds (name, width)
  | literal .. => True
  | truth _ => True
  | unary _ operand => operand.Every holds
  | binary _ left right => left.Every holds ∧ right.Every holds
  | choice test yes no => test.Every holds ∧ yes.Every holds ∧ no.Every holds

def renamed (anew : String → String) : Term → Term
  | symbol name width => symbol (anew name) width
  | literal width value => literal width value
  | truth value => truth value
  | unary op operand => unary op (operand.renamed anew)
  | binary op left right => binary op (left.renamed anew) (right.renamed anew)
  | choice test yes no => choice (test.renamed anew) (yes.renamed anew) (no.renamed anew)

def Wide (term : Term) : Prop :=
  ∀ entry ∈ term.symbols, entry.2 = Word.size

variable {holds : String × Nat → Prop} {term : Term}

theorem forall_mem_symbolsOnto (seen : List (String × Nat)) :
    (∀ entry ∈ term.symbolsOnto seen, holds entry) ↔ (∀ entry ∈ seen, holds entry) ∧ term.Every holds := by
  induction term generalizing seen with
  | symbol name width => grind [symbolsOnto, Every]
  | _ => simp_all [symbolsOnto, Every, and_assoc]

theorem forall_mem_symbols : (∀ entry ∈ term.symbols, holds entry) ↔ term.Every holds := by
  simpa [symbols] using forall_mem_symbolsOnto []

theorem nodup_symbolsOnto {seen : List (String × Nat)} (distinct : seen.Nodup) : (term.symbolsOnto seen).Nodup := by
  induction term generalizing seen <;> grind [symbolsOnto, nodup_append]

theorem nodup_names (wide : term.Wide) : term.names.Nodup := by
  refine (nodup_symbolsOnto nodup_nil).map_on fun first firstMember second secondMember same => ?_
  exact Prod.ext same ((wide first firstMember).trans (wide second secondMember).symm)

theorem renamed_congr_iff (first second : String → String) :
    term.renamed first = term.renamed second ↔ ∀ name ∈ term.names, first name = second name := by
  have every : term.renamed first = term.renamed second ↔ term.Every fun entry => first entry.1 = second entry.1 := by
    induction term <;> simp_all [renamed, Every]
  rw [every, ← forall_mem_symbols, names, forall_mem_map]

theorem rename_eq_renamed (wide : term.Wide) (old new : String) :
    term.rename old new = term.renamed fun name => if name = old then new else name := by
  rw [Wide, forall_mem_symbols] at wide
  induction term <;> grind [rename, renamed, Every]

theorem wide_renamed (wide : term.Wide) (anew : String → String) : (term.renamed anew).Wide := by
  rw [Wide, forall_mem_symbols] at *
  induction term <;> simp_all [renamed, Every]

theorem renamed_renamed (first second : String → String) :
    (term.renamed first).renamed second = term.renamed (second ∘ first) := by
  induction term <;> simp_all [renamed]

theorem renamed_id : term.renamed (fun name => name) = term := by
  induction term <;> simp_all [renamed]

end Term

namespace Renaming

def old (name : String) : String :=
  name ++ "_old"

variable {keeps wanted : String → Bool} {names : List String}

def moved (keeps : String → Bool) (name next : String) : String :=
  if keeps next = false ∧ name = next then old next else name

def stepped (keeps : String → Bool) (term : Term) (name : String) : Term :=
  if keeps name then term else term.rename name (old name)

theorem foldl_stepped {term : Term} (wide : term.Wide) (names : List String) :
    names.foldl (stepped keeps) term = term.renamed fun name => names.foldl (moved keeps) name := by
  induction names generalizing term with
  | nil => exact term.renamed_id.symm
  | cons next rest ih =>
    have first : stepped keeps term next = term.renamed fun name => moved keeps name next := by
      cases kept : keeps next with
      | true => simp [stepped, moved, kept, Term.renamed_id]
      | false => simp [stepped, moved, kept, term.rename_eq_renamed wide]
    rw [foldl_cons, first, ih (Term.wide_renamed wide _), Term.renamed_renamed]
    rfl

theorem length_old (name : String) : (old name).length = name.length + 4 :=
  String.length_append _ _

theorem length_le_foldl_moved (keeps : String → Bool) (names : List String) (name : String) :
    name.length ≤ (names.foldl (moved keeps) name).length := by
  induction names generalizing name with
  | nil => exact le_rfl
  | cons next rest ih =>
    refine le_trans ?_ (ih _)
    unfold moved
    split
    · next here =>
      rw [here.2, length_old]
      omega
    · exact le_rfl

theorem foldl_moved_eq_self_iff (names : List String) (name : String) :
    names.foldl (moved keeps) name = name ↔ ∀ next ∈ names, next = name → keeps next = true := by
  induction names generalizing name with
  | nil => simp
  | cons next rest ih =>
    rw [foldl_cons, forall_mem_cons]
    by_cases here : keeps next = false ∧ name = next
    · have longer := length_le_foldl_moved keeps rest (old next)
      rw [length_old] at longer
      constructor
      · intro same
        rw [moved, if_pos here] at same
        rw [same, here.2] at longer
        omega
      · intro all
        simp [all.1 here.2.symm] at here
    · rw [moved, if_neg here, ih]
      have stays : next = name → keeps next = true := by
        rintro rfl
        simpa using here
      exact (and_iff_right stays).symm

def target (keeps : String → Bool) (name : String) : String :=
  if keeps name then name else old name

/-- No name is turned into another one that is renamed later. -/
def Unchained (keeps : String → Bool) (names : List String) : Prop :=
  names.Pairwise fun first later => keeps first = false → keeps later = false → later ≠ old first

theorem foldl_moved_eq_target_iff (distinct : names.Nodup) :
    (∀ name ∈ names, names.foldl (moved keeps) name = target wanted name) ↔
      (∀ name ∈ names, keeps name = wanted name) ∧ Unchained wanted names := by
  induction names with
  | nil => simp [Unchained]
  | cons next rest ih =>
    obtain ⟨absent, distinct⟩ := nodup_cons.mp distinct
    have others : ∀ name ∈ rest, (next :: rest).foldl (moved keeps) name = rest.foldl (moved keeps) name := by
      intro name member
      rw [foldl_cons, moved, if_neg]
      rintro ⟨-, rfl⟩
      exact absent member
    have here : (next :: rest).foldl (moved keeps) next = target wanted next ↔
        keeps next = wanted next ∧
          ∀ later ∈ rest, wanted next = false → keeps later = false → later ≠ old next := by
      have longer := length_le_foldl_moved keeps rest (old next)
      rw [length_old] at longer
      have differs : next ≠ old next := fun same => by simpa [length_old] using congrArg String.length same
      have away : rest.foldl (moved keeps) (old next) ≠ next := fun same => by
        rw [same] at longer
        omega
      have stays : rest.foldl (moved keeps) next = next :=
        (foldl_moved_eq_self_iff rest next).mpr fun later member same => (absent (same ▸ member)).elim
      cases kept : keeps next <;> cases should : wanted next <;>
        simp [moved, kept, stays, target, should, differs, away, foldl_moved_eq_self_iff]
      grind
    rw [forall_mem_cons, forall_mem_cons, forall₂_congr fun name member => by rw [others name member], ih distinct, here]
    unfold Unchained
    rw [pairwise_cons]
    constructor
    · rintro ⟨⟨same, apart⟩, others, unchained⟩
      exact ⟨⟨same, others⟩, fun later member => others later member ▸ apart later member, unchained⟩
    · rintro ⟨⟨same, others⟩, apart, unchained⟩
      exact ⟨⟨same, fun later member => (others later member).symm ▸ apart later member⟩, others, unchained⟩

variable {positionOf : String → Except Fault (Option Key)} {written : List Key} {table : Names}

/-- A name is kept exactly if its position is found and was not written to. -/
def Tells (positionOf : String → Except Fault (Option Key)) (written : List Key) (keeps : String → Bool)
    (name : String) : Prop :=
  ∃ position, positionOf name = .ok position ∧ keeps name = position.any fun key => !written.contains key

def Noted (keeps : String → Bool) (table : Names) : Prop :=
  ∀ name new, Table.get? name table = some new → keeps name = false ∧ new = old name

theorem renameSymbol_eq (term : Term) {name : String} (noted : Noted keeps table)
    (tells : Tells positionOf written keeps name) :
    ∃ after, Noted keeps after ∧ renameSymbol positionOf written (term, table) name = .ok (stepped keeps term name, after) := by
  obtain ⟨position, located, kept⟩ := tells
  unfold renameSymbol
  cases known : Table.get? name table with
  | some new =>
    obtain ⟨moves, rfl⟩ := noted name new known
    exact ⟨table, noted, by simp [stepped, moves]; rfl⟩
  | none =>
    have put : keeps name = false → Noted keeps (Table.put name (old name) table) := by
      intro moves other new found
      by_cases same : other = name
      · rw [same, Table.get?_put_self] at found
        exact ⟨same ▸ moves, same ▸ (Option.some.inj found).symm⟩
      · rw [Table.get?_put_of_ne same] at found
        exact noted other new found
    simp only [located, bind, Except.bind]
    cases position with
    | none => exact ⟨_, put kept, by simp [stepped, kept]; rfl⟩
    | some key =>
      by_cases present : key ∈ written
      · have moves : keeps name = false := by simp [kept, present]
        exact ⟨_, put moves, by simp [stepped, moves, present]; rfl⟩
      · have stays : keeps name = true := by simp [kept, present]
        exact ⟨table, noted, by simp [stepped, stays, present]; rfl⟩

theorem foldlM_renameSymbol (noted : Noted keeps table) (tells : ∀ name ∈ names, Tells positionOf written keeps name)
    (term : Term) :
    ∃ after, Noted keeps after ∧
      names.foldlM (renameSymbol positionOf written) (term, table) = .ok (names.foldl (stepped keeps) term, after) := by
  induction names generalizing term table with
  | nil => exact ⟨table, noted, rfl⟩
  | cons name rest ih =>
    obtain ⟨here, later⟩ := forall_mem_cons.mp tells
    obtain ⟨between, notedThen, first⟩ := renameSymbol_eq term noted here
    obtain ⟨after, notedLast, others⟩ := ih notedThen later (stepped keeps term name)
    exact ⟨after, notedLast, by rw [foldlM_cons, first]; exact others⟩

def namesOf : Word → List String
  | .term value => value.names
  | _ => []

def onTerm (change : Term → Term) : Word → Word
  | .term value => .term (change value)
  | word => word

/-- Rename the symbols of a term one after another, unless they are kept. -/
def inTurn (keeps : String → Bool) (term : Term) : Term :=
  term.names.foldl (stepped keeps) term

theorem renameWords_eq (noted : Noted keeps table) {words : List Word}
    (tells : ∀ word ∈ words, ∀ name ∈ namesOf word, Tells positionOf written keeps name) :
    ∃ after, Noted keeps after ∧
      renameWords positionOf written table words = .ok (words.map (onTerm (inTurn keeps)), after) := by
  induction words generalizing table with
  | nil => exact ⟨table, noted, rfl⟩
  | cons word rest ih =>
    obtain ⟨here, later⟩ := forall_mem_cons.mp tells
    obtain ⟨between, notedThen, first⟩ : ∃ between, Noted keeps between ∧
        renameWord positionOf written table word = .ok (onTerm (inTurn keeps) word, between) := by
      cases word with
      | term value =>
        obtain ⟨after, noted, folded⟩ := foldlM_renameSymbol noted here value
        refine ⟨after, noted, ?_⟩
        unfold namesOf at folded
        rw [renameWord, folded]
        rfl
      | _ => exact ⟨table, noted, rfl⟩
    obtain ⟨after, notedLast, others⟩ := ih notedThen later
    exact ⟨after, notedLast, by rw [renameWords, first]; simp only [bind, Except.bind, others]; rfl⟩

/-- Whether a symbol of storage is at a position that was not written to. -/
def keptBy (storage : Table Key Word) (name : String) : Bool :=
  isStorage name && (storagePosition name).toOption.any fun position => !(Table.keys storage).contains position

theorem onTerm_inTurn_iff {word : Word} (wide : ∀ value, word = .term value → value.Wide) :
    onTerm (inTurn keeps) word = onTerm (Term.renamed (target wanted)) word ↔
      (∀ name ∈ namesOf word, keeps name = wanted name) ∧ Unchained wanted (namesOf word) := by
  cases word with
  | term value =>
    have wide := wide value rfl
    rw [onTerm, onTerm, inTurn, foldl_stepped wide, Word.term.injEq, Term.renamed_congr_iff]
    exact foldl_moved_eq_target_iff (Term.nodup_names wide)
  | _ => simp [onTerm, namesOf, Unchained]

theorem storageWord_toList (position : Word) (variableName : String) :
    (Names.storageWord position variableName).toList =
      "Ia_store".toList ++ '-' :: (position.render.toList ++ '-' :: variableName.toList) := by
  simp [Names.storageWord]

theorem pieces_storageWord (position : Word) (variableName : String) :
    Text.splitOnChar '-' (Names.storageWord position variableName) =
      "Ia_store" :: Text.splitOnChar '-' (String.ofList (position.render.toList ++ '-' :: variableName.toList)) := by
  rw [← @String.ofList_toList (Names.storageWord _ _), storageWord_toList, Text.splitOnChar_append (by decide)]
  rfl

theorem startsWith_storageWord (position : Word) (variableName : String) :
    isStorage (Names.storageWord position variableName) = true ∧
      Text.startsWith (Names.storageWord position variableName) "Ia_store_" = false := by
  unfold isStorage Text.startsWith
  rw [storageWord_toList]
  exact ⟨(Text.startsWithChars_iff _ _).mpr (prefix_append _ _), rfl⟩

theorem storagePosition_of_field {name text : String} (found : field 1 name = .ok text) :
    storagePosition name = .ok (((Numeral.read? 10 text).map Key.number).getD (.label text)) := by
  rw [storagePosition, found]
  simp only [bind, Except.bind]
  cases Numeral.read? 10 text <;> rfl

/-- A position that a load can meet: a number from zero on, or a term. -/
inductive Loadable : Word → Prop where
  | number (value : Nat) : Loadable (.integer value)
  | term (value : Term) : Loadable (.term value)

/-- The text of a position that is a term has no dash in it and is no numeral. -/
def Legible : Word → Prop
  | .term value => '-' ∉ value.text.toList ∧ Numeral.read? 10 value.text = none
  | _ => True

theorem dash_not_mem_variable (code : String) :
    '-' ∉ (Text.strip ((Text.splitAt Memory.isOperator code).headD "")).toList := by
  have piece (characters : List Char) : (Text.cutsAt Memory.isOperator characters).headD [] =
      characters.takeWhile fun character => !Memory.isOperator character := by
    induction characters with
    | nil => rfl
    | cons character rest ih =>
      rw [Text.cutsAt, takeWhile_cons, ← ih]
      cases Memory.isOperator character with
      | true => rfl
      | false => cases Text.cutsAt Memory.isOperator rest <;> rfl
  have first : (Text.splitAt Memory.isOperator code).headD "" =
      String.ofList ((Text.cutsAt Memory.isOperator code.toList).headD []) := by
    unfold Text.splitAt
    cases Text.cutsAt Memory.isOperator code.toList <;> rfl
  intro member
  rw [first, piece] at member
  simp only [Text.strip, Text.stripWhile, Text.dropBack, Text.dropFront, String.toList_ofList, mem_reverse] at member
  have inside := (dropWhile_sublist _).subset (mem_reverse.mp ((dropWhile_sublist _).subset member))
  exact absurd (mem_takeWhile_imp inside) (by decide)

/--
The name of a word of storage is one of storage. Its position and its variable read back as they were written exactly if
the position is a number, or a term whose text has no dash in it and is no numeral.
-/
theorem storageWord_read_iff {position : Word} (loadable : Loadable position) (code : String) :
    let variableName := Text.strip ((Text.splitAt Memory.isOperator code).headD "")
    let name := Names.storageWord position variableName
    isStorage name = true ∧
      (storagePosition name = .ok (Key.ofWord position) ∧ storageVariable name = .ok variableName ↔ Legible position) := by
  intro variableName name
  refine ⟨(startsWith_storageWord position variableName).1, ?_⟩
  have plain : ('-' ∉ position.render.toList) → field 1 name = .ok position.render ∧ storageVariable name = .ok variableName := by
    intro plain
    rw [storageVariable, field, field, pieces_storageWord, Text.splitOnChar_append plain,
      Text.splitOnChar_of_not_mem (dash_not_mem_variable code), String.ofList_toList, String.ofList_toList]
    exact ⟨rfl, rfl⟩
  cases loadable with
  | number value =>
    have digits : (Word.integer value).render = String.ofList (Nat.toDigits 10 value) := rfl
    obtain ⟨located, named⟩ := plain (by
      rw [digits, String.toList_ofList]
      exact fun member => absurd (Numeral.isPlainDigit_of_mem_toDigits member) (by decide))
    rw [storagePosition_of_field located, digits, Numeral.read?_toDigits]
    simp [Key.ofWord, Word.concrete?, Legible, named]
  | term value =>
    by_cases dash : '-' ∈ value.text.toList
    · obtain ⟨front, rest, shape, outside⟩ := eq_append_cons_of_mem dash
      have located : field 1 name = .ok (String.ofList front) := by
        rw [field, pieces_storageWord, Word.render, shape, append_assoc, cons_append, Text.splitOnChar_append outside]
        rfl
      have shorter : String.ofList front ≠ value.text := by
        intro same
        have := congrArg String.toList same
        rw [shape, String.toList_ofList, self_eq_append_right] at this
        cases this
      rw [storagePosition_of_field located]
      refine iff_of_false (fun both => ?_) fun legible => legible.1 dash
      have read := Except.ok.inj both.1
      cases numeral : Numeral.read? 10 (String.ofList front) with
      | none => exact shorter (by simpa [numeral, Key.ofWord, Word.concrete?, Word.render] using read)
      | some number => simp [numeral, Key.ofWord, Word.concrete?] at read
    · obtain ⟨located, named⟩ := plain dash
      rw [storagePosition_of_field located, Legible, and_iff_left named, and_iff_right dash, Word.render]
      cases Numeral.read? 10 value.text <;> simp [Key.ofWord, Word.concrete?, Word.render]

def nested : Word :=
  .term (.binary .add (.literal 256 1) (.symbol "Ia_store-0-x" 256))

theorem storageWord_read_iff_nested :
    Loadable nested ∧ isStorage (Names.storageWord nested "y") = true ∧
      ¬ (storagePosition (Names.storageWord nested "y") = .ok (Key.ofWord nested) ∧
        storageVariable (Names.storageWord nested "y") = .ok "y") := by
  have loadable : Loadable nested := .term _
  obtain ⟨isOne, read⟩ := storageWord_read_iff loadable "y"
  have same : Text.strip ((Text.splitAt Memory.isOperator "y").headD "") = "y" := by decide +kernel
  rw [same] at isOne read
  refine ⟨loadable, isOne, fun both => (read.mp both).1 ?_⟩
  decide +kernel

/-- The names of storage are made of a position and a variable. -/
def Named (name : String) : Prop :=
  isStorage name = true → ∃ position variableName, name = Names.storageWord position variableName

theorem tells_of_named {storage : Table Key Word} {name : String} (named : Named name) :
    Tells positionInCondition (Table.keys storage) (keptBy storage) name ∧
      Tells positionInStorage (Table.keys storage) (fun _ => false) name := by
  unfold Tells positionInCondition positionInStorage keptBy
  cases stored : isStorage name with
  | false =>
    have other : Text.startsWith name "Ia_store_" = false := by
      rw [Bool.eq_false_iff]
      intro longer
      have shorter : "Ia_store".toList <+: name.toList :=
        (prefix_append _ ['_']).trans ((Text.startsWithChars_iff _ _).mp longer)
      rw [isStorage, Text.startsWith, (Text.startsWithChars_iff _ _).mpr shorter] at stored
      cases stored
    simp [other]
  | true =>
    obtain ⟨position, variableName, rfl⟩ := named stored
    have other := (startsWith_storageWord position variableName).2
    obtain ⟨text, others, pieces⟩ := exists_cons_of_ne_nil (Text.splitOnChar_ne_nil '-'
      (String.ofList (position.render.toList ++ '-' :: variableName.toList)))
    have located := @storagePosition_of_field (Names.storageWord position variableName) text
      (by rw [field, pieces_storageWord, pieces]; rfl)
    rw [other, located]
    exact ⟨⟨some _, rfl, by simp [Except.toOption]⟩, none, rfl, rfl⟩

/--
A path is renamed by one renaming exactly if no stored word has a symbol of storage that is kept, and in no word a symbol
is given the name of another one that is renamed after it.
-/
theorem renamePath_iff {conditions : List Word} {storage : Table Key Word}
    (wide : ∀ word ∈ conditions ++ Table.values storage, ∀ value, word = .term value → value.Wide)
    (named : ∀ word ∈ conditions ++ Table.values storage, ∀ name ∈ namesOf word, Named name) :
    let anew := onTerm (Term.renamed (target (keptBy storage)))
    ∃ result, renamePath conditions storage = .ok result ∧
      (result = (conditions.map anew, storage.map fun entry => (entry.1, anew entry.2)) ↔
        (∀ word ∈ conditions ++ Table.values storage, Unchained (keptBy storage) (namesOf word)) ∧
          ∀ word ∈ Table.values storage, ∀ name ∈ namesOf word, keptBy storage name = false) := by
  intro anew
  have inConditions : ∀ word ∈ conditions, ∀ name ∈ namesOf word,
      Tells positionInCondition (Table.keys storage) (keptBy storage) name :=
    fun word member name within => (tells_of_named (named word (mem_append_left _ member) name within)).1
  have inStorage : ∀ word ∈ Table.values storage, ∀ name ∈ namesOf word,
      Tells positionInStorage (Table.keys storage) (fun _ => false) name :=
    fun word member name within => (tells_of_named (named word (mem_append_right _ member) name within)).2
  obtain ⟨names, noted, first⟩ := renameWords_eq (by simp [Noted, Table.get?] : Noted (keptBy storage) []) inConditions
  obtain ⟨_, -, second⟩ := renameWords_eq (fun name new found => ⟨rfl, (noted name new found).2⟩ : Noted _ names) inStorage
  refine ⟨_, by simp only [renamePath, first, second, bind, Except.bind]; rfl, ?_⟩
  rw [Prod.mk.injEq, map_inj_left, Table.keys, Table.values, map_map, zip_map', map_inj_left, forall_mem_append,
    forall_mem_map, forall_mem_map]
  have condition : ∀ word ∈ conditions, onTerm (inTurn (keptBy storage)) word = anew word ↔
      Unchained (keptBy storage) (namesOf word) := by
    intro word member
    rw [onTerm_inTurn_iff (wide word (mem_append_left _ member))]
    exact and_iff_right fun _ _ => rfl
  have stored : ∀ entry ∈ storage, onTerm (inTurn fun _ => false) entry.2 = anew entry.2 ↔
      (∀ name ∈ namesOf entry.2, false = keptBy storage name) ∧ Unchained (keptBy storage) (namesOf entry.2) :=
    fun entry member => onTerm_inTurn_iff (wide entry.2 (mem_append_right _ (mem_map_of_mem member)))
  simp only [Function.comp_apply, Prod.mk.injEq, true_and, forall₂_congr condition, forall₂_congr stored]
  simp only [forall_and, eq_comm]
  tauto

def lent : Term :=
  .symbol "Ia_store-0-x" 256

theorem renamePath_iff_lent :
    let conditions := [Word.term (.binary .ne lent (.literal 256 0))]
    let storage : Table Key Word := [(.number 1, .term lent)]
    let anew := onTerm (Term.renamed (target (keptBy storage)))
    (∀ word ∈ conditions ++ Table.values storage, ∀ value, word = .term value → value.Wide) ∧
      (∀ word ∈ conditions ++ Table.values storage, ∀ name ∈ namesOf word, Named name) ∧
      ∃ result, renamePath conditions storage = .ok result ∧
        result ≠ (conditions.map anew, storage.map fun entry => (entry.1, anew entry.2)) := by
  intro conditions storage anew
  have wide : ∀ word ∈ conditions ++ Table.values storage, ∀ value, word = .term value → value.Wide := by
    refine forall_mem_cons.mpr ⟨?_, forall_mem_singleton.mpr ?_⟩
    · rintro _ ⟨rfl⟩
      exact forall_mem_singleton.mpr rfl
    · rintro _ ⟨rfl⟩
      exact forall_mem_singleton.mpr rfl
  have named : ∀ word ∈ conditions ++ Table.values storage, ∀ name ∈ namesOf word, Named name := by
    have one : Named "Ia_store-0-x" := fun _ => ⟨.integer 0, "x", rfl⟩
    exact forall_mem_cons.mpr ⟨forall_mem_singleton.mpr one, forall_mem_singleton.mpr (forall_mem_singleton.mpr one)⟩
  obtain ⟨result, runs, same⟩ := renamePath_iff wide named
  refine ⟨wide, named, result, runs, fun equal => ?_⟩
  exact absurd ((same.mp equal).2 _ (mem_singleton_self _) _ (mem_singleton_self _)) (by decide +kernel)

end Renaming

end MintAudit
