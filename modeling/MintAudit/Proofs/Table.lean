import Mathlib
import MintAudit.Table

namespace MintAudit

/-!
# Tables and computations with effects

Which values a table holds after a change, and what becomes of the value of a key when the values are changed.
-/

/-! ## Computations with effects -/

namespace Effect

variable {ε σ τ α β γ ι : Type}

def outcome : EStateM.Result ε σ α → Except ε α
  | .ok value _ => .ok value
  | .error fault _ => .error fault

def left : EStateM.Result ε σ α → σ
  | .ok _ after => after
  | .error _ after => after

/-- What a view shows of a computation that returns. -/
def seen (view : α → σ → γ) : EStateM.Result ε σ α → Option γ
  | .ok value after => some (view value after)
  | .error _ _ => none

theorem exists_of_seen {view : α → σ → γ} {result : EStateM.Result ε σ α} {expected : γ}
    (shows : seen view result = some expected) :
    ∃ value after, result = .ok value after ∧ view value after = expected := by
  cases result with
  | ok value after => exact ⟨value, after, rfl, Option.some.inj shows⟩
  | error fault after => cases shows

theorem bind_apply (act : EStateM ε σ α) (next : α → EStateM ε σ β) (before : σ) :
    (act >>= next) before =
      match act before with
      | .ok value after => next value after
      | .error fault after => .error fault after := by
  change EStateM.bind act next before = _
  unfold EStateM.bind
  cases act before <;> rfl

theorem get_bind_apply (next : σ → EStateM ε σ β) (before : σ) : (get >>= next) before = next before before := rfl

theorem of_bind_ok {act : EStateM ε σ α} {next : α → EStateM ε σ β} {before after : σ} {value : β}
    (run : (act >>= next) before = .ok value after) :
    ∃ found between, act before = .ok found between ∧ next found between = .ok value after := by
  rw [bind_apply] at run
  cases ran : act before with
  | ok found between =>
    rw [ran] at run
    exact ⟨found, between, rfl, run⟩
  | error fault between =>
    rw [ran] at run
    cases run

theorem of_except_bind_ok {result : Except ε α} {next : α → Except ε β} {value : β}
    (run : (result >>= next) = .ok value) :
    ∃ found, result = .ok found ∧ next found = .ok value := by
  cases result with
  | ok found => exact ⟨found, rfl, run⟩
  | error fault => cases run

theorem forall₂_of_mapM {α β ε : Type} {read : α → Except ε β} {items : List α} {values : List β}
    (reads : items.mapM read = .ok values) : List.Forall₂ (fun item value => read item = .ok value) items values := by
  induction items generalizing values with
  | nil =>
    cases reads
    exact .nil
  | cons item rest ih =>
    rw [List.mapM_cons] at reads
    obtain ⟨value, found, reads⟩ := of_except_bind_ok reads
    obtain ⟨others, remaining, reads⟩ := of_except_bind_ok reads
    cases reads
    exact .cons found (ih remaining)

theorem mapM_of_forall {α β ε : Type} {read : α → Except ε β} {view : α → β} {items : List α}
    (reads : ∀ item ∈ items, read item = .ok (view item)) : items.mapM read = .ok (items.map view) := by
  induction items with
  | nil => rfl
  | cons item rest ih =>
    obtain ⟨here, later⟩ := List.forall_mem_cons.mp reads
    rw [List.mapM_cons, here, ih later]
    rfl

structure Yields (holds : α → Prop) (act : EStateM ε σ α) : Prop where
  of_ok : ∀ {before value after}, act before = .ok value after → holds value

theorem Yields.pure {holds : α → Prop} {value : α} (fact : holds value) : Yields holds (pure value : EStateM ε σ α) :=
  ⟨fun run => by cases run; exact fact⟩

theorem Yields.throw {holds : α → Prop} (fault : ε) : Yields holds (throw fault : EStateM ε σ α) :=
  ⟨fun run => by cases run⟩

theorem Yields.bind {holds : β → Prop} {act : EStateM ε σ α} {next : α → EStateM ε σ β}
    (second : ∀ value, Yields holds (next value)) :
    Yields holds (act >>= next) := by
  refine ⟨fun run => ?_⟩
  obtain ⟨found, _, -, ends⟩ := of_bind_ok run
  exact (second found).of_ok ends

structure Preserves (view : σ → τ) (act : EStateM ε σ α) : Prop where
  same : ∀ before, view (left (act before)) = view before

namespace Preserves

variable {view : σ → τ}

theorem of_ok {act : EStateM ε σ α} (preserves : Preserves view act) {before after : σ} {value : α}
    (run : act before = .ok value after) :
    view after = view before := by
  have same := preserves.same before
  rw [run] at same
  exact same

theorem pure (value : α) : Preserves view (pure value : EStateM ε σ α) :=
  ⟨fun _ => rfl⟩

theorem throw (fault : ε) : Preserves view (throw fault : EStateM ε σ α) :=
  ⟨fun _ => rfl⟩

theorem throw_bind (fault : ε) (next : α → EStateM ε σ β) :
    Preserves view ((throwThe ε fault : EStateM ε σ α) >>= next) :=
  ⟨fun _ => rfl⟩

theorem get : Preserves view (get : EStateM ε σ σ) :=
  ⟨fun _ => rfl⟩

theorem modify {change : σ → σ} (same : ∀ before, view (change before) = view before) :
    Preserves view (modify change : EStateM ε σ PUnit) :=
  ⟨same⟩

theorem bind {act : EStateM ε σ α} {next : α → EStateM ε σ β} (first : Preserves view act)
    (second : ∀ value, Preserves view (next value)) :
    Preserves view (act >>= next) := by
  refine ⟨fun before => ?_⟩
  have same := first.same before
  rw [bind_apply]
  cases run : act before with
  | ok value between =>
    rw [run] at same
    exact ((second value).same between).trans same
  | error fault between =>
    rw [run] at same
    exact same

theorem ite {condition : Prop} [Decidable condition] {act other : EStateM ε σ α} (first : Preserves view act)
    (second : Preserves view other) :
    Preserves view (if condition then act else other) := by
  split
  · exact first
  · exact second

theorem forM {act : ι → EStateM ε σ PUnit} (each : ∀ item, Preserves view (act item)) (items : List ι) :
    Preserves view (items.forM act) := by
  induction items with
  | nil => exact .pure _
  | cons item rest ih =>
    change Preserves view (act item >>= fun _ => rest.forM act)
    exact (each item).bind fun _ => ih

end Preserves

end Effect

/-! ## Entries of tables -/

open List

namespace Table

variable {κ ν μ : Type} [BEq κ]

variable {table : Table κ ν} {holds : ν → Prop} {change : ν → ν}

theorem exists_mem_of_get? {key : κ} {value : ν} (found : get? key table = some value) :
    ∃ entry ∈ table, entry.2 = value := by
  induction table with
  | nil => cases found
  | cons entry rest ih =>
    obtain ⟨present, old⟩ := entry
    rw [get?] at found
    split at found
    · exact ⟨(present, old), by simp, Option.some.inj found⟩
    · obtain ⟨entry, member, same⟩ := ih found
      exact ⟨entry, mem_cons_of_mem _ member, same⟩

theorem forall_put (key : κ) {value : ν} (valueHolds : holds value) (all : ∀ entry ∈ table, holds entry.2) :
    ∀ entry ∈ put key value table, holds entry.2 := by
  induction table with
  | nil => simpa [put] using valueHolds
  | cons entry rest ih =>
    obtain ⟨present, old⟩ := entry
    obtain ⟨oldHolds, restHolds⟩ := forall_mem_cons.mp all
    rw [put]
    split
    · exact forall_mem_cons.mpr ⟨valueHolds, restHolds⟩
    · exact forall_mem_cons.mpr ⟨oldHolds, ih restHolds⟩

theorem forall_adjust (key : κ) (keeps : ∀ value, holds value → holds (change value))
    (all : ∀ entry ∈ table, holds entry.2) :
    ∀ entry ∈ adjust key change table, holds entry.2 := by
  intro entry member
  obtain ⟨original, originalMember, rfl⟩ := mem_map.mp member
  split
  · exact keeps _ (all original originalMember)
  · exact all original originalMember

theorem get?_map (key : κ) (view : ν → μ) (table : Table κ ν) :
    get? key (table.map fun entry => (entry.1, view entry.2)) = (get? key table).map view := by
  induction table with
  | nil => rfl
  | cons entry rest ih =>
    obtain ⟨present, old⟩ := entry
    simp only [map_cons, get?]
    split
    · rfl
    · exact ih

theorem get?_mapKeyed [LawfulBEq κ] (key : κ) (view : κ → ν → μ) (table : Table κ ν) :
    get? key (table.map fun entry => (entry.1, view entry.1 entry.2)) = (get? key table).map (view key) := by
  induction table with
  | nil => rfl
  | cons entry rest ih =>
    obtain ⟨present, old⟩ := entry
    by_cases same : present = key
    · simp [get?, same]
    · simp only [map_cons, get?, beq_iff_eq, same, if_false]
      exact ih

theorem map_adjust (key : κ) {view : ν → μ} (unseen : ∀ value, view (change value) = view value) (table : Table κ ν) :
    (adjust key change table).map (fun entry => (entry.1, view entry.2)) =
      table.map fun entry => (entry.1, view entry.2) := by
  rw [adjust, map_map]
  refine map_congr_left fun entry _ => ?_
  simp only [Function.comp_apply]
  split
  · rw [unseen]
  · rfl

section Renamed

variable [BEq μ]

theorem get?_mapKeys {rename : κ → μ} (keeps : ∀ first second, (rename first == rename second) = (first == second))
    (key : κ) (table : Table κ ν) :
    get? (rename key) (table.map fun entry => (rename entry.1, entry.2)) = get? key table := by
  induction table with
  | nil => rfl
  | cons entry rest ih => simp only [map_cons, get?, keeps, ih]

theorem put_mapKeys {rename : κ → μ} (keeps : ∀ first second, (rename first == rename second) = (first == second))
    (key : κ) (value : ν) (table : Table κ ν) :
    put (rename key) value (table.map fun entry => (rename entry.1, entry.2)) =
      (put key value table).map fun entry => (rename entry.1, entry.2) := by
  induction table with
  | nil => rfl
  | cons entry rest ih =>
    simp only [map_cons, put, keeps, ih]
    split <;> rfl

end Renamed

section Keys

variable [LawfulBEq κ]

theorem has_iff_mem_keys (key : κ) (table : Table κ ν) : has key table = true ↔ key ∈ keys table := by
  induction table with
  | nil => simp [has, get?, keys]
  | cons entry rest ih =>
    obtain ⟨present, old⟩ := entry
    by_cases same : present = key
    · simp [has, get?, keys, same]
    · simpa [has, get?, keys, same, Ne.symm same] using ih

variable {table : Table κ ν} {key : κ}

variable {value : ν} {entries table : Table κ ν}

theorem mem_of_get? (found : get? key table = some value) : (key, value) ∈ table := by
  induction table with
  | nil => cases found
  | cons entry rest ih =>
    obtain ⟨present, old⟩ := entry
    rw [get?] at found
    split at found
    · next same =>
      cases found
      rw [eq_of_beq same]
      exact mem_cons_self
    · exact mem_cons_of_mem _ (ih found)

theorem get?_eq_none_iff (key : κ) (table : Table κ ν) : get? key table = none ↔ key ∉ keys table := by
  rw [← has_iff_mem_keys, has, Option.not_isSome_iff_eq_none]

theorem put_append {front : Table κ ν} (new : key ∉ keys front) (value : ν) (back : Table κ ν) :
    put key value (front ++ back) = front ++ put key value back := by
  induction front with
  | nil => rfl
  | cons entry rest ih =>
    obtain ⟨present, old⟩ := entry
    obtain ⟨different, remaining⟩ : key ≠ present ∧ key ∉ keys rest := by simpa [keys] using new
    simp [put, different.symm, ih remaining]

theorem put_of_not_mem (new : key ∉ keys table) (value : ν) : put key value table = table ++ [(key, value)] := by
  simpa [put] using put_append new value []

theorem keys_put_of_mem (present : key ∈ keys table) (value : ν) : keys (put key value table) = keys table := by
  induction table with
  | nil => cases present
  | cons entry rest ih =>
    obtain ⟨found, old⟩ := entry
    by_cases same : found = key
    · simp [put, keys, same]
    · have remaining : key ∈ keys rest := by simpa [keys, Ne.symm same] using present
      have onward := ih remaining
      simp only [keys] at onward
      simp [put, keys, same, onward]

theorem nodup_keys_put (distinct : (keys table).Nodup) (key : κ) (value : ν) : (keys (put key value table)).Nodup := by
  by_cases present : key ∈ keys table
  · rwa [keys_put_of_mem present]
  · have longer := List.Nodup.concat present distinct
    rw [concat_eq_append] at longer
    rw [put_of_not_mem present, keys, map_append]
    exact longer

theorem get?_append (key : κ) (front back : Table κ ν) :
    get? key (front ++ back) = (get? key front).or (get? key back) := by
  induction front with
  | nil => rfl
  | cons entry rest ih =>
    obtain ⟨present, old⟩ := entry
    by_cases same : present = key
    · simp [get?, same]
    · simp [get?, same, ih]

theorem get?_of_mem (distinct : (keys table).Nodup) (present : (key, value) ∈ table) : get? key table = some value := by
  induction table with
  | nil => cases present
  | cons entry rest ih =>
    obtain ⟨first, old⟩ := entry
    obtain ⟨new, restDistinct⟩ := nodup_cons.mp distinct
    rcases mem_cons.mp present with same | later
    · cases same
      simp [get?]
    · have different : first ≠ key := by
        rintro rfl
        exact new (mem_map.mpr ⟨_, later, rfl⟩)
      simpa [get?, different] using ih restDistinct later

theorem put_of_get? (found : get? key table = some value) : put key value table = table := by
  induction table with
  | nil => cases found
  | cons entry rest ih =>
    obtain ⟨present, old⟩ := entry
    by_cases same : present = key
    · simp_all [get?, put]
    · simp_all [get?, put]

theorem putAll_of_get? (held : ∀ entry ∈ entries, get? entry.1 table = some entry.2) :
    entries.foldl (fun table entry => put entry.1 entry.2 table) table = table := by
  induction entries with
  | nil => rfl
  | cons entry rest ih =>
    obtain ⟨here, later⟩ := forall_mem_cons.mp held
    rw [foldl_cons, put_of_get? here]
    exact ih later

theorem putAll_of_new (distinct : (keys (table ++ entries)).Nodup) :
    entries.foldl (fun table entry => put entry.1 entry.2 table) table = table ++ entries := by
  induction entries generalizing table with
  | nil => simp
  | cons entry rest ih =>
    have joined : table ++ entry :: rest = (table ++ [entry]) ++ rest := by simp
    have new : entry.1 ∉ keys table := by
      rw [keys, map_append] at distinct
      intro present
      exact disjoint_of_nodup_append distinct present (by simp)
    rw [joined] at distinct ⊢
    rw [foldl_cons, put_of_not_mem new]
    exact ih distinct

end Keys

end Table

end MintAudit
