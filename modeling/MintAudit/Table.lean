namespace MintAudit

/-!
# Tables and lists

A table is a list of keys with their values, each key once, in the order in which the keys were first put in.
-/

/-! ## Positions in lists -/

namespace Sequence

def index? (length : Nat) (position : Int) : Option Nat :=
  let fromFront := if position < 0 then position + length else position
  if 0 ≤ fromFront ∧ fromFront < length then some fromFront.toNat else none

def at? (members : List α) (position : Int) : Option α :=
  (index? members.length position).bind fun index => members[index]?

def clamp (length : Nat) (position : Int) : Nat :=
  let fromFront := if position < 0 then position + length else position
  (max 0 (min fromFront length)).toNat

def slice (members : List α) (first last : Int) : List α :=
  (members.take (clamp members.length last)).drop (clamp members.length first)

def sliceArray (members : Array α) (first last : Int) : Array α :=
  members.extract (clamp members.size first) (clamp members.size last)

end Sequence

/-! ## Tables -/

/-- Keys with their values in order of first insertion. -/
abbrev Table (κ ν : Type) := List (κ × ν)

namespace Table

variable {κ ν : Type} [BEq κ]

def get? (key : κ) : Table κ ν → Option ν
  | [] => none
  | (present, value) :: rest => if present == key then some value else get? key rest

def has (key : κ) (table : Table κ ν) : Bool :=
  (get? key table).isSome

def put (key : κ) (value : ν) : Table κ ν → Table κ ν
  | [] => [(key, value)]
  | (present, old) :: rest => if present == key then (present, value) :: rest else (present, old) :: put key value rest

def keys (table : Table κ ν) : List κ :=
  table.map Prod.fst

def values (table : Table κ ν) : List ν :=
  table.map Prod.snd

def adjust (key : κ) (change : ν → ν) (table : Table κ ν) : Table κ ν :=
  table.map fun entry => if entry.1 == key then (entry.1, change entry.2) else entry

def ofEntries (entries : List (κ × ν)) : Table κ ν :=
  entries.foldl (fun table entry => put entry.1 entry.2 table) []

theorem get?_put_self [LawfulBEq κ] (key : κ) (value : ν) (table : Table κ ν) :
    get? key (put key value table) = some value := by
  induction table with
  | nil => simp [put, get?]
  | cons entry rest ih =>
    obtain ⟨present, old⟩ := entry
    by_cases same : present == key
    · simp [put, get?, same]
    · simp [put, get?, same, ih]

theorem get?_put_of_ne [LawfulBEq κ] {key other : κ} (different : other ≠ key) (value : ν) (table : Table κ ν) :
    get? other (put key value table) = get? other table := by
  induction table with
  | nil =>
    have : (key == other) = false := by simpa using different.symm
    simp [put, get?, this]
  | cons entry rest ih =>
    obtain ⟨present, old⟩ := entry
    by_cases same : present == key
    · have equal : present = key := by simpa using same
      subst equal
      have : (present == other) = false := by simpa using different.symm
      simp [put, get?, this]
    · simp [put, get?, same, ih]

end Table

end MintAudit
