import MintAudit.Proofs.Machine.OrderlyStep
import MintAudit.Proofs.Machine.Underway

namespace MintAudit

/-!
# What instructions take from the stack

The opcode table says how many words each instruction takes from the stack and how many it puts there.
-/

open Std.Do

set_option mvcgen.warning false

open Exec

abbrev Exec.Keeps (count : Nat) (act : Exec α) : Prop :=
  ⦃fun machine => ⌜depth machine = count⌝⦄ act ⦃post⟨fun _ after => ⌜depth after = count⌝, fun _ _ => ⌜True⌝⟩⦄

abbrev Exec.Shifts (count removed added : Nat) (act : Exec α) : Prop :=
  ⦃fun machine => ⌜depth machine = count⌝⦄ act
  ⦃post⟨fun _ after => ⌜removed ≤ count ∧ depth after + removed = count + added⌝, fun _ _ => ⌜True⌝⟩⦄

variable {count : Nat} (decider : Decider)

@[local spec] theorem Exec.modifyPath_still (change : Path → Path) :
    ⦃fun machine => ⌜(change machine.path).stack.length = count⌝⦄ modifyPath change
    ⦃post⟨fun _ after => ⌜depth after = count⌝, fun _ _ => ⌜True⌝⟩⦄ := by
  mvcgen [modifyPath]

section Calls

variable [Journey]

@[local spec] theorem Calls.noteCall_still : Keeps count noteCall := by
  mvcgen [noteCall] with grind

@[local spec] theorem Calls.assumeOnPath_still (flag : Flag) : Keeps count (assumeOnPath flag) := by
  mvcgen [assumeOnPath] with grind

omit [Journey] in
@[local spec] theorem Calls.balanceOf_still (account : String) : Keeps count (balanceOf account) := by
  mvcgen [balanceOf] with grind

omit [Journey] in
@[local spec] theorem Calls.setBalance_still (account : String) (word : Word) :
    Keeps count (setBalance account word) := by
  mvcgen [setBalance]

@[local spec] theorem Calls.possible_still (flag : Flag) : Keeps count (possible decider flag) := by
  mvcgen [possible] with grind

@[local spec] theorem Calls.giveTo_still (recipient amount : Word) : Keeps count (giveTo recipient amount) := by
  mvcgen [giveTo, accountOf, unknownBalance] with grind

@[local spec] theorem Calls.transfer_still (recipient amount contractBalance : Word) :
    Keeps count (transfer decider recipient amount contractBalance) := by
  mvcgen [transfer] with grind

@[local spec] theorem Calls.call_shifts (move : Bool) : Shifts count 7 1 (call decider move) := by
  mvcgen [call, assumeIfPossible] with grind

@[local spec] theorem Calls.selfDestruct_shifts : Shifts count 1 0 selfDestruct := by
  mvcgen [selfDestruct] with grind

end Calls

namespace Instruction

def Moves (removed added : Nat) : Instruction → Prop
  | .plain opcode => opcode.effect = (removed, added)
  | .failing => removed = 0 ∧ added = 0
  | .push _ _ => removed = 0 ∧ added = 1
  | .duplicate depth => depth = some (removed : Int) ∧ 0 < removed ∧ added = removed + 1
  | .swap depth => depth = some ((removed : Int) - 1) ∧ 1 < removed ∧ added = removed
  | .log topics => removed = 2 + topics ∧ added = 0
  | .unknown _ => True

instance (removed added : Nat) : DecidablePred (Moves removed added)
  | .plain opcode => inferInstanceAs (Decidable (opcode.effect = (removed, added)))
  | .failing | .push _ _ | .log _ => inferInstanceAs (Decidable (_ ∧ _))
  | .duplicate _ | .swap _ => inferInstanceAs (Decidable (_ ∧ _ ∧ _))
  | .unknown _ => isTrue trivial

variable {removed added : Nat}

theorem Moves.effect {instruction : Instruction} (moves : instruction.Moves removed added) :
    (∃ name, instruction = .unknown name) ∨ instruction.effect = (removed, added) := by
  cases instruction with
  | unknown name => exact .inl ⟨name, rfl⟩
  | _ => grind [Moves, Instruction.effect]

theorem moves_congr {line other : String} (sameName : nameOf line = nameOf other)
    (moves : (ofLine other).Moves removed added) :
    (ofLine line).Moves removed added := by
  unfold ofLine at moves ⊢
  rw [sameName]
  grind [Moves]

end Instruction

namespace Opcode

open Instruction

theorem exists_index_of_member? {start name : String} {size : Nat} {shapeAt : Nat → Shape} {shape : Shape}
    (found : member? start size shapeAt name = some shape) :
    ∃ index < size, name = start ++ toString (index + 1) ∧ shape = shapeAt index := by
  obtain ⟨index, isIndex, atIndex⟩ := List.exists_of_findSome?_eq_some found
  split at atIndex
  case isTrue isMember => exact ⟨index, List.mem_range.1 isIndex, isMember, (Option.some.inj atIndex).symm⟩
  case isFalse => cases atIndex

theorem moves_of_listed :
    ∀ entry ∈ listed, entry.1 ≠ "SELFBALANCE" →
      nameOf entry.1 = entry.1 ∧ (ofLine entry.1).Moves entry.2.2.1 entry.2.2.2 := by
  decide +kernel

theorem moves_of_push :
    ∀ index < 32, nameOf ("PUSH" ++ toString (index + 1)) = "PUSH" ++ toString (index + 1) ∧
      (ofLine ("PUSH" ++ toString (index + 1))).Moves 0 1 := by
  decide +kernel

theorem moves_of_duplicate :
    ∀ index < 16, nameOf ("DUP" ++ toString (index + 1)) = "DUP" ++ toString (index + 1) ∧
      (ofLine ("DUP" ++ toString (index + 1))).Moves (index + 1) (index + 2) := by
  decide +kernel

theorem moves_of_swap :
    ∀ index < 16, nameOf ("SWAP" ++ toString (index + 1)) = "SWAP" ++ toString (index + 1) ∧
      (ofLine ("SWAP" ++ toString (index + 1))).Moves (index + 2) (index + 2) := by
  decide +kernel

theorem moves_of_known {name : String} {shape : Shape} (known : Opcode.shape name = .ok shape)
    (other : name ≠ "SELFBALANCE") :
    nameOf name = name ∧ (ofLine name).Moves shape.removed shape.added := by
  unfold Opcode.shape at known
  split at known
  case h_1 code removed added entry =>
    cases known
    exact moves_of_listed (name, code, removed, added) (Table.mem_of_get? entry) other
  case h_2 =>
    dsimp only at known
    split at known
    case h_1 found =>
      cases known
      obtain ⟨member, isFamily, isMember⟩ := List.exists_of_findSome?_eq_some found
      rcases List.mem_cons.1 isFamily with rfl | isFamily
      · obtain ⟨index, bound, rfl, rfl⟩ := exists_index_of_member? isMember
        exact moves_of_push index bound
      · rcases List.mem_cons.1 isFamily with rfl | isFamily
        · obtain ⟨index, bound, rfl, rfl⟩ := exists_index_of_member? isMember
          exact moves_of_duplicate index bound
        · obtain rfl := List.mem_singleton.1 isFamily
          obtain ⟨index, bound, rfl, rfl⟩ := exists_index_of_member? isMember
          exact moves_of_swap index bound
    case h_2 => cases known

theorem moves_of_shape {line : String} {shape : Shape} (known : Opcode.shape (nameOf line) = .ok shape)
    (other : nameOf line ≠ "SELFBALANCE") :
    (ofLine line).Moves shape.removed shape.added := by
  obtain ⟨sameName, moves⟩ := moves_of_known known other
  have ofName : nameOf line = nameOf (nameOf line) := sameName.symm
  exact moves_congr ofName moves

def growth (name : String) : Int :=
  match shape name with
  | .ok shape => shape.added - shape.removed
  | .error _ => 0

end Opcode

namespace Machine

variable {decider} {block : Int} {function line : String} {before after : Machine}

theorem length_of_execute {instruction : Instruction} {removed added : Nat} (moves : instruction.Moves removed added)
    (runs : execute decider block function instruction before = .ok () after) :
    removed ≤ depth before ∧ depth after + removed = depth before + added := by
  -- Nothing is restricted or watched here: only the stack is asked for.
  let _ : Journey := ⟨.unrestricted fun _ _ => (), before, before.session.scopes⟩
  by_cases value : instruction.MovesValue
  · rcases value with rfl | rfl | rfl <;> cases moves
    · exact of_triple (Calls.call_shifts decider true) rfl runs
    · exact of_triple (Calls.call_shifts decider false) rfl runs
    · exact of_triple Calls.selfDestruct_shifts rfl runs
  · rcases moves.effect with ⟨name, rfl⟩ | effect
    · exact (of_triple (Control.unknown_strides 0 name) rfl runs).1
    · have blind (part : Holdings.Part) : Holdings.Blind (fun _ _ => ()) part := by
        cases part <;> simp [Holdings.Blind]
      have strides := @execute_strides _ before decider block function _ value fun part _ => blind part
      rw [effect] at strides
      exact (of_triple strides rfl runs).1

theorem length_of_step {shape : Opcode.Shape} (known : Opcode.shape (Instruction.nameOf line) = .ok shape)
    (other : Instruction.nameOf line ≠ "SELFBALANCE") (runs : step decider block function line before = .ok () after) :
    shape.removed ≤ before.path.stack.length ∧
      after.path.stack.length + shape.removed = before.path.stack.length + shape.added := by
  obtain ⟨between, samePath, executes⟩ := execute_of_step runs
  rw [← samePath]
  exact length_of_execute (Opcode.moves_of_shape known other) executes

theorem length_of_forM_step {lines : List String}
    (known : ∀ line ∈ lines, Instruction.nameOf line ≠ "SELFBALANCE" ∧
      ∃ shape, Opcode.shape (Instruction.nameOf line) = .ok shape)
    (runs : lines.forM (step decider block function) before = .ok () after) :
    (after.path.stack.length : Int) =
      before.path.stack.length + (lines.map fun line => Opcode.growth (Instruction.nameOf line)).sum := by
  induction lines generalizing before with
  | nil =>
    cases runs
    simp
  | cons line rest ih =>
    obtain ⟨⟨other, shape, isShape⟩, knownRest⟩ := List.forall_mem_cons.1 known
    obtain ⟨_, between, steps, onward⟩ := Effect.of_bind_ok runs
    have grown := length_of_step isShape other steps
    have growth : Opcode.growth (Instruction.nameOf line) = shape.added - shape.removed := by
      unfold Opcode.growth
      rw [isShape]
    rw [List.map_cons, List.sum_cons, growth, ih knownRest onward]
    omega

/-- Every instruction of the table but one moves what the table says: a stack that is too short makes it stop, and
where it returns the stack has changed by as much as the table has it. So does the stack of a list of such lines. -/
theorem step_moves_as_listed (decider : Decider) (block : Int) (function : String) :
    (∀ (line : String) (shape : Opcode.Shape) (machine : Machine), Opcode.shape (Instruction.nameOf line) = .ok shape →
      Instruction.nameOf line ≠ "SELFBALANCE" →
      (machine.path.stack.length < shape.removed →
        ∃ fault after, step decider block function line machine = .error fault after) ∧
      ∀ after, step decider block function line machine = .ok () after →
        shape.removed ≤ machine.path.stack.length ∧
          after.path.stack.length + shape.removed = machine.path.stack.length + shape.added) ∧
    ∀ (lines : List String) (machine after : Machine),
      (∀ line ∈ lines, Instruction.nameOf line ≠ "SELFBALANCE" ∧
        ∃ shape, Opcode.shape (Instruction.nameOf line) = .ok shape) →
      lines.forM (step decider block function) machine = .ok () after →
      (after.path.stack.length : Int) =
        machine.path.stack.length + (lines.map fun line => Opcode.growth (Instruction.nameOf line)).sum := by
  constructor
  · intro line shape machine known other
    constructor
    · intro short
      cases outcome : step decider block function line machine with
      | ok _ after =>
        have enough := (length_of_step known other outcome).1
        omega
      | error fault after => exact ⟨fault, after, rfl⟩
    · intro after runs
      exact length_of_step known other runs
  · intro lines machine after known runs
    exact length_of_forM_step known runs

def popLines : List String := ["PUSH1 0x02", "PUSH1 0x03", "POP"]

def popping : Machine where
  session :=
    { graph :=
        { instructions := [0, 2, 4].zip popLines
          blocks := [(0, { start := 0, stop := 4, lines := popLines })] }
      source := some {}
      clockStarted := true }
  path := Path.initial

/-- From an empty stack nothing is taken, and from two words one. -/
theorem step_moves_as_listed_pop :
    (∃ fault after, step (fun _ => .satisfiable) 0 "" "POP" popping = .error fault after) ∧
      ∃ after, popLines.forM (step (fun _ => .satisfiable) 0 "") popping = .ok () after ∧
        (after.path.stack.length : Int) = 1 := by
  obtain ⟨one, run⟩ := step_moves_as_listed (fun _ => .satisfiable) 0 ""
  refine ⟨(one "POP" ⟨80, 1, 0, false⟩ popping (by decide +kernel) (by decide +kernel)).1 (by decide), ?_⟩
  obtain ⟨_, after, runs, _⟩ := Effect.exists_of_seen (show
    Effect.seen (fun _ _ => ()) (popLines.forM (step (fun _ => .satisfiable) 0 "") popping) = some () by decide +kernel)
  have known : ∀ line ∈ popLines, Instruction.nameOf line ≠ "SELFBALANCE" ∧
      (Opcode.shape (Instruction.nameOf line)).toOption.isSome = true := by
    decide +kernel
  refine ⟨after, runs, (run popLines popping after (fun line member => ?_) runs).trans (by decide +kernel)⟩
  obtain ⟨other, listed⟩ := known line member
  cases shape : Opcode.shape (Instruction.nameOf line) with
  | ok found => exact ⟨other, found, rfl⟩
  | error fault =>
    rw [shape] at listed
    cases listed

end Machine

end MintAudit
