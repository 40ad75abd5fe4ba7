import MintAudit.Term.Simplify

namespace MintAudit

/-!
# Sample assignments

Fixed assignments under which terms are compared by value.
-/

attribute [local instance (high)] instPowNat

namespace Sample

def factor : Nat := 2 ^ (168 : Nat) + 355

def bound : Nat := 2 ^ (256 : Nat)

def absorb (state byte : Nat) : Nat := ((state ^^^ byte) * factor) % bound

def mix (state : Nat) : Nat := absorb state (state >>> 97)

def assignment (number : Nat) : Assignment := fun name width =>
  if number = 0 then 0
  else mix (mix (mix (name.toUTF8.foldl (fun state byte => absorb state byte.toNat) number))) % 2 ^ width

def all : List Assignment := [0, 1, 2].map assignment

end Sample

end MintAudit
