namespace MintAudit

/-!
# Faults

Why a computation stopped.
-/

inductive Fault where
  | stackUnderflow
  | targetNotInteger
  | unknownInstruction (name : String)
  | unknownJumpKind
  | badOpcode (name : String)
  | listingMismatch
  | listingNameMismatch (recorded found : String)
  | missingSetting (name : String)
  | unknownInputKind (noun : String)
  | targetsNotFound
  | noVersionDirective
  | undecided
  | illSorted
  | wrongKind
  | wrongValue
  | missingKey
  | outOfRange
  | overflow
  | divisionByZero
  | outOfMemory
  | unencodable
  | missingMember
  | unsetName
  | unsetLocal
  | notATerm
  | missingFile
  | existingFile
  | isDirectory
  | notDirectory
  | malformedJson
  | malformedPattern
  | badIndentation
  | unfinishedTokens
  | toolFailed
  | sourceRejected
  | timeLimit
  | leave (code : Option Int)
  deriving DecidableEq, Repr, Inhabited

def Fault.message : Fault → Option String
  | stackUnderflow => some "STACK underflow"
  | targetNotInteger => some "Target address must be an integer"
  | unknownInstruction name => some ("UNKNOWN INSTRUCTION: " ++ name)
  | unknownJumpKind => some "Unknown Jump-Type"
  | badOpcode name => some ("Bad Opcode" ++ name)
  | listingMismatch => some "Source map error"
  | listingNameMismatch recorded found =>
    some ("Source map error, unknown name(" ++ recorded ++ ") or instr_name(" ++ found ++ ")")
  | missingSetting name => some ("'" ++ name ++ "' attribute can't be None")
  | unknownInputKind noun => some ("There is no such type of " ++ noun)
  | targetsNotFound => some "Targeted contracts weren't found in the source code!"
  | noVersionDirective => some "Solidity version directive not found in the code."
  | _ => none

end MintAudit
