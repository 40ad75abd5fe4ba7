import MintAudit.Audit.Basic
import MintAudit.Solver.Decide
import MintAudit.Workspace.Written

namespace MintAudit

/-!
# Command line

The options are those of an audit.
-/

namespace CommandLine

def deciderVersion : String := "4.8.15"

def outcome (arguments : List String) (description : String) : List String × UInt32 :=
  let workspace := ((Json.read? description).map Workspace.ofJson).getD {}
  let start : Audit := { project := { workspace := workspace } }
  let lines (audit : Audit) : List String := audit.runs.map fun run => (Json.object run.report.members).render
  match Audit.run Decide.answer deciderVersion arguments start with
  | .ok _ audit => (lines audit, 0)
  | .error (.leave code) audit => (lines audit, (code.getD 0).toNat.toUInt32)
  | .error fault audit => (lines audit ++ fault.message.toList, 1)

partial def readAll (stream : IO.FS.Stream) (text : String) : IO String := do
  let line ← stream.getLine
  if line.isEmpty then return text else readAll stream (text ++ line)

end CommandLine

end MintAudit

def main (arguments : List String) : IO UInt32 := do
  let description ← MintAudit.CommandLine.readAll (← IO.getStdin) ""
  let (lines, code) := MintAudit.CommandLine.outcome arguments description
  lines.forM IO.println
  return code
