import MintAudit.Compiler.Query

namespace MintAudit

/-!
# Written workspaces

A workspace as a JSON object: files by path, programs with their tables, the contracts that the compiler finds, and the
answer of the network.
-/

def CompiledContract.ofJson (value : Json) : CompiledContract :=
  let text := fun position => ((value.nth position).string?).getD ""
  ⟨text 0, text 1, text 2⟩

def Workspace.ofJson (value : Json) : Workspace :=
  let empty : Workspace :=
    { programs := value.membersAt "tools"
      compiled := (value.itemsAt "contracts").map CompiledContract.ofJson
      rejected := value.flagAt "invalid"
      response := value.given "response" }
  (value.membersAt "files").foldl (fun workspace file => workspace.withFile file.1 (file.2.string?.getD "")) empty

end MintAudit
