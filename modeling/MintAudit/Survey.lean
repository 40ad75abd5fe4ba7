import MintAudit.Compiler.Query

namespace MintAudit

/-!
# Surveys of contracts

Tables over many contracts.
-/

namespace Survey

def split (path : String) : Work Unit := do
  let _ ← Work.ofExcept (Json.read (← Work.readLines path))
  throw .missingMember

def splitAll : Work Unit :=
  split "contract0.json"

def distinct (path : String) : Work Unit := do
  if 1 < (Text.lines (← Work.readFile path)).length then
    throw .wrongKind

def find (pattern path : String) : Work Unit := do
  if (← Work.readFile path).isEmpty then
    throw .wrongValue
  let _ ← Work.ofExcept (Pattern.ofText pattern)
  throw .wrongKind

def fetch (path address : String) : Work Unit := do
  Work.note ["wget -O " ++ path ++ " " ++ address]
  let workspace ← get
  match (Table.get? "wget" workspace.programs).bind fun table => table.member? address with
  | some page =>
    let text := match page with
      | .string text => text
      | page => page.render
    let _ ← Work.attempt (Work.writeFile path text)
  | none => return ()

def lookUp (address : String) : Work (String × String) := do
  fetch ("tmp/" ++ address ++ "_txs.html") ("http://etherscan.io/txs?a=" ++ address)
  return ("unknown", "unknown")

def rowsOf (fields : String → Work (Option (List String))) : List String → Work (String × Option Fault)
  | [] => return ("", none)
  | line :: rest => do
      match ← Work.attempt (fields line) with
      | .error fault => return ("", some fault)
      | .ok found =>
        let (text, fault) ← rowsOf fields rest
        return (((found.map Text.row).getD "") ++ text, fault)

def tabulate (table : String) (heading : List String) (list : String)
    (fields : String → Work (Option (List String))) : Work Unit := do
  Work.writeFile table ""
  let outcome ← Work.attempt do
    rowsOf fields (Text.lines (← Work.readLines list))
  let (text, fault) := match outcome with
    | .ok rows => rows
    | .error fault => ("", some fault)
  Work.writeFile table (Text.row heading ++ text)
  match fault with
  | some fault => throw fault
  | none => return ()

def part (parts : List String) (index : Nat) : Work String :=
  Work.ofExcept (match parts[index]? with
    | some found => .ok found
    | none => .error .outOfRange)

def statistics (list : String) : Work Unit :=
  tabulate "concurr.csv"
    ["Contract address", "No. of paths", "No. of concurrency pairs", "Balance", "No. of TXs", "Note"] list
    fun line => do
      let words := Text.words line
      let address ← part words 0
      let (value, transactions) ← lookUp address
      return some [address, ← part words 1, ← part words 2, value, transactions, Text.listText (words.drop 3)]

def timeDependent (list : String) : Work Unit :=
  tabulate "time.csv" ["Contract address", "Balance", "No. of TXs", "Note"] list
    fun line => do
      if (Text.strip line).isEmpty then
        return none
      let address ← part (Text.splitOnChar '_' ((Text.splitOnChar '.' line).headD "")) 1
      let (transactions, value) ← lookUp address
      return some [address, value, transactions]

end Survey

end MintAudit
