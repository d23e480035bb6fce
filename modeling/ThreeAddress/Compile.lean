import ThreeAddress.Lowering.Program
import ThreeAddress.Scope.Collect
import ThreeAddress.Text.Quoted

namespace ThreeAddress

inductive CompileError
  | conflicts (found : List Conflict)
  | problems (found : List Problem)
  | fault (f : Fault)
  deriving DecidableEq

structure Compiled where
  code : Code
  table : Table

def Program.compileWith (p : Program) (table : Table) (options : Options) :
    Except CompileError Compiled :=
  match p.lower table options with
  | .error f => .error (.fault f)
  | .ok ⟨code, table, []⟩ => .ok ⟨code, table⟩
  | .ok ⟨_, _, problems⟩ => .error (.problems problems)

/-- Collects the declarations of a program and lowers it against them. -/
def Program.compile (p : Program) (options : Options) : Except CompileError Compiled :=
  match p.scopes with
  | .error conflicts => .error (.conflicts conflicts)
  | .ok table => p.compileWith table options

def recordText (name : String) (fields : List (String × String)) : String :=
  let fields := fields.map fun (field, value) => field ++ ": " ++ value
  name ++ " \x7b " ++ ", ".intercalate fields ++ " \x7d"

def Conflict.record : Conflict → String
  | .duplicate name line =>
    recordText "Duplicate" [("name", quoted name), ("line", toString line)]
  | .collision key =>
    recordText "ScopeCollision" [("line", toString key.line), ("col", toString key.col)]

def Problem.record : Problem → String
  | .unresolved name line =>
    recordText "UnresolvedSymbol" [("name", quoted name), ("line", toString line)]
  | .breakOutside line => recordText "BreakOutsideLoop" [("line", toString line)]
  | .continueOutside line => recordText "ContinueOutsideLoop" [("line", toString line)]
  | .ragged name line =>
    recordText "RaggedArrayLiteral" [("name", quoted name), ("line", toString line)]

def CompileError.message : CompileError → String
  | .conflicts found => "resolve errors: [" ++ ", ".intercalate (found.map Conflict.record) ++ "]"
  | .problems found => "lowering errors: [" ++ ", ".intercalate (found.map Problem.record) ++ "]"
  | .fault f => f.message

end ThreeAddress
