import ThreeAddress.Compile
import ThreeAddress.Text.EditDistance

/-! Diagnostics: what a user is told about an error, with a stable code and with help.

Codes from E0100 are about declarations, codes from E0200 about lowering. -/

namespace ThreeAddress

inductive Severity
  | error | warning | note
  deriving DecidableEq

def Severity.render : Severity → String
  | .error => "error"
  | .warning => "warning"
  | .note => "note"

structure Diagnostic where
  severity : Severity
  code : Option String := none
  message : String
  line : Option Nat := none
  suggestions : List String := []
  deriving DecidableEq

def Diagnostic.render (d : Diagnostic) : String :=
  let code := (d.code.map fun code => s!"[{code}]").getD ""
  let place := (d.line.map fun line => s!"  --> line {line}\n").getD ""
  let help := String.join (d.suggestions.map fun text => s!"   = help: {text}\n")
  s!"{d.severity.render}{code}: {d.message}\n" ++ place ++ help

namespace Conflict

def code : Conflict → String
  | .duplicate .. => "E0100"
  | .collision _ => "E0101"

def help : Conflict → List String
  | .duplicate name _ =>
    [s!"rename one of the declarations of '{name}' or move it to its own block"]
  | .collision _ => ["give each block a distinct start position"]

def diagnostic (c : Conflict) : Diagnostic where
  severity := .error
  code := c.code
  message := c.message
  line := c.line
  suggestions := c.help

end Conflict

namespace Problem

def code : Problem → String
  | .unresolved .. => "E0200"
  | .breakOutside _ => "E0201"
  | .continueOutside _ => "E0202"
  | .ragged .. => "E0203"

def help (known : List String) : Problem → List String
  | .unresolved name _ => (suggestions name known).map fun other => s!"did you mean '{other}'?"
  | .breakOutside _ => ["'break' is only valid inside a loop or a switch"]
  | .continueOutside _ => ["'continue' is only valid inside a loop"]
  | .ragged .. => ["every row of an array literal must have the same length"]

/-- The names in `known` are those that may have been meant. -/
def diagnostic (known : List String) (p : Problem) : Diagnostic where
  severity := .error
  code := p.code
  message := p.message
  line := p.line
  suggestions := p.help known

end Problem

def CompileError.diagnostics (known : List String) : CompileError → List Diagnostic
  | .conflicts found => found.map (·.diagnostic)
  | .problems found => found.map (·.diagnostic known)
  | .fault _ => []

end ThreeAddress
