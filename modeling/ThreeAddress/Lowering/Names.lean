import ThreeAddress.Lowering.Basic
import ThreeAddress.Source.Tree

namespace ThreeAddress

abbrev Use := String × Span

mutual

/-- The names in an expression, from left to right. A property is no name of its own: it is looked
up in the object when the program runs. -/
def Expr.uses : Expr → List Use
  | .ident name span => [(name, span)]
  | .new name args span => (name, span) :: usesAll args
  | .array es _ => usesAll es
  | .binary l _ r _ | .logical l _ r _ | .index l r _ => l.uses ++ r.uses
  | .unary _ e _ | .property e _ _ => e.uses
  | .ternary c a b _ => c.uses ++ a.uses ++ b.uses
  | .call callee args _ => callee.uses ++ usesAll args
  | .int .. | .str .. | .bool .. | .null _ | .this _ => []

def usesAll : List Expr → List Use
  | [] => []
  | e :: rest => e.uses ++ usesAll rest

end

def Binding.uses (b : Binding) : List Use :=
  (b.name, b.span) :: (b.value.map Expr.uses).getD []

def Target.uses (span : Span) : Target → List Use
  | .ident name => [(name, span)]
  | .index base indices => base.uses ++ usesAll indices
  | .property object _ => object.uses

def firstUses : List Use → List Use
  | [] => []
  | u :: rest => u :: (firstUses rest).filter (·.1 != u.1)

namespace Lower

def isMissing (u : Use) : Lower Bool := return (← lookup u.1).isNone

/-- Lowers what needs the given names, or reports those that do not resolve and yields no code. -/
def guarding (uses : List Use) (whole : Span) (act : Lower Code) : Lower Code := do
  match ← uses.filterM isMissing with
  | [] => act
  | missing => do
    (firstUses missing).forM fun (name, span) =>
      report (.unresolved name (span.orElse whole).line)
    return []

end Lower

end ThreeAddress
