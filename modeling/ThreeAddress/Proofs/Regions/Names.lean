import ThreeAddress.Proofs.Source.Induction
import ThreeAddress.Scope.Table

/-! The regions of a program, read off the source tree: the global code, and every block, function body
and class. A region has the names that are declared in it, in source order, and stands in another one.
The steps of loops declare nothing and open nothing. -/

namespace ThreeAddress

/-- A name as a region declares it. -/
structure Naming where
  name : String
  kind : SymbolKind
  isConst : Bool := false
  type : Option Ty
  params : Nat := 0
  members : Option Position := none
  /-- The array literal that the name is declared with. -/
  literal : Option (List Expr) := none
  span : Span

structure Region where
  key : Position
  kind : ScopeKind
  /-- The key of the region around it. -/
  outer : Option Position
  /-- The class whose members the region holds. -/
  owner : Option String
  names : List Naming

def Expr.literal? : Expr → Option (List Expr)
  | .array es _ => some es
  | _ => none

def Binding.naming (kind : SymbolKind) (b : Binding) : Naming where
  name := b.name
  kind := kind
  isConst := b.isConst
  type := match b.type, b.value with
    | some written, _ => some (Ty.ofTypeExpr written)
    | none, some _ => none
    | none, none => some .unknown
  literal := b.value.bind Expr.literal?
  span := b.span

def Param.naming (p : Param) : Naming where
  name := p.name
  kind := .parameter
  type := some ((p.type.map Ty.ofTypeExpr).getD .unknown)
  span := p.span

def Function.naming (f : Function) : Naming where
  name := f.name
  kind := .function
  type := some ((f.result.map Ty.ofTypeExpr).getD .void)
  params := f.params.length
  members := some f.body.span.toPosition
  span := f.span

def Class.naming (c : Class) : Naming where
  name := c.name
  kind := .classType
  type := some (.object c.name)
  members := some c.span.toPosition
  span := c.span

def Member.naming : Member → Naming
  | .field b => b.naming .field
  | .method f => f.naming

def Naming.item (name : String) (span : Span) : Naming := { name, kind := .variable, type := none, span }

def Naming.caught (name : String) (span : Span) : Naming :=
  { name, kind := .variable, type := some (.object "Exception"), span }

mutual

def Stmt.names : Stmt → List Naming
  | .declare b => [b.naming .variable]
  | .switch _ cases default _ =>
    namesCases cases ++ match default with
      | none => []
      | some body => namesAll body
  | .function f => [f.naming]
  | .class c => [c.naming]
  | .assign .. | .print .. | .eval .. | .block _ | .ite .. | .while .. | .doWhile .. | .for ..
  | .foreach .. | .break _ | .continue _ | .return .. | .tryCatch .. => []

def namesAll : List Stmt → List Naming
  | [] => []
  | s :: rest => s.names ++ namesAll rest

def namesCases : List Case → List Naming
  | [] => []
  | ⟨_, body, _⟩ :: rest => namesAll body ++ namesCases rest

end

mutual

/-- The regions that a statement of the region `outer` opens, each in front of those inside of it. -/
def Stmt.regions (outer : Position) : Stmt → List Region
  | .block b => b.regions .block [] [] outer
  | .ite _ yes no _ =>
    yes.regions .block [] [] outer ++ match no with
      | none => []
      | some no => no.regions .block [] [] outer
  | .while _ body _ | .doWhile body _ _ => body.regions .block [] [] outer
  | .for none _ _ body _ => body.regions .block [] [] outer
  | .for (some s) _ _ body _ => body.regions .block s.names (s.regions body.span.toPosition) outer
  | .foreach item _ body span => body.regions .block [.item item span] [] outer
  | .switch _ cases default _ =>
    regionsCases outer cases ++ match default with
      | none => []
      | some body => regionsAll outer body
  | .tryCatch body caught handler span =>
    body.regions .block [] [] outer ++ handler.regions .block [.caught caught span] [] outer
  | .function f => f.regions outer
  | .class c => c.regions outer
  | .declare _ | .assign .. | .print .. | .eval .. | .break _ | .continue _ | .return .. => []

def regionsAll (outer : Position) : List Stmt → List Region
  | [] => []
  | s :: rest => s.regions outer ++ regionsAll outer rest

/-- The region of a block behind the names that it has from elsewhere, with the regions that stand in
it: those that come along with the names, and those of its own statements. -/
def Block.regions (kind : ScopeKind) (lead : List Naming) (before : List Region) (outer : Position) :
    Block → List Region
  | ⟨body, span⟩ => ⟨span.toPosition, kind, some outer, none, lead ++ namesAll body⟩ ::
    (before ++ regionsAll span.toPosition body)

def regionsCases (outer : Position) : List Case → List Region
  | [] => []
  | ⟨_, body, _⟩ :: rest => regionsAll outer body ++ regionsCases outer rest

def Function.regions (outer : Position) : Function → List Region
  | ⟨_, params, _, body, _⟩ => body.regions .functionBody (params.map Param.naming) [] outer

def regionsMembers (outer : Position) : List Member → List Region
  | [] => []
  | .field _ :: rest => regionsMembers outer rest
  | .method f :: rest => f.regions outer ++ regionsMembers outer rest

def Class.regions (outer : Position) : Class → List Region
  | ⟨name, _, members, span⟩ =>
    ⟨span.toPosition, .classBody, some outer, some name, members.map Member.naming⟩ ::
      regionsMembers span.toPosition members

end

def Program.inner (p : Program) : List Region := regionsAll .origin p.statements

def Program.regions (p : Program) : List Region :=
  ⟨.origin, .global, none, none, namesAll p.statements⟩ :: p.inner

theorem namesCases_cons (k : Case) (rest : List Case) :
    namesCases (k :: rest) = namesAll k.body ++ namesCases rest := by
  cases k
  rw [namesCases]

theorem Block.regions_eq (b : Block) (kind : ScopeKind) (lead : List Naming) (before : List Region)
    (outer : Position) : b.regions kind lead before outer =
      ⟨b.span.toPosition, kind, some outer, none, lead ++ namesAll b.body⟩ ::
        (before ++ regionsAll b.span.toPosition b.body) := by
  cases b
  rw [regions]

theorem regionsCases_cons (outer : Position) (k : Case) (rest : List Case) :
    regionsCases outer (k :: rest) = regionsAll outer k.body ++ regionsCases outer rest := by
  cases k
  rw [regionsCases]

theorem Function.regions_eq (f : Function) (outer : Position) :
    f.regions outer = f.body.regions .functionBody (f.params.map Param.naming) [] outer := by
  cases f
  rw [regions]

theorem Class.regions_eq (c : Class) (outer : Position) : c.regions outer =
    ⟨c.span.toPosition, .classBody, some outer, some c.name, c.members.map Member.naming⟩ ::
      regionsMembers c.span.toPosition c.members := by
  cases c
  rw [regions]

end ThreeAddress
