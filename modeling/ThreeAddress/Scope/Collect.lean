import ThreeAddress.Scope.Table
import ThreeAddress.Source.Tree

namespace ThreeAddress

inductive Conflict
  | duplicate (name : String) (line : Nat)
  | collision (key : Position)
  deriving DecidableEq

namespace Conflict

def line : Conflict → Nat
  | .duplicate _ line => line
  | .collision key => key.line

def message : Conflict → String
  | .duplicate name line => s!"duplicate definition '{name}' at line {line}"
  | .collision key => s!"two blocks start at line {key.line}, column {key.col}"

end Conflict

mutual

def Expr.infer (t : Table) (scope : Nat) : Expr → Ty
  | .int .. => .integer
  | .str .. => .string
  | .bool .. => .boolean
  | .null _ => .null
  | .ident name _ => ((t.visible? scope name).map (·.type)).getD .unknown
  | .this _ => .unknown
  | .array es _ => (inferHead t scope es).arrayOf 1
  | .binary l op r _ =>
    if op.isComparison then .boolean
    else if op = .add ∧ (l.infer t scope = .string ∨ r.infer t scope = .string) then .string
    else .integer
  | .unary .not _ _ => .boolean
  | .unary .neg _ _ => .integer
  | .logical .. => .boolean
  | .ternary _ a _ _ => a.infer t scope
  | .call (.ident name _) _ _ =>
    match t.visible? scope name with
    | some s => if s.isCallable ∧ s.type ≠ .void then s.type else .unknown
    | none => .unknown
  | .call .. => .unknown
  | .new name _ _ => .object name
  | .index base _ _ => (base.infer t scope).indexed
  | .property .. => .unknown

def inferHead (t : Table) (scope : Nat) : List Expr → Ty
  | [] => .unknown
  | e :: _ => e.infer t scope

end

structure Collection where
  table : Table := .empty
  conflicts : List Conflict := []
  deriving DecidableEq

abbrev Collect := StateM Collection

namespace Collect

def report (c : Conflict) : Collect Unit :=
  modify fun s => { s with conflicts := s.conflicts ++ [c] }

/-- The new scope, or the one that has the position already. -/
def openScope (span : Span) (kind : ScopeKind) (parent : Nat) : Collect Nat := do
  match (← get).table.addScope span.toPosition kind parent with
  | (.ok id, table) =>
    modify ({ · with table })
    return id
  | (.error taken, _) =>
    report (.collision span.toPosition)
    return taken

/-- A declaration whose name is taken is dropped. -/
def declare (scope : Nat) (d : Declaration) (params : Nat := 0) : Collect Unit := do
  match (← get).table.declare scope { Symbol.ofDeclaration d with params } with
  | (.ok _, table) => modify ({ · with table })
  | (.error _, _) => report (.duplicate d.name d.span.line)

end Collect

open Collect

def Binding.collect (scope : Nat) (kind : SymbolKind) (owner : Option String) (b : Binding) :
    Collect Unit := do
  let table := (← get).table
  let type := match b.type, b.value with
    | some written, _ => Ty.ofTypeExpr written
    | none, some value => value.infer table scope
    | none, none => .unknown
  declare scope { name := b.name, type, kind, owner, isConst := b.isConst, span := b.span }

def Param.collect (scope : Nat) (p : Param) : Collect Unit :=
  declare scope
    { name := p.name, type := (p.type.map Ty.ofTypeExpr).getD .unknown, kind := .parameter,
      span := p.span }

mutual

def Stmt.collect (scope : Nat) : Stmt → Collect Unit
  | .declare b => b.collect scope .variable none
  | .block b => b.collect scope
  | .ite _ yes no _ => do
    yes.collect scope
    match no with
    | none => return
    | some no => no.collect scope
  | .while _ body _ | .doWhile body _ _ => body.collect scope
  | .for first _ _ body _ => do
    let inner ← openScope body.span .block scope
    match first with
    | none => pure ()
    | some s => s.collect inner
    body.collectBody inner
  | .foreach item collection body span => do
    let inner ← openScope body.span .block scope
    let type := (collection.infer (← get).table scope).indexed
    declare inner { name := item, type, kind := .variable, span }
    body.collectBody inner
  | .switch _ cases default _ => do
    collectCases scope cases
    match default with
    | none => return
    | some body => collectAll scope body
  | .tryCatch body caught handler span => do
    body.collect scope
    let inner ← openScope handler.span .block scope
    declare inner { name := caught, type := .object "Exception", kind := .variable, span }
    handler.collectBody inner
  | .function f => f.collect scope none
  | .class c => c.collect scope
  | .assign .. | .print .. | .eval .. | .break _ | .continue _ | .return .. => return

def collectAll (scope : Nat) : List Stmt → Collect Unit
  | [] => return
  | s :: rest => do
    s.collect scope
    collectAll scope rest

def Block.collectBody (scope : Nat) : Block → Collect Unit
  | ⟨body, _⟩ => collectAll scope body

def Block.collect (parent : Nat) : Block → Collect Unit
  | ⟨body, span⟩ => do collectAll (← openScope span .block parent) body

def collectCases (scope : Nat) : List Case → Collect Unit
  | [] => return
  | ⟨_, body, _⟩ :: rest => do
    collectAll scope body
    collectCases scope rest

def Function.collect (scope : Nat) (owner : Option String) : Function → Collect Unit
  | ⟨name, params, result, body, span⟩ => do
    let inner ← openScope body.span .functionBody scope
    let type := (result.map Ty.ofTypeExpr).getD .void
    declare scope { name, type, kind := .function, owner, members := some inner, span }
      params.length
    params.forM (·.collect inner)
    body.collectBody inner

def Member.collect (scope : Nat) (owner : String) : Member → Collect Unit
  | .field b => b.collect scope .field (some owner)
  | .method f => f.collect scope (some owner)

def collectMembers (scope : Nat) (owner : String) : List Member → Collect Unit
  | [] => return
  | m :: rest => do
    m.collect scope owner
    collectMembers scope owner rest

def Class.collect (scope : Nat) : Class → Collect Unit
  | ⟨name, _, members, span⟩ => do
    let inner ← openScope span .classBody scope
    declare scope
      { name, type := .object name, kind := .classType, members := some inner, span }
    collectMembers inner name members

end

/-- The table of a program, and what stands in the way of it. -/
def Program.collect (p : Program) : Collection :=
  (collectAll Table.global p.statements {}).2

def Program.scopes (p : Program) : Except (List Conflict) Table :=
  match p.collect with
  | ⟨table, []⟩ => .ok table
  | ⟨_, conflicts⟩ => .error conflicts

end ThreeAddress
