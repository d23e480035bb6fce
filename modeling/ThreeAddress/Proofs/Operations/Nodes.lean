import ThreeAddress.Code.Instruction
import ThreeAddress.Proofs.Source.Induction

namespace ThreeAddress

open Instruction (Kind)

mutual

def Expr.inner : Expr → List Expr
  | .array es _ | .new _ es _ => nodesAll es
  | .binary l _ r _ | .logical l _ r _ | .index l r _ => l :: l.inner ++ r :: r.inner
  | .unary _ e _ | .property e _ _ => e :: e.inner
  | .ternary c a b _ => c :: c.inner ++ a :: a.inner ++ b :: b.inner
  | .call callee args _ => callee :: callee.inner ++ nodesAll args
  | .int .. | .str .. | .bool .. | .null _ | .ident .. | .this _ => []

@[simp] def nodesAll : List Expr → List Expr
  | [] => []
  | e :: rest => e :: e.inner ++ nodesAll rest

end

@[simp] theorem nodesAll_append (es fs : List Expr) :
    nodesAll (es ++ fs) = nodesAll es ++ nodesAll fs := by
  induction es with
  | nil => rfl
  | cons e rest ih => simp [nodesAll, ih]

@[simp] def Target.exprs : Target → List Expr
  | .ident _ => []
  | .index base indices => base :: indices
  | .property object _ => [object]

@[simp] def Member.isMethod : Member → Bool
  | .field _ => false
  | .method _ => true

@[simp] def Member.exprs : Member → List Expr
  | .field b => b.value.toList
  | .method _ => []

/-- The own expressions of a statement, apart from those of the statements inside of it. -/
@[simp] def Stmt.exprs : Stmt → List Expr
  | .declare b => b.value.toList
  | .assign target value _ => target.exprs ++ [value]
  | .print e _ | .eval e _ => [e]
  | .return e _ => e.toList
  | .ite c _ _ _ | .while c _ _ | .doWhile _ c _ => [c]
  | .for _ test _ _ _ => test.toList
  | .foreach _ collection _ _ => [collection]
  | .switch subject cases _ _ => subject :: cases.map (·.value)
  | .class c => c.members.flatMap Member.exprs
  | .block _ | .break _ | .continue _ | .tryCatch .. | .function _ => []

mutual

def Stmt.inner : Stmt → List Stmt
  | .block b => b.inner
  | .ite _ yes none _ => yes.inner
  | .ite _ yes (some no) _ => yes.inner ++ no.inner
  | .while _ body _ | .doWhile body _ _ | .foreach _ _ body _ => body.inner
  | .for first _ step body _ => innerOption first ++ body.inner ++ innerOption step
  | .switch _ cases none _ => innerCases cases
  | .switch _ cases (some body) _ => innerCases cases ++ innerAll body
  | .tryCatch body _ handler _ => body.inner ++ handler.inner
  | .function f => f.inner
  | .class c => c.inner
  | .declare _ | .assign .. | .print .. | .eval .. | .return .. | .break _ | .continue _ => []

def innerOption : Option Stmt → List Stmt
  | none => []
  | some s => s :: s.inner

def innerAll : List Stmt → List Stmt
  | [] => []
  | s :: rest => s :: s.inner ++ innerAll rest

def Block.inner : Block → List Stmt
  | ⟨body, _⟩ => innerAll body

def innerCases : List Case → List Stmt
  | [] => []
  | ⟨_, body, _⟩ :: rest => innerAll body ++ innerCases rest

def Function.inner : Function → List Stmt
  | ⟨_, _, _, body, _⟩ => body.inner

def innerMembers : List Member → List Stmt
  | [] => []
  | .field _ :: rest => innerMembers rest
  | .method f :: rest => f.inner ++ innerMembers rest

def Class.inner : Class → List Stmt
  | ⟨_, _, members, _⟩ => innerMembers members

end

@[simp] def Stmt.caseCount : Stmt → Nat
  | .switch _ cases _ _ => cases.length
  | _ => 0

@[simp] def Stmt.methodCount : Stmt → Nat
  | .class c => c.members.countP Member.isMethod
  | _ => 0

def Program.stmts (p : Program) : List Stmt := innerAll p.statements

def Program.nodes (p : Program) : List Expr := p.stmts.flatMap fun s => nodesAll s.exprs

@[simp] theorem innerOption_eq (s : Option Stmt) : innerOption s = innerAll s.toList := by
  cases s <;> simp [innerOption, innerAll]

@[simp] theorem Block.inner_eq (b : Block) : b.inner = innerAll b.body := by
  cases b
  rw [Block.inner]

@[simp] theorem innerCases_cons (k : Case) (rest : List Case) :
    innerCases (k :: rest) = innerAll k.body ++ innerCases rest := by
  cases k
  rw [innerCases]

@[simp] theorem Function.inner_eq (f : Function) : f.inner = innerAll f.body.body := by
  cases f
  rw [Function.inner, Block.inner_eq]

@[simp] theorem Class.inner_eq (c : Class) : c.inner = innerMembers c.members := by
  cases c
  rw [Class.inner]

@[simp] def Instruction.Kind.isOperation : Kind → Bool
  | .binary | .unary | .entry | .branch | .call | .callInto | .new | .return | .close => true
  | .assign | .label | .goto | .tryBegin | .tryEnd => false

def Instruction.Kind.one (made k : Kind) : Nat := if made = k then 1 else 0

open Instruction.Kind (one)

/-- The instructions that an expression asks for, apart from those that the expressions inside of it
ask for. -/
@[simp] def Expr.makes (k : Kind) : Expr → Nat
  | .binary .. => one .binary k
  | .unary .. => one .unary k
  | .logical .. | .ternary .. => one .branch k
  | .call .. => one .callInto k
  | .new .. => one .new k
  | .int .. | .str .. | .bool .. | .null _ | .ident .. | .this _ | .array .. | .index ..
  | .property .. => 0

/-- The instructions that a statement asks for, apart from those that the expressions and the
statements inside of it ask for. -/
@[simp] def Stmt.makes (k : Kind) : Stmt → Nat
  | .print .. => one .call k
  | .eval (.call ..) _ => one .call k
  | .ite .. | .while .. | .doWhile .. | .for _ (some _) _ _ _ => one .branch k
  | .foreach .. => one .branch k + 2 * one .binary k
  | .switch _ cases _ _ => cases.length * one .branch k
  | .return .. => one .return k
  | .function _ => one .entry k + one .close k
  | .class c =>
    (1 + c.members.countP Member.isMethod) * (one .entry k + one .close k)
  | _ => 0

/-- A call that is a statement of its own leaves no value. -/
@[simp] def Stmt.spares (k : Kind) : Stmt → Nat
  | .eval (.call ..) _ => one .callInto k
  | _ => 0

end ThreeAddress
