import ThreeAddress.Source.Operator
import ThreeAddress.Source.Position
import ThreeAddress.Ty

namespace ThreeAddress

inductive Expr
  | int : Int → Span → Expr
  | str : String → Span → Expr
  | bool : Bool → Span → Expr
  | null : Span → Expr
  | ident : String → Span → Expr
  | this : Span → Expr
  | array : List Expr → Span → Expr
  | binary : Expr → BinaryOp → Expr → Span → Expr
  | unary : UnaryOp → Expr → Span → Expr
  | logical : Expr → LogicalOp → Expr → Span → Expr
  | ternary : Expr → Expr → Expr → Span → Expr
  /-- The callee is a name, or a property for a method call; any other callee is a value. -/
  | call : Expr → List Expr → Span → Expr
  | new : String → List Expr → Span → Expr
  | index : Expr → Expr → Span → Expr
  | property : Expr → String → Span → Expr

def Expr.span : Expr → Span
  | .int _ s | .str _ s | .bool _ s | .null s | .ident _ s | .this s | .array _ s
  | .binary _ _ _ s | .unary _ _ s | .logical _ _ _ s | .ternary _ _ _ s
  | .call _ _ s | .new _ _ s | .index _ _ s | .property _ _ s => s

inductive Target
  | ident : String → Target
  | index : Expr → List Expr → Target
  | property : Expr → String → Target

structure Binding where
  name : String
  type : Option TypeExpr
  value : Option Expr
  isConst : Bool
  span : Span

structure Param where
  name : String
  type : Option TypeExpr
  span : Span

mutual

inductive Stmt
  | declare : Binding → Stmt
  | assign : Target → Expr → Span → Stmt
  | print : Expr → Span → Stmt
  | eval : Expr → Span → Stmt
  | block : Block → Stmt
  | ite : Expr → Block → Option Block → Span → Stmt
  | while : Expr → Block → Span → Stmt
  | doWhile : Block → Expr → Span → Stmt
  /-- The first step belongs to the scope of the body. -/
  | for : Option Stmt → Option Expr → Option Stmt → Block → Span → Stmt
  | foreach : String → Expr → Block → Span → Stmt
  | switch : Expr → List Case → Option (List Stmt) → Span → Stmt
  | break : Span → Stmt
  | continue : Span → Stmt
  | return : Option Expr → Span → Stmt
  | tryCatch : Block → String → Block → Span → Stmt
  | function : Function → Stmt
  | class : Class → Stmt

structure Block where
  body : List Stmt
  span : Span

/-- The statements of a case belong to the scope around the switch. -/
structure Case where
  value : Expr
  body : List Stmt
  span : Span

/-- A function or a method. The parameters belong to the scope of the body. -/
structure Function where
  name : String
  params : List Param
  result : Option TypeExpr
  body : Block
  span : Span

inductive Member
  | field : Binding → Member
  | method : Function → Member

structure Class where
  name : String
  parent : Option String
  members : List Member
  span : Span

end

def Stmt.span : Stmt → Span
  | .declare b => b.span
  | .assign _ _ s | .print _ s | .eval _ s | .ite _ _ _ s | .while _ _ s | .doWhile _ _ s
  | .for _ _ _ _ s | .foreach _ _ _ s | .switch _ _ _ s | .break s | .continue s | .return _ s
  | .tryCatch _ _ _ s => s
  | .block b => b.span
  | .function f => f.span
  | .class c => c.span

structure Program where
  statements : List Stmt
  span : Span

end ThreeAddress
