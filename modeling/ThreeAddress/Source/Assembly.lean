import ThreeAddress.Source.Tree

namespace ThreeAddress

/-- The state is the next line to hand out. -/
abbrev Assembly := StateM Nat

namespace Assembly

def freshSpan : Assembly Span := modifyGet fun line => (.atLine line, line + 1)

def int (n : Int) : Expr := .int n .unplaced
def str (s : String) : Expr := .str s .unplaced
def bool (b : Bool) : Expr := .bool b .unplaced
def null : Expr := .null .unplaced
def ident (name : String) : Expr := .ident name .unplaced
def this : Expr := .this .unplaced
def array (es : List Expr) : Expr := .array es .unplaced
def binary (op : BinaryOp) (l r : Expr) : Expr := .binary l op r .unplaced
def unary (op : UnaryOp) (e : Expr) : Expr := .unary op e .unplaced
def logical (op : LogicalOp) (l r : Expr) : Expr := .logical l op r .unplaced
def ternary (c a b : Expr) : Expr := .ternary c a b .unplaced
def new (className : String) (args : List Expr) : Expr := .new className args .unplaced
def index (base i : Expr) : Expr := .index base i .unplaced
def property (object : Expr) (field : String) : Expr := .property object field .unplaced
def call (callee : String) (args : List Expr) : Expr := .call (ident callee) args .unplaced

def methodCall (receiver : Expr) (method : String) (args : List Expr) : Expr :=
  .call (property receiver method) args .unplaced

def block (body : List Stmt) : Assembly Block := return ⟨body, ← freshSpan⟩

def binding (name : String) (type : Option TypeExpr) (value : Option Expr) (isConst : Bool) :
    Assembly Binding :=
  return ⟨name, type, value, isConst, ← freshSpan⟩

def nested (body : List Stmt) : Assembly Stmt := return .block (← block body)

def declareVariable (name : String) (type : Option TypeExpr) (value : Option Expr) : Assembly Stmt :=
  return .declare (← binding name type value false)

def declareConstant (name : String) (type : Option TypeExpr) (value : Expr) : Assembly Stmt :=
  return .declare (← binding name type (some value) true)

def assign (target : Target) (value : Expr) : Assembly Stmt :=
  return .assign target value (← freshSpan)

def print (e : Expr) : Assembly Stmt := return .print e (← freshSpan)
def eval (e : Expr) : Assembly Stmt := return .eval e (← freshSpan)

def ite (c : Expr) (yes : List Stmt) (no : Option (List Stmt)) : Assembly Stmt :=
  return .ite c (← block yes) (← no.mapM block) (← freshSpan)

def whileLoop (c : Expr) (body : List Stmt) : Assembly Stmt :=
  return .while c (← block body) (← freshSpan)

def doWhile (body : List Stmt) (c : Expr) : Assembly Stmt :=
  return .doWhile (← block body) c (← freshSpan)

def forLoop (first : Option Stmt) (c : Option Expr) (step : Option Stmt) (body : List Stmt) :
    Assembly Stmt :=
  return .for first c step (← block body) (← freshSpan)

def foreach (item : String) (collection : Expr) (body : List Stmt) : Assembly Stmt :=
  return .foreach item collection (← block body) (← freshSpan)

def case (value : Expr) (body : List Stmt) : Assembly Case := return ⟨value, body, ← freshSpan⟩

def switch (subject : Expr) (cases : List Case) (default : Option (List Stmt)) : Assembly Stmt :=
  return .switch subject cases default (← freshSpan)

def breakOut : Assembly Stmt := return .break (← freshSpan)
def continueLoop : Assembly Stmt := return .continue (← freshSpan)
def returnValue (value : Option Expr) : Assembly Stmt := return .return value (← freshSpan)

def tryCatch (body : List Stmt) (caught : String) (handler : List Stmt) : Assembly Stmt :=
  return .tryCatch (← block body) caught (← block handler) (← freshSpan)

def param (name : String) (type : TypeExpr) : Assembly Param :=
  return ⟨name, some type, ← freshSpan⟩

def function (name : String) (params : List Param) (result : Option TypeExpr) (body : List Stmt) :
    Assembly Function :=
  return ⟨name, params, result, ← block body, ← freshSpan⟩

def field (name : String) (type : Option TypeExpr) (value : Option Expr) : Assembly Member :=
  return .field (← binding name type value false)

def classDecl (name : String) (parent : Option String) (members : List Member) : Assembly Stmt :=
  return .class ⟨name, parent, members, ← freshSpan⟩

def program (statements : List Stmt) : Program := ⟨statements, .unplaced⟩

end Assembly

end ThreeAddress
