import ThreeAddress.Lowering.Names
import ThreeAddress.Nest

namespace ThreeAddress

/-- Code, and the operand that holds the value once the code has run. -/
abbrev Valued := Code × Operand

/-- What a call needs before its arguments: code, the name to call, and the receiver if any. -/
structure Callee where
  code : Code
  name : String
  receiver : List Operand

def methodName (owner : Option String) (method : String) : String :=
  match owner with
  | some owner => s!"{owner}.{method}"
  | none => method

/-- Whether the value of an expression is wanted. It makes a difference to calls alone. -/
inductive Demand
  | value | effect
  deriving DecidableEq

/-- The number as a word of 64 bits with a sign. -/
def signed (n : Nat) : Int := Int.bmod n word64

/-- What a gap of a padded array holds. -/
def Ty.zero : Ty → Operand
  | .integer | .unknown => .int 0
  | .boolean => .bool false
  | .string => .str ""
  | .void | .null | .array .. | .object _ => .null

namespace Lower

/-- The storage of a name. A name that does not resolve is reported and stands for itself. -/
def nameOperand (name : String) (span : Span) : Lower Operand := do
  match ← lookup name with
  | some id => return .var (← symbol id).place
  | none => do
    report (.unresolved name span.line)
    return .var name

/-- A value that may be stored: a name is copied first, so that a store never has the storage of
another name as its source. -/
def storable (act : Lower Valued) : Lower Valued := do
  let (code, value) ← act
  match value with
  | .var _ => do
    let (copy, t) ← copyToTemp value
    return (code ++ copy, t)
  | _ => return (code, value)

def argument (act : Lower Valued) : Lower Valued := do
  let (code, value) ← act
  let (copy, t) ← copyToTemp value
  return (code ++ copy, t)

def receiverClass : Expr → Lower (Option String)
  | .this _ => return (← read).className
  | .new name _ _ => return some name
  | .ident name _ => do
    match ← lookup name with
    | none => return none
    | some id => match (← symbol id).type with
      | .object name => return some name
      | _ => return none
  | _ => return none

def namedCallee (name : String) (span : Span) : Lower Callee := do
  match ← lookup name with
  | some id => do
    let s ← symbol id
    if s.isCallable ∧ s.owner.isSome then do
      let (copy, receiver) ← copyToTemp (.var "this")
      return ⟨copy, s.qualifiedName, [receiver]⟩
    else return ⟨[], s.qualifiedName, []⟩
  | none => do
    report (.unresolved name span.line)
    return ⟨[], name, []⟩

/-- The call itself. Without demand its value is dropped, and `null` stands in for it. -/
def finishCall (demand : Demand) (callee : String) (params : List Operand) : Lower Valued :=
  match demand with
  | .value => do
    let t ← freshTemp
    return ([.callInto (.temp t) callee params], .temp t)
  | .effect => return ([.call callee params], .null)

/-- `a && b` and `a || b`: the result starts at the value that decides the operator, and `b` is run
only if `a` does not have it. -/
def shortCircuit (op : LogicalOp) (l r : Lower Valued) : Lower Valued := do
  let (first, left) ← l
  let t ← freshTemp
  let done ← freshLabel
  let (second, right) ← r
  let (deciding, relation) := match op with
    | .and => ((0 : Int), Relation.eq)
    | .or => (1, .ne)
  return (first ++ [.assign (.temp t) (.int deciding), .branch left relation (.int 0) done]
    ++ second ++ [.assign (.temp t) right, .label done], .temp t)

def choose (c a b : Lower Valued) : Lower Valued := do
  let (test, condition) ← c
  let yes ← freshLabel
  let no ← freshLabel
  let (first, value) ← a
  let t ← freshTemp
  let done ← freshLabel
  let (second, other) ← b
  return (test ++ [.branch condition .eq (.bool true) yes, .goto no, .label yes]
    ++ first ++ [.assign (.temp t) value, .goto done, .label no]
    ++ second ++ [.assign (.temp t) other, .label done], .temp t)

def literalShape (name : String) (span : Span) (literal : Nest α) : Lower (Option (List Nat)) := do
  let shape := literal.shape? (← read).options.raggedArrays
  if shape.isNone then report (.ragged name span.line)
  return shape

/-- The leaf at a position, or a zero in a gap. -/
def leafAt (literal : Nest (Lower Valued)) (zero : Operand) (position : List Nat) : Lower Valued :=
  (literal.at? position).getD (copyToTemp zero)

def elementStore (base : Operand) (position : List Nat) (value : Operand) : Instruction :=
  .assign (.element base (position.map fun i => .int (signed i))) value

/-- An array as a value: all leaves first, then a base, then the stores into it. -/
def literalValue (literal : Nest (Lower Valued)) (span : Span) : Lower Valued := do
  let shape ← literalShape "<array literal>" span literal
  let places := positions (shape.getD [])
  let leaves ← places.mapM (leafAt literal Ty.unknown.zero)
  let base := Operand.temp (← freshTemp)
  let stores := places.zipWith (fun p (_, value) => elementStore base p value) leaves
  return (leaves.flatMap (·.1) ++ stores, base)

end Lower

open Lower

mutual

def Expr.lower (demand : Demand) : Expr → Lower Valued
  | .int n _ => copyToTemp (.int n)
  | .str s _ => copyToTemp (.str s)
  | .bool b _ => copyToTemp (.bool b)
  | .null _ => copyToTemp .null
  | .ident name span => return ([], ← nameOperand name span)
  | .this _ => return ([], .var "this")
  | .array es span => literalValue (.row (lowerCells es)) span
  | .binary l op r _ => do
    let (first, left) ← l.lower .value
    let (second, right) ← r.lower .value
    let t ← freshTemp
    return (first ++ second ++ [.binary (.temp t) left op right], .temp t)
  | .unary op e _ => do
    let (code, arg) ← e.lower .value
    let t ← freshTemp
    return (code ++ [.unary (.temp t) op arg], .temp t)
  | .logical l op r _ => shortCircuit op (l.lower .value) (r.lower .value)
  | .ternary c a b _ => choose (c.lower .value) (a.lower .value) (b.lower .value)
  | .call callee args span => do
    let target : Callee ← match callee with
      | .ident name _ => namedCallee name span
      | .property object method _ => do
        let owner ← receiverClass object
        let (code, receiver) ← argument (object.lower .value)
        pure ⟨code, methodName owner method, [receiver]⟩
      | other => do
        let (code, value) ← other.lower .value
        pure ⟨code, value.render, []⟩
    let (code, params) ← lowerArgs args
    let (last, value) ← finishCall demand target.name (target.receiver ++ params)
    return (target.code ++ code ++ last, value)
  | .new name args _ => do
    let (code, params) ← lowerArgs args
    let t ← freshTemp
    return (code ++ [.new (.temp t) name params], .temp t)
  | .index base i _ => do
    let (first, base) ← base.lower .value
    let (second, i) ← i.lower .value
    let (copy, i) ← ensureTemp i
    let t ← freshTemp
    return (first ++ second ++ copy ++ [.assign (.temp t) (.element base [i])], .temp t)
  | .property object field _ => do
    let (code, base) ← object.lower .value
    let t ← freshTemp
    return (code ++ [.assign (.temp t) (.field base field)], .temp t)

def lowerArgs : List Expr → Lower (Code × List Operand)
  | [] => return ([], [])
  | e :: rest => do
    let (first, param) ← argument (e.lower .value)
    let (second, params) ← lowerArgs rest
    return (first ++ second, param :: params)

/-- The cells of an array literal. A leaf is the way to lower it: where and whether it is lowered
depends on the shape of the whole literal. -/
def lowerCells : List Expr → List (Nest (Lower Valued))
  | [] => []
  | .array es _ :: rest => .row (lowerCells es) :: lowerCells rest
  | e :: rest => .leaf (storable (e.lower .value)) :: lowerCells rest

end

end ThreeAddress
