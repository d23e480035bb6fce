import ThreeAddress.Lowering.Value

namespace ThreeAddress

mutual

def Expr.cornerSize (pointer : Nat) : Expr → Nat
  | .array es _ => cornerSizeHead pointer es
  | .bool .. => 1
  | .str .. | .null _ | .new .. => pointer
  | _ => 4

def cornerSizeHead (pointer : Nat) : List Expr → Nat
  | [] => 4
  | e :: _ => e.cornerSize pointer

end

/-- Bytes of an element: its type tells, or else the first leaf. -/
def leafSize (pointer : Nat) (element : Ty) (es : List Expr) : Nat :=
  if element = .unknown then cornerSizeHead pointer es else element.size pointer

def elementCount (dims : List Nat) : Checked Nat := dims.foldlM (mulWithin word64) 1

/-- Bytes of a header and all elements. The elements are counted by a word of 32 bits. -/
def arraySize (pointer leaf : Nat) (dims : List Nat) : Checked Nat := do
  let count ← elementCount dims
  addWithin word32 pointer (← mulWithin word32 (count % word32) leaf)

namespace Lower

/-- A store for every position of an array, each right after the code of its value. -/
def storeElements (base : Operand) (literal : Nest (Lower Valued)) (dims : List Nat) (zero : Operand) :
    Lower Code := do
  let stores ← (positions dims).mapM fun p => do
    let (code, value) ← leafAt literal zero p
    return code ++ [elementStore base p value]
  return stores.flatten

/-- A declaration whose initializer is an array literal. A rejected literal leaves room for the
header alone. -/
def declareArray (id : SymbolId) (es : List Expr) (span : Span) : Lower Code := do
  let s ← symbol id
  let pointer := (← read).options.pointerSize
  let literal := Nest.row (lowerCells es)
  match ← literalShape s.name span literal with
  | none => do
    bindStorage id pointer
    return []
  | some dims => do
    let size ← arraySize pointer (leafSize pointer s.type.element es) dims
    modifySymbol id ({ · with dimensions := dims })
    bindStorage id size
    storeElements (.var s.name) literal dims s.type.element.zero

def assignArray (id : SymbolId) (es : List Expr) (span : Span) : Lower Code := do
  let s ← symbol id
  let literal := Nest.row (lowerCells es)
  match ← literalShape s.name span literal with
  | none => return []
  | some dims => storeElements (.var s.name) literal dims s.type.element.zero

def lowerIndices : List Expr → Lower (Code × List Operand)
  | [] => return ([], [])
  | e :: rest => do
    let (code, i) ← e.lower .value
    let (copy, i) ← ensureTemp i
    let (second, is) ← lowerIndices rest
    return (code ++ copy ++ second, i :: is)

end Lower

open Lower

def Binding.lower (b : Binding) : Lower Code := do
  match ← lookup b.name with
  | none => do
    report (.unresolved b.name b.span.line)
    return []
  | some id => match b.value with
    | some (.array es span) => declareArray id es span
    | some e => do
      bindStorage id (← valueSize id)
      let (code, value) ← storable (e.lower .value)
      return code ++ [.assign (.var b.name) value]
    | none => do
      bindStorage id (← valueSize id)
      return []

/-- An assignment that stands at `span`. The target is evaluated before the value. -/
def Target.assign (value : Expr) (span : Span) : Target → Lower Code
  | .ident name => do
    match ← lookup name with
    | none => do
      report (.unresolved name span.line)
      return []
    | some id => match value with
      | .array es span => assignArray id es span
      | e => do
        let place := (← symbol id).address.getD name
        let (code, value) ← storable (e.lower .value)
        return code ++ [.assign (.var place) value]
  | .index base indices => do
    let (first, base) ← base.lower .value
    let (second, is) ← lowerIndices indices
    let (third, value) ← storable (value.lower .value)
    return first ++ second ++ third ++ [.assign (.element base is) value]
  | .property object field => do
    let (first, base) ← object.lower .value
    let (second, value) ← storable (value.lower .value)
    return first ++ second ++ [.assign (.field base field) value]

end ThreeAddress
