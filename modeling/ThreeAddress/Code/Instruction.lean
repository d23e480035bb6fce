import ThreeAddress.Code.Operand
import ThreeAddress.Source.Operator

namespace ThreeAddress

inductive Relation
  | eq | ne | lt | le | gt | ge
  deriving DecidableEq

def Relation.spelling : Relation → String
  | .eq => "=="
  | .ne => "!="
  | .lt => "<"
  | .le => "<="
  | .gt => ">"
  | .ge => ">="

inductive Instruction
  | assign (result arg : Operand)
  | binary (result left : Operand) (op : BinaryOp) (right : Operand)
  | unary (result : Operand) (op : UnaryOp) (arg : Operand)
  | label (l : Label)
  | entry (name : String)
  | goto (target : Label)
  | branch (left : Operand) (relation : Relation) (right : Operand) (target : Label)
  /-- A call whose value is dropped. -/
  | call (callee : String) (params : List Operand)
  | callInto (result : Operand) (callee : String) (params : List Operand)
  | new (result : Operand) (className : String) (params : List Operand)
  | return (value : Operand)
  /-- The end of what `entry` starts. -/
  | close (name : String)
  | tryBegin (handler : Label)
  | tryEnd

abbrev Code := List Instruction

namespace Instruction

inductive Kind
  | assign | binary | unary | label | entry | goto | branch | call | callInto | new | return
  | close | tryBegin | tryEnd
  deriving DecidableEq

def kind : Instruction → Kind
  | .assign .. => .assign
  | .binary .. => .binary
  | .unary .. => .unary
  | .label _ => .label
  | .entry _ => .entry
  | .goto _ => .goto
  | .branch .. => .branch
  | .call .. => .call
  | .callInto .. => .callInto
  | .new .. => .new
  | .return _ => .return
  | .close _ => .close
  | .tryBegin _ => .tryBegin
  | .tryEnd => .tryEnd

/-- Control never falls through to the next instruction. -/
def isJump : Instruction → Bool
  | .goto _ | .return _ => true
  | _ => false

def label? : Instruction → Option Label
  | .label l | .goto l | .tryBegin l | .branch _ _ _ l => some l
  | _ => none

def temps : Instruction → List Temp
  | .assign result arg | .unary result _ arg => result.temps ++ arg.temps
  | .binary result left _ right => result.temps ++ left.temps ++ right.temps
  | .branch left _ right _ => left.temps ++ right.temps
  | .call _ params => Operand.tempsAll params
  | .callInto result _ params | .new result _ params => result.temps ++ Operand.tempsAll params
  | .return value => value.temps
  | .label _ | .entry _ | .goto _ | .close _ | .tryBegin _ | .tryEnd => []

def render : Instruction → String
  | .assign result arg => s!"{result.render} = {arg.render}"
  | .binary result left op right =>
    s!"{result.render} = {left.render} {op.spelling} {right.render}"
  | .unary result op arg => s!"{result.render} = {op.spelling}{arg.render}"
  | .label l => s!"{l.render}:"
  | .entry name => s!"{name}:"
  | .goto l => s!"goto {l.render}"
  | .branch left relation right l =>
    s!"if {left.render} {relation.spelling} {right.render} goto {l.render}"
  | .call callee params => s!"call {callee}({Operand.renderArgs params})"
  | .callInto result callee params =>
    s!"{result.render} = call {callee}({Operand.renderArgs params})"
  | .new result name params => s!"{result.render} = new {name}({Operand.renderArgs params})"
  | .return value => s!"return {value.render}"
  | .close name => s!"end {name}"
  | .tryBegin l => s!"try_begin {l.render}"
  | .tryEnd => "try_end"

end Instruction

namespace Code

def lines (code : Code) : List String := code.map Instruction.render

def render (code : Code) : String := String.join (code.lines.map (· ++ "\n"))

def count (code : Code) (kind : Instruction.Kind) : Nat := code.countP (·.kind == kind)

def endsInJump (code : Code) : Bool := code.getLast?.any Instruction.isJump

end Code

end ThreeAddress
