namespace ThreeAddress

structure Temp where
  number : Nat
  deriving DecidableEq

structure Label where
  number : Nat
  deriving DecidableEq

def Temp.render (t : Temp) : String := s!"t{t.number}"

def Label.render (l : Label) : String := s!"L{l.number}"

inductive Operand
  | temp : Temp → Operand
  /-- Named storage: a variable, a parameter, a field, or the receiver. -/
  | var : String → Operand
  | int : Int → Operand
  | bool : Bool → Operand
  | str : String → Operand
  | null : Operand
  | exception : Operand
  | element : Operand → List Operand → Operand
  | field : Operand → String → Operand

namespace Operand

def isTemp : Operand → Bool
  | .temp _ => true
  | _ => false

mutual

def temps : Operand → List Temp
  | .temp t => [t]
  | .element base indices => base.temps ++ tempsAll indices
  | .field base _ => base.temps
  | .var _ | .int _ | .bool _ | .str _ | .null | .exception => []

def tempsAll : List Operand → List Temp
  | [] => []
  | o :: rest => o.temps ++ tempsAll rest

end

mutual

def render : Operand → String
  | .temp t => t.render
  | .var name => name
  | .int n => toString n
  | .bool b => if b then "1" else "0"
  | .str s => "\"" ++ s ++ "\""
  | .null => "null"
  | .exception => "exception"
  | .element base indices => base.render ++ renderIndices indices
  | .field base name => base.render ++ "." ++ name

def renderIndices : List Operand → String
  | [] => ""
  | o :: rest => "[" ++ o.render ++ "]" ++ renderIndices rest

end

def renderArgs (args : List Operand) : String := ", ".intercalate (args.map render)

end Operand

end ThreeAddress
