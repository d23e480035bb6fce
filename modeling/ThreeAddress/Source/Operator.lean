namespace ThreeAddress

inductive BinaryOp
  | add | sub | mul | div | mod | lt | le | gt | ge | eq | ne
  deriving DecidableEq

inductive UnaryOp
  | neg | not
  deriving DecidableEq

inductive LogicalOp
  | and | or
  deriving DecidableEq

namespace BinaryOp

def all : List BinaryOp := [.add, .sub, .mul, .div, .mod, .lt, .le, .gt, .ge, .eq, .ne]

def spelling : BinaryOp → String
  | .add => "+"
  | .sub => "-"
  | .mul => "*"
  | .div => "/"
  | .mod => "%"
  | .lt => "<"
  | .le => "<="
  | .gt => ">"
  | .ge => ">="
  | .eq => "=="
  | .ne => "!="

def ofSpelling? (text : String) : Option BinaryOp := all.find? (·.spelling == text)

/-- Comparisons are boolean whatever they compare. -/
def isComparison : BinaryOp → Bool
  | .lt | .le | .gt | .ge | .eq | .ne => true
  | .add | .sub | .mul | .div | .mod => false

theorem ofSpelling?_spelling (op : BinaryOp) : ofSpelling? op.spelling = some op := by
  cases op <;> decide

end BinaryOp

namespace UnaryOp

def all : List UnaryOp := [.neg, .not]

def spelling : UnaryOp → String
  | .neg => "-"
  | .not => "!"

def ofSpelling? (text : String) : Option UnaryOp := all.find? (·.spelling == text)

end UnaryOp

namespace LogicalOp

def all : List LogicalOp := [.and, .or]

def spelling : LogicalOp → String
  | .and => "&&"
  | .or => "||"

def ofSpelling? (text : String) : Option LogicalOp := all.find? (·.spelling == text)

end LogicalOp

end ThreeAddress
