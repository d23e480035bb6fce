import ThreeAddress.Source.Position
import ThreeAddress.Ty

namespace ThreeAddress

inductive SymbolKind
  | variable | parameter | function | field | classType
  deriving DecidableEq

structure Declaration where
  name : String
  type : Ty
  kind : SymbolKind
  isConst : Bool := false
  owner : Option String := none
  /-- The scope that holds the parameters and locals of a function or the members of a class. -/
  members : Option Nat := none
  span : Span
  deriving DecidableEq

structure Storage where
  /-- Counted in bytes from the start of the frame, and given out once. -/
  offset : Option Nat := none
  size : Nat := 0
  dimensions : List Nat := []
  params : Nat := 0
  frame : Nat := 0
  /-- The name that instructions use. -/
  address : Option String := none
  deriving DecidableEq

structure Symbol extends Declaration, Storage
  deriving DecidableEq

namespace Symbol

def ofDeclaration (d : Declaration) : Symbol := { toDeclaration := d }

def isCallable (s : Symbol) : Bool := s.kind == .function

/-- The label of a function: a method stands under its class. -/
def qualifiedName (s : Symbol) : String :=
  match s.owner, s.kind with
  | some owner, .function => s!"{owner}.{s.name}"
  | _, _ => s.name

def place (s : Symbol) : String := s.address.getD s.name

def annotate (offset frame : Option Nat) (address : Option String) (dimensions : Option (List Nat))
    (s : Symbol) : Symbol :=
  { s with
    offset := offset.or s.offset
    frame := frame.getD s.frame
    address := address.or s.address
    dimensions := dimensions.getD s.dimensions }

@[simp] theorem toDeclaration_annotate (s : Symbol) (o f a d) :
    (s.annotate o f a d).toDeclaration = s.toDeclaration := rfl

end Symbol

end ThreeAddress
