import ThreeAddress.Code.Instruction
import ThreeAddress.Lowering.Ledger
import ThreeAddress.Scope.Table

/-! The state of lowering. A step of lowering yields the code of what it lowers; the ledger, the
table and the problems found so far are threaded through, and the scope and the class it stands in
are given from outside, so that leaving them needs no care. -/

namespace ThreeAddress

/-- What is wrong with a program. None of these stops lowering. -/
inductive Problem
  | unresolved (name : String) (line : Nat)
  | breakOutside (line : Nat)
  | continueOutside (line : Nat)
  | ragged (name : String) (line : Nat)
  deriving DecidableEq

namespace Problem

def line : Problem → Nat
  | .unresolved _ line | .breakOutside line | .continueOutside line | .ragged _ line => line

def message : Problem → String
  | .unresolved name line => s!"unresolved symbol '{name}' at line {line}"
  | .breakOutside line => s!"'break' outside of a loop or switch at line {line}"
  | .continueOutside line => s!"'continue' outside of a loop at line {line}"
  | .ragged name line => s!"ragged array literal for '{name}' at line {line}"

end Problem

namespace Lowering

structure Context where
  options : Options
  scope : Nat := Table.global
  className : Option String := none

structure State where
  ledger : Ledger
  table : Table
  problems : List Problem := []
  deriving DecidableEq

end Lowering

abbrev Lower := ReaderT Lowering.Context (StateT Lowering.State Checked)

namespace Lower

def account (act : Account α) : Lower α := fun _ s => do
  let (a, ledger) ← act.run s.ledger
  return (a, { s with ledger })

def report (p : Problem) : Lower Unit := modify fun s => { s with problems := s.problems ++ [p] }

def lookup (name : String) : Lower (Option SymbolId) := do
  (← get).table.lookup (← read).scope name

def symbol (id : SymbolId) : Lower Symbol := do (← get).table.symbol id

def modifySymbol (id : SymbolId) (f : Symbol → Symbol) : Lower Unit :=
  modify fun s => { s with table := s.table.modifySymbol id f }

def inScope (scope : Nat) (act : Lower α) : Lower α := withReader ({ · with scope }) act

/-- The scope whose key is the start of `span`; the current one if there is none. -/
def scopeOf (span : Span) : Lower Nat := do
  return ((← get).table.scopeFor span.toPosition).getD (← read).scope

def inBlock (span : Span) (act : Lower α) : Lower α := do inScope (← scopeOf span) act

def valueSize (id : SymbolId) : Lower Nat := do
  return (← symbol id).type.size (← read).options.pointerSize

/-- Gives the symbol its place in the current frame. A symbol has one place at most. -/
def bindStorage (id : SymbolId) (size : Nat) : Lower Unit := do
  let offset ← account (Ledger.allocate size)
  let s ← symbol id
  if s.offset.isSome then throw (.boundTwice s.name)
  modifySymbol id fun s => { s with offset := some offset, size, address := some s.name }

def freshTemp : Lower Temp := account Ledger.freshTemp

def freshLabel : Lower Label := account Ledger.freshLabel

def copyToTemp (value : Operand) : Lower (Code × Operand) := do
  let t ← freshTemp
  return ([.assign (.temp t) value], .temp t)

def ensureTemp (value : Operand) : Lower (Code × Operand) :=
  if value.isTemp then return ([], value) else copyToTemp value

def place (l : Option Label) : Code := l.toList.map .label

def gotoBreak : Lower Code := return (← account Ledger.breakLabel).toList.map .goto

end Lower

end ThreeAddress
