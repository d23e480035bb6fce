import ThreeAddress.Fault
import ThreeAddress.Scope.Symbol

/-! The tree of scopes, kept as a list. A scope is known by its index, names its parent and its
children by theirs, and has a position of the source as its key; the global scope comes first.

What a caller may get wrong is an index, so whatever takes one from outside is `Checked`. -/

namespace ThreeAddress

inductive ScopeKind
  | global | block | functionBody | classBody
  deriving DecidableEq

/-- Functions and classes lay out their storage in a frame of their own. -/
def ScopeKind.opensFrame : ScopeKind → Bool
  | .functionBody | .classBody => true
  | .global | .block => false

structure Scope where
  key : Position
  kind : ScopeKind
  parent : Option Nat
  children : List Nat := []
  symbols : List Symbol := []
  deriving DecidableEq

def Scope.slot? (s : Scope) (name : String) : Option Nat := s.symbols.findIdx? (·.name == name)

def Scope.symbol? (s : Scope) (name : String) : Option Symbol := s.symbols.find? (·.name == name)

structure SymbolId where
  scope : Nat
  slot : Nat
  deriving DecidableEq

structure Table where
  scopes : List Scope
  deriving DecidableEq

namespace Table

def empty : Table := ⟨[⟨.origin, .global, none, [], []⟩]⟩

def global : Nat := 0

def size (t : Table) : Nat := t.scopes.length

def symbols (t : Table) : List Symbol := t.scopes.flatMap (·.symbols)

def modifyScope (t : Table) (id : Nat) (f : Scope → Scope) : Table := ⟨t.scopes.modify id f⟩

def modifySymbol (t : Table) (id : SymbolId) (f : Symbol → Symbol) : Table :=
  t.modifyScope id.scope fun s => { s with symbols := s.symbols.modify id.slot f }

def scopeFor (t : Table) (key : Position) : Option Nat := t.scopes.findIdx? (·.key == key)

/-- Opens a scope inside `parent`. A key that is taken is refused by naming the scope that has it,
and the table stays as it is. -/
def addScope (t : Table) (key : Position) (kind : ScopeKind) (parent : Nat) :
    Except Nat Nat × Table :=
  match t.scopeFor key with
  | some taken => (.error taken, t)
  | none =>
    let grown : Table := ⟨t.scopes ++ [{ key, kind, parent }]⟩
    (.ok t.size, grown.modifyScope parent fun s => { s with children := s.children ++ [t.size] })

/-- Declares a symbol in `scope`. A name that is taken there is refused by naming the symbol that
has it, and the table stays as it is. -/
def declare (t : Table) (scope : Nat) (symbol : Symbol) : Except SymbolId SymbolId × Table :=
  let here := (t.scopes[scope]?.map (·.symbols)).getD []
  match here.findIdx? (·.name == symbol.name) with
  | some taken => (.error ⟨scope, taken⟩, t)
  | none =>
    (.ok ⟨scope, here.length⟩,
      t.modifyScope scope fun s => { s with symbols := s.symbols ++ [symbol] })

def scope (t : Table) (id : Nat) : Checked Scope := nth t.scopes id

def symbol (t : Table) (id : SymbolId) : Checked Symbol := do nth (← t.scope id.scope).symbols id.slot

/-- `addScope` for a parent that may not exist. The new scope is in the table when its parent is
looked up. -/
def addScopeChecked (t : Table) (key : Position) (kind : ScopeKind) (parent : Nat) :
    Checked (Except Nat Nat × Table) :=
  if t.scopeFor key = none ∧ t.size < parent then .error (.outOfBounds (t.size + 1) parent)
  else .ok (t.addScope key kind parent)

def declareChecked (t : Table) (scope : Nat) (symbol : Symbol) :
    Checked (Except SymbolId SymbolId × Table) := do
  let _ ← t.scope scope
  return t.declare scope symbol

def lookupLocal (t : Table) (scope : Nat) (name : String) : Checked (Option SymbolId) :=
  return (← t.scope scope).slot? name |>.map (⟨scope, ·⟩)

/-- The declaration of `name` nearest to `scope` on the way up, after at most `fuel` scopes. -/
def climb (t : Table) (name : String) : (fuel scope : Nat) → Checked (Option SymbolId)
  | 0, _ => .error .endless
  | fuel + 1, id => do
    let s ← t.scope id
    match s.slot? name, s.parent with
    | some slot, _ => return some ⟨id, slot⟩
    | none, some parent => t.climb name fuel parent
    | none, none => return none

/-- The innermost declaration of `name` that is visible from `scope`. A way up that takes more
steps than there are scopes has no end. -/
def lookup (t : Table) (scope : Nat) (name : String) : Checked (Option SymbolId) :=
  t.climb name t.size scope

def visible? (t : Table) (scope : Nat) (name : String) : Option Symbol :=
  match t.lookup scope name with
  | .ok (some id) => (t.symbol id).toOption
  | _ => none

def frameChildren (t : Table) (s : Scope) : Checked (List Nat) :=
  s.children.filterM fun child => return !(← t.scope child).kind.opensFrame

/-- The symbols of the scopes that are still pending and of those below them in the same frame, in
preorder, from at most `fuel` scopes. -/
def gather (t : Table) : (fuel : Nat) → (pending : List Nat) → Checked (List Symbol)
  | _, [] => .ok []
  | 0, _ :: _ => .error .endless
  | fuel + 1, id :: pending => do
    let s ← t.scope id
    return s.symbols ++ (← t.gather fuel ((← t.frameChildren s) ++ pending))

def frameMembers (t : Table) (owner : SymbolId) : Checked (List Symbol) := do
  t.gather t.size (← t.symbol owner).members.toList

def member (t : Table) (owner : SymbolId) (name : String) : Checked (Option Symbol) :=
  return (← t.frameMembers owner).find? (·.name == name)

end Table

end ThreeAddress
