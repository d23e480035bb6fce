import ThreeAddress.Scope.Table

namespace ThreeAddress

def Symbol.outline (x : Symbol) : Symbol := .ofDeclaration x.toDeclaration

def Declaration.unplaced (d : Declaration) : Declaration := { d with span := .unplaced }

def Symbol.unplaced (x : Symbol) : Symbol := { x with toDeclaration := x.toDeclaration.unplaced }

/-- `y` is `x` later on: storage that was given out has stayed. -/
structure Symbol.Grows (x y : Symbol) : Prop where
  outline : y.outline = x.outline
  offset : x.offset.isSome → y.offset = x.offset
  size : x.offset.isSome → y.size = x.size
  address : x.offset.isSome → y.address = x.address

namespace Symbol.Grows

theorem refl (x : Symbol) : x.Grows x := ⟨rfl, fun _ => rfl, fun _ => rfl, fun _ => rfl⟩

theorem trans {x y z : Symbol} (h : x.Grows y) (k : y.Grows z) : x.Grows z := by
  have keeps (b : x.offset.isSome) : y.offset.isSome := by rw [h.offset b]; exact b
  exact ⟨k.outline.trans h.outline, fun b => (k.offset (keeps b)).trans (h.offset b),
    fun b => (k.size (keeps b)).trans (h.size b),
    fun b => (k.address (keeps b)).trans (h.address b)⟩

theorem toDeclaration {x y : Symbol} (h : x.Grows y) : y.toDeclaration = x.toDeclaration :=
  congrArg (fun s => s.toDeclaration) (show y.outline = x.outline from h.outline)

end Symbol.Grows

def Scope.outline (s : Scope) : Scope := { s with symbols := s.symbols.map Symbol.outline }

def Scope.overwrite (k : Position → Position) (f : Symbol → Symbol) (s : Scope) : Scope :=
  { s with key := k s.key, symbols := s.symbols.map f }

section Overwrite

variable {k : Position → Position} {f : Symbol → Symbol}

theorem Scope.slot?_overwrite (hf : ∀ x, (f x).name = x.name) (s : Scope) (name : String) :
    (s.overwrite k f).slot? name = s.slot? name := by
  simp [Scope.slot?, Scope.overwrite, Function.comp_def, hf]

@[simp] theorem Scope.slot?_outline (s : Scope) (name : String) :
    s.outline.slot? name = s.slot? name :=
  Scope.slot?_overwrite (k := fun key => key) (f := Symbol.outline) (fun _ => rfl) s name

theorem nth_map (f : α → β) (xs : List α) (i : Nat) : nth (xs.map f) i = f <$> nth xs i := by
  cases h : xs[i]? <;> simp [nth, h, Functor.map, Except.map]

namespace Table

def outline (t : Table) : Table := ⟨t.scopes.map Scope.outline⟩

def overwrite (k : Position → Position) (f : Symbol → Symbol) (t : Table) : Table :=
  ⟨t.scopes.map (Scope.overwrite k f)⟩

theorem overwrite_overwrite (t : Table) (k k' : Position → Position) (f f' : Symbol → Symbol) :
    (t.overwrite k f).overwrite k' f' = t.overwrite (k' ∘ k) (f' ∘ f) := by
  simp [overwrite, Scope.overwrite, Function.comp_def]

theorem outline_eq (t : Table) : t.outline = t.overwrite (fun key => key) Symbol.outline := rfl

variable {t t' : Table}

@[simp] theorem size_overwrite : (t.overwrite k f).size = t.size := by simp [overwrite, size]

theorem scope_overwrite (id : Nat) : (t.overwrite k f).scope id = Scope.overwrite k f <$> t.scope id :=
  nth_map ..

theorem symbol_overwrite (id : SymbolId) : (t.overwrite k f).symbol id = f <$> t.symbol id := by
  simp only [symbol, scope_overwrite]
  cases t.scope id.scope with
  | error e => rfl
  | ok s => exact nth_map ..

theorem climb_overwrite (hf : ∀ x, (f x).name = x.name) (name : String) (fuel id : Nat) :
    (t.overwrite k f).climb name fuel id = t.climb name fuel id := by
  induction fuel generalizing id with
  | zero => rfl
  | succ fuel ih =>
    rw [climb, climb, scope_overwrite]
    cases t.scope id with
    | error e => rfl
    | ok s =>
      simp only [Functor.map, Except.map, bind, Except.bind, Scope.slot?_overwrite hf]
      cases h : s.slot? name with
      | some slot => rfl
      | none => cases hp : s.parent <;> simp [hp, Scope.overwrite, ih]

theorem lookup_overwrite (hf : ∀ x, (f x).name = x.name) (id : Nat) (name : String) :
    (t.overwrite k f).lookup id name = t.lookup id name := by
  rw [lookup, climb_overwrite hf, size_overwrite, lookup]

theorem lookupLocal_overwrite (hf : ∀ x, (f x).name = x.name) (id : Nat) (name : String) :
    (t.overwrite k f).lookupLocal id name = t.lookupLocal id name := by
  simp only [lookupLocal, scope_overwrite]
  cases t.scope id <;> simp [bind, Except.bind, Functor.map, Except.map, Scope.slot?_overwrite hf]

@[simp] theorem size_outline : t.outline.size = t.size := by
  rw [outline_eq, size_overwrite]

@[simp] theorem scopeFor_outline (key : Position) : t.outline.scopeFor key = t.scopeFor key := by
  simp [scopeFor, outline, Function.comp_def, Scope.outline]

@[simp] theorem lookup_outline (id : Nat) (name : String) :
    t.outline.lookup id name = t.lookup id name :=
  lookup_overwrite (k := fun key => key) (f := Symbol.outline) (fun _ => rfl) id name

@[simp] theorem lookupLocal_outline (id : Nat) (name : String) :
    t.outline.lookupLocal id name = t.lookupLocal id name :=
  lookupLocal_overwrite (k := fun key => key) (f := Symbol.outline) (fun _ => rfl) id name

theorem symbol_outline (id : SymbolId) : t.outline.symbol id = Symbol.outline <$> t.symbol id := by
  rw [outline_eq, symbol_overwrite]

theorem symbol_congr {id : SymbolId} {x y : Symbol} (h : t'.outline = t.outline)
    (hx : t'.symbol id = .ok x) (hy : t.symbol id = .ok y) : x.outline = y.outline := by
  have ho : Symbol.outline <$> t'.symbol id = Symbol.outline <$> t.symbol id := by
    rw [← symbol_outline, h, symbol_outline]
  rw [hx, hy] at ho
  exact Except.ok.inj ho

end Table

end Overwrite

end ThreeAddress
