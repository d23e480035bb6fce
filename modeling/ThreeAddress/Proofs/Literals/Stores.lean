import ThreeAddress.Proofs.Literals.Elements
import ThreeAddress.Proofs.Scope.Growth

namespace ThreeAddress

open Lowering

namespace Lower

def storeEach (base : Operand) : List (List Nat × Lower Valued) → Lower Code
  | [] => return []
  | (path, act) :: rest => do
    let (code, value) ← act
    let more ← storeEach base rest
    return code ++ elementStore base path value :: more

def storeLast (cells : List (List Nat × Lower Valued)) : Lower Valued := do
  let values ← cells.mapM (·.2)
  let base := Operand.temp (← freshTemp)
  let stores := cells.zipWith (fun cell x => elementStore base cell.1 x.2) values
  return (values.flatMap (·.1) ++ stores, base)

def reserve (id : SymbolId) (es : List Expr) (dims : List Nat) : Lower Unit := do
  let x ← symbol id
  let pointer := (← read).options.pointerSize
  let size ← arraySize pointer (leafSize pointer x.type.element es) dims
  modifySymbol id ({ · with dimensions := dims })
  bindStorage id size

/-- A position of an array, and how the value is found that is stored there. -/
def cellAt (literal : Nest (Lower Valued)) (zero : Operand) (path : List Nat) :
    List Nat × Lower Valued :=
  (path, leafAt literal zero path)

variable {c : Context} {s s' : State} {literal : Nest (Lower Valued)} {dims : List Nat}

theorem storeElements_eq (base : Operand) (literal : Nest (Lower Valued)) (dims : List Nat)
    (zero : Operand) :
    storeElements base literal dims zero =
      storeEach base ((positions dims).map (cellAt literal zero)) := by
  rw [storeElements]
  generalize positions dims = paths
  induction paths with
  | nil => simp [storeEach]
  | cons p rest ih =>
    rw [List.map_cons, cellAt, storeEach, ← ih, List.mapM_cons]
    simp

theorem literalShape_apply {name : String} {span : Span}
    (h : literal.shape? c.options.raggedArrays = some dims) :
    Runs (literalShape name span literal) c s (some dims) s := by
  simp [literalShape, h]

theorem literalValue_apply {span : Span}
    (h : literal.shape? c.options.raggedArrays = some dims) :
    literalValue literal span c s =
      storeLast ((positions dims).map (cellAt literal Ty.unknown.zero)) c s := by
  rw [literalValue, bind_ok (literalShape_apply h), storeLast, List.mapM_map]
  simp [List.zipWith_map_left, cellAt, Function.comp_def]

theorem declareArray_apply {id : SymbolId} {es : List Expr} {span : Span} {x : Symbol}
    (hx : s.table.symbol id = .ok x)
    (h : (Nest.row (lowerCells es)).shape? c.options.raggedArrays = some dims) :
    declareArray id es span c s = (do
      reserve id es dims
      storeEach (.var x.name) ((positions dims).map
        (cellAt (.row (lowerCells es)) x.type.element.zero))) c s := by
  have hs : Runs (symbol id) c s x s := runs_symbol.2 ⟨hx, rfl⟩
  have hr : Runs read c s c s := runs_read.2 ⟨rfl, rfl⟩
  rw [declareArray, reserve, bind_ok hs, bind_ok hr, bind_ok (literalShape_apply h)]
  simp only [bind_assoc]
  rw [bind_ok hs, bind_ok hr]
  simp only [storeElements_eq]

theorem assignArray_apply {id : SymbolId} {es : List Expr} {span : Span} {x : Symbol}
    (hx : s.table.symbol id = .ok x)
    (h : (Nest.row (lowerCells es)).shape? c.options.raggedArrays = some dims) :
    assignArray id es span c s = storeEach (.var x.name) ((positions dims).map
      (cellAt (.row (lowerCells es)) x.type.element.zero)) c s := by
  have hs : Runs (symbol id) c s x s := runs_symbol.2 ⟨hx, rfl⟩
  rw [assignArray, bind_ok hs, bind_ok (literalShape_apply h)]
  simp only [storeElements_eq]

/-- What becomes of a literal with these extents, wherever it stands: its cells are stored in
order, and nothing else is. A cell that is a gap holds the zero of the type of the elements. -/
structure Fills (c : Context) (es : List Expr) (at_ : Span) (dims : List Nat)
    (cells : Operand → List (List Nat × Lower Valued)) : Prop where
  declared : ∀ {b : Binding} {s id x}, b.value = some (.array es at_) →
    s.table.lookup c.scope b.name = .ok (some id) → s.table.symbol id = .ok x →
    b.lower c s = (do
      reserve id es dims
      storeEach (.var b.name) (cells x.type.element.zero)) c s
  assigned : ∀ {name whole s id x}, s.table.lookup c.scope name = .ok (some id) →
    s.table.symbol id = .ok x →
    Target.assign (.array es at_) whole (.ident name) c s =
      storeEach (.var name) (cells x.type.element.zero) c s
  used : ∀ demand s,
    Expr.lower demand (.array es at_) c s = storeLast (cells Ty.unknown.zero) c s

theorem fills_of_shape (es : List Expr) (at_ : Span)
    (h : (Nest.row (lowerCells es)).shape? c.options.raggedArrays = some dims) :
    Fills c es at_ dims fun zero => (positions dims).map (cellAt (.row (lowerCells es)) zero) where
  declared {b s id x} hv hl hx := by
    have hn : Runs (lookup b.name) c s (some id) s := runs_lookup.2 ⟨hl, rfl⟩
    rw [Binding.lower, bind_ok hn, hv, ← Table.lookup_name hl hx]
    exact declareArray_apply hx h
  assigned {name whole s id x} hl hx := by
    have hn : Runs (lookup name) c s (some id) s := runs_lookup.2 ⟨hl, rfl⟩
    rw [Target.assign, bind_ok hn, ← Table.lookup_name hl hx]
    exact assignArray_apply hx h
  used demand s := by
    rw [Expr.lower]
    exact literalValue_apply h

end Lower

open Lower

/-- The leaves of a rectangular literal are what stands at the positions of its array, in order and
each at its own; they are stored, and nothing is padded. -/
theorem Expr.Rectangular.stores_elements {es : List Expr} {at_ : Span} {dims : List Nat}
    (h : (Expr.array es at_).Rectangular dims) (c : Context) :
    let literal := Nest.row (lowerCells es)
    let elements := (Expr.array es at_).elements
    literal.shape? c.options.raggedArrays = some literal.extents ∧
    (positions literal.extents).map (fun p => (p, literal.at? p)) =
      elements.map (fun l => (l.1, some (storable (l.2.lower .value)))) ∧
    (elements.map (·.1)).Nodup ∧
    Fills c es at_ literal.extents fun _ => elements.map storing := by
  intro literal elements
  have hs : literal.shape? c.options.raggedArrays = some literal.extents :=
    Nest.shape?_of_conforms h.conforms
  have hg : (positions literal.extents).map (fun p => (p, literal.at? p)) =
      elements.map fun l => (l.1, some (storable (l.2.lower .value))) := by
    have hl : literal.leaves = elements.map storing := Expr.leaves_cell (.array es at_)
    have hg := Nest.grid_at? (Nest.conforms_extents h.conforms)
    rw [show Nest.row (lowerCells es) = literal from rfl, hl, List.map_map] at hg
    exact hg
  have hp : positions literal.extents = elements.map (·.1) := by
    simpa [Function.comp_def] using congrArg (List.map (·.1)) hg
  refine ⟨hs, hg, hp ▸ nodup_positions _, ?_⟩
  have hc (zero : Operand) : (positions literal.extents).map (cellAt literal zero) =
      elements.map storing := by
    have hz := congrArg (List.map (Prod.map id (·.getD (copyToTemp zero)))) hg
    rw [List.map_map, List.map_map] at hz
    exact hz
  have h := fills_of_shape es at_ hs
  rwa [funext hc] at h

theorem Expr.square_stores :
    (Expr.array square .unplaced).Rectangular [2, 2] ∧
    Fills { options := {} } square .unplaced [2, 2] fun _ =>
      [storing ([0, 0], .int 1 .unplaced), storing ([0, 1], .int 2 .unplaced),
        storing ([1, 0], .int 3 .unplaced), storing ([1, 1], .ident "x" .unplaced)] :=
  ⟨square_rectangular, (square_rectangular.stores_elements { options := {} }).2.2.2⟩

end ThreeAddress
