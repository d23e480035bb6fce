import Mathlib.Data.List.Forall2
import Mathlib.Order.Bounds.Basic
import ThreeAddress.Proofs.Lowering.Forms

namespace ThreeAddress

def IsLargest (S : Set Nat) : Option Nat → Prop
  | none => S = ∅
  | some m => IsGreatest S m

theorem IsLargest.max {S T : Set Nat} {x y : Option Nat} (h : IsLargest S x) (k : IsLargest T y) :
    IsLargest (S ∪ T) (max x y) := by
  cases x with
  | none =>
    obtain rfl : S = ∅ := h
    simpa using k
  | some m =>
    cases y with
    | none =>
      obtain rfl : T = ∅ := k
      simpa using h
    | some n => exact IsGreatest.union h k

namespace Nest

def isRow : Nest α → Bool
  | .leaf _ => false
  | .row _ => true

/-- A row with `k` rows around it. -/
inductive RowAt : Nest α → Nat → List (Nest α) → Prop
  | here {cells} : RowAt (.row cells) 0 cells
  | inside {n cells deep} : n ∈ cells → RowAt n k deep → RowAt (.row cells) (k + 1) deep

variable {n m : Nest α} {cells inner : List (Nest α)} {dims : List Nat} {k : Nat}

@[simp] theorem not_rowAt_leaf {a : α} : ¬(leaf a).RowAt k inner := nofun

theorem rowAt_row_zero : (row cells).RowAt 0 inner ↔ inner = cells := by
  constructor
  · rintro ⟨⟩
    rfl
  · rintro rfl
    exact .here

theorem rowAt_row_succ : (row cells).RowAt (k + 1) inner ↔ ∃ n ∈ cells, n.RowAt k inner := by
  constructor
  · rintro ⟨⟩
    exact ⟨_, ‹_›, ‹_›⟩
  · rintro ⟨n, hn, h⟩
    exact .inside hn h

/-- Every row of depth `k` has the `k`-th extent as its length, and holds rows alone if there are
more extents, leaves alone if there are not. -/
def Rectangular (n : Nest α) (dims : List Nat) : Prop :=
  ∀ ⦃k cells⦄, n.RowAt k cells →
    dims[k]? = some cells.length ∧ ∀ c ∈ cells, c.isRow ↔ k + 1 < dims.length

theorem rectangular_leaf {a : α} : (leaf a).Rectangular dims := nofun

theorem rectangular_cons {d : Nat} : (row cells).Rectangular (d :: dims) ↔
    cells.length = d ∧ ∀ c ∈ cells, (c.isRow ↔ dims ≠ []) ∧ c.Rectangular dims := by
  constructor
  · intro h
    obtain ⟨hd, hc⟩ := h .here
    refine ⟨by simpa using hd.symm, fun c hm => ⟨?_, fun k inner hr => ?_⟩⟩
    · simpa [List.length_pos_iff] using hc c hm
    · simpa using h (.inside hm hr)
  · rintro ⟨rfl, h⟩ k inner hr
    cases hr with
    | here => simpa [List.length_pos_iff] using fun c hm => (h c hm).1
    | inside hm hr => simpa using (h _ hm).2 hr

theorem allConform_iff : allConform cells dims ↔ ∀ c ∈ cells, c.conforms dims := by
  induction cells with
  | nil => simp [allConform]
  | cons c rest ih => simp [allConform, ih]

theorem conforms_row_cons {d : Nat} :
    (row cells).conforms (d :: dims) ↔ cells.length = d ∧ ∀ c ∈ cells, c.conforms dims := by
  simp [conforms, allConform_iff]

theorem conforms_iff : n.conforms dims ↔ (n.isRow ↔ dims ≠ []) ∧ n.Rectangular dims := by
  induction dims generalizing n with
  | nil =>
    cases n with
    | leaf a => simp [conforms, isRow, rectangular_leaf]
    | row cells => simp [conforms, isRow]
  | cons d dims ih =>
    cases n with
    | leaf a => simp [conforms, isRow]
    | row cells =>
      rw [conforms_row_cons, rectangular_cons]
      simp [isRow, ih]

@[elab_as_elim]
theorem conforms_induction {P : ∀ (n : Nest α) (dims : List Nat), n.conforms dims → Prop}
    (leaf : ∀ a, P (.leaf a) [] rfl)
    (row : ∀ cells dims (hc : ∀ c ∈ cells, c.conforms dims),
      (∀ c (hm : c ∈ cells), P c dims (hc c hm)) →
      P (.row cells) (cells.length :: dims) (conforms_row_cons.2 ⟨rfl, hc⟩))
    (n : Nest α) (dims : List Nat) (h : n.conforms dims) : P n dims h := by
  induction dims generalizing n with
  | nil =>
    cases n with
    | leaf a => exact leaf a
    | row => simp [conforms] at h
  | cons d dims ih =>
    cases n with
    | leaf => simp [conforms] at h
    | row cells =>
      obtain ⟨rfl, hc⟩ := conforms_row_cons.1 h
      exact row cells dims hc fun c hm => ih c (hc c hm)

theorem extents_eq_of_conforms (h : n.conforms dims) (k : m.conforms dims) :
    m.extents = n.extents := by
  induction n, dims, h using conforms_induction generalizing m with
  | leaf a => cases m <;> simp_all [conforms, extents]
  | row xs dims hx ih =>
    cases m with
    | leaf => simp [conforms] at k
    | row ys =>
      obtain ⟨hl, hy⟩ := conforms_row_cons.1 k
      rw [extents, extents, hl]
      cases xs with
      | nil =>
        obtain rfl : ys = [] := List.length_eq_zero_iff.1 hl
        rfl
      -- extents are read off the first cells, which conform to the same rest
      | cons x xs =>
        cases ys with
        | nil => cases hl
        | cons y ys => rw [headExtents, headExtents, ih x (by simp) (hy y (by simp))]

theorem extents_of_mem {c : Nest α} (h : ∀ c ∈ cells, c.conforms dims) (hc : c ∈ cells) :
    c.extents = headExtents cells := by
  cases cells with
  | nil => cases hc
  | cons x rest => exact extents_eq_of_conforms (h x (by simp)) (h c hc)

theorem conforms_extents (h : n.conforms dims) : n.conforms n.extents := by
  induction n, dims, h using conforms_induction with
  | leaf a => rfl
  | row cells dims hc ih =>
    rw [extents, conforms_row_cons]
    refine ⟨rfl, fun c hm => ?_⟩
    rw [← extents_of_mem hc hm]
    exact ih c hm

theorem maxEach_self (xs : List Nat) : maxEach xs xs = xs := by
  induction xs with
  | nil => rfl
  | cons x rest ih => rw [maxEach, ih, Nat.max_self]

theorem paddedAll_eq {xs : List Nat} (hn : cells ≠ []) (h : ∀ c ∈ cells, c.padded = xs) :
    paddedAll cells = xs := by
  induction cells with
  | nil => exact absurd rfl hn
  | cons c rest ih =>
    rw [paddedAll, h c (by simp)]
    cases rest with
    | nil => cases xs <;> rfl
    | cons c' rest => rw [ih (by simp) fun c hc => h c (by simp [hc]), maxEach_self]

theorem padded_eq_extents (h : n.conforms dims) : n.padded = n.extents := by
  induction n, dims, h using conforms_induction with
  | leaf a => rfl
  | row cells dims hc ih =>
    rw [padded, extents]
    cases cells with
    | nil => rfl
    | cons x rest =>
      rw [paddedAll_eq (by simp) fun c hm => (ih c hm).trans (extents_of_mem hc hm)]

theorem getElem?_maxEach (xs ys : List Nat) (k : Nat) :
    (maxEach xs ys)[k]? = max xs[k]? ys[k]? := by
  induction xs, ys using maxEach.induct generalizing k with
  | case1 ys => simp [maxEach]
  | case2 xs hn => cases xs <;> simp [maxEach]
  | case3 x xs y ys ih => cases k <;> simp [maxEach, ih]

/-- The lengths of the rows of depth `k`. -/
def lengthsAt (n : Nest α) (k : Nat) : Set Nat := {d | ∃ cells, n.RowAt k cells ∧ cells.length = d}

theorem isLargest_paddedAll
    (h : ∀ c ∈ cells, IsLargest (c.lengthsAt k) c.padded[k]?) :
    IsLargest {d | ∃ c ∈ cells, d ∈ c.lengthsAt k} (paddedAll cells)[k]? := by
  induction cells with
  | nil => simp [paddedAll, IsLargest]
  | cons c rest ih =>
    rw [paddedAll, getElem?_maxEach]
    convert (h c (by simp)).max (ih fun c hc => h c (by simp [hc])) using 1
    ext d
    simp

/-- The padded extents are the greatest lengths, depth by depth. -/
theorem isLargest_padded : IsLargest (n.lengthsAt k) n.padded[k]? := by
  induction k generalizing n with
  | zero =>
    cases n with
    | leaf a => simp [padded, lengthsAt, IsLargest]
    | row cells => simp [padded, lengthsAt, IsLargest, rowAt_row_zero]
  | succ k ih =>
    cases n with
    | leaf a => simp [padded, lengthsAt, IsLargest]
    | row cells =>
      have h : IsLargest {d | ∃ c ∈ cells, d ∈ c.lengthsAt k} (paddedAll cells)[k]? :=
        isLargest_paddedAll fun _ _ => ih
      rw [padded, List.getElem?_cons_succ]
      convert h using 1
      ext d
      simp only [lengthsAt, rowAt_row_succ, Set.mem_ofPred_eq]
      exact ⟨fun ⟨inner, ⟨c, hc, hr⟩, hd⟩ => ⟨c, hc, inner, hr, hd⟩,
        fun ⟨c, hc, inner, hr, hd⟩ => ⟨inner, ⟨c, hc, hr⟩, hd⟩⟩

theorem lt_length_padded : k < n.padded.length ↔ ∃ cells, n.RowAt k cells := by
  have h : IsLargest (n.lengthsAt k) n.padded[k]? := isLargest_padded
  constructor
  · intro hk
    rw [List.getElem?_eq_getElem hk] at h
    obtain ⟨cells, hr, _⟩ := h.1
    exact ⟨cells, hr⟩
  · rintro ⟨cells, hr⟩
    by_contra hk
    rw [List.getElem?_eq_none (Nat.le_of_not_lt hk)] at h
    exact h.subset ⟨cells, hr, rfl⟩

theorem isGreatest_length_padded (cells : List (Nest α)) :
    IsGreatest {d | ∃ k inner, (row cells).RowAt k inner ∧ d = k + 1} (row cells).padded.length := by
  have hp : 0 < (row cells).padded.length := by simp [padded]
  constructor
  · obtain ⟨inner, hr⟩ := lt_length_padded.1 (Nat.sub_one_lt_of_lt hp)
    exact ⟨_, inner, hr, by omega⟩
  · rintro d ⟨k, inner, hr, rfl⟩
    exact lt_length_padded.2 ⟨inner, hr⟩

theorem shape?_of_conforms {policy : RaggedArrays} (h : n.conforms dims) :
    n.shape? policy = some n.extents := by
  simp [shape?, conforms_extents h]

theorem shape?_zeroPad : n.shape? .zeroPad = some n.padded := by
  unfold shape?
  split
  next h => rw [padded_eq_extents h]
  next => rfl

end Nest

structure Nest.Fits (n : Nest α) (n' : Nest β) : Prop where
  extents : n.extents = n'.extents
  conforms : ∀ dims, n.conforms dims = n'.conforms dims
  padded : n.padded = n'.padded

theorem Nest.Fits.shape? {n : Nest α} {n' : Nest β} (h : n.Fits n') (policy : RaggedArrays) :
    n.shape? policy = n'.shape? policy := by
  unfold Nest.shape?
  rw [h.extents, h.conforms, h.padded]

theorem Nest.Fits.row {cells : List (Nest α)} {cells' : List (Nest β)}
    (h : List.Forall₂ Nest.Fits cells cells') : (Nest.row cells).Fits (.row cells') := by
  have hall : (∀ dims, Nest.allConform cells dims = Nest.allConform cells' dims) ∧
      Nest.paddedAll cells = Nest.paddedAll cells' := by
    induction h with
    | nil => exact ⟨fun _ => rfl, rfl⟩
    | cons h _ ih =>
      refine ⟨fun dims => ?_, ?_⟩
      · rw [Nest.allConform, Nest.allConform, h.conforms, ih.1]
      · rw [Nest.paddedAll, Nest.paddedAll, h.padded, ih.2]
  refine ⟨?_, fun dims => ?_, ?_⟩
  · rw [Nest.extents, Nest.extents, h.length_eq]
    cases h with
    | nil => rfl
    | cons h _ => rw [Nest.headExtents, Nest.headExtents, h.extents]
  · cases dims with
    | nil => rfl
    | cons d dims => rw [Nest.conforms, Nest.conforms, h.length_eq, hall.1]
  · rw [Nest.padded, Nest.padded, h.length_eq, hall.2]

theorem Nest.Fits.leaf (a : α) (b : β) : (Nest.leaf a).Fits (.leaf b) := ⟨rfl, fun _ => rfl, rfl⟩

namespace Expr

def isLiteral : Expr → Bool
  | .array .. => true
  | _ => false

inductive LiteralAt : Expr → Nat → List Expr → Prop
  | here {es at_} : LiteralAt (.array es at_) 0 es
  | inside {e es at_ fs} : e ∈ es → LiteralAt e k fs → LiteralAt (.array es at_) (k + 1) fs

variable {e : Expr} {es : List Expr} {dims : List Nat}

/-- All literals of depth `k` list as many expressions as the `k`-th extent says: literals alone
where a further extent follows, and none at the last. -/
def Rectangular (e : Expr) (dims : List Nat) : Prop :=
  ∀ ⦃k fs⦄, e.LiteralAt k fs →
    dims[k]? = some fs.length ∧ ∀ e ∈ fs, e.isLiteral ↔ k + 1 < dims.length

theorem isRow_cell (e : Expr) : e.cell.isRow = e.isLiteral := by cases e <;> rfl

theorem rowAt_cell {k : Nat} {cells : List (Nest (Lower Valued))} :
    e.cell.RowAt k cells ↔ ∃ fs, e.LiteralAt k fs ∧ cells = fs.map cell := by
  constructor
  -- the cells of an expression are a row only for a literal, at every depth
  · generalize hn : e.cell = n
    intro h
    induction h generalizing e with
    | here =>
      cases e <;> simp only [cell, Nest.row.injEq, reduceCtorEq] at hn
      exact ⟨_, .here, by rw [← hn, lowerCells_eq_map]⟩
    | inside hm _ ih =>
      cases e <;> simp only [cell, Nest.row.injEq, reduceCtorEq] at hn
      rw [← hn, lowerCells_eq_map] at hm
      obtain ⟨e, he, hc⟩ := List.mem_map.1 hm
      obtain ⟨fs, hl, rfl⟩ := ih hc
      exact ⟨fs, .inside he hl, rfl⟩
  · rintro ⟨fs, hl, rfl⟩
    induction hl with
    | here =>
      rw [cell_array]
      exact .here
    | inside he _ ih =>
      rw [cell_array]
      exact .inside (List.mem_map_of_mem he) ih

theorem rectangular_cell : e.cell.Rectangular dims ↔ e.Rectangular dims := by
  constructor
  · intro h k fs hl
    simpa [isRow_cell] using h (rowAt_cell.2 ⟨fs, hl, rfl⟩)
  · intro h k cells hr
    obtain ⟨fs, hl, rfl⟩ := rowAt_cell.1 hr
    simpa [isRow_cell] using h hl

theorem Rectangular.conforms {span : Span} (h : (Expr.array es span).Rectangular dims) :
    (Nest.row (lowerCells es)).conforms dims := by
  refine Nest.conforms_iff.2 ⟨?_, rectangular_cell.2 h⟩
  cases dims with
  | nil => simpa using (h .here).1
  | cons => simp [Nest.isRow]

/-- The check against the extents of the first cells succeeds on rectangles alone; the padded
extents are as many as literals stand in each other, each the greatest length of its depth, and
those of a rectangle are its own. -/
theorem array_shapes (es : List Expr) (span : Span) :
    let literal := Nest.row (lowerCells es)
    (literal.conforms literal.extents ↔ ∃ dims, (Expr.array es span).Rectangular dims) ∧
    IsGreatest {d | ∃ k fs, (Expr.array es span).LiteralAt k fs ∧ d = k + 1}
      literal.padded.length ∧
    (∀ k d, literal.padded[k]? = some d →
      IsGreatest {d | ∃ fs, (Expr.array es span).LiteralAt k fs ∧ d = fs.length} d) ∧
    ∀ dims, (Expr.array es span).Rectangular dims → literal.padded = literal.extents := by
  -- rows of cells and literals inside the literal are the same things, depth by depth
  intro literal
  have hrow {k : Nat} {cells : List (Nest (Lower Valued))} :
      literal.RowAt k cells ↔ ∃ fs, (Expr.array es span).LiteralAt k fs ∧ cells = fs.map cell :=
    rowAt_cell (e := .array es span)
  refine ⟨?_, ?_, fun k d hd => ?_, fun _ h => Nest.padded_eq_extents h.conforms⟩
  · constructor
    · intro h
      exact ⟨_, rectangular_cell.1 (Nest.conforms_iff.1 h).2⟩
    · rintro ⟨_, h⟩
      exact Nest.conforms_extents h.conforms
  · have h := Nest.isGreatest_length_padded (lowerCells es)
    simpa [hrow, literal] using h
  · have h : IsLargest (literal.lengthsAt k) literal.padded[k]? := Nest.isLargest_padded
    rw [hd] at h
    simpa [IsLargest, Nest.lengthsAt, hrow, eq_comm] using h

def square : List Expr :=
  [.array [.int 1 .unplaced, .int 2 .unplaced] .unplaced,
    .array [.int 3 .unplaced, .ident "x" .unplaced] .unplaced]

theorem square_rectangular : (Expr.array square .unplaced).Rectangular [2, 2] := by
  have h : (Expr.array square .unplaced).cell.conforms [2, 2] := rfl
  exact rectangular_cell.1 (Nest.conforms_iff.1 h).2

theorem square_shapes :
    let literal := Nest.row (lowerCells square)
    literal.conforms [2, 2] ∧ literal.padded = literal.extents ∧
      IsGreatest {d | ∃ fs, (Expr.array square .unplaced).LiteralAt 1 fs ∧ d = fs.length} 2 := by
  obtain ⟨hc, _, hd, hp⟩ := array_shapes square .unplaced
  exact ⟨hc.2 ⟨_, square_rectangular⟩, hp _ square_rectangular, hd 1 2 rfl⟩

end Expr

end ThreeAddress
