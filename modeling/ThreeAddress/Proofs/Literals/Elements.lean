import Mathlib.Data.List.Nodup
import ThreeAddress.Proofs.Literals.Shapes

namespace ThreeAddress

theorem nodup_grid (dims : List Nat) : (grid dims).Nodup := by
  induction dims with
  | nil => simp [grid]
  | cons d dims ih =>
    rw [grid, List.nodup_flatMap]
    refine ⟨fun i _ => ih.map List.cons_injective, List.nodup_range.imp fun hij p hi hj => ?_⟩
    obtain ⟨_, _, rfl⟩ := List.mem_map.1 hi
    obtain ⟨_, _, h⟩ := List.mem_map.1 hj
    exact hij (List.cons.inj h).1.symm

theorem nodup_positions (dims : List Nat) : (positions dims).Nodup := by
  rw [positions]
  split
  · exact .nil
  · exact nodup_grid dims

theorem length_of_mem_grid {dims p : List Nat} (h : p ∈ grid dims) : p.length = dims.length := by
  induction dims generalizing p with
  | nil => simp_all [grid]
  | cons d dims ih =>
    obtain ⟨i, _, hp⟩ := List.mem_flatMap.1 h
    obtain ⟨q, hq, rfl⟩ := List.mem_map.1 hp
    simp [ih hq]

namespace Nest

mutual

def leaves : Nest α → List (List Nat × α)
  | .leaf a => [([], a)]
  | .row cells => leavesFrom 0 cells

def leavesFrom (i : Nat) : List (Nest α) → List (List Nat × α)
  | [] => []
  | c :: rest => c.leaves.map (Prod.map (i :: ·) id) ++ leavesFrom (i + 1) rest

end

variable {n : Nest α} {cells : List (Nest α)} {dims : List Nat}

theorem leavesFrom_eq {i d : Nat} (h : cells.length ≤ d) :
    leavesFrom i cells = (List.range d).flatMap fun j =>
      cells[j]?.elim [] fun c => c.leaves.map (Prod.map ((i + j) :: ·) id) := by
  induction cells generalizing i d with
  | nil => simp [leavesFrom]
  | cons c rest ih =>
    obtain ⟨d, rfl⟩ : ∃ d', d = d' + 1 := ⟨d - 1, by simp at h; omega⟩
    rw [leavesFrom, ih (Nat.le_of_succ_le_succ h), List.range_succ_eq_map, List.flatMap_cons,
      List.flatMap_map]
    simp [Nat.add_assoc, Nat.add_comm 1]

theorem exists_rowAt_of_mem_leaves {l : List Nat × α} (h : l ∈ n.leaves) {k : Nat}
    (hk : k < l.1.length) : ∃ inner, n.RowAt k inner := by
  obtain ⟨path, a⟩ := l
  induction path generalizing n k with
  | nil => simp at hk
  | cons i path ih =>
    cases n with
    | leaf b => simp [leaves] at h
    | row cells =>
      cases k with
      -- every step of the path enters a row
      | zero => exact ⟨cells, .here⟩
      | succ k =>
        rw [leaves, leavesFrom_eq (Nat.le_refl _)] at h
        obtain ⟨j, _, h⟩ := List.mem_flatMap.1 h
        cases hc : cells[j]? with
        | none => simp [hc] at h
        | some c =>
          simp only [hc, Option.elim_some, List.mem_map, Prod.exists, Prod.map_apply, id_eq,
            Prod.mk.injEq, List.cons.injEq] at h
          obtain ⟨_, _, hl, ⟨_, rfl⟩, rfl⟩ := h
          obtain ⟨inner, hr⟩ := ih hl (Nat.lt_of_succ_lt_succ hk)
          exact ⟨inner, .inside (List.mem_of_getElem? hc) hr⟩

theorem grid_at? (h : n.conforms dims) :
    (grid dims).map (fun p => (p, n.at? p)) = n.leaves.map fun l => (l.1, some l.2) := by
  induction n, dims, h using conforms_induction with
  | leaf a => rfl
  | row cells dims hc ih =>
    rw [grid, leaves, leavesFrom_eq (Nat.le_refl _), List.map_flatMap, List.map_flatMap]
    refine List.flatMap_congr fun j hj => ?_
    have hj : j < cells.length := List.mem_range.1 hj
    have hn := congrArg (List.map (Prod.map (j :: ·) id)) (ih cells[j] (by simp))
    simpa [List.getElem?_eq_getElem hj, at?, Function.comp_def] using hn

/-- No row is longer than the extent of its depth. -/
def Within (n : Nest α) (dims : List Nat) : Prop :=
  ∀ ⦃k cells⦄, n.RowAt k cells → ∃ d, dims[k]? = some d ∧ cells.length ≤ d

theorem within_row_cons {d : Nat} (h : (row cells).Within (d :: dims)) :
    cells.length ≤ d ∧ ∀ c ∈ cells, c.Within dims := by
  refine ⟨?_, fun c hc k inner hr => by simpa using h (.inside hc hr)⟩
  obtain ⟨_, hd, hl⟩ := h .here
  cases hd
  exact hl

theorem within_padded : n.Within n.padded := by
  intro k cells hr
  have h : IsLargest (n.lengthsAt k) n.padded[k]? := isLargest_padded
  rw [List.getElem?_eq_getElem (lt_length_padded.2 ⟨cells, hr⟩)] at h ⊢
  exact ⟨_, rfl, h.2 ⟨cells, hr, rfl⟩⟩

/-- Of the leaves, those at full depth stand at the positions of an array that has room for all
rows, each at one, in order. A leaf above that depth stands at none. -/
theorem filterMap_grid (h : n.Within dims) :
    (grid dims).filterMap (fun p => (n.at? p).map (p, ·)) =
      n.leaves.filter fun l => l.1.length = dims.length := by
  induction dims generalizing n with
  | nil =>
    cases n with
    | leaf a => rfl
    | row cells =>
      obtain ⟨_, hd, _⟩ := h .here
      cases hd
  | cons d dims ih =>
    cases n with
    | leaf a =>
      -- every position goes on where the leaf has ended
      have hp : ∀ p ∈ grid (d :: dims), (leaf a).at? p = none := by
        intro p hp
        have := length_of_mem_grid hp
        cases p <;> simp_all [at?]
      simp only [leaves, List.filter_cons, List.length_nil, List.length_cons]
      simpa using hp
    | row cells =>
      obtain ⟨hd, hc⟩ := within_row_cons h
      rw [grid, leaves, leavesFrom_eq hd, List.filterMap_flatMap, List.filter_flatMap]
      refine List.flatMap_congr fun j _ => ?_
      cases hj : cells[j]? with
      | none => simp [at?, hj]
      | some c =>
        have hn := congrArg (List.map (Prod.map (j :: ·) id)) (ih (hc c (List.mem_of_getElem? hj)))
        simpa [List.filterMap_map, List.filter_map, List.map_filterMap, at?, hj,
          Function.comp_def] using hn

end Nest

open Lower

mutual

/-- The expressions that a literal is made of, down to those that are no literals, from left to
right, and the indices that lead to each. -/
def Expr.elements : Expr → List (List Nat × Expr)
  | .array es _ => elementsFrom 0 es
  | e => [([], e)]

def elementsFrom (i : Nat) : List Expr → List (List Nat × Expr)
  | [] => []
  | e :: rest => e.elements.map (Prod.map (i :: ·) id) ++ elementsFrom (i + 1) rest

end

mutual

theorem Expr.leaves_eq : ∀ e : Expr, e.leaves = e.elements.map (·.2)
  | .array es _ => leavesAll_eq 0 es
  | .int .. | .str .. | .bool .. | .null _ | .ident .. | .this _ | .binary .. | .unary ..
  | .logical .. | .ternary .. | .call .. | .new .. | .index .. | .property .. => rfl

theorem leavesAll_eq : ∀ (i : Nat) (es : List Expr), leavesAll es = (elementsFrom i es).map (·.2)
  | _, [] => rfl
  | i, e :: rest => by
    rw [leavesAll, e.leaves_eq, leavesAll_eq (i + 1) rest, elementsFrom, List.map_append]
    simp [Function.comp_def]

end

abbrev storing : List Nat × Expr → List Nat × Lower Valued :=
  Prod.map id fun e => storable (e.lower .value)

mutual

theorem Expr.leaves_cell : ∀ e : Expr, e.cell.leaves = e.elements.map storing
  | .array es _ => leavesFrom_cells 0 es
  | .int .. | .str .. | .bool .. | .null _ | .ident .. | .this _ | .binary .. | .unary ..
  | .logical .. | .ternary .. | .call .. | .new .. | .index .. | .property .. => rfl

theorem leavesFrom_cells : ∀ (i : Nat) (es : List Expr),
    Nest.leavesFrom i (lowerCells es) = (elementsFrom i es).map storing
  | i, [] => by rw [lowerCells]; rfl
  | i, e :: rest => by
    rw [lowerCells_eq_map, List.map_cons, Nest.leavesFrom, ← lowerCells_eq_map,
      e.leaves_cell, leavesFrom_cells (i + 1) rest, elementsFrom, List.map_append]
    simp [Function.comp_def]

end

theorem Expr.filterMap_positions (es : List Expr) (at_ : Span) :
    let literal := Nest.row (lowerCells es)
    (positions literal.padded).filterMap (fun p => (literal.at? p).map (p, ·)) =
      ((Expr.array es at_).elements.filter fun l => l.1.length = literal.padded.length).map storing := by
  intro literal
  have hl : literal.leaves = (Expr.array es at_).elements.map storing := leaves_cell (.array es at_)
  have hg := Nest.filterMap_grid (Nest.within_padded (n := literal))
  rw [hl, List.filter_map] at hg
  exact hg

theorem Expr.exists_position (e : Expr) {e' : Expr} {dims : List Nat} (h : e' ∈ e.leaves)
    (hc : e.cell.conforms dims) :
    ∃ path ∈ grid dims, e.cell.at? path = some (storable (e'.lower .value)) := by
  rw [leaves_eq] at h
  obtain ⟨l, hl, rfl⟩ := List.mem_map.1 h
  have hg := Nest.grid_at? hc
  rw [leaves_cell, List.map_map] at hg
  have hm : (l.1, some (storable (l.2.lower .value))) ∈
      (grid dims).map fun p => (p, e.cell.at? p) := by
    rw [hg]
    exact List.mem_map_of_mem hl
  obtain ⟨p, hp, he⟩ := List.mem_map.1 hm
  exact ⟨p, hp, (Prod.mk.inj he).2⟩

end ThreeAddress
