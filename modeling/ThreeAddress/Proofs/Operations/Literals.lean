import ThreeAddress.Proofs.Emission.Rules
import ThreeAddress.Proofs.Names.Values
import ThreeAddress.Proofs.Operations.Nodes

namespace ThreeAddress

open Instruction (Kind)

theorem flatMap_range_getElem? {α β : Type} (f : Option α → List β) (xs : List α) :
    (List.range xs.length).flatMap (fun i => f xs[i]?) = xs.flatMap fun x => f (some x) := by
  induction xs with
  | nil => rfl
  | cons x rest ih =>
    rw [List.length_cons, List.range_succ_eq_map, List.flatMap_cons, List.flatMap_map,
      List.flatMap_cons, ← ih]
    simp

mutual

theorem Expr.grid_leaves : ∀ (e : Expr) {dims : List Nat}, e.cell.conforms dims →
    (grid dims).map e.at? = e.leaves.map some
  | .array es at_, [] => by simp [Expr.cell_array, Nest.conforms]
  | .array es at_, d :: dims => by
    intro h
    simp only [Expr.cell_array, Nest.conforms, List.length_map, Bool.and_eq_true, beq_iff_eq] at h
    obtain ⟨rfl, h⟩ := h
    have hi (i : Nat) : ((grid dims).map (i :: ·)).map (Expr.array es at_).at? =
        (grid dims).map fun path => es[i]?.bind (·.at? path) := by
      simp [Expr.at?]
    rw [grid, List.map_flatMap]
    simp only [hi]
    rw [flatMap_range_getElem? fun (o : Option Expr) => (grid dims).map fun p => o.bind (·.at? p),
      Expr.leaves, ← grid_leavesAll es h]
    rfl
  | .int .., dims | .str .., dims | .bool .., dims | .null _, dims | .ident .., dims | .this _, dims
  | .binary .., dims | .unary .., dims | .logical .., dims | .ternary .., dims | .call .., dims
  | .new .., dims | .index .., dims | .property .., dims => by
    intro h
    obtain rfl : dims = [] := by simpa [Expr.cell, Nest.conforms] using h
    simp [grid, Expr.at?, Expr.leaves]

theorem grid_leavesAll : ∀ (es : List Expr) {dims : List Nat},
    Nest.allConform (es.map Expr.cell) dims →
    es.flatMap (fun e => (grid dims).map e.at?) = (leavesAll es).map some
  | [], _ => fun _ => rfl
  | e :: rest, dims => by
    intro h
    simp only [List.map_cons, Nest.allConform, Bool.and_eq_true] at h
    rw [List.flatMap_cons, e.grid_leaves h.1, grid_leavesAll rest h.2, leavesAll, List.map_append]

end

theorem literalCells_eq {es : List Expr} (h : ((Nest.row (lowerCells es)).shape? .reject).isSome) :
    literalCells .reject es = (leavesAll es).map some := by
  obtain ⟨dims, hd⟩ := Option.isSome_iff_exists.1 h
  have hc : (Expr.array es .unplaced).cell.conforms dims := Nest.conforms_of_shape? hd
  have hg := Expr.grid_leaves _ hc
  rw [literalCells, literalPlaces, hd, Option.getD_some, positions]
  cases dims with
  | nil => simp [Expr.cell_array, Nest.conforms] at hc
  | cons d dims => simpa [Expr.leaves] using hg

end ThreeAddress
