import Mathlib.Algebra.Ring.Nat
import ThreeAddress.Proofs.Operations.Literals

namespace ThreeAddress

open Lower (elementStore)
open Instruction (Kind)
open Instruction.Kind (one)

variable {k : Kind} {code a b : Code} {i : Instruction}

@[simp] theorem Code.count_nil : Code.count [] k = 0 := rfl

@[simp] theorem Code.count_append : (a ++ b : Code).count k = a.count k + b.count k :=
  List.countP_append ..

@[simp] theorem Code.count_cons : Code.count (i :: code) k = one i.kind k + code.count k := by
  simp [count, List.countP_cons, one, Nat.add_comm]

theorem Instruction.Kind.idle (hk : k.isOperation) :
    one .assign k = 0 ∧ one .label k = 0 ∧ one .goto k = 0 ∧ one .tryBegin k = 0 ∧
      one .tryEnd k = 0 := by
  revert hk
  cases k <;> decide

@[simp] theorem elementStore_kind (base : Operand) (path : List Nat) (v : Operand) :
    (elementStore base path v).kind = .assign := rfl

theorem Code.count_stores (hk : k.isOperation) (base : Operand) (places : List (List Nat))
    (xs : List Valued) :
    Code.count (places.zipWith (fun p x => elementStore base p x.2) xs) k = 0 := by
  induction places generalizing xs with
  | nil => rfl
  | cons p rest ih =>
    cases xs with
    | nil => rfl
    | cons x xs => simp [ih, Kind.idle hk]

def tally (k : Kind) (es : List Expr) : Nat := (es.map (Expr.makes k)).sum

@[simp] theorem tally_nil : tally k [] = 0 := rfl

@[simp] theorem tally_cons (e : Expr) (es : List Expr) : tally k (e :: es) = e.makes k + tally k es :=
  List.sum_cons

@[simp] theorem tally_append (es fs : List Expr) : tally k (es ++ fs) = tally k es + tally k fs := by
  simp [tally]

mutual

theorem Expr.tally_leaves : ∀ e : Expr, tally k (nodesAll e.leaves) = e.makes k + tally k e.inner
  | .array es _ => by simp [Expr.leaves, Expr.makes, Expr.inner, tally_leavesAll es]
  | .int .. | .str .. | .bool .. | .null _ | .ident .. | .this _ | .binary .. | .unary ..
  | .logical .. | .ternary .. | .call .. | .new .. | .index .. | .property .. => by
    simp [Expr.leaves, nodesAll]

theorem tally_leavesAll : ∀ es : List Expr, tally k (nodesAll (leavesAll es)) = tally k (nodesAll es)
  | [] => rfl
  | e :: rest => by
    have h : nodesAll (e.leaves ++ leavesAll rest) =
        nodesAll e.leaves ++ nodesAll (leavesAll rest) := nodesAll_append ..
    simp [leavesAll, h, e.tally_leaves, tally_leavesAll rest, nodesAll, Nat.add_assoc]

end

/-- Where its value is dropped, a call is a plain one. -/
def Expr.makesFor (k : Kind) : Demand → Expr → Nat
  | .effect, .call .. => one .call k
  | _, e => e.makes k

@[simp] theorem Expr.makesFor_value (e : Expr) : e.makesFor k .value = e.makes k := rfl

theorem Expr.makesFor_eq {d : Demand} {e : Expr} (h : ∀ callee args at_, e ≠ .call callee args at_) :
    e.makesFor k d = e.makes k := by
  cases d
  · rfl
  · cases e <;> first | rfl | exact absurd rfl (h _ _ _)

theorem Copied.count {n m : Supply} {v w : Operand} {copy : Code} (h : Copied n v copy w m)
    (hk : k.isOperation) : copy.count k = 0 := by
  cases h <;> simp [Instruction.kind, Kind.idle hk]

section

variable (hk : k.isOperation)
include hk

mutual

theorem Expr.Emits.count : ∀ {d : Demand} {e : Expr} {n m : Supply} {code : Code} {v : Operand},
    e.Emits True .reject d n code v m → code.count k = e.makesFor k d + tally k e.inner
  | _, e, _, _, _, _, .constant h => by
    cases e <;> simp [Expr.constant?] at h <;>
      simp [Expr.makesFor_eq, Expr.inner, Instruction.kind, Kind.idle hk]
  | _, _, _, _, _, _, .ident | _, _, _, _, _, _, .this => by simp [Expr.makesFor_eq, Expr.inner]
  | _, _, _, _, _, _, .array hs hc => by
    have cells := hc.count
    rw [literalCells_eq (hs trivial), List.filterMap_map] at cells
    simpa [Code.count_stores hk, Expr.makesFor_eq, Expr.inner, tally_leavesAll] using cells
  | _, _, _, _, _, _, .binary hl hr | _, _, _, _, _, _, .logical hl hr => by
    simp [hl.count, hr.count, Expr.makesFor_eq, Expr.inner, Instruction.kind, Kind.idle hk]
    omega
  | _, _, _, _, _, _, .unary h | _, _, _, _, _, _, .new h => by
    simp [h.count, Expr.makesFor_eq, Expr.inner, Instruction.kind]
    omega
  | _, _, _, _, _, _, .ternary hc ha hb => by
    simp [hc.count, ha.count, hb.count, Expr.makesFor_eq, Expr.inner, Instruction.kind, Kind.idle hk]
    omega
  | _, _, _, _, _, _, .call hc ha | _, _, _, _, _, _, .drop hc ha => by
    simp [hc.count, ha.count, Expr.makesFor, Expr.inner, Instruction.kind]
    omega
  | _, _, _, _, _, _, .index hb hi hc => by
    simp [hb.count, hi.count, hc.count hk, Expr.makesFor_eq, Expr.inner, Instruction.kind,
      Kind.idle hk]
    omega
  | _, _, _, _, _, _, .property h => by
    simp [h.count, Expr.makesFor_eq, Expr.inner, Instruction.kind, Kind.idle hk]

theorem EmitsCells.count : ∀ {cells : List (Option Expr)} {n m : Supply} {xs : List Valued},
    EmitsCells True .reject cells n xs m →
    Code.count (xs.flatMap (·.1)) k = tally k (nodesAll (cells.filterMap id))
  | _, _, _, _, .nil => rfl
  | _, _, _, _, .leaf he hc hr => by
    simp [he.count, hc.count hk, hr.count]
    omega
  | _, _, _, _, .gap _ hr => by simp [hr.count, Instruction.kind, Kind.idle hk]

theorem EmitsArgs.count : ∀ {args : List Expr} {n m : Supply} {code : Code} {vs : List Operand},
    EmitsArgs True .reject args n code vs m → code.count k = tally k (nodesAll args)
  | _, _, _, _, _, .nil => rfl
  | _, _, _, _, _, .cons he hr => by
    simp [he.count, hr.count, Instruction.kind, Kind.idle hk]
    omega

theorem EmitsCallee.count : ∀ {callee : Expr} {n m : Supply} {code : Code} {vs : List Operand},
    EmitsCallee True .reject callee n code vs m →
    code.count k = callee.makes k + tally k callee.inner
  | _, _, _, _, _, .name | _, _, _, _, _, .own => by simp [Expr.inner, Instruction.kind, Kind.idle hk]
  | _, _, _, _, _, .method h => by simp [h.count, Expr.inner, Instruction.kind, Kind.idle hk]
  | _, _, _, _, _, .value _ h => h.count

end

end

end ThreeAddress
