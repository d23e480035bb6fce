import ThreeAddress.Proofs.Scope.Growth
import ThreeAddress.Proofs.Source.Induction
import ThreeAddress.Scope.Collect

namespace ThreeAddress

namespace Ty

def rank : Ty → Nat
  | .array _ rank => rank
  | _ => 0

theorem arrayOf_zero (t : Ty) : t.arrayOf 0 = t := by
  cases t <;> rfl

theorem arrayOf_arrayOf (t : Ty) (m n : Nat) : (t.arrayOf m).arrayOf n = t.arrayOf (m + n) := by
  cases t with
  | array e rank => exact congrArg (Ty.array e) (Nat.add_assoc ..)
  | _ =>
    cases m with
    | zero => rw [arrayOf_zero, Nat.zero_add]
    | succ m => simp [arrayOf, Nat.add_right_comm]

theorem ofTypeExpr_arrayOf (a : TypeExpr) (n : Nat) :
    ofTypeExpr (a.arrayOf n) = (ofTypeExpr a).arrayOf n := by
  induction n with
  | zero => rw [TypeExpr.arrayOf, arrayOf_zero]
  | succ n ih => rw [TypeExpr.arrayOf, ofTypeExpr, ih, arrayOf_arrayOf]

theorem arrayOfWithin_eq (t : Ty) {n : Nat} (hn : n < word64) :
    t.arrayOfWithin n = if t.rank + n < word64 then .ok (t.arrayOf n) else .error .addOverflow := by
  cases t with
  | array e rank =>
    rw [arrayOfWithin, addWithin, Ty.rank, Ty.arrayOf]
    split <;> rfl
  | _ => simp [arrayOfWithin, Ty.rank, hn, pure, Except.pure]

namespace IsNormal

variable {t : Ty}

theorem arrayOf (h : t.IsNormal) (n : Nat) : (t.arrayOf n).IsNormal := by
  cases n with
  | zero =>
    rw [arrayOf_zero]
    exact h
  | succ n =>
    cases h with
    | array he hne hr => exact .array he hne (Nat.add_pos_left hr _)
    | _ => exact .array (by constructor) (by simp) (Nat.succ_pos n)

theorem indexed (h : t.IsNormal) : t.indexed.IsNormal := by
  cases h with
  | array he hne hr =>
    rw [Ty.indexed]
    split
    · exact .array he hne (by omega)
    · exact he
  | _ => exact .unknown

theorem indexed_arrayOf (h : t.IsNormal) (n : Nat) : (t.arrayOf (n + 1)).indexed = t.arrayOf n := by
  cases h with
  | @array e rank he hne hr =>
    rw [Ty.arrayOf, Ty.arrayOf, Ty.indexed, if_pos (by omega)]
    rfl
  | _ =>
    cases n with
    | zero => rfl
    | succ n => simp [Ty.arrayOf, Ty.indexed]

theorem ofTypeExpr (a : TypeExpr) : (ofTypeExpr a).IsNormal := by
  induction a with
  | array a ih => exact ih.arrayOf 1
  | _ => constructor

end IsNormal

end Ty

namespace Table

/-- What is declared has types in normal form. -/
def Typed (t : Table) : Prop := ∀ ⦃id x⦄, t.symbol id = .ok x → x.type.IsNormal

variable {t : Table} {scope : Nat} {name : String} {x : Symbol}

theorem Typed.visible (h : t.Typed) (hx : t.visible? scope name = some x) : x.type.IsNormal := by
  rw [visible?] at hx
  split at hx
  next id _ =>
    cases hs : t.symbol id with
    | error e => simp [hs, Except.toOption] at hx
    | ok y =>
      rw [hs] at hx
      cases hx
      exact h hs
  next => cases hx

end Table

/-- The best guess at the type of an initializer is in normal form if all that it looks up is. -/
theorem Expr.infer_normal {t : Table} {scope : Nat} (h : t.Typed) : (e : Expr) → (e.infer t scope).IsNormal
  | .int .. | .str .. | .bool .. | .null .. | .this .. | .logical .. | .new .. | .property .. => by
    simp only [infer]
    constructor
  | .ident name _ => by
    rw [infer]
    cases hx : t.visible? scope name with
    | none => exact .unknown
    | some x => exact h.visible hx
  | .array es _ => by
    rw [infer]
    cases es with
    | nil => exact .array .unknown (by simp [inferHead]) Nat.one_pos
    | cons e rest => exact (e.infer_normal h).arrayOf 1
  | .binary l op r _ => by
    rw [infer]
    split
    · exact .boolean
    · split
      · exact .string
      · exact .integer
  | .unary op _ _ => by
    cases op <;> constructor
  | .ternary _ a _ _ => by
    rw [infer]
    exact a.infer_normal h
  | .call callee _ _ => by
    cases callee with
    | ident name =>
      rw [infer]
      cases hx : t.visible? scope name with
      | none => exact .unknown
      | some x =>
        dsimp only
        split
        · exact h.visible hx
        · exact .unknown
    | _ => exact .unknown
  | .index base _ _ => by
    rw [infer]
    exact (base.infer_normal h).indexed

end ThreeAddress
