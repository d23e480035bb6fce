import ThreeAddress.Fault

namespace ThreeAddress

inductive TypeExpr
  | boolean | integer | string | void
  | array : TypeExpr → TypeExpr
  | named : String → TypeExpr
  deriving DecidableEq

def TypeExpr.arrayOf (a : TypeExpr) : Nat → TypeExpr
  | 0 => a
  | n + 1 => .array (a.arrayOf n)

inductive Ty
  | boolean | integer | string | void | null
  | array (element : Ty) (rank : Nat)
  | object (className : String)
  /-- Nothing was written and nothing could be inferred. -/
  | unknown
  deriving DecidableEq

namespace Ty

def arrayOf (levels : Nat) : Ty → Ty
  | .array e rank => .array e (rank + levels)
  | t => if levels = 0 then t else .array t levels

/-- The same, for a rank that may come from anywhere. -/
def arrayOfWithin (levels : Nat) : Ty → Checked Ty
  | .array e rank => return .array e (← addWithin word64 rank levels)
  | t => return t.arrayOf levels

def indexed : Ty → Ty
  | .array e rank => if 1 < rank then .array e (rank - 1) else e
  | _ => .unknown

def element : Ty → Ty
  | .array e _ => e
  | t => t

def ofTypeExpr : TypeExpr → Ty
  | .boolean => .boolean
  | .integer => .integer
  | .string => .string
  | .void => .void
  | .array a => (ofTypeExpr a).arrayOf 1
  | .named name => .object name

/-- Bytes for one value. Strings, arrays and objects are references; what has no size of its own
is sized as an integer, so that no storage is empty. -/
def size (pointer : Nat) : Ty → Nat
  | .boolean => 1
  | .integer | .unknown | .void => 4
  | .string | .null | .array .. | .object _ => pointer

def render : Ty → String
  | .boolean => "boolean"
  | .integer => "integer"
  | .string => "string"
  | .void => "void"
  | .null => "null"
  | .array e rank => e.render ++ String.join (List.replicate rank "[]")
  | .object name => name
  | .unknown => "?"

/-- An array has at least one level, and an element that is no array. -/
inductive IsNormal : Ty → Prop
  | boolean : IsNormal .boolean
  | integer : IsNormal .integer
  | string : IsNormal .string
  | void : IsNormal .void
  | null : IsNormal .null
  | object (name) : IsNormal (.object name)
  | unknown : IsNormal .unknown
  | array {e rank} : IsNormal e → (∀ e' r, e ≠ .array e' r) → 0 < rank → IsNormal (.array e rank)

end Ty

end ThreeAddress
