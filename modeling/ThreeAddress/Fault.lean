/-! Faults, and arithmetic on machine words: a sum or a product that leaves its word is a fault,
never a wrapped value. -/

namespace ThreeAddress

/-- What stops a computation for good, as opposed to a finding about the program it works on. -/
inductive Fault
  | addOverflow
  | mulOverflow
  | boundTwice (name : String)
  | outOfBounds (size index : Nat)
  /-- A chain of scopes that never reaches its end. -/
  | endless
  | openFrames (depth : Nat)
  | openLoops (depth : Nat)
  deriving DecidableEq

def Fault.message : Fault → String
  | .addOverflow => "attempt to add with overflow"
  | .mulOverflow => "attempt to multiply with overflow"
  | .boundTwice name => s!"'{name}' bound twice"
  | .outOfBounds size index =>
    s!"index out of bounds: the len is {size} but the index is {index}"
  | .endless => "the chain of scopes has no end"
  | .openFrames depth => s!"unbalanced frames: {depth}"
  | .openLoops depth => s!"unbalanced loops: {depth}"

abbrev Checked := Except Fault

/-- Offsets, sizes, and the numbers of temporaries and labels are words of 32 bits. -/
abbrev word32 : Nat := 0x100000000

/-- Extents, ranks and counts of elements are words of 64 bits. -/
abbrev word64 : Nat := 0x10000000000000000

def addWithin (word a b : Nat) : Checked Nat :=
  if a + b < word then .ok (a + b) else .error .addOverflow

def mulWithin (word a b : Nat) : Checked Nat :=
  if a * b < word then .ok (a * b) else .error .mulOverflow

theorem addWithin_eq_ok {word a b c : Nat} :
    addWithin word a b = .ok c ↔ a + b < word ∧ a + b = c := by
  by_cases h : a + b < word <;> simp [addWithin, h]

theorem mulWithin_eq_ok {word a b c : Nat} :
    mulWithin word a b = .ok c ↔ a * b < word ∧ a * b = c := by
  by_cases h : a * b < word <;> simp [mulWithin, h]

def nth (xs : List α) (i : Nat) : Checked α :=
  match xs[i]? with
  | some x => .ok x
  | none => .error (.outOfBounds xs.length i)

theorem nth_eq_ok {xs : List α} {i : Nat} {x : α} : nth xs i = .ok x ↔ xs[i]? = some x := by
  cases h : xs[i]? <;> simp [nth, h]

end ThreeAddress
