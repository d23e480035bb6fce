import ThreeAddress.Options

namespace ThreeAddress

inductive Nest (α : Type)
  | leaf : α → Nest α
  | row : List (Nest α) → Nest α

namespace Nest

mutual

def extents : Nest α → List Nat
  | .leaf _ => []
  | .row cells => cells.length :: headExtents cells

def headExtents : List (Nest α) → List Nat
  | [] => []
  | c :: _ => c.extents

end

mutual

/-- Every row of depth `k` has the `k`-th length, and every leaf lies below all of them. -/
def conforms : Nest α → List Nat → Bool
  | .leaf _, dims => dims.isEmpty
  | .row _, [] => false
  | .row cells, d :: dims => cells.length == d && allConform cells dims

def allConform : List (Nest α) → List Nat → Bool
  | [], _ => true
  | c :: rest, dims => c.conforms dims && allConform rest dims

end

/-- The greater entry at each index; the longer list goes on alone. -/
def maxEach : List Nat → List Nat → List Nat
  | [], ys => ys
  | xs, [] => xs
  | x :: xs, y :: ys => max x y :: maxEach xs ys

mutual

def padded : Nest α → List Nat
  | .leaf _ => []
  | .row cells => cells.length :: paddedAll cells

def paddedAll : List (Nest α) → List Nat
  | [] => []
  | c :: rest => maxEach c.padded (paddedAll rest)

end

def at? : Nest α → List Nat → Option α
  | .leaf a, [] => some a
  | .row cells, i :: path => cells[i]?.bind (·.at? path)
  | _, _ => none

/-- The extents of a rectangle, or those it is padded to. -/
def shape? (policy : RaggedArrays) (n : Nest α) : Option (List Nat) :=
  if n.conforms n.extents then some n.extents
  else match policy with
    | .reject => none
    | .zeroPad => some n.padded

end Nest

def grid : List Nat → List (List Nat)
  | [] => [[]]
  | d :: dims =>
    let paths := grid dims
    (List.range d).flatMap fun i => paths.map (i :: ·)

/-- The positions of an array: none if it has no extent at all. -/
def positions (dims : List Nat) : List (List Nat) := if dims.isEmpty then [] else grid dims

end ThreeAddress
