namespace ThreeAddress

inductive CaseExit
  /-- The switch is left, unless the case is empty. -/
  | implicitBreak
  /-- Control runs on into the next case. -/
  | fallThrough
  deriving DecidableEq

inductive RaggedArrays
  /-- A problem, and no element is stored. -/
  | reject
  /-- Every dimension is as long as its longest row, and gaps hold zero values. -/
  | zeroPad
  deriving DecidableEq

inductive NestedFrames
  /-- It goes on where it was. -/
  | independent
  /-- It is moved on by the size of the frame that ends. -/
  | folded
  deriving DecidableEq

structure Options where
  /-- Bytes of a reference, and of the header of an array. -/
  pointerSize : Nat := 8
  caseExit : CaseExit := .implicitBreak
  raggedArrays : RaggedArrays := .reject
  nestedFrames : NestedFrames := .independent
  deriving DecidableEq

end ThreeAddress
