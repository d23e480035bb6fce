import ThreeAddress.Code.Operand
import ThreeAddress.Fault
import ThreeAddress.Options

/-! What lowering hands out: temporaries, labels, jump targets, and bytes of the current frame.

Numbers start at one and are never given out twice. A target without a label gets one when
something first jumps to it, so that a target nobody jumps to takes no number. -/

namespace ThreeAddress

/-- Where `break` and `continue` lead, innermost first. A switch is a target of `break` alone. -/
structure Targets where
  breaks : List (Option Label) := []
  continues : List (Option Label) := []
  deriving DecidableEq

structure Ledger where
  layout : NestedFrames
  temps : Nat := 0
  labels : Nat := 0
  targets : Targets := {}
  cursor : Nat := 0
  /-- The cursors and targets of the frames around the current one, innermost first. -/
  saved : List (Nat × Targets) := []
  deriving DecidableEq

abbrev Account := StateT Ledger Checked

namespace Ledger

def freshTemp : Account Temp := do
  let l ← get
  let temps ← addWithin word32 l.temps 1
  set { l with temps }
  return ⟨temps⟩

def freshLabel : Account Label := do
  let l ← get
  let labels ← addWithin word32 l.labels 1
  set { l with labels }
  return ⟨labels⟩

def modifyTargets (f : Targets → Targets) : Account Unit :=
  modify fun l => { l with targets := f l.targets }

def enterLoop (break? continue? : Option Label) : Account Unit :=
  modifyTargets fun t => ⟨break? :: t.breaks, continue? :: t.continues⟩

def exitLoop : Account (Option Label × Option Label) := do
  let t := (← get).targets
  modifyTargets fun t => ⟨t.breaks.tail, t.continues.tail⟩
  return (t.breaks.head?.join, t.continues.head?.join)

def enterSwitch : Account Unit :=
  modifyTargets fun t => { t with breaks := none :: t.breaks }

def exitSwitch : Account (Option Label) := do
  let t := (← get).targets
  modifyTargets fun t => { t with breaks := t.breaks.tail }
  return t.breaks.head?.join

/-- The label of a stack's innermost target, which is written into the stack if it is new. -/
def request : List (Option Label) → Account (Option Label × List (Option Label))
  | [] => return (none, [])
  | some label :: rest => return (some label, some label :: rest)
  | none :: rest => do
    let label ← freshLabel
    return (some label, some label :: rest)

def breakLabel : Account (Option Label) := do
  let (label, breaks) ← request (← get).targets.breaks
  modifyTargets ({ · with breaks })
  return label

def continueLabel : Account (Option Label) := do
  let (label, continues) ← request (← get).targets.continues
  modifyTargets ({ · with continues })
  return label

def loopDepth (l : Ledger) : Nat := l.targets.continues.length

def allocate (size : Nat) : Account Nat := do
  let l ← get
  let cursor ← addWithin word32 l.cursor size
  set { l with cursor }
  return l.cursor

/-- A frame starts empty, and the targets around it are out of reach until it ends. -/
def enterFrame : Account Unit :=
  modify fun l => { l with cursor := 0, targets := {}, saved := (l.cursor, l.targets) :: l.saved }

def exitFrame : Account Nat := do
  let l ← get
  let (outer, targets) := l.saved.head?.getD (0, {})
  let cursor ← match l.layout with
    | .independent => pure outer
    | .folded => addWithin word32 outer l.cursor
  set { l with cursor, targets, saved := l.saved.tail }
  return l.cursor

def frameDepth (l : Ledger) : Nat := l.saved.length

end Ledger

end ThreeAddress
