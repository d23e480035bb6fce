import ThreeAddress.Code.Instruction
import ThreeAddress.Lowering.Ledger

namespace ThreeAddress

structure Journal where
  ledger : Ledger
  code : Code := []
  function : Option String := none
  className : Option String := none
  /-- Whether the value of what comes next is wanted. -/
  wanted : Bool := false

namespace Journal

inductive Step
  | freshTemp
  | freshLabel
  | emit (i : Instruction)
  | last
  | lines
  | enterLoop (break? continue? : Option Label)
  | exitLoop
  | enterSwitch
  | exitSwitch
  | breakLabel
  | continueLabel
  | allocate (size : Nat)
  | enterFrame
  | exitFrame
  | enterFunction (name : String)
  | exitFunction (outer : Option String)
  | enterClass (name : String)
  | exitClass (outer : Option String)
  | want (wanted : Bool)

inductive Answer
  | done
  | temp (t : Temp)
  | label (l : Label)
  | target (label : Option Label)
  | targets (break? continue? : Option Label)
  | instruction (i : Option Instruction)
  | lines (lines : List String)
  | name (name : Option String)
  | bytes (n : Nat)
  | flag (b : Bool)

def keep (j : Journal) (act : Account α) (answer : α → Answer) : Checked (Answer × Journal) := do
  let (a, ledger) ← act.run j.ledger
  return (answer a, { j with ledger })

def step (j : Journal) : Step → Checked (Answer × Journal)
  | .freshTemp => j.keep Ledger.freshTemp .temp
  | .freshLabel => j.keep Ledger.freshLabel .label
  | .emit i => return (.done, { j with code := j.code ++ [i] })
  | .last => return (.instruction j.code.getLast?, j)
  | .lines => return (.lines j.code.lines, j)
  | .enterLoop b c => j.keep (Ledger.enterLoop b c) fun _ => .done
  | .exitLoop => j.keep Ledger.exitLoop fun (b, c) => .targets b c
  | .enterSwitch => j.keep Ledger.enterSwitch fun _ => .done
  | .exitSwitch => j.keep Ledger.exitSwitch .target
  | .breakLabel => j.keep Ledger.breakLabel .target
  | .continueLabel => j.keep Ledger.continueLabel .target
  | .allocate size => j.keep (Ledger.allocate size) .bytes
  | .enterFrame => j.keep Ledger.enterFrame fun _ => .done
  | .exitFrame => j.keep Ledger.exitFrame .bytes
  | .enterFunction name => return (.name j.function, { j with function := some name })
  | .exitFunction outer => return (.done, { j with function := outer })
  | .enterClass name => return (.name j.className, { j with className := some name })
  | .exitClass outer => return (.done, { j with className := outer })
  | .want wanted => return (.flag j.wanted, { j with wanted })

end Journal

end ThreeAddress
