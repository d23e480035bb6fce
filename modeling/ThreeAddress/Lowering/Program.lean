import ThreeAddress.Lowering.Control

namespace ThreeAddress

open Lower

mutual

def Stmt.lower : Stmt → Lower Code
  | .declare b => guarding b.uses b.span b.lower
  | .assign target value span =>
    guarding (target.uses span ++ value.uses) span (target.assign value span)
  | .print e span => guarding e.uses span do
    let (code, t) ← argument (e.lower .value)
    return code ++ [.call "print" [t]]
  | .eval e span => guarding e.uses span do return (← e.lower .effect).1
  | .return none _ => return [.return .null]
  | .return (some e) span => guarding e.uses span do
    let (code, value) ← e.lower .value
    return code ++ [.return value]
  | .block b => inBlock b.span b.lower
  | .ite c yes none _ => ifThen (c.lower .value) (inBlock yes.span yes.lower)
  | .ite c yes (some no) _ =>
    ifThenElse (c.lower .value) (inBlock yes.span yes.lower) (inBlock no.span no.lower)
  | .while c body _ => whileLoop (c.lower .value) (inBlock body.span body.lower)
  | .doWhile body c _ => doWhile (inBlock body.span body.lower) (c.lower .value)
  | .for first test step body _ => inBlock body.span <|
    forLoop (lowerOption first) (test.map (·.lower .value)) step.isSome (lowerOption step) body.lower
  | .foreach item collection body span => inBlock body.span do
    let (head, base) ← collection.lower .value
    let bound ← loopBound collection base
    return head ++ (← indexLoop base bound item (bindLocal item span) body.lower)
  | .switch subject cases default _ =>
    switch (subject.lower .value) cases (lowerCases cases)
      (match default with
        | none => none
        | some body => some (lowerAll body))
  | .break span => jump Ledger.breakLabel (.breakOutside span.line)
  | .continue span => jump Ledger.continueLabel (.continueOutside span.line)
  | .tryCatch body caught handler span =>
    tryCatch (inBlock body.span body.lower) caught <| inBlock handler.span do
      bindLocal caught span
      handler.lower
  | .function f => f.lower
  | .class c => c.lower

def lowerOption : Option Stmt → Lower Code
  | none => return []
  | some s => s.lower

def lowerAll : List Stmt → Lower Code
  | [] => return []
  | s :: rest => return (← s.lower) ++ (← lowerAll rest)

def Block.lower : Block → Lower Code
  | ⟨body, _⟩ => lowerAll body

def lowerCases : List Case → List Label → Lower Code
  | ⟨_, body, _⟩ :: cases, l :: labels =>
    return (← caseBody l body.isEmpty (lowerAll body)) ++ (← lowerCases cases labels)
  | _, _ => return []

def Function.lower : Function → Lower Code
  | ⟨name, params, _, body, span⟩ => functionFrame name params span body.lower

def Member.lower : Member → Lower Code
  | .field b => guarding b.uses b.span b.lower
  | .method f => f.lower

def lowerMembers : List Member → Lower Code
  | [] => return []
  | m :: rest => return (← m.lower) ++ (← lowerMembers rest)

def Class.lower : Class → Lower Code
  | ⟨name, parent, members, span⟩ => classFrame name parent span (lowerMembers members)

end

/-- What lowering a program yields, whether or not there were problems. -/
structure Lowered where
  code : Code
  table : Table
  problems : List Problem

/-- Lowers a program against the table of its declarations, and writes into it where everything is
stored. -/
def Program.lower (p : Program) (table : Table) (options : Options) : Checked Lowered := do
  let start : Lowering.State := { ledger := { layout := options.nestedFrames }, table }
  let (code, s) ← (lowerAll p.statements).run { options } |>.run start
  if s.ledger.frameDepth ≠ 0 then throw (.openFrames s.ledger.frameDepth)
  if s.ledger.loopDepth ≠ 0 then throw (.openLoops s.ledger.loopDepth)
  return ⟨code, s.table, s.problems⟩

end ThreeAddress
