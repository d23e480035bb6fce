import ThreeAddress.Lowering.Store

namespace ThreeAddress

namespace Lower

def bindLocal (name : String) (span : Span) : Lower Unit := do
  match ← lookup name with
  | some id => bindStorage id (← valueSize id)
  | none => report (.unresolved name span.line)

/-- The number of elements that a loop over `e` runs through: the recorded extent of a variable, or
else what the value says when the program runs. -/
def loopBound (e : Expr) (value : Operand) : Lower Operand := do
  let extent ← match e with
    | .ident name _ => do
      match ← lookup name with
      | some id => pure (← symbol id).dimensions.head?
      | none => pure none
    | _ => pure none
  return match extent with
    | some n => .int (signed n)
    | none => .field value "length"

def bindParams (params : List Param) : Lower Unit :=
  params.forM fun p => do
    match ← (← get).table.lookupLocal (← read).scope p.name with
    | some id => bindStorage id (← valueSize id)
    | none => report (.unresolved p.name p.span.line)

/-- Bytes that a class takes over from its parent. -/
def inherited (parent : Option String) : Lower Nat := do
  match parent with
  | none => return 0
  | some parent => match ← lookup parent with
    | some id => return (← symbol id).frame
    | none => return 0

def ifThen (test : Lower Valued) (body : Lower Code) : Lower Code := do
  let (head, value) ← test
  let done ← freshLabel
  let code ← body
  return head ++ .branch value .eq (.int 0) done :: code ++ [.label done]

def ifThenElse (test : Lower Valued) (body other : Lower Code) : Lower Code := do
  let (head, value) ← test
  let no ← freshLabel
  let first ← body
  let done ← freshLabel
  let second ← other
  return head ++ .branch value .eq (.int 0) no :: first
    ++ .goto done :: .label no :: second ++ [.label done]

def whileLoop (test : Lower Valued) (body : Lower Code) : Lower Code := do
  let start ← freshLabel
  let (head, value) ← test
  let done ← freshLabel
  account (Ledger.enterLoop (some done) (some start))
  let code ← body
  let _ ← account Ledger.exitLoop
  return .label start :: head ++ .branch value .eq (.int 0) done :: code
    ++ [.goto start, .label done]

/-- The end has a label only if something breaks out. -/
def doWhile (body : Lower Code) (test : Lower Valued) : Lower Code := do
  let start ← freshLabel
  account (Ledger.enterLoop none (some start))
  let code ← body
  let (tail, value) ← test
  let (done, _) ← account Ledger.exitLoop
  return .label start :: code ++ tail ++ .branch value .ne (.int 0) start :: place done

/-- The test in front of a loop, and the label of the loop's end if there is a test. -/
def loopTest : Option (Lower Valued) → Lower (Code × Option Label)
  | none => return ([], none)
  | some test => do
    let (code, value) ← test
    let done ← freshLabel
    return (code ++ [.branch value .eq (.int 0) done], some done)

/-- A loop with a step at the end of each pass, where `continue` leads; without a step it leads to
the start. -/
def forLoop (first : Lower Code) (test : Option (Lower Valued)) (hasStep : Bool) (step : Lower Code)
    (body : Lower Code) : Lower Code := do
  let head ← first
  let start ← freshLabel
  let (test, done) ← loopTest test
  account (Ledger.enterLoop done (if hasStep then none else some start))
  let code ← body
  let (done, next) ← account Ledger.exitLoop
  let tail ← step
  let tail := if hasStep then place next ++ tail else tail
  return head ++ .label start :: test ++ code ++ tail ++ .goto start :: place done

/-- A loop over the indices below `bound`, which reads `item` from `base` at the start of each
pass. -/
def indexLoop (base bound : Operand) (item : String) (bind : Lower Unit) (body : Lower Code) :
    Lower Code := do
  let (first, i) ← copyToTemp (.int 0)
  let (second, n) ← copyToTemp bound
  bind
  let start ← freshLabel
  let check ← freshTemp
  let done ← freshLabel
  let element ← freshTemp
  account (Ledger.enterLoop (some done) none)
  let code ← body
  let (_, next) ← account Ledger.exitLoop
  return first ++ second
    ++ [.label start, .binary (.temp check) i .lt n, .branch (.temp check) .eq (.int 0) done,
      .assign (.temp element) (.element base [i]), .assign (.var item) (.temp element)]
    ++ code ++ place next ++ [.binary i i .add (.int 1), .goto start, .label done]

def caseTests (subject : Operand) : List Case → Lower (Code × List Label)
  | [] => return ([], [])
  | c :: rest => do
    let (code, value) ← c.value.lower .value
    let l ← freshLabel
    let (tests, labels) ← caseTests subject rest
    return (code ++ .branch subject .eq value l :: tests, l :: labels)

/-- The body of a case behind its label. Where the options ask for it, a body that does not jump
leaves the switch; an empty one shares the body of the next case. -/
def caseBody (l : Label) (isEmpty : Bool) (body : Lower Code) : Lower Code := do
  let code ← body
  if (← read).options.caseExit = .implicitBreak ∧ ¬isEmpty ∧ ¬code.endsInJump then
    return .label l :: code ++ (← gotoBreak)
  else return .label l :: code

/-- Evaluates the subject once, compares it with one case after the other, and falls back to the
default or to the end. -/
def switch (subject : Lower Valued) (cases : List Case) (bodies : List Label → Lower Code)
    (default : Option (Lower Code)) : Lower Code := do
  let (head, value) ← subject
  let (copy, value) ← ensureTemp value
  let (tests, labels) ← caseTests value cases
  account Ledger.enterSwitch
  match default with
  | none => do
    let skip ← gotoBreak
    let code ← bodies labels
    let done ← account Ledger.exitSwitch
    return head ++ copy ++ tests ++ skip ++ code ++ place done
  | some body => do
    let other ← freshLabel
    let code ← bodies labels
    let last ← body
    let done ← account Ledger.exitSwitch
    return head ++ copy ++ tests ++ .goto other :: code ++ .label other :: last ++ place done

def jump (target : Account (Option Label)) (problem : Problem) : Lower Code := do
  match ← account target with
  | some l => return [.goto l]
  | none => do
    report problem
    return []

/-- A region whose failures go on at the handler; both paths meet at the end. -/
def tryCatch (body : Lower Code) (caught : String) (handler : Lower Code) : Lower Code := do
  let failed ← freshLabel
  let first ← body
  let done ← freshLabel
  let second ← handler
  return .tryBegin failed :: first
    ++ [.tryEnd, .goto done, .label failed, .assign (.var caught) .exception]
    ++ second ++ [.label done]

def inFrame (act : Lower α) : Lower (α × Nat) := do
  account Ledger.enterFrame
  let a ← act
  return (a, ← account Ledger.exitFrame)

def functionFrame (name : String) (params : List Param) (span : Span) (body : Lower Code) :
    Lower Code := do
  match ← lookup name with
  | none => do
    report (.unresolved name span.line)
    return []
  | some id => do
    let s ← symbol id
    let scope := s.members.getD (← read).scope
    let (code, frame) ← inFrame <| inScope scope do
      bindParams params
      body
    modifySymbol id ({ · with params := params.length, frame })
    return .entry s.qualifiedName :: code ++ [.close s.qualifiedName]

def classFrame (name : String) (parent : Option String) (span : Span) (members : Lower Code) :
    Lower Code := do
  match ← lookup name with
  | none => do
    report (.unresolved name span.line)
    return []
  | some id => do
    let scope := (← symbol id).members.getD (← read).scope
    let size ← inherited parent
    let (code, frame) ← inFrame <| withReader ({ · with scope, className := some name }) do
      let _ ← account (Ledger.allocate size)
      members
    modifySymbol id ({ · with frame })
    return .entry name :: code ++ [.close name]

end Lower

end ThreeAddress
