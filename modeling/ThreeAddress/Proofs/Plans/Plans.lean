import ThreeAddress.Lowering.Program
import ThreeAddress.Proofs.Plans.Steps

namespace ThreeAddress

namespace Plan

def of (s : FullState.Step) : Plan s.Answer := .step s .done

def begins (part : Part) (plan : Plan α) : Plan α := do
  of (.begin part)
  plan

def valueOf (e : Expr) (plan : Plan α) : Plan α := do
  of (.evaluate e)
  plan

def emit (i : Instruction) : Plan Unit := of (.emit i)

def report (p : Problem) : Plan Unit := of (.report p)

def copyToTemp (v : Operand) : Plan Operand := do
  let t ← of .freshTemp
  emit (.assign (.temp t) v)
  return .temp t

def ensureTemp (v : Operand) : Plan Operand := if v.isTemp then return v else copyToTemp v

def value (expr : Plan Operand) : Plan Operand := do
  let outer ← of (.want true)
  let v ← expr
  let _ ← of (.want outer)
  return v

def storable (expr : Plan Operand) : Plan Operand := do
  let v ← value expr
  match v with
  | .var _ => copyToTemp v
  | _ => return v

def argument (expr : Plan Operand) : Plan Operand := do
  let v ← value expr
  copyToTemp v

def nameOperand (name : String) (span : Span) : Plan Operand := do
  match ← of (.lookup name) with
  | some id => do
    let x ← of (.symbol id)
    return .var x.place
  | none => do
    report (.unresolved name span.line)
    return .var name

def receiverClass : Expr → Plan (Option String)
  | .this _ => of .className
  | .new name _ _ => return some name
  | .ident name _ => do
    match ← of (.lookup name) with
    | none => return none
    | some id => do
      let x ← of (.symbol id)
      match x.type with
      | .object name => return some name
      | _ => return none
  | _ => return none

def namedCallee (name : String) (span : Span) : Plan (String × List Operand) := do
  match ← of (.lookup name) with
  | some id => do
    let x ← of (.symbol id)
    if x.isCallable ∧ x.owner.isSome then do
      let receiver ← copyToTemp (.var "this")
      return (x.qualifiedName, [receiver])
    else return (x.qualifiedName, [])
  | none => do
    report (.unresolved name span.line)
    return (name, [])

def finishCall (wanted : Bool) (callee : String) (params : List Operand) : Plan Operand :=
  if wanted then do
    let t ← of .freshTemp
    emit (.callInto (.temp t) callee params)
    return .temp t
  else do
    emit (.call callee params)
    return .null

def shortCircuit (op : LogicalOp) (l r : Plan Operand) : Plan Operand := do
  let left ← value l
  let t ← of .freshTemp
  emit (.assign (.temp t) (.int (if op = .and then 0 else 1)))
  let done ← of .freshLabel
  emit (.branch left (if op = .and then .eq else .ne) (.int 0) done)
  let right ← value r
  emit (.assign (.temp t) right)
  emit (.label done)
  return .temp t

def choose (c a b : Plan Operand) : Plan Operand := do
  let condition ← value c
  let yes ← of .freshLabel
  emit (.branch condition .eq (.bool true) yes)
  let no ← of .freshLabel
  emit (.goto no)
  emit (.label yes)
  let left ← value a
  let t ← of .freshTemp
  emit (.assign (.temp t) left)
  let done ← of .freshLabel
  emit (.goto done)
  emit (.label no)
  let right ← value b
  emit (.assign (.temp t) right)
  emit (.label done)
  return .temp t

section Literals

variable (options : Options)

def literalShape (name : String) (span : Span) (literal : Nest (Plan Operand)) :
    Plan (Option (List Nat)) :=
  match literal.shape? options.raggedArrays with
  | some dims => return some dims
  | none => do
    report (.ragged name span.line)
    return none

def leafAt (literal : Nest (Plan Operand)) (zero : Operand) (position : List Nat) : Plan Operand :=
  (literal.at? position).getD (copyToTemp zero)

def storeAll (base : Operand) : List (List Nat × Operand) → Plan Unit
  | [] => return
  | (p, v) :: rest => do
    emit (Lower.elementStore base p v)
    storeAll base rest

def literalValue (literal : Nest (Plan Operand)) (span : Span) : Plan Operand := do
  let shape ← literalShape options "<array literal>" span literal
  let places := positions (shape.getD [])
  let values ← places.mapM (leafAt literal Ty.unknown.zero)
  let base ← of .freshTemp
  storeAll (.temp base) (places.zip values)
  return .temp base

end Literals

end Plan

open Plan

section Expressions

variable (options : Options)

mutual

def Expr.plan : Expr → Plan Operand
  | .int n at_ => valueOf (.int n at_) <| copyToTemp (.int n)
  | .str s at_ => valueOf (.str s at_) <| copyToTemp (.str s)
  | .bool b at_ => valueOf (.bool b at_) <| copyToTemp (.bool b)
  | .null at_ => valueOf (.null at_) <| copyToTemp .null
  | .ident name at_ => valueOf (.ident name at_) <| nameOperand name at_
  | .this at_ => valueOf (.this at_) <| return .var "this"
  | .array es at_ => valueOf (.array es at_) <| literalValue options (.row (cellPlans es)) at_
  | .binary l op r at_ => valueOf (.binary l op r at_) do
    let left ← value l.plan
    let right ← value r.plan
    let t ← of .freshTemp
    emit (.binary (.temp t) left op right)
    return .temp t
  | .unary op e at_ => valueOf (.unary op e at_) do
    let arg ← value e.plan
    let t ← of .freshTemp
    emit (.unary (.temp t) op arg)
    return .temp t
  | .logical l op r at_ => valueOf (.logical l op r at_) <| shortCircuit op l.plan r.plan
  | .ternary c a b at_ => valueOf (.ternary c a b at_) <| choose c.plan a.plan b.plan
  | .call callee args at_ => valueOf (.call callee args at_) do
    let wanted ← of .isWanted
    let (name, receiver) ← match callee with
      | .ident name _ => namedCallee name at_
      | .property object method _ => do
        let owner ← receiverClass object
        let receiver ← argument object.plan
        pure (methodName owner method, [receiver])
      | other => do
        let v ← value other.plan
        pure (v.render, [])
    let params ← argPlans args
    finishCall wanted name (receiver ++ params)
  | .new name args at_ => valueOf (.new name args at_) do
    let params ← argPlans args
    let t ← of .freshTemp
    emit (.new (.temp t) name params)
    return .temp t
  | .index base i at_ => valueOf (.index base i at_) do
    let base ← value base.plan
    let i ← value i.plan
    let i ← ensureTemp i
    let t ← of .freshTemp
    emit (.assign (.temp t) (.element base [i]))
    return .temp t
  | .property object field at_ => valueOf (.property object field at_) do
    let base ← value object.plan
    let t ← of .freshTemp
    emit (.assign (.temp t) (.field base field))
    return .temp t

def argPlans : List Expr → Plan (List Operand)
  | [] => return []
  | e :: rest => do
    let param ← argument e.plan
    let params ← argPlans rest
    return param :: params

def cellPlans : List Expr → List (Nest (Plan Operand))
  | [] => []
  | .array es _ :: rest => .row (cellPlans es) :: cellPlans rest
  | e :: rest => .leaf (storable e.plan) :: cellPlans rest

end

def Expr.headerPlan (e : Expr) : Plan Operand := begins (.header e) (e.plan options)

end Expressions

namespace Plan

def checkNames (uses : List Use) (whole : Span) : Plan Bool := do
  let missing ← uses.filterM fun u => do
    let id? ← of (.lookup u.1)
    return id?.isNone
  (firstUses missing).forM fun (name, span) => report (.unresolved name (span.orElse whole).line)
  return missing.isEmpty

def guarding (uses : List Use) (whole : Span) (act : Plan Unit) : Plan Unit := do
  if ← checkNames uses whole then act else return

def enterScope (span : Span) : Plan Nat := do
  let outer ← of .scope
  match ← of (.scopeFor span.toPosition) with
  | some scope => do
    of (.moveTo scope)
    return outer
  | none => return outer

def placeLabel : Option Label → Plan Unit
  | some l => emit (.label l)
  | none => return

def gotoBreak : Plan Unit := do
  match ← of .breakLabel with
  | some l => emit (.goto l)
  | none => return

def bindStorage (id : SymbolId) (size : Nat) : Plan Unit := do
  let offset ← of (.allocate size)
  of (.place id offset size)

section Storage

variable (options : Options)

def valueSize (id : SymbolId) : Plan Nat := do
  let x ← of (.symbol id)
  return x.type.size options.pointerSize

def bindLocal (name : String) (span : Span) : Plan Unit := do
  match ← of (.lookup name) with
  | some id => do
    let size ← valueSize options id
    bindStorage id size
  | none => report (.unresolved name span.line)

def bindParam (p : Param) : Plan Unit := do
  match ← of (.lookupLocal p.name) with
  | some id => do
    let size ← valueSize options id
    bindStorage id size
  | none => report (.unresolved p.name p.span.line)

def storeElements (base : Operand) (literal : Nest (Plan Operand)) (dims : List Nat) (zero : Operand) :
    Plan Unit :=
  (positions dims).forM fun p => do
    let v ← leafAt literal zero p
    emit (Lower.elementStore base p v)

def declareArray (id : SymbolId) (es : List Expr) (span : Span) : Plan Unit := do
  let x ← of (.symbol id)
  let literal := Nest.row (cellPlans options es)
  match ← literalShape options x.name span literal with
  | none => bindStorage id options.pointerSize
  | some dims => do
    let size ← of (.arraySize options.pointerSize
      (leafSize options.pointerSize x.type.element es) dims)
    of (.extend id dims)
    bindStorage id size
    storeElements (.var x.name) literal dims x.type.element.zero

def assignArray (id : SymbolId) (es : List Expr) (span : Span) : Plan Unit := do
  let x ← of (.symbol id)
  let literal := Nest.row (cellPlans options es)
  match ← literalShape options x.name span literal with
  | none => return
  | some dims => storeElements (.var x.name) literal dims x.type.element.zero

def indexPlans : List Expr → Plan (List Operand)
  | [] => return []
  | e :: rest => do
    let i ← value (e.plan options)
    let i ← ensureTemp i
    let is ← indexPlans rest
    return i :: is

end Storage

section Control

def ifThen (test : Plan Operand) (body : Plan Unit) : Plan Unit := do
  let v ← value test
  let done ← of .freshLabel
  emit (.branch v .eq (.int 0) done)
  body
  emit (.label done)

def ifThenElse (test : Plan Operand) (body other : Plan Unit) : Plan Unit := do
  let v ← value test
  let no ← of .freshLabel
  emit (.branch v .eq (.int 0) no)
  body
  let done ← of .freshLabel
  emit (.goto done)
  emit (.label no)
  other
  emit (.label done)

def whileLoop (test : Plan Operand) (body : Plan Unit) : Plan Unit := do
  let start ← of .freshLabel
  emit (.label start)
  let v ← value test
  let done ← of .freshLabel
  emit (.branch v .eq (.int 0) done)
  of (.enterLoop (some done) (some start))
  body
  emit (.goto start)
  let _ ← of .exitLoop
  emit (.label done)

def doWhile (body : Plan Unit) (test : Plan Operand) : Plan Unit := do
  let start ← of .freshLabel
  emit (.label start)
  of (.enterLoop none (some start))
  body
  let v ← value test
  emit (.branch v .ne (.int 0) start)
  let (stop, _) ← of .exitLoop
  placeLabel stop

def loopTest : Option (Plan Operand) → Plan (Option Label)
  | none => return none
  | some test => do
    let v ← value test
    let done ← of .freshLabel
    emit (.branch v .eq (.int 0) done)
    return some done

def forLoop (span : Span) (first : Plan Unit) (test : Option (Plan Operand)) (hasStep : Bool)
    (step body : Plan Unit) : Plan Unit := do
  let outer ← enterScope span
  first
  let start ← of .freshLabel
  emit (.label start)
  let stop ← loopTest test
  of (.enterLoop stop (if hasStep then none else some start))
  body
  let (stop, next) ← of .exitLoop
  placeLabel (if hasStep then next else none)
  step
  emit (.goto start)
  placeLabel stop
  of (.moveTo outer)

def loopBound (e : Expr) (value : Operand) : Plan Operand := do
  let extent ← match e with
    | .ident name _ => do
      match ← of (.lookup name) with
      | some id => do
        let x ← of (.symbol id)
        pure x.dimensions.head?
      | none => pure none
    | _ => pure none
  return match extent with
    | some n => .int (signed n)
    | none => .field value "length"

def indexLoop (options : Options) (base bound : Operand) (item : String) (itemSpan : Span)
    (body : Plan Unit) : Plan Unit := do
  let i ← copyToTemp (.int 0)
  let n ← copyToTemp bound
  bindLocal options item itemSpan
  let start ← of .freshLabel
  emit (.label start)
  let check ← of .freshTemp
  emit (.binary (.temp check) i .lt n)
  let done ← of .freshLabel
  emit (.branch (.temp check) .eq (.int 0) done)
  let element ← of .freshTemp
  emit (.assign (.temp element) (.element base [i]))
  emit (.assign (.var item) (.temp element))
  of (.enterLoop (some done) none)
  body
  let (_, next) ← of .exitLoop
  placeLabel next
  emit (.binary i i .add (.int 1))
  emit (.goto start)
  emit (.label done)

def foreachLoop (options : Options) (span : Span) (collection : Expr) (item : String) (itemSpan : Span)
    (body : Plan Unit) : Plan Unit := do
  let outer ← enterScope span
  let base ← value (collection.headerPlan options)
  let bound ← loopBound collection base
  indexLoop options base bound item itemSpan body
  of (.moveTo outer)

def caseTests (options : Options) (subject : Operand) : List Case → Plan (List Label)
  | [] => return []
  | k :: rest => do
    let v ← value (k.value.headerPlan options)
    let l ← of .freshLabel
    emit (.branch subject .eq v l)
    let labels ← caseTests options subject rest
    return l :: labels

def caseBody (options : Options) (l : Label) (isEmpty : Bool) (body : Plan Unit) : Plan Unit := do
  emit (.label l)
  body
  let jumps ← of .endsInJump
  if options.caseExit = .implicitBreak ∧ ¬isEmpty ∧ ¬jumps then gotoBreak else return

def switch (options : Options) (subject : Plan Operand) (cases : List Case)
    (bodies : List Label → Plan Unit) (default : Option (Plan Unit)) : Plan Unit := do
  let v ← value subject
  let v ← ensureTemp v
  let labels ← caseTests options v cases
  of .enterSwitch
  match default with
  | none => do
    gotoBreak
    bodies labels
    let done ← of .exitSwitch
    placeLabel done
  | some body => do
    let other ← of .freshLabel
    emit (.goto other)
    bodies labels
    emit (.label other)
    body
    let done ← of .exitSwitch
    placeLabel done

def jump (target : Plan (Option Label)) (problem : Problem) : Plan Unit := do
  match ← target with
  | some l => emit (.goto l)
  | none => report problem

def block (span : Span) (body : Plan Unit) : Plan Unit := do
  let outer ← enterScope span
  body
  of (.moveTo outer)

def tryCatch (options : Options) (body : Plan Unit) (caught : String) (span handlerSpan : Span)
    (handler : Plan Unit) : Plan Unit := do
  let failed ← of .freshLabel
  emit (.tryBegin failed)
  body
  emit .tryEnd
  let done ← of .freshLabel
  emit (.goto done)
  emit (.label failed)
  block handlerSpan do
    bindLocal options caught span
    emit (.assign (.var caught) .exception)
    handler
  emit (.label done)

def inherited (parent : Option String) : Plan Nat := do
  match parent with
  | none => return 0
  | some parent => match ← of (.lookup parent) with
    | some id => do
      let x ← of (.symbol id)
      return x.frame
    | none => return 0

def reserve (size : Nat) : Plan Unit :=
  if 0 < size then do
    let _ ← of (.allocate size)
    return
  else return

def atMembers (members : Option Nat) (body : Plan Unit) : Plan Unit :=
  match members with
  | some scope => do
    of (.moveTo scope)
    body
  | none => body

def functionFrame (options : Options) (name : String) (params : List Param) (span : Span)
    (body : Plan Unit) : Plan Unit := do
  match ← of (.lookup name) with
  | none => report (.unresolved name span.line)
  | some id => do
    let x ← of (.symbol id)
    let outer ← of .scope
    let function ← of (.enterFunction x.qualifiedName)
    of .enterFrame
    emit (.entry x.qualifiedName)
    atMembers x.members do
      params.forM (bindParam options)
      body
    emit (.close x.qualifiedName)
    let frame ← of .exitFrame
    of (.closeFunction id params.length frame)
    of (.moveTo outer)
    of (.exitFunction function)

def classFrame (name : String) (parent : Option String) (span : Span) (members : Plan Unit) :
    Plan Unit := do
  match ← of (.lookup name) with
  | none => report (.unresolved name span.line)
  | some id => do
    let x ← of (.symbol id)
    let size ← inherited parent
    let outer ← of .scope
    let className ← of (.enterClass name)
    of .enterFrame
    emit (.entry name)
    reserve size
    atMembers x.members members
    emit (.close name)
    let frame ← of .exitFrame
    of (.closeClass id frame)
    of (.moveTo outer)
    of (.exitClass className)

end Control

end Plan

section Statements

variable (options : Options)

/-- Storage is given out before the initializer runs. -/
def Binding.plan (b : Binding) : Plan Unit := do
  match ← of (.lookup b.name) with
  | none => report (.unresolved b.name b.span.line)
  | some id => match b.value with
    | some (.array es span) => declareArray options id es span
    | some e => do
      let size ← valueSize options id
      bindStorage id size
      let v ← storable (e.plan options)
      emit (.assign (.var b.name) v)
    | none => do
      let size ← valueSize options id
      bindStorage id size

def Target.plan (e : Expr) (span : Span) : Target → Plan Unit
  | .ident name => do
    match ← of (.lookup name) with
    | none => report (.unresolved name span.line)
    | some id => match e with
      | .array es span => assignArray options id es span
      | e => do
        let x ← of (.symbol id)
        let v ← storable (e.plan options)
        emit (.assign (.var (x.address.getD name)) v)
  | .index base indices => do
    let base ← value (base.plan options)
    let is ← indexPlans options indices
    let v ← storable (e.plan options)
    emit (.assign (.element base is) v)
  | .property object field => do
    let base ← value (object.plan options)
    let v ← storable (e.plan options)
    emit (.assign (.field base field) v)

mutual

def Stmt.plan : Stmt → Plan Unit
  | .declare b => guarding b.uses b.span (b.plan options)
  | .assign target e span =>
    guarding (target.uses span ++ e.uses) span (target.plan options e span)
  | .print e span => guarding e.uses span do
    let t ← argument (e.plan options)
    emit (.call "print" [t])
  | .eval e span => guarding e.uses span do
    let outer ← of (.want false)
    let _ ← e.plan options
    let _ ← of (.want outer)
  | .return none _ => emit (.return .null)
  | .return (some e) span => guarding e.uses span do
    let v ← value (e.plan options)
    emit (.return v)
  | .block b => block b.span b.plan
  | .ite c yes none _ => ifThen (c.headerPlan options) (block yes.span yes.plan)
  | .ite c yes (some no) _ =>
    ifThenElse (c.headerPlan options) (block yes.span yes.plan) (block no.span no.plan)
  | .while c body _ => whileLoop (c.headerPlan options) (block body.span body.plan)
  | .doWhile body c _ => doWhile (block body.span body.plan) (c.headerPlan options)
  | .for first test next body _ =>
    forLoop body.span (optionPlan first) (test.map (·.headerPlan options)) next.isSome (optionPlan next)
      body.plan
  | .foreach item collection body span =>
    foreachLoop options body.span collection item span body.plan
  | .switch subject cases default _ =>
    switch options (subject.headerPlan options) cases (casePlans cases)
      (match default with
        | none => none
        | some body => some (planAll body))
  | .break span => jump (of .breakLabel) (.breakOutside span.line)
  | .continue span => jump (of .continueLabel) (.continueOutside span.line)
  | .tryCatch body caught handler span =>
    tryCatch options (block body.span body.plan) caught span handler.span handler.plan
  | .function f => f.plan
  | .class c => c.plan

def optionPlan : Option Stmt → Plan Unit
  | none => return
  | some s => begins (.stmt s) s.plan

def planAll : List Stmt → Plan Unit
  | [] => return
  | s :: rest => do
    begins (.stmt s) s.plan
    planAll rest

def Block.plan : Block → Plan Unit
  | ⟨body, _⟩ => planAll body

def casePlans : List Case → List Label → Plan Unit
  | ⟨_, body, _⟩ :: cases, l :: labels => do
    caseBody options l body.isEmpty (planAll body)
    casePlans cases labels
  | _, _ => return

def Function.plan : Function → Plan Unit
  | ⟨name, params, _, body, span⟩ => functionFrame options name params span body.plan

def Member.plan : Member → Plan Unit
  | .field b => begins (.stmt (.declare b)) <| guarding b.uses b.span (b.plan options)
  | .method f => begins (.stmt (.function f)) f.plan

def memberPlans : List Member → Plan Unit
  | [] => return
  | m :: rest => do
    m.plan
    memberPlans rest

def Class.plan : Class → Plan Unit
  | ⟨name, parent, members, span⟩ => classFrame name parent span (memberPlans members)

end

end Statements

def FullState.start (table : Table) (options : Options) : FullState :=
  { ledger := { layout := options.nestedFrames }, table }

end ThreeAddress
