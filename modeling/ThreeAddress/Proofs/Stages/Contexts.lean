import ThreeAddress.Proofs.Names.Program

namespace ThreeAddress

open Lowering

/-- A statement, or an expression in the header of one, with the context that it is lowered in. -/
inductive Stage
  | stmt (c : Context) (s : Stmt)
  | header (c : Context) (e : Expr)

namespace Lowering.Context

def within (c : Context) (t : Table) (span : Span) : Context :=
  { c with scope := t.opened c.scope span }

def inside (c : Context) (owner : Symbol) : Context :=
  { c with scope := owner.members.getD c.scope }

end Lowering.Context

mutual

/-- What is inside of a statement that is lowered in the given context. The header of a `for` or a
`foreach` is lowered in the scope of the body. What belongs to a function or a class without a symbol
is not lowered. -/
def Stmt.stages (t : Table) (c : Context) : Stmt → List Stage
  | .block b => b.stages t (c.within t b.span)
  | .ite e yes no _ =>
    .header c e :: (yes.stages t (c.within t yes.span) ++ match no with
      | none => []
      | some no => no.stages t (c.within t no.span))
  | .while e body _ => .header c e :: body.stages t (c.within t body.span)
  | .doWhile body e _ => body.stages t (c.within t body.span) ++ [.header c e]
  | .for first test step body _ =>
    let inner := c.within t body.span
    stagesOption t inner first ++ (test.toList.map (.header inner) ++
      (body.stages t inner ++ stagesOption t inner step))
  | .foreach _ e body _ =>
    let inner := c.within t body.span
    .header inner e :: body.stages t inner
  | .switch e cases default _ =>
    .header c e :: (cases.map (.header c ·.value) ++ (stagesCases t c cases ++ match default with
      | none => []
      | some body => stagesAll t c body))
  | .tryCatch body _ handler _ =>
    body.stages t (c.within t body.span) ++ handler.stages t (c.within t handler.span)
  | .function f => f.stages t c
  | .class k => k.stages t c
  | .declare _ | .assign .. | .print .. | .eval .. | .break _ | .continue _ | .return .. => []

def stagesOption (t : Table) (c : Context) : Option Stmt → List Stage
  | none => []
  | some s => .stmt c s :: s.stages t c

def stagesAll (t : Table) (c : Context) : List Stmt → List Stage
  | [] => []
  | s :: rest => .stmt c s :: (s.stages t c ++ stagesAll t c rest)

def Block.stages (t : Table) (c : Context) : Block → List Stage
  | ⟨body, _⟩ => stagesAll t c body

def stagesCases (t : Table) (c : Context) : List Case → List Stage
  | [] => []
  | ⟨_, body, _⟩ :: rest => stagesAll t c body ++ stagesCases t c rest

def Function.stages (t : Table) (c : Context) : Function → List Stage
  | ⟨name, _, _, body, _⟩ => match t.visible? c.scope name with
    | none => []
    | some x => body.stages t (c.inside x)

/-- A field is lowered as a declaration. -/
def stagesMembers (t : Table) (c : Context) : List Member → List Stage
  | [] => []
  | .field b :: rest => .stmt c (.declare b) :: stagesMembers t c rest
  | .method f :: rest => .stmt c (.function f) :: (f.stages t c ++ stagesMembers t c rest)

def Class.stages (t : Table) (c : Context) : Class → List Stage
  | ⟨name, _, members, _⟩ => match t.visible? c.scope name with
    | none => []
    | some x => stagesMembers t { c.inside x with className := some name } members

end

def Program.stages (p : Program) (t : Table) (options : Options) : List Stage :=
  stagesAll t { options } p.statements

section

variable {t : Table} {c : Context}

theorem Block.stages_eq (b : Block) : b.stages t c = stagesAll t c b.body := by
  cases b
  rw [stages]

theorem stagesOption_eq (s : Option Stmt) : stagesOption t c s = stagesAll t c s.toList := by
  cases s <;> simp [stagesOption, stagesAll]

theorem stagesCases_cons (k : Case) (rest : List Case) :
    stagesCases t c (k :: rest) = stagesAll t c k.body ++ stagesCases t c rest := by
  cases k
  rw [stagesCases]

theorem Function.stages_eq (f : Function) : f.stages t c = match t.visible? c.scope f.name with
    | none => []
    | some x => stagesAll t (c.inside x) f.body.body := by
  cases f
  simp only [stages, Block.stages_eq]

theorem Class.stages_eq (k : Class) : k.stages t c = match t.visible? c.scope k.name with
    | none => []
    | some x => stagesMembers t { c.inside x with className := some k.name } k.members := by
  cases k
  rw [stages]

theorem Stmt.stages_of_isPlain {s : Stmt} (h : s.isPlain) (c : Context) : s.stages t c = [] := by
  cases s <;> simp_all [isPlain, stages]

end

end ThreeAddress
