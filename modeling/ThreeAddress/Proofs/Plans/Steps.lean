import Mathlib.Data.List.Chain
import ThreeAddress.Lowering.Store

/-! Lowering with everything kept by hand. The code is written down as it comes, and the scope, the
function, the class and whether a value is wanted are all part of one state, and whoever changes them has to
put them back. A plan says which step to take next, so that all the states that it goes through can be
told one by one. -/

namespace ThreeAddress

open Lowering

/-- What has to be put back by hand. -/
structure Setting where
  scope : Nat := Table.global
  function : Option String := none
  className : Option String := none
  wanted : Bool := false

def Setting.context (p : Setting) (options : Options) : Context :=
  { options, scope := p.scope, className := p.className }

structure FullState extends Lowering.State, Setting where
  code : Code := []

/-- A part of a program: a statement at any depth, or an expression in the header of one that holds
others. -/
inductive Part
  | stmt (s : Stmt)
  | header (e : Expr)

namespace FullState

/-- The first two change nothing. They tell where a part of the program or the value of an expression
begins. -/
inductive Step
  | begin (part : Part)
  | evaluate (e : Expr)
  | freshTemp
  | freshLabel
  | emit (i : Instruction)
  | endsInJump
  | enterLoop (break? continue? : Option Label)
  | exitLoop
  | enterSwitch
  | exitSwitch
  | breakLabel
  | continueLabel
  | allocate (size : Nat)
  | enterFrame
  | exitFrame
  | enterFunction (name : String)
  | exitFunction (outer : Option String)
  | enterClass (name : String)
  | exitClass (outer : Option String)
  | className
  | want (wanted : Bool)
  | isWanted
  | scope
  | moveTo (scope : Nat)
  | scopeFor (key : Position)
  | lookup (name : String)
  | lookupLocal (name : String)
  | symbol (id : SymbolId)
  | report (p : Problem)
  | arraySize (pointer leaf : Nat) (dims : List Nat)
  | place (id : SymbolId) (offset size : Nat)
  | extend (id : SymbolId) (dimensions : List Nat)
  | closeFunction (id : SymbolId) (params frame : Nat)
  | closeClass (id : SymbolId) (frame : Nat)

abbrev Step.Answer : Step → Type
  | .freshTemp => Temp
  | .freshLabel => Label
  | .endsInJump | .want _ | .isWanted => Bool
  | .exitLoop => Option Label × Option Label
  | .exitSwitch | .breakLabel | .continueLabel => Option Label
  | .allocate _ | .exitFrame | .scope | .arraySize .. => Nat
  | .enterFunction _ | .enterClass _ | .className => Option String
  | .scopeFor _ => Option Nat
  | .lookup _ | .lookupLocal _ => Option SymbolId
  | .symbol _ => Symbol
  | .begin _ | .evaluate _ | .emit _ | .enterLoop .. | .enterSwitch | .enterFrame | .exitFunction _
  | .exitClass _ | .moveTo _ | .report _ | .place .. | .extend .. | .closeFunction .. | .closeClass .. => Unit

def keep (d : FullState) (act : Account α) : Checked (α × FullState) := do
  let (a, ledger) ← act.run d.ledger
  return (a, { d with ledger })

def ask (d : FullState) (x : Checked α) : Checked (α × FullState) := do return (← x, d)

def modifySymbol (d : FullState) (id : SymbolId) (f : Symbol → Symbol) : FullState :=
  { d with table := d.table.modifySymbol id f }

def Step.part? : Step → Option Part
  | .begin part => some part
  | _ => none

def Step.expr? : Step → Option Expr
  | .evaluate e => some e
  | _ => none

def step (d : FullState) : (s : Step) → Checked (s.Answer × FullState)
  | .begin _ | .evaluate _ => return ((), d)
  | .freshTemp => d.keep Ledger.freshTemp
  | .freshLabel => d.keep Ledger.freshLabel
  | .emit i => return ((), { d with code := d.code ++ [i] })
  | .endsInJump => d.ask (pure d.code.endsInJump)
  | .enterLoop b k => d.keep (Ledger.enterLoop b k)
  | .exitLoop => d.keep Ledger.exitLoop
  | .enterSwitch => d.keep Ledger.enterSwitch
  | .exitSwitch => d.keep Ledger.exitSwitch
  | .breakLabel => d.keep Ledger.breakLabel
  | .continueLabel => d.keep Ledger.continueLabel
  | .allocate size => d.keep (Ledger.allocate size)
  | .enterFrame => d.keep Ledger.enterFrame
  | .exitFrame => d.keep Ledger.exitFrame
  | .enterFunction name => return (d.function, { d with function := some name })
  | .exitFunction outer => return ((), { d with function := outer })
  | .enterClass name => return (d.className, { d with className := some name })
  | .exitClass outer => return ((), { d with className := outer })
  | .className => d.ask (pure d.className)
  | .want wanted => return (d.wanted, { d with wanted })
  | .isWanted => d.ask (pure d.wanted)
  | .scope => d.ask (pure d.scope)
  | .moveTo scope => return ((), { d with scope })
  | .scopeFor key => d.ask (pure (d.table.scopeFor key))
  | .lookup name => d.ask (d.table.lookup d.scope name)
  | .lookupLocal name => d.ask (d.table.lookupLocal d.scope name)
  | .symbol id => d.ask (d.table.symbol id)
  | .report p => return ((), { d with problems := d.problems ++ [p] })
  | .arraySize pointer leaf dims => d.ask (ThreeAddress.arraySize pointer leaf dims)
  | .place id offset size => do
    let x ← d.table.symbol id
    if x.offset.isSome then throw (.boundTwice x.name)
    return ((), d.modifySymbol id fun x => { x with offset := some offset, size, address := some x.name })
  | .extend id dimensions => return ((), d.modifySymbol id ({ · with dimensions }))
  | .closeFunction id params frame => return ((), d.modifySymbol id ({ · with params, frame }))
  | .closeClass id frame => return ((), d.modifySymbol id ({ · with frame }))

end FullState

/-- Steps one after the other, each with a choice of what comes next by its answer. -/
inductive Plan (α : Type)
  | done (a : α)
  | step (s : FullState.Step) (next : s.Answer → Plan α)

namespace Plan

def bind (plan : Plan α) (f : α → Plan β) : Plan β :=
  match plan with
  | .done a => f a
  | .step s next => .step s fun b => (next b).bind f

instance : Monad Plan where
  pure := .done
  bind := bind

def run (plan : Plan α) (d : FullState) : Checked (α × FullState) :=
  match plan with
  | .done a => .ok (a, d)
  | .step s next => do
    let (b, d) ← d.step s
    (next b).run d

/-- The states that the plan goes through, from the first one to the last or to the fault. -/
def visits (plan : Plan α) (d : FullState) : List FullState :=
  d :: match plan with
  | .done _ => []
  | .step s next => match d.step s with
    | .error _ => []
    | .ok (b, d) => (next b).visits d

/-- The steps of some kind that are taken, each with the state that it is taken in. -/
def marks (kind : FullState.Step → Option β) (plan : Plan α) (d : FullState) : List (β × FullState) :=
  match plan with
  | .done _ => []
  | .step s next => ((kind s).map (·, d)).toList ++ match d.step s with
    | .error _ => []
    | .ok (b, d) => (next b).marks kind d

/-- The parts of a program that the plan comes to. -/
def course (plan : Plan α) (d : FullState) : List (Part × FullState) := plan.marks FullState.Step.part? d

/-- The expressions whose values the plan comes to. -/
def evaluations (plan : Plan α) (d : FullState) : List (Expr × FullState) :=
  plan.marks FullState.Step.expr? d

theorem bind_eq (plan : Plan α) (f : α → Plan β) : plan >>= f = plan.bind f := rfl

instance : LawfulMonad Plan := .mk' Plan
  (fun plan => by
    change plan.bind _ = plan
    induction plan with
    | done => rfl
    | step s next ih => exact congrArg (Plan.step s) (funext ih))
  (fun _ _ => rfl)
  (fun plan f g => by
    simp only [bind_eq]
    induction plan with
    | done => rfl
    | step s next ih => exact congrArg (Plan.step s) (funext ih))

theorem run_bind (plan : Plan α) (f : α → Plan β) (d : FullState) :
    (plan >>= f).run d = plan.run d >>= fun x => (f x.1).run x.2 := by
  rw [bind_eq]
  induction plan generalizing d with
  | done => rfl
  | step s next ih =>
    rw [bind, run, run]
    cases d.step s with
    | error => rfl
    | ok x => exact ih x.1 x.2

section

variable {kind : FullState.Step → Option γ} {plan : Plan α} {f : α → Plan β} {d d' : FullState} {a : α}

theorem marks_bind (h : plan.run d = .ok (a, d')) :
    (plan >>= f).marks kind d = plan.marks kind d ++ (f a).marks kind d' := by
  rw [bind_eq]
  induction plan generalizing d with
  | done b =>
    cases h
    rfl
  | step s next ih =>
    rw [run] at h
    rw [bind, marks, marks]
    cases hs : d.step s with
    | error => simp [hs, Bind.bind, Except.bind] at h
    | ok x =>
      rw [hs] at h
      dsimp only
      rw [ih x.1 h, List.append_assoc]

theorem course_bind (h : plan.run d = .ok (a, d')) :
    (plan >>= f).course d = plan.course d ++ (f a).course d' := marks_bind h

theorem evaluations_bind (h : plan.run d = .ok (a, d')) :
    (plan >>= f).evaluations d = plan.evaluations d ++ (f a).evaluations d' := marks_bind h

theorem course_infix_first (h : plan.run d = .ok (a, d')) :
    plan.course d <:+: (plan >>= f).course d := by
  rw [course_bind h]
  exact (List.prefix_append _ _).isInfix

theorem course_infix_last (h : plan.run d = .ok (a, d')) :
    (f a).course d' <:+: (plan >>= f).course d := by
  rw [course_bind h]
  exact (List.suffix_append _ _).isInfix

end

theorem visits_eq_cons (plan : Plan α) (d : FullState) : ∃ rest, plan.visits d = d :: rest := by
  cases plan <;> exact ⟨_, by rw [visits]⟩

theorem visits_chain {R : FullState → FullState → Prop}
    (h : ∀ {d : FullState} {s : FullState.Step} {b : s.Answer} {d' : FullState},
      d.step s = .ok (b, d') → R d d')
    (plan : Plan α) (d : FullState) : (plan.visits d).IsChain R := by
  induction plan generalizing d with
  | done a => exact .singleton d
  | step s next ih =>
    rw [visits]
    cases hs : d.step s with
    | error => exact .singleton d
    | ok x =>
      have hrest := ih x.1 x.2
      obtain ⟨rest, hr⟩ := (next x.1).visits_eq_cons x.2
      dsimp only
      rw [hr] at hrest ⊢
      exact .cons_cons (h hs) hrest

theorem getLast_visits {plan : Plan α} {d d' : FullState} {a : α} (h : plan.run d = .ok (a, d')) :
    (plan.visits d).getLast? = some d' := by
  induction plan generalizing d with
  | done a =>
    cases h
    rfl
  | step s next ih =>
    rw [run] at h
    rw [visits]
    cases hs : d.step s with
    | error => simp [hs, Bind.bind, Except.bind] at h
    | ok x =>
      rw [hs] at h
      have hrest := ih x.1 h
      obtain ⟨rest, hr⟩ := (next x.1).visits_eq_cons x.2
      dsimp only
      rw [hr] at hrest ⊢
      rw [List.getLast?_cons_cons, hrest]

end Plan

end ThreeAddress
