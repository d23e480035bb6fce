import Mathlib.Logic.Function.Basic
import ThreeAddress.Source.Tree
import ThreeAddress.Options

/-! What structured programs mean. Values and operators are those of a model; truth is the number
one and falsehood the number zero.

A loop may go on forever, so a run is given the number of passes that a loop may take: `none` says
that some loop has not ended by then. -/

namespace ThreeAddress

structure Model (V : Type u) where
  int : Int → V
  str : String → V
  null : V
  binary : BinaryOp → V → V → V
  unary : UnaryOp → V → V
  element : V → List V → V
  field : V → String → V

def Model.bool (M : Model V) (b : Bool) : V := M.int (if b then 1 else 0)

structure World (V : Type u) where
  store : String → V
  printed : List V := []

def World.set (w : World V) (name : String) (v : V) : World V :=
  { w with store := Function.update w.store name v }

def World.print (w : World V) (v : V) : World V := { w with printed := w.printed ++ [v] }

inductive Exit
  | normal | break | continue
  deriving DecidableEq

abbrev Action (V : Type u) := World V → Option (Exit × World V)

/-- Runs passes, `n` at most, until one says that it was the last. -/
def iterate (pass : α → Option (Bool × α)) : (n : Nat) → α → Option α
  | 0, _ => none
  | n + 1, a =>
    match pass a with
    | none => none
    | some (true, a) => iterate pass n a
    | some (false, a) => some a

namespace Action

def update (f : World V → World V) : Action V := fun w => some (.normal, f w)

def skip : Action V := update id

def leave : Action V := fun w => some (.break, w)

def seq (a b : Action V) : Action V := fun w =>
  match a w with
  | some (.normal, w) => b w
  | r => r

def ite (test : World V → Bool) (a b : Action V) : Action V := fun w => if test w then a w else b w

def testedPass (test : World V → Bool) (body step : Action V) (w : World V) :
    Option (Bool × World V) :=
  if test w then
    match body w with
    | none => none
    | some (.break, w) => some (false, w)
    | some (_, w) => (step w).map fun (_, w) => (true, w)
  else some (false, w)

def loop (test : World V → Bool) (body step : Action V) (fuel : Nat) : Action V := fun w =>
  (iterate (testedPass test body step) fuel w).map (.normal, ·)

/-- One pass of a loop that ends with its test. A `continue` starts the next pass without it. -/
def bodyPass (body : Action V) (test : World V → Bool) (w : World V) : Option (Bool × World V) :=
  match body w with
  | none => none
  | some (.normal, w) => some (test w, w)
  | some (.break, w) => some (false, w)
  | some (.continue, w) => some (true, w)

def doWhile (body : Action V) (test : World V → Bool) (fuel : Nat) : Action V := fun w =>
  (iterate (bodyPass body test) fuel w).map (.normal, ·)

variable [DecidableEq V]

def elementPass (M : Model V) (item collection : String) (n : V) (body : Action V)
    (a : V × World V) : Option (Bool × V × World V) :=
  let (i, w) := a
  if M.binary .lt i n = M.int 0 then some (false, i, w)
  else
    match body (w.set item (M.element (w.store collection) [i])) with
    | none => none
    | some (.break, w) => some (false, i, w)
    | some (_, w) => some (true, M.binary .add i (M.int 1), w)

/-- The length is read once, and the collection again in every pass. -/
def foreach (M : Model V) (item collection : String) (body : Action V) (fuel : Nat) : Action V :=
  fun w =>
    let n := M.field (w.store collection) "length"
    (iterate (elementPass M item collection n body) fuel (M.int 0, w)).map fun (_, w) => (.normal, w)

def untilBreak (a : Action V) : Action V := fun w =>
  match a w with
  | some (.break, w) => some (.normal, w)
  | r => r

end Action

variable [DecidableEq V]

/-- Calls, objects and array literals have no meaning here. -/
def Expr.eval (M : Model V) (store : String → V) : Expr → V
  | .int n _ => M.int n
  | .str s _ => M.str s
  | .bool b _ => M.bool b
  | .ident name _ => store name
  | .binary l op r _ => M.binary op (l.eval M store) (r.eval M store)
  | .unary op e _ => M.unary op (e.eval M store)
  | .logical l .and r _ => if l.eval M store = M.int 0 then M.int 0 else r.eval M store
  | .logical l .or r _ => if l.eval M store = M.int 0 then r.eval M store else M.int 1
  | .ternary c a b _ => if c.eval M store = M.int 1 then a.eval M store else b.eval M store
  | .null _ | .this _ | .array .. | .call .. | .new .. | .index .. | .property .. => M.null

/-- A condition fails if it is zero. -/
def Expr.holds (M : Model V) (e : Expr) (w : World V) : Bool := e.eval M w.store ≠ M.int 0

theorem Expr.holds_iff {M : Model V} {e : Expr} {w : World V} :
    e.holds M w ↔ e.eval M w.store ≠ M.int 0 := decide_eq_true_iff

mutual

def Stmt.exec (M : Model V) (mode : CaseExit) (fuel : Nat) : Stmt → Action V
  | .declare b =>
    match b.value with
    | none => .skip
    | some e => .update fun w => w.set b.name (e.eval M w.store)
  | .assign (.ident name) e _ => .update fun w => w.set name (e.eval M w.store)
  | .print e _ => .update fun w => w.print (e.eval M w.store)
  | .block b => b.exec M mode fuel
  | .ite c yes no _ =>
    let other := match no with
      | none => Action.skip
      | some no => no.exec M mode fuel
    .ite (c.holds M) (yes.exec M mode fuel) other
  | .while c body _ => .loop (c.holds M) (body.exec M mode fuel) .skip fuel
  | .doWhile body c _ => .doWhile (body.exec M mode fuel) (c.holds M) fuel
  | .for first test step body _ =>
    let enter := match first with
      | none => Action.skip
      | some s => s.exec M mode fuel
    let step := match step with
      | none => Action.skip
      | some s => s.exec M mode fuel
    enter.seq (.loop (fun w => test.all (·.holds M w)) (body.exec M mode fuel) step fuel)
  | .foreach item (.ident collection _) body _ =>
    .foreach M item collection (body.exec M mode fuel) fuel
  | .switch subject cases default _ => .untilBreak fun w =>
    let other := match default with
      | none => Action.skip
      | some body => execAll M mode fuel body
    execCases M mode fuel (subject.eval M w.store) other cases false w
  | .break _ => .leave
  | .continue _ => fun w => some (.continue, w)
  | .eval .. | .assign .. | .foreach .. | .return .. | .tryCatch .. | .function _ | .class _ => .skip

def execAll (M : Model V) (mode : CaseExit) (fuel : Nat) : List Stmt → Action V
  | [] => .skip
  | s :: rest => (s.exec M mode fuel).seq (execAll M mode fuel rest)

def Block.exec (M : Model V) (mode : CaseExit) (fuel : Nat) : Block → Action V
  | ⟨body, _⟩ => execAll M mode fuel body

/-- Looks for the first case with the value `v`, unless it is found already, and runs on into the
default behind the last case. The mode may let a case that is not empty leave the switch. -/
def execCases (M : Model V) (mode : CaseExit) (fuel : Nat) (v : V) (other : Action V) :
    List Case → (found : Bool) → Action V
  | [], _ => other
  | ⟨value, body, _⟩ :: rest, found => fun w =>
    if found ∨ v = value.eval M w.store then
      (execAll M mode fuel body).seq (if mode = .implicitBreak ∧ ¬body.isEmpty then .leave
        else execCases M mode fuel v other rest true) w
    else execCases M mode fuel v other rest false w

end

section Equations

variable {M : Model V} {mode : CaseExit} {fuel : Nat} {v : V} {other : Action V} {found : Bool}

theorem Block.exec_eq (b : Block) : b.exec M mode fuel = execAll M mode fuel b.body := by
  cases b
  rw [exec]

theorem Stmt.exec_for (first : Option Stmt) (test : Option Expr) (step : Option Stmt) (body : Block)
    (span : Span) : (Stmt.for first test step body span).exec M mode fuel =
      let enter := match first with
        | none => Action.skip
        | some s => s.exec M mode fuel
      let step := match step with
        | none => Action.skip
        | some s => s.exec M mode fuel
      enter.seq (.loop (fun w => test.all (·.holds M w)) (body.exec M mode fuel) step fuel) := by
  cases first <;> cases step <;> rw [Stmt.exec]

theorem execCases_cons (k : Case) (rest : List Case) (w : World V) :
    execCases M mode fuel v other (k :: rest) found w =
      if found ∨ v = k.value.eval M w.store then
        ((execAll M mode fuel k.body).seq (if mode = .implicitBreak ∧ ¬k.body.isEmpty then .leave
          else execCases M mode fuel v other rest true)) w
      else execCases M mode fuel v other rest false w := by
  cases k
  rw [execCases]

theorem execCases_nil : execCases M mode fuel v other [] found = other := by
  rw [execCases]

end Equations

/-- Expressions over numbers, truth values, texts, names and operators. -/
inductive Expr.Scalar : Expr → Prop
  | int : Scalar (.int n loc)
  | str : Scalar (.str s loc)
  | bool : Scalar (.bool b loc)
  | null : Scalar (.null loc)
  | ident : Scalar (.ident name loc)
  | binary : Scalar l → Scalar r → Scalar (.binary l op r loc)
  | unary : Scalar e → Scalar (.unary op e loc)
  | logical : Scalar l → Scalar r → Scalar (.logical l op r loc)
  | ternary : Scalar c → Scalar a → Scalar b → Scalar (.ternary c a b loc)

inductive Stmt.Simple : Stmt → Prop
  | declare : (∀ e ∈ b.value, e.Scalar) → Simple (.declare b)
  | assign : e.Scalar → Simple (.assign (.ident name) e loc)
  | eval : e.Scalar → Simple (.eval e loc)

/-- What a program does to the world before it ends, if it ever ends. -/
def Program.Ends (M : Model V) (mode : CaseExit) (p : Program) (w w' : World V) : Prop :=
  ∃ fuel, execAll M mode fuel p.statements w = some (.normal, w')

inductive Stmt.Structured : Stmt → Prop
  | simple : s.Simple → Structured s
  | print : e.Scalar → Structured (.print e loc)
  | block : (∀ s ∈ b.body, Structured s) → Structured (.block b)
  | ite : c.Scalar → (∀ s ∈ yes.body, Structured s) → (∀ b ∈ no, ∀ s ∈ b.body, Structured s) →
    Structured (.ite c yes no loc)
  | whileLoop : c.Scalar → (∀ s ∈ body.body, Structured s) → Structured (.while c body loc)
  | doWhile : (∀ s ∈ body.body, Structured s) → c.Scalar → Structured (.doWhile body c loc)
  | forLoop : (∀ s ∈ first, s.Simple) → (∀ e ∈ test, e.Scalar) → (∀ s ∈ step, s.Simple) →
    (∀ s ∈ body.body, Structured s) → Structured (.for first test step body loc)
  | foreach : (∀ s ∈ body.body, Structured s) →
    Structured (.foreach item (.ident collection pos) body loc)
  | switch : subject.Scalar → (∀ k ∈ cases, k.value.Scalar) →
    (∀ k ∈ cases, ∀ s ∈ k.body, Structured s) → (∀ body ∈ other, ∀ s ∈ body, Structured s) →
    Structured (.switch subject cases other loc)
  | exit : Structured (.break loc)
  | next : Structured (.continue loc)

end ThreeAddress
