import ThreeAddress.Options
import ThreeAddress.Scope.Table
import ThreeAddress.Source.Tree

/-! What takes room in a frame: in source order, the variables that are bound in it and the functions
and classes whose own frames end in it. -/

namespace ThreeAddress

structure Site where
  key : Position
  name : String
  deriving DecidableEq

inductive Item
  | slot (site : Site)
  /-- A function or a class, the key of the scope of its members, the name of the class it extends,
  and what takes room in its frame. -/
  | frame (site : Site) (scope : Position) (parent : Option String) (inside : List Item)

mutual

def Stmt.items (key : Position) : Stmt → List Item
  | .declare b => [.slot ⟨key, b.name⟩]
  | .block b => b.items
  | .ite _ yes no _ =>
    yes.items ++ match no with
      | none => []
      | some no => no.items
  | .while _ body _ | .doWhile body _ _ => body.items
  | .for first _ _ body _ =>
    let first := match first with
      | none => []
      | some s => s.items body.span.toPosition
    first ++ body.items
  | .foreach item _ body _ => .slot ⟨body.span.toPosition, item⟩ :: body.items
  | .switch _ cases default _ =>
    itemsCases key cases ++ match default with
      | none => []
      | some body => itemsAll key body
  | .tryCatch body caught handler _ =>
    body.items ++ .slot ⟨handler.span.toPosition, caught⟩ :: handler.items
  | .function f => [f.item key]
  | .class c => [c.item key]
  | .assign .. | .print .. | .eval .. | .break _ | .continue _ | .return .. => []

def itemsAll (key : Position) : List Stmt → List Item
  | [] => []
  | s :: rest => s.items key ++ itemsAll key rest

def Block.items : Block → List Item
  | ⟨body, span⟩ => itemsAll span.toPosition body

def itemsCases (key : Position) : List Case → List Item
  | [] => []
  | ⟨_, body, _⟩ :: rest => itemsAll key body ++ itemsCases key rest

def Function.item (key : Position) : Function → Item
  | ⟨name, params, _, body, _⟩ =>
    .frame ⟨key, name⟩ body.span.toPosition none
      (params.map (fun p => .slot ⟨body.span.toPosition, p.name⟩) ++ body.items)

def Member.item (key : Position) : Member → Item
  | .field b => .slot ⟨key, b.name⟩
  | .method f => f.item key

def itemsMembers (key : Position) : List Member → List Item
  | [] => []
  | m :: rest => m.item key :: itemsMembers key rest

def Class.item (key : Position) : Class → Item
  | ⟨name, parent, members, span⟩ =>
    .frame ⟨key, name⟩ span.toPosition parent (itemsMembers span.toPosition members)

end

def Program.items (p : Program) : List Item := itemsAll .origin p.statements

def Item.site : Item → Site
  | .slot s => s
  | .frame s .. => s

mutual

def Item.sites : Item → List Site
  | .slot s => [s]
  | .frame s _ _ inside => s :: sitesAll inside

def sitesAll : List Item → List Site
  | [] => []
  | i :: rest => i.sites ++ sitesAll rest

end

theorem mem_sitesAll {s : Site} {items : List Item} : s ∈ sitesAll items ↔ ∃ i ∈ items, s ∈ i.sites := by
  induction items with
  | nil => simp [sitesAll]
  | cons i rest ih => simp [sitesAll, ih]

@[simp] theorem sitesAll_append (items items' : List Item) :
    sitesAll (items ++ items') = sitesAll items ++ sitesAll items' := by
  induction items with
  | nil => rfl
  | cons i rest ih => simp [sitesAll, ih]

/-- A frame with the functions and classes whose frames have ended when it begins. -/
structure Frame where
  site : Site
  parent : Option String
  inside : List Item
  closed : List Site

mutual

def Item.slots : Item → List Site
  | .slot s => [s]
  | .frame _ _ _ inside => slotsAll inside

def slotsAll : List Item → List Site
  | [] => []
  | i :: rest => i.slots ++ slotsAll rest

end

mutual

def Item.owners : Item → List Site
  | .slot _ => []
  | .frame site _ _ inside => ownersAll inside ++ [site]

def ownersAll : List Item → List Site
  | [] => []
  | i :: rest => i.owners ++ ownersAll rest

end

mutual

def Item.frames (closed : List Site) : Item → List Frame
  | .slot _ => []
  | .frame site _ parent inside => ⟨site, parent, inside, closed⟩ :: framesAll closed inside

def framesAll (closed : List Site) : List Item → List Frame
  | [] => []
  | i :: rest => i.frames closed ++ framesAll (closed ++ i.owners) rest

end

def Program.frames (p : Program) : List Frame := framesAll [] p.items

namespace Table

def find? (t : Table) (s : Site) : Option SymbolId := do
  let scope ← t.scopeFor s.key
  let slot ← (← t.scopes[scope]?).slot? s.name
  return ⟨scope, slot⟩

def get? (t : Table) (s : Site) : Option Symbol := do (t.symbol (← t.find? s)).toOption

/-- What a frame begins with: nothing, or the frame that the symbol of its parent holds when it
begins. -/
def inherited (t : Table) (f : Frame) : Nat :=
  match t.scopeFor f.site.key, f.parent with
  | some scope, some parent =>
    match t.lookup scope parent with
    | .ok (some id) => if ∃ s ∈ f.closed, t.find? s = some id then
        ((t.symbol id).toOption.map (·.frame)).getD 0
      else 0
    | _ => 0
  | _, _ => 0

end Table

/-- Where the cursor of a frame goes on behind a frame of size `size` that ends in it. -/
def NestedFrames.resume (layout : NestedFrames) (cursor size : Nat) : Nat :=
  match layout with
  | .independent => cursor
  | .folded => cursor + size

theorem NestedFrames.eq_resume {layout : NestedFrames} {outer size cursor : Nat}
    (h : match layout with
      | .independent => cursor = outer
      | .folded => outer + size < word32 ∧ outer + size = cursor) :
    cursor = layout.resume outer size := by
  cases layout with
  | independent => exact h
  | folded => exact h.2.symm

/-- From `start` on, the items take their room one right behind the other, up to `stop`. -/
def Tiles (layout : NestedFrames) (t : Table) (start : Nat) : List Item → (stop : Nat) → Prop
  | [], stop => start = stop
  | .slot s :: rest, stop =>
    ∃ x, t.get? s = some x ∧ x.offset = some start ∧ Tiles layout t (start + x.size) rest stop
  | .frame s .. :: rest, stop =>
    ∃ x, t.get? s = some x ∧ Tiles layout t (layout.resume start x.frame) rest stop

def Stmt.parts : Stmt → List Stmt
  | .block b => b.body
  | .ite _ yes no _ => yes.body ++ (no.map (·.body)).getD []
  | .while _ body _ | .doWhile body _ _ | .foreach _ _ body _ => body.body
  | .for first _ step body _ => first.toList ++ step.toList ++ body.body
  | .switch _ cases default _ => cases.flatMap (·.body) ++ default.getD []
  | .tryCatch body _ handler _ => body.body ++ handler.body
  | .function f => f.body.body
  | .class c => c.members.flatMap fun
    | .field _ => []
    | .method f => f.body.body
  | _ => []

/-- The steps of all `for` loops, at any depth, are assignments and evaluations. -/
inductive Stmt.Steady : Stmt → Prop
  | mk : (∀ first test step body span, s = .for first test (some step) body span →
      (∃ target value span, step = .assign target value span) ∨ ∃ e span, step = .eval e span) →
    (∀ part ∈ s.parts, Steady part) → Steady s

/-- The steps of all `for` loops, at any depth, declare nothing. -/
inductive Stmt.Tidy : Stmt → Prop
  | mk : (∀ first test step body span, s = .for first test (some step) body span →
      ∀ key, step.items key = []) →
    (∀ part ∈ s.parts, Tidy part) → Tidy s

theorem Stmt.Tidy.part {s : Stmt} (h : s.Tidy) : ∀ part ∈ s.parts, part.Tidy := by
  cases h with
  | mk _ h => exact h

theorem Stmt.Tidy.step {first step : Option Stmt} {test : Option Expr} {body : Block} {span : Span}
    (h : (Stmt.for first test step body span).Tidy) : ∀ s ∈ step, ∀ key, s.items key = [] := by
  rintro s rfl
  cases h with
  | mk h _ => exact h _ _ _ _ _ rfl

end ThreeAddress
