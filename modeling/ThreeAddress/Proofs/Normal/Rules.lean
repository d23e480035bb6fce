import ThreeAddress.Proofs.Frames.Items
import ThreeAddress.Proofs.Lowering.Forms

namespace ThreeAddress

/-- The statement is one of the body, or part of one. -/
inductive Stmt.Within (s : Stmt) : List Stmt → Prop
  | here : s ∈ body → Within s body
  | inside : r ∈ body → Within s r.parts → Within s body

theorem Stmt.Within.part {s r : Stmt} {body : List Stmt} (h : r.Within body) (hs : s ∈ r.parts) :
    s.Within body := by
  induction h with
  | here hr => exact .inside hr (.here hs)
  | inside hr _ ih => exact .inside hr ih

namespace Operand

/-- A temporary or a variable: what an operation may read. -/
inductive IsPlace : Operand → Prop
  | temp (t : Temp) : IsPlace (.temp t)
  | var (name : String) : IsPlace (.var name)

inductive IsConstant : Operand → Prop
  | int (n : Int) : IsConstant (.int n)
  | bool (b : Bool) : IsConstant (.bool b)
  | str (text : String) : IsConstant (.str text)
  | null : IsConstant .null

inductive IsIndex : Operand → Prop
  | temp (t : Temp) : IsIndex (.temp t)
  | int (n : Int) : IsIndex (.int n)

inductive IsAccess : Operand → Prop
  | element {base indices} : base.IsPlace → (∀ i ∈ indices, i.IsIndex) →
    IsAccess (.element base indices)
  | field {base} (name : String) : base.IsPlace → IsAccess (.field base name)

end Operand

@[simp] def Instruction.computes : Instruction → Bool
  | .binary .. | .unary .. | .assign .. => true
  | _ => false

/-- The normal form of the instructions that a program with the given body is turned into. Only a
`foreach` counts with a constant, and only a handler stores what is no temporary. -/
inductive Instruction.Normal (body : List Stmt) : Instruction → Prop
  | binary {left right} (t : Temp) (op : BinaryOp) : left.IsPlace → right.IsPlace →
    Normal body (.binary (.temp t) left op right)
  | increment {item collection inner span} (t : Temp) :
    Stmt.Within (.foreach item collection inner span) body →
    Normal body (.binary (.temp t) (.temp t) .add (.int 1))
  | unary {arg} (t : Temp) (op : UnaryOp) : arg.IsPlace → Normal body (.unary (.temp t) op arg)
  | copy {arg} (t : Temp) : arg.IsPlace → Normal body (.assign (.temp t) arg)
  | constant {arg} (t : Temp) : arg.IsConstant → Normal body (.assign (.temp t) arg)
  | load {arg} (t : Temp) : arg.IsAccess → Normal body (.assign (.temp t) arg)
  | keep (name : String) (t : Temp) : Normal body (.assign (.var name) (.temp t))
  | store {result} (t : Temp) : result.IsAccess → Normal body (.assign result (.temp t))
  | caught {inner name handler span} : Stmt.Within (.tryCatch inner name handler span) body →
    Normal body (.assign (.var name) .exception)
  | other {i} : ¬i.computes → Normal body i

attribute [simp] Instruction.Normal.other

def Code.Normal (body : List Stmt) (code : Code) : Prop := ∀ i ∈ code, i.Normal body

namespace Code

variable {body : List Stmt} {a b code : Code} {i : Instruction}

@[simp] theorem normal_nil : Normal body [] := nofun

@[simp] theorem normal_cons : Normal body (i :: code) ↔ i.Normal body ∧ Normal body code :=
  List.forall_mem_cons

@[simp] theorem normal_append : Normal body (a ++ b) ↔ Normal body a ∧ Normal body b :=
  List.forall_mem_append

theorem normal_flatMap {xs : List α} {f : α → Code} (h : ∀ x ∈ xs, Normal body (f x)) :
    Normal body (xs.flatMap f) := by
  intro i hi
  obtain ⟨x, hx, hi⟩ := List.mem_flatMap.1 hi
  exact h x hx i hi

theorem normal_flatten {codes : List Code} (h : ∀ code ∈ codes, Normal body code) :
    Normal body codes.flatten := by
  intro i hi
  obtain ⟨code, hc, hi⟩ := List.mem_flatten.1 hi
  exact h code hc i hi

@[simp] theorem normal_place (l : Option Label) : Normal body (Lower.place l) := by
  cases l <;> simp [Lower.place]

end Code

open Lowering

namespace Lower

def Gives (P : α → Prop) (act : Lower α) : Prop := ∀ ⦃c s a s'⦄, Runs act c s a s' → P a

namespace Gives

variable {P : α → Prop} {Q : β → Prop} {act : Lower α} {f : α → Lower β}

theorem any (act : Lower α) : Gives (fun _ => True) act := fun _ _ _ _ _ => trivial

theorem pure {a : α} (h : P a) : Gives P (Pure.pure a) := by
  intro c s b s' hr
  obtain ⟨rfl, _⟩ := runs_pure.1 hr
  exact h

theorem bind (h : Gives P act) (k : ∀ a, P a → Gives Q (f a)) : Gives Q (act >>= f) := by
  intro c s b s' hr
  obtain ⟨a, s₁, ha, hf⟩ := runs_bind.1 hr
  exact k a (h ha) hf

theorem seq (k : ∀ a, Gives Q (f a)) : Gives Q (act >>= f) := (any act).bind fun a _ => k a

theorem mono {P' : α → Prop} (h : Gives P act) (le : ∀ a, P a → P' a) : Gives P' act :=
  fun _ _ a _ hr => le a (h hr)

theorem mapM {g : β → Lower α} {xs : List β} (h : ∀ b ∈ xs, Gives P (g b)) :
    Gives (fun as => ∀ a ∈ as, P a) (xs.mapM g) := by
  induction xs with
  | nil => exact pure (by simp)
  | cons b rest ih =>
    rw [List.mapM_cons]
    refine (h b (by simp)).bind fun a ha => (ih fun b hb => h b (by simp [hb])).bind fun as has => ?_
    exact pure (by simpa using ⟨ha, has⟩)

theorem inBlock (h : Gives P act) (span : Span) : Gives P (inBlock span act) :=
  fun _ _ _ _ hr => h (runs_inBlock.1 hr)

end Gives

end Lower

end ThreeAddress
