import ThreeAddress.Source.Tree

namespace ThreeAddress

mutual

def Expr.leaves : Expr → List Expr
  | .array es _ => leavesAll es
  | e => [e]

def leavesAll : List Expr → List Expr
  | [] => []
  | e :: rest => e.leaves ++ leavesAll rest

end

theorem mem_leavesAll {es : List Expr} {e e' : Expr} (h : e ∈ es) (h' : e' ∈ e.leaves) :
    e' ∈ leavesAll es := by
  induction es with
  | nil => simp at h
  | cons e₀ rest ih =>
    rw [leavesAll, List.mem_append]
    cases h with
    | head => exact .inl h'
    | tail _ h => exact .inr (ih h)

/-- The receiver of a method call comes with a hypothesis of its own: it is lowered in place of the
property that is called. -/
@[elab_as_elim, induction_eliminator]
theorem Expr.induction {P : Expr → Prop}
    (int : ∀ n span, P (.int n span))
    (str : ∀ text span, P (.str text span))
    (bool : ∀ b span, P (.bool b span))
    (null : ∀ span, P (.null span))
    (ident : ∀ name span, P (.ident name span))
    (this : ∀ span, P (.this span))
    (array : ∀ es span, (∀ e ∈ leavesAll es, P e) → P (.array es span))
    (binary : ∀ l op r span, P l → P r → P (.binary l op r span))
    (unary : ∀ op e span, P e → P (.unary op e span))
    (logical : ∀ l op r span, P l → P r → P (.logical l op r span))
    (ternary : ∀ c a b span, P c → P a → P b → P (.ternary c a b span))
    (call : ∀ callee args span, P callee →
      (∀ object method at_, callee = .property object method at_ → P object) →
      (∀ e ∈ args, P e) → P (.call callee args span))
    (new : ∀ name args span, (∀ e ∈ args, P e) → P (.new name args span))
    (index : ∀ base i span, P base → P i → P (.index base i span))
    (property : ∀ object field span, P object → P (.property object field span))
    (e : Expr) : P e := by
  let Q (e : Expr) : Prop := P e ∧ (∀ e' ∈ e.leaves, P e') ∧
    ∀ object method at_, e = .property object method at_ → P object
  suffices h : Q e from h.1
  have leaf {e : Expr} (h : P e) (he : e.leaves = [e] := by rfl)
      (ho : ∀ object method at_, e = .property object method at_ → P object := by nofun) : Q e :=
    ⟨h, by simpa [he] using h, ho⟩
  exact @Expr.rec Q (fun es => (∀ e ∈ es, P e) ∧ ∀ e ∈ leavesAll es, P e)
    (fun n span => leaf (int n span)) (fun text span => leaf (str text span))
    (fun b span => leaf (bool b span)) (fun span => leaf (null span))
    (fun name span => leaf (ident name span)) (fun span => leaf (this span))
    (fun es span h => ⟨array es span h.2, h.2, nofun⟩)
    (fun l op r span hl hr => leaf (binary l op r span hl.1 hr.1))
    (fun op e span h => leaf (unary op e span h.1))
    (fun l op r span hl hr => leaf (logical l op r span hl.1 hr.1))
    (fun c a b span hc ha hb => leaf (ternary c a b span hc.1 ha.1 hb.1))
    (fun callee args span hc ha => leaf (call callee args span hc.1 hc.2.2 ha.1))
    (fun name args span h => leaf (new name args span h.1))
    (fun base i span hb hi => leaf (index base i span hb.1 hi.1))
    (fun object field span h =>
      leaf (property object field span h.1) rfl (by rintro _ _ _ ⟨⟩; exact h.1))
    ⟨nofun, nofun⟩
    (fun e rest he hr => ⟨by simpa using ⟨he.1, hr.1⟩, by
      intro e' h
      rw [leavesAll, List.mem_append] at h
      exact h.elim (he.2.1 e') (hr.2 e')⟩) e

@[elab_as_elim, induction_eliminator]
theorem Stmt.induction {P : Stmt → Prop}
    (declare : ∀ b, P (.declare b))
    (assign : ∀ target value span, P (.assign target value span))
    (print : ∀ e span, P (.print e span))
    (eval : ∀ e span, P (.eval e span))
    (block : ∀ b, (∀ s ∈ b.body, P s) → P (.block b))
    (ite : ∀ c yes no span, (∀ s ∈ yes.body, P s) → (∀ b ∈ no, ∀ s ∈ b.body, P s) →
      P (.ite c yes no span))
    (loop : ∀ c body span, (∀ s ∈ body.body, P s) → P (.while c body span))
    (doWhile : ∀ body c span, (∀ s ∈ body.body, P s) → P (.doWhile body c span))
    (forLoop : ∀ first test step body span, (∀ s ∈ first, P s) → (∀ s ∈ step, P s) →
      (∀ s ∈ body.body, P s) → P (.for first test step body span))
    (foreach : ∀ item collection body span, (∀ s ∈ body.body, P s) →
      P (.foreach item collection body span))
    (switch : ∀ subject cases default span, (∀ k ∈ cases, ∀ s ∈ k.body, P s) →
      (∀ body ∈ default, ∀ s ∈ body, P s) → P (.switch subject cases default span))
    (exit : ∀ span, P (.break span))
    (next : ∀ span, P (.continue span))
    (ret : ∀ e span, P (.return e span))
    (tryCatch : ∀ body caught handler span, (∀ s ∈ body.body, P s) → (∀ s ∈ handler.body, P s) →
      P (.tryCatch body caught handler span))
    (function : ∀ f, (∀ s ∈ f.body.body, P s) → P (.function f))
    (classDef : ∀ c, (∀ f, .method f ∈ c.members → ∀ s ∈ f.body.body, P s) → P (.class c))
    (s : Stmt) : P s :=
  @Stmt.rec P (fun b => ∀ s ∈ b.body, P s)
    (fun k => ∀ s ∈ k.body, P s) (fun f => ∀ s ∈ f.body.body, P s)
    (fun m => ∀ f, m = .method f → ∀ s ∈ f.body.body, P s)
    (fun c => ∀ f, .method f ∈ c.members → ∀ s ∈ f.body.body, P s)
    (fun b => ∀ b' ∈ b, ∀ s ∈ b'.body, P s) (fun s => ∀ s' ∈ s, P s')
    (fun cases => ∀ k ∈ cases, ∀ s ∈ k.body, P s)
    (fun body => ∀ b ∈ body, ∀ s ∈ b, P s)
    (fun body => ∀ s ∈ body, P s)
    (fun members => ∀ f, .method f ∈ members → ∀ s ∈ f.body.body, P s)
    declare assign print eval block ite loop doWhile forLoop foreach switch exit next ret tryCatch
    function classDef
    (fun _ _ h => h) (fun _ _ _ h => h) (fun _ _ _ _ _ h => h)
    nofun (fun _ h => by rintro _ ⟨⟩; exact h) (fun _ _ _ _ h => h)
    nofun (fun _ h => by rintro _ ⟨⟩; exact h) nofun (fun _ h => by rintro _ ⟨⟩; exact h)
    nofun (fun _ _ hk hr => by simpa using ⟨hk, hr⟩)
    nofun (fun _ h => by rintro _ ⟨⟩; exact h)
    nofun (fun _ _ hs hr => by simpa using ⟨hs, hr⟩)
    nofun (fun m _ hm hr f hf => by
      cases hf with
      | head => exact hm f rfl
      | tail _ hf => exact hr f hf) s

end ThreeAddress
