import ThreeAddress.Proofs.Lockstep.Trees

namespace ThreeAddress

section Unplaced

mutual

def Expr.unplaced : Expr → Expr
  | .int n _ => .int n .unplaced
  | .str text _ => .str text .unplaced
  | .bool b _ => .bool b .unplaced
  | .null _ => .null .unplaced
  | .ident name _ => .ident name .unplaced
  | .this _ => .this .unplaced
  | .array es _ => .array (unplacedExprs es) .unplaced
  | .binary l op r _ => .binary l.unplaced op r.unplaced .unplaced
  | .unary op e _ => .unary op e.unplaced .unplaced
  | .logical l op r _ => .logical l.unplaced op r.unplaced .unplaced
  | .ternary c a b _ => .ternary c.unplaced a.unplaced b.unplaced .unplaced
  | .call callee args _ => .call callee.unplaced (unplacedExprs args) .unplaced
  | .new name args _ => .new name (unplacedExprs args) .unplaced
  | .index base i _ => .index base.unplaced i.unplaced .unplaced
  | .property object field _ => .property object.unplaced field .unplaced

def unplacedExprs : List Expr → List Expr
  | [] => []
  | e :: rest => e.unplaced :: unplacedExprs rest

end

def Target.unplaced : Target → Target
  | .ident name => .ident name
  | .index base indices => .index base.unplaced (unplacedExprs indices)
  | .property object field => .property object.unplaced field

def Binding.unplaced (b : Binding) : Binding :=
  { b with value := b.value.map Expr.unplaced, span := .unplaced }

def Param.unplaced (p : Param) : Param := { p with span := .unplaced }

mutual

def Stmt.unplaced : Stmt → Stmt
  | .declare b => .declare b.unplaced
  | .assign target value _ => .assign target.unplaced value.unplaced .unplaced
  | .print e _ => .print e.unplaced .unplaced
  | .eval e _ => .eval e.unplaced .unplaced
  | .block b => .block b.unplaced
  | .ite c yes no _ => .ite c.unplaced yes.unplaced (unplacedElse no) .unplaced
  | .while c body _ => .while c.unplaced body.unplaced .unplaced
  | .doWhile body c _ => .doWhile body.unplaced c.unplaced .unplaced
  | .for first test step body _ =>
    .for (unplacedOption first) (test.map Expr.unplaced) (unplacedOption step) body.unplaced .unplaced
  | .foreach item collection body _ => .foreach item collection.unplaced body.unplaced .unplaced
  | .switch subject cases default _ =>
    .switch subject.unplaced (unplacedCases cases) (unplacedDefault default) .unplaced
  | .break _ => .break .unplaced
  | .continue _ => .continue .unplaced
  | .return e _ => .return (e.map Expr.unplaced) .unplaced
  | .tryCatch body caught handler _ => .tryCatch body.unplaced caught handler.unplaced .unplaced
  | .function f => .function f.unplaced
  | .class c => .class c.unplaced

def unplacedOption : Option Stmt → Option Stmt
  | none => none
  | some s => some s.unplaced

def unplacedAll : List Stmt → List Stmt
  | [] => []
  | s :: rest => s.unplaced :: unplacedAll rest

def Block.unplaced : Block → Block
  | ⟨body, _⟩ => ⟨unplacedAll body, .unplaced⟩

def unplacedElse : Option Block → Option Block
  | none => none
  | some b => some b.unplaced

def Case.unplaced : Case → Case
  | ⟨value, body, _⟩ => ⟨value.unplaced, unplacedAll body, .unplaced⟩

def unplacedCases : List Case → List Case
  | [] => []
  | k :: rest => k.unplaced :: unplacedCases rest

def unplacedDefault : Option (List Stmt) → Option (List Stmt)
  | none => none
  | some body => some (unplacedAll body)

def Function.unplaced : Function → Function
  | ⟨name, params, result, body, _⟩ =>
    ⟨name, params.map Param.unplaced, result, body.unplaced, .unplaced⟩

def Member.unplaced : Member → Member
  | .field b => .field b.unplaced
  | .method f => .method f.unplaced

def unplacedMembers : List Member → List Member
  | [] => []
  | m :: rest => m.unplaced :: unplacedMembers rest

def Class.unplaced : Class → Class
  | ⟨name, parent, members, _⟩ => ⟨name, parent, unplacedMembers members, .unplaced⟩

end

def Program.unplaced (p : Program) : Program := ⟨unplacedAll p.statements, .unplaced⟩

end Unplaced

section Keys

mutual

/-- The positions of the blocks, function bodies and classes of a statement, at any depth. -/
def Stmt.keys : Stmt → List Position
  | .block b => b.keys
  | .ite _ yes no _ => yes.keys ++ keysElse no
  | .while _ body _ | .doWhile body _ _ | .foreach _ _ body _ => body.keys
  | .for first _ step body _ => keysOption first ++ keysOption step ++ body.keys
  | .switch _ cases default _ => keysCases cases ++ keysDefault default
  | .tryCatch body _ handler _ => body.keys ++ handler.keys
  | .function f => f.keys
  | .class c => c.keys
  | .declare _ | .assign .. | .print .. | .eval .. | .break _ | .continue _ | .return .. => []

def keysOption : Option Stmt → List Position
  | none => []
  | some s => s.keys

def keysAll : List Stmt → List Position
  | [] => []
  | s :: rest => s.keys ++ keysAll rest

def Block.keys : Block → List Position
  | ⟨body, span⟩ => span.toPosition :: keysAll body

def keysElse : Option Block → List Position
  | none => []
  | some b => b.keys

def Case.keys : Case → List Position
  | ⟨_, body, _⟩ => keysAll body

def keysCases : List Case → List Position
  | [] => []
  | k :: rest => k.keys ++ keysCases rest

def keysDefault : Option (List Stmt) → List Position
  | none => []
  | some body => keysAll body

def Function.keys : Function → List Position
  | ⟨_, _, _, body, _⟩ => body.keys

def Member.keys : Member → List Position
  | .field _ => []
  | .method f => f.keys

def keysMembers : List Member → List Position
  | [] => []
  | m :: rest => m.keys ++ keysMembers rest

def Class.keys : Class → List Position
  | ⟨_, _, members, span⟩ => span.toPosition :: keysMembers members

end

def Program.keys (p : Program) : List Position := keysAll p.statements

end Keys

theorem Span.Alike.any (a b : Span) : a.Alike False b := False.elim

section Expressions

mutual

theorem Expr.alike_of_unplaced : ∀ {e e' : Expr}, e.unplaced = e'.unplaced → e.Alike False e'
  | .int .., e', h => by
    cases e' with
    | int =>
      cases (Expr.int.inj h).1
      exact .int (.any _ _)
    | _ => simp [Expr.unplaced] at h
  | .str .., e', h => by
    cases e' with
    | str =>
      cases (Expr.str.inj h).1
      exact .str (.any _ _)
    | _ => simp [Expr.unplaced] at h
  | .bool .., e', h => by
    cases e' with
    | bool =>
      cases (Expr.bool.inj h).1
      exact .bool (.any _ _)
    | _ => simp [Expr.unplaced] at h
  | .null _, e', h => by
    cases e' with
    | null => exact .null (.any _ _)
    | _ => simp [Expr.unplaced] at h
  | .ident .., e', h => by
    cases e' with
    | ident =>
      cases (Expr.ident.inj h).1
      exact .ident (.any _ _)
    | _ => simp [Expr.unplaced] at h
  | .this _, e', h => by
    cases e' with
    | this => exact .this (.any _ _)
    | _ => simp [Expr.unplaced] at h
  | .array es _, e', h => by
    cases e' with
    | array => exact .array (exprs_alike_of_unplaced (Expr.array.inj h).1) (.any _ _)
    | _ => simp [Expr.unplaced] at h
  | .binary l op r _, e', h => by
    cases e' with
    | binary =>
      obtain ⟨hl, rfl, hr, _⟩ := Expr.binary.inj h
      exact .binary (Expr.alike_of_unplaced hl) (Expr.alike_of_unplaced hr) (.any _ _)
    | _ => simp [Expr.unplaced] at h
  | .unary op e _, e', h => by
    cases e' with
    | unary =>
      obtain ⟨rfl, he, _⟩ := Expr.unary.inj h
      exact .unary (Expr.alike_of_unplaced he) (.any _ _)
    | _ => simp [Expr.unplaced] at h
  | .logical l op r _, e', h => by
    cases e' with
    | logical =>
      obtain ⟨hl, rfl, hr, _⟩ := Expr.logical.inj h
      exact .logical (Expr.alike_of_unplaced hl) (Expr.alike_of_unplaced hr) (.any _ _)
    | _ => simp [Expr.unplaced] at h
  | .ternary c x y _, e', h => by
    cases e' with
    | ternary =>
      obtain ⟨hc, hx, hy, _⟩ := Expr.ternary.inj h
      exact .ternary (Expr.alike_of_unplaced hc) (Expr.alike_of_unplaced hx)
        (Expr.alike_of_unplaced hy) (.any _ _)
    | _ => simp [Expr.unplaced] at h
  | .call callee args _, e', h => by
    cases e' with
    | call =>
      obtain ⟨hc, ha, _⟩ := Expr.call.inj h
      exact .call (Expr.alike_of_unplaced hc) (exprs_alike_of_unplaced ha) (.any _ _)
    | _ => simp [Expr.unplaced] at h
  | .new name args _, e', h => by
    cases e' with
    | new =>
      obtain ⟨rfl, ha, _⟩ := Expr.new.inj h
      exact .new (exprs_alike_of_unplaced ha) (.any _ _)
    | _ => simp [Expr.unplaced] at h
  | .index base i _, e', h => by
    cases e' with
    | index =>
      obtain ⟨hb, hi, _⟩ := Expr.index.inj h
      exact .index (Expr.alike_of_unplaced hb) (Expr.alike_of_unplaced hi) (.any _ _)
    | _ => simp [Expr.unplaced] at h
  | .property object field _, e', h => by
    cases e' with
    | property =>
      obtain ⟨ho, rfl, _⟩ := Expr.property.inj h
      exact .property (Expr.alike_of_unplaced ho) (.any _ _)
    | _ => simp [Expr.unplaced] at h

theorem exprs_alike_of_unplaced : ∀ {es es' : List Expr}, unplacedExprs es = unplacedExprs es' →
    List.Forall₂ (Expr.Alike False) es es'
  | [], [], _ => .nil
  | _ :: _, _ :: _, h =>
    .cons (Expr.alike_of_unplaced (List.cons.inj h).1) (exprs_alike_of_unplaced (List.cons.inj h).2)

end

theorem option_alike_of_unplaced {e e' : Option Expr} (h : e.map Expr.unplaced = e'.map Expr.unplaced) :
    Option.Rel (Expr.Alike False) e e' := by
  cases e <;> cases e'
  · exact .none
  · simp at h
  · simp at h
  · exact .some (Expr.alike_of_unplaced (Option.some.inj h))

theorem Target.alike_of_unplaced {t t' : Target} (h : t.unplaced = t'.unplaced) : t.Alike False t' := by
  cases t <;> cases t' <;> simp only [Target.unplaced, reduceCtorEq] at h
  · cases Target.ident.inj h
    exact .ident
  · exact .index (Expr.alike_of_unplaced (Target.index.inj h).1)
      (exprs_alike_of_unplaced (Target.index.inj h).2)
  · obtain ⟨ho, rfl⟩ := Target.property.inj h
    exact .property (Expr.alike_of_unplaced ho)

theorem Binding.alike_of_unplaced {b b' : Binding} (h : b.unplaced = b'.unplaced) : b.Alike False b' := by
  obtain ⟨hn, ht, hv, hc, _⟩ := Binding.mk.inj h
  exact ⟨hn.symm, ht.symm, option_alike_of_unplaced hv, hc.symm, .any _ _⟩

theorem params_alike_of_unplaced {params params' : List Param}
    (h : params.map Param.unplaced = params'.map Param.unplaced) :
    List.Forall₂ (Param.Alike False) params params' := by
  have he : List.Forall₂ (fun p p' : Param => p.unplaced = p'.unplaced) params params' :=
    List.forall₂_map_left_iff.1 (List.forall₂_map_right_iff.1 (List.forall₂_eq_eq_eq ▸ h))
  exact he.imp fun p p' h => ⟨(congrArg Param.name h).symm, (congrArg Param.type h).symm, .any _ _⟩

end Expressions

section Statements

theorem forall₂_append_iff {R : α → β → Prop} {xs xs' : List α} {ys ys' : List β}
    (hl : xs.length = ys.length) : List.Forall₂ R (xs ++ xs') (ys ++ ys') ↔
      List.Forall₂ R xs ys ∧ List.Forall₂ R xs' ys' := by
  induction xs generalizing ys with
  | nil =>
    cases List.length_eq_zero_iff.1 hl.symm
    simp
  | cons x xs ih =>
    cases ys with
    | nil => simp at hl
    | cons y ys => simp [ih (Nat.succ.inj hl), and_assoc]

variable {key : Position → Position → Prop}

section Parts

def Stmt.SameKeys (s : Stmt) : Prop := s.unplaced.keys.length = s.keys.length

variable {body : List Stmt}

theorem keysAll_unplaced (h : ∀ s ∈ body, s.SameKeys) :
    (keysAll (unplacedAll body)).length = (keysAll body).length := by
  induction body with
  | nil => rfl
  | cons s rest ih =>
    rw [unplacedAll, keysAll, keysAll, List.length_append, List.length_append, h s (by simp),
      ih fun s hs => h s (by simp [hs])]

theorem keysOption_unplaced {s : Option Stmt} (h : ∀ s' ∈ s, s'.SameKeys) :
    (keysOption (unplacedOption s)).length = (keysOption s).length := by
  cases s with
  | none => rfl
  | some s => exact h s rfl

theorem Block.keys_unplaced {b : Block} (h : ∀ s ∈ b.body, s.SameKeys) :
    b.unplaced.keys.length = b.keys.length := by
  obtain ⟨body, span⟩ := b
  rw [Block.unplaced, Block.keys, Block.keys, List.length_cons, List.length_cons, keysAll_unplaced h]

theorem keysElse_unplaced {b : Option Block} (h : ∀ b' ∈ b, ∀ s ∈ b'.body, s.SameKeys) :
    (keysElse (unplacedElse b)).length = (keysElse b).length := by
  cases b with
  | none => rfl
  | some b => exact Block.keys_unplaced (h b rfl)

theorem Case.keys_unplaced {k : Case} (h : ∀ s ∈ k.body, s.SameKeys) :
    k.unplaced.keys.length = k.keys.length := by
  obtain ⟨value, body, span⟩ := k
  exact keysAll_unplaced h

theorem keysCases_unplaced {cases : List Case} (h : ∀ k ∈ cases, ∀ s ∈ k.body, s.SameKeys) :
    (keysCases (unplacedCases cases)).length = (keysCases cases).length := by
  induction cases with
  | nil => rfl
  | cons k rest ih =>
    rw [unplacedCases, keysCases, keysCases, List.length_append, List.length_append,
      Case.keys_unplaced (h k (by simp)), ih fun k hk => h k (by simp [hk])]

theorem keysDefault_unplaced {body : Option (List Stmt)} (h : ∀ b ∈ body, ∀ s ∈ b, s.SameKeys) :
    (keysDefault (unplacedDefault body)).length = (keysDefault body).length := by
  cases body with
  | none => rfl
  | some body => exact keysAll_unplaced (h body rfl)

theorem Function.keys_unplaced {f : Function} (h : ∀ s ∈ f.body.body, s.SameKeys) :
    f.unplaced.keys.length = f.keys.length := by
  obtain ⟨name, params, result, body, span⟩ := f
  exact Block.keys_unplaced h

theorem keysMembers_unplaced {members : List Member}
    (h : ∀ f, .method f ∈ members → ∀ s ∈ f.body.body, s.SameKeys) :
    (keysMembers (unplacedMembers members)).length = (keysMembers members).length := by
  induction members with
  | nil => rfl
  | cons m rest ih =>
    rw [unplacedMembers, keysMembers, keysMembers, List.length_append, List.length_append,
      ih fun f hf => h f (by simp [hf])]
    cases m with
    | field b => rfl
    | method f => rw [Member.unplaced, Member.keys, Member.keys, Function.keys_unplaced (h f (by simp))]

theorem Stmt.sameKeys (s : Stmt) : s.SameKeys := by
  induction s with
  | declare | assign | print | eval | ret | exit | next => rfl
  | block b ih => exact Block.keys_unplaced ih
  | ite c yes no span ihy ihn =>
    simp only [SameKeys, Stmt.unplaced, Stmt.keys, List.length_append, Block.keys_unplaced ihy,
      keysElse_unplaced ihn]
  | loop c body span ih => exact Block.keys_unplaced ih
  | doWhile body c span ih => exact Block.keys_unplaced ih
  | forLoop first test step body span ihf ihs ih =>
    simp only [SameKeys, Stmt.unplaced, Stmt.keys, List.length_append, keysOption_unplaced ihf,
      keysOption_unplaced ihs, Block.keys_unplaced ih]
  | foreach item collection body span ih => exact Block.keys_unplaced ih
  | switch subject cases default span ihc ihd =>
    simp only [SameKeys, Stmt.unplaced, Stmt.keys, List.length_append, keysCases_unplaced ihc,
      keysDefault_unplaced ihd]
  | tryCatch body caught handler span ihb ihh =>
    simp only [SameKeys, Stmt.unplaced, Stmt.keys, List.length_append, Block.keys_unplaced ihb,
      Block.keys_unplaced ihh]
  | function f ih => exact Function.keys_unplaced ih
  | classDef c ih =>
    obtain ⟨name, parent, members, span⟩ := c
    exact congrArg (· + 1) (keysMembers_unplaced ih)

end Parts

theorem keys_length_eq {tree : α → α} {keys : α → List Position}
    (hk : ∀ a, (keys (tree a)).length = (keys a).length) {a a' : α} (h : tree a = tree a') :
    (keys a).length = (keys a').length := by rw [← hk a, h, hk a']

/-- The statement is like any other that is the same without positions and has related keys. -/
def Stmt.Settles (key : Position → Position → Prop) (s : Stmt) : Prop :=
  ∀ ⦃s'⦄, s.unplaced = s'.unplaced → List.Forall₂ key s.keys s'.keys → s.Alike False key s'

variable {body body' : List Stmt}

theorem all_alike (h : ∀ s ∈ body, s.Settles key) (hu : unplacedAll body = unplacedAll body')
    (hk : List.Forall₂ key (keysAll body) (keysAll body')) :
    List.Forall₂ (Stmt.Alike False key) body body' := by
  induction body generalizing body' with
  | nil =>
    cases body' with
    | nil => exact .nil
    | cons => simp [unplacedAll] at hu
  | cons s rest ih =>
    cases body' with
    | nil => simp [unplacedAll] at hu
    | cons s' rest' =>
      obtain ⟨hs, hr⟩ := List.cons.inj hu
      obtain ⟨hk, hkr⟩ := (forall₂_append_iff (keys_length_eq Stmt.sameKeys hs)).1 hk
      exact .cons (h s (by simp) hs hk) (ih (fun s hs => h s (by simp [hs])) hr hkr)

theorem option_alike {s s' : Option Stmt} (h : ∀ x ∈ s, x.Settles key)
    (hu : unplacedOption s = unplacedOption s') (hk : List.Forall₂ key (keysOption s) (keysOption s')) :
    Option.Rel (Stmt.Alike False key) s s' := by
  cases s <;> cases s' <;> simp only [unplacedOption, reduceCtorEq] at hu
  · exact .none
  · exact .some (h _ rfl (Option.some.inj hu) hk)

theorem Block.alike {b b' : Block} (h : ∀ s ∈ b.body, s.Settles key) (hu : b.unplaced = b'.unplaced)
    (hk : List.Forall₂ key b.keys b'.keys) : BlocksAlike key (Stmt.Alike False key) b b' := by
  obtain ⟨body, span⟩ := b
  obtain ⟨body', span'⟩ := b'
  obtain ⟨hspan, hk⟩ := List.forall₂_cons.1 hk
  exact .mk hspan (all_alike h (Block.mk.inj hu).1 hk)

theorem else_alike {b b' : Option Block} (h : ∀ x ∈ b, ∀ s ∈ x.body, s.Settles key)
    (hu : unplacedElse b = unplacedElse b') (hk : List.Forall₂ key (keysElse b) (keysElse b')) :
    Option.Rel (BlocksAlike key (Stmt.Alike False key)) b b' := by
  cases b <;> cases b' <;> simp only [unplacedElse, reduceCtorEq] at hu
  · exact .none
  · exact .some (Block.alike (h _ rfl) (Option.some.inj hu) hk)

theorem Case.alike {k k' : Case} (h : ∀ s ∈ k.body, s.Settles key) (hu : k.unplaced = k'.unplaced)
    (hk : List.Forall₂ key k.keys k'.keys) : CasesAlike False (Stmt.Alike False key) k k' := by
  obtain ⟨value, body, span⟩ := k
  obtain ⟨value', body', span'⟩ := k'
  obtain ⟨hv, hb, _⟩ := Case.mk.inj hu
  exact .mk (Expr.alike_of_unplaced hv) (all_alike h hb hk)

theorem cases_alike {cases cases' : List Case} (h : ∀ k ∈ cases, ∀ s ∈ k.body, s.Settles key)
    (hu : unplacedCases cases = unplacedCases cases')
    (hk : List.Forall₂ key (keysCases cases) (keysCases cases')) :
    List.Forall₂ (CasesAlike False (Stmt.Alike False key)) cases cases' := by
  induction cases generalizing cases' with
  | nil =>
    cases cases' with
    | nil => exact .nil
    | cons => simp [unplacedCases] at hu
  | cons k rest ih =>
    cases cases' with
    | nil => simp [unplacedCases] at hu
    | cons k' rest' =>
      obtain ⟨hc, hr⟩ := List.cons.inj hu
      have hl := keys_length_eq (fun _ => Case.keys_unplaced fun s _ => s.sameKeys) hc
      obtain ⟨hk, hkr⟩ := (forall₂_append_iff hl).1 hk
      exact .cons (Case.alike (h k (by simp)) hc hk) (ih (fun k hk => h k (by simp [hk])) hr hkr)

theorem default_alike {body body' : Option (List Stmt)} (h : ∀ b ∈ body, ∀ s ∈ b, s.Settles key)
    (hu : unplacedDefault body = unplacedDefault body')
    (hk : List.Forall₂ key (keysDefault body) (keysDefault body')) :
    Option.Rel (List.Forall₂ (Stmt.Alike False key)) body body' := by
  cases body <;> cases body' <;> simp only [unplacedDefault, reduceCtorEq] at hu
  · exact .none
  · exact .some (all_alike (h _ rfl) (Option.some.inj hu) hk)

theorem Function.alike {f f' : Function} (h : ∀ s ∈ f.body.body, s.Settles key)
    (hu : f.unplaced = f'.unplaced) (hk : List.Forall₂ key f.keys f'.keys) :
    FunctionsAlike False key (Stmt.Alike False key) f f' := by
  obtain ⟨name, params, result, body, span⟩ := f
  obtain ⟨name', params', result', body', span'⟩ := f'
  obtain ⟨rfl, hp, rfl, hb, _⟩ := Function.mk.inj hu
  exact .mk (params_alike_of_unplaced hp) (Block.alike h hb hk) (.any _ _)

theorem Member.keys_unplaced (m : Member) : m.unplaced.keys.length = m.keys.length := by
  cases m with
  | field b => rfl
  | method f => exact Function.keys_unplaced fun s _ => s.sameKeys

theorem members_alike {members members' : List Member}
    (h : ∀ f, .method f ∈ members → ∀ s ∈ f.body.body, s.Settles key)
    (hu : unplacedMembers members = unplacedMembers members')
    (hk : List.Forall₂ key (keysMembers members) (keysMembers members')) :
    List.Forall₂ (MembersAlike False key (Stmt.Alike False key)) members members' := by
  induction members generalizing members' with
  | nil =>
    cases members' with
    | nil => exact .nil
    | cons => simp [unplacedMembers] at hu
  | cons m rest ih =>
    cases members' with
    | nil => simp [unplacedMembers] at hu
    | cons m' rest' =>
      obtain ⟨hm, hr⟩ := List.cons.inj hu
      obtain ⟨hk, hkr⟩ := (forall₂_append_iff (keys_length_eq Member.keys_unplaced hm)).1 hk
      refine .cons ?_ (ih (fun f hf => h f (by simp [hf])) hr hkr)
      cases m <;> cases m' <;> simp only [Member.unplaced, reduceCtorEq] at hm
      · exact .field (Binding.alike_of_unplaced (Member.field.inj hm))
      · exact .method (Function.alike (h _ (by simp)) (Member.method.inj hm) hk)

theorem Class.alike {c c' : Class} (h : ∀ f, .method f ∈ c.members → ∀ s ∈ f.body.body, s.Settles key)
    (hu : c.unplaced = c'.unplaced) (hk : List.Forall₂ key c.keys c'.keys) :
    ClassesAlike False key (Stmt.Alike False key) c c' := by
  obtain ⟨name, parent, members, span⟩ := c
  obtain ⟨name', parent', members', span'⟩ := c'
  obtain ⟨rfl, rfl, hm, _⟩ := Class.mk.inj hu
  obtain ⟨hspan, hk⟩ := List.forall₂_cons.1 hk
  exact .mk (members_alike h hm hk) hspan (.any _ _)

theorem Stmt.settles (s : Stmt) : s.Settles key := by
  -- parts that are the same without positions have as many keys, so a pairing splits where they do
  have hblock {b b' : Block} (hb : b.unplaced = b'.unplaced) : b.keys.length = b'.keys.length :=
    keys_length_eq (fun _ => Block.keys_unplaced fun s _ => s.sameKeys) hb
  have hoption {x x' : Option Stmt} (hx : unplacedOption x = unplacedOption x') :
      (keysOption x).length = (keysOption x').length :=
    keys_length_eq (fun _ => keysOption_unplaced fun s _ => s.sameKeys) hx
  induction s with intro s' hu hk
  | declare b =>
    cases s' with
    | declare => exact .declare (Binding.alike_of_unplaced (Stmt.declare.inj hu))
    | _ => simp [Stmt.unplaced] at hu
  | assign target value span =>
    cases s' with
    | assign =>
      obtain ⟨ht, hv, _⟩ := Stmt.assign.inj hu
      exact .assign (Target.alike_of_unplaced ht) (Expr.alike_of_unplaced hv) (.any _ _)
    | _ => simp [Stmt.unplaced] at hu
  | print e span =>
    cases s' with
    | print => exact .print (Expr.alike_of_unplaced (Stmt.print.inj hu).1) (.any _ _)
    | _ => simp [Stmt.unplaced] at hu
  | eval e span =>
    cases s' with
    | eval => exact .eval (Expr.alike_of_unplaced (Stmt.eval.inj hu).1) (.any _ _)
    | _ => simp [Stmt.unplaced] at hu
  | block b ih =>
    cases s' with
    | block => exact .block (Block.alike ih (Stmt.block.inj hu) hk)
    | _ => simp [Stmt.unplaced] at hu
  | ite c yes no span ihy ihn =>
    cases s' with
    | ite =>
      obtain ⟨hc, hy, hn, _⟩ := Stmt.ite.inj hu
      obtain ⟨hky, hkn⟩ := (forall₂_append_iff (hblock hy)).1 hk
      exact .ite (Expr.alike_of_unplaced hc) (Block.alike ihy hy hky) (else_alike ihn hn hkn) (.any _ _)
    | _ => simp [Stmt.unplaced] at hu
  | loop c body span ih =>
    cases s' with
    | «while» =>
      obtain ⟨hc, hb, _⟩ := Stmt.while.inj hu
      exact .loop (Expr.alike_of_unplaced hc) (Block.alike ih hb hk) (.any _ _)
    | _ => simp [Stmt.unplaced] at hu
  | doWhile body c span ih =>
    cases s' with
    | doWhile =>
      obtain ⟨hb, hc, _⟩ := Stmt.doWhile.inj hu
      exact .doWhile (Block.alike ih hb hk) (Expr.alike_of_unplaced hc) (.any _ _)
    | _ => simp [Stmt.unplaced] at hu
  | forLoop first test step body span ihf ihs ih =>
    cases s' with
    | «for» first' test' step' body' =>
      obtain ⟨hf, ht, hs, hb, _⟩ := Stmt.for.inj hu
      have hl : (keysOption first ++ keysOption step).length =
          (keysOption first' ++ keysOption step').length := by
        rw [List.length_append, List.length_append, hoption hf, hoption hs]
      obtain ⟨hk, hkb⟩ := (forall₂_append_iff hl).1 hk
      obtain ⟨hkf, hks⟩ := (forall₂_append_iff (hoption hf)).1 hk
      exact .forLoop (option_alike ihf hf hkf) (option_alike_of_unplaced ht) (option_alike ihs hs hks)
        (Block.alike ih hb hkb) (.any _ _)
    | _ => simp [Stmt.unplaced] at hu
  | foreach item collection body span ih =>
    cases s' with
    | foreach =>
      obtain ⟨rfl, hc, hb, _⟩ := Stmt.foreach.inj hu
      exact .foreach (Expr.alike_of_unplaced hc) (Block.alike ih hb hk) (.any _ _)
    | _ => simp [Stmt.unplaced] at hu
  | switch subject cases default span ihc ihd =>
    cases s' with
    | switch =>
      obtain ⟨hs, hc, hd, _⟩ := Stmt.switch.inj hu
      have hl := keys_length_eq (fun _ => keysCases_unplaced fun _ _ s _ => s.sameKeys) hc
      obtain ⟨hkc, hkd⟩ := (forall₂_append_iff hl).1 hk
      exact .switch (Expr.alike_of_unplaced hs) (cases_alike ihc hc hkc) (default_alike ihd hd hkd)
        (.any _ _)
    | _ => simp [Stmt.unplaced] at hu
  | exit span =>
    cases s' with
    | «break» => exact .exit (.any _ _)
    | _ => simp [Stmt.unplaced] at hu
  | next span =>
    cases s' with
    | «continue» => exact .next (.any _ _)
    | _ => simp [Stmt.unplaced] at hu
  | ret e span =>
    cases s' with
    | «return» => exact .ret (option_alike_of_unplaced (Stmt.return.inj hu).1) (.any _ _)
    | _ => simp [Stmt.unplaced] at hu
  | tryCatch body caught handler span ihb ihh =>
    cases s' with
    | tryCatch =>
      obtain ⟨hb, rfl, hh, _⟩ := Stmt.tryCatch.inj hu
      obtain ⟨hkb, hkh⟩ := (forall₂_append_iff (hblock hb)).1 hk
      exact .tryCatch (Block.alike ihb hb hkb) (Block.alike ihh hh hkh) (.any _ _)
    | _ => simp [Stmt.unplaced] at hu
  | function f ih =>
    cases s' with
    | function => exact .function (Function.alike ih (Stmt.function.inj hu) hk)
    | _ => simp [Stmt.unplaced] at hu
  | classDef c ih =>
    cases s' with
    | «class» => exact .classDef (Class.alike ih (Stmt.class.inj hu) hk)
    | _ => simp [Stmt.unplaced] at hu

theorem Program.alike_of_unplaced {p p' : Program} (hu : p.unplaced = p'.unplaced)
    (hk : List.Forall₂ key p.keys p'.keys) :
    List.Forall₂ (Stmt.Alike False key) p.statements p'.statements :=
  all_alike (fun s _ => s.settles) (Program.mk.inj hu).1 hk

theorem Program.keys_length_eq {p p' : Program} (hu : p.unplaced = p'.unplaced) :
    p.keys.length = p'.keys.length :=
  ThreeAddress.keys_length_eq (fun _ => keysAll_unplaced fun s _ => s.sameKeys) (Program.mk.inj hu).1

end Statements

end ThreeAddress
