import Mathlib.Data.List.Forall2
import ThreeAddress.Proofs.Source.Induction

namespace ThreeAddress

def SameIf (P : Prop) (a b : α) : Prop := P → a = b

theorem SameIf.refl {P : Prop} (a : α) : SameIf P a a := fun _ => rfl

theorem SameIf.of_eq {P : Prop} {a b : α} (h : a = b) : SameIf P a b := fun _ => h

theorem SameIf.map {P : Prop} {a b : α} (h : SameIf P a b) (f : α → β) : SameIf P (f a) (f b) :=
  fun p => congrArg f (h p)

theorem sameIf_of_rel {P : Prop} {a b : Option α} (h : Option.Rel (SameIf P) a b) : SameIf P a b := by
  cases h with
  | none => exact .refl _
  | some h => exact h.map some

instance reflOptionRel {R : α → α → Prop} [Std.Refl R] : Std.Refl (Option.Rel R) where
  refl x := by
    cases x with
    | none => exact .none
    | some a => exact .some (Std.Refl.refl a)

instance {P : Prop} : Std.Refl (SameIf P : α → α → Prop) := ⟨.refl⟩

theorem forall₂_mem {R : α → β → Prop} {xs : List α} {ys : List β} {x : α}
    (h : List.Forall₂ R xs ys) (hx : x ∈ xs) : ∃ y ∈ ys, R x y := by
  induction h with
  | nil => cases hx
  | cons hr _ ih =>
    obtain rfl | hx := List.mem_cons.1 hx
    · exact ⟨_, by simp, hr⟩
    · obtain ⟨y, hy, hr⟩ := ih hx
      exact ⟨y, by simp [hy], hr⟩

def Span.Alike (lines : Prop) (a b : Span) : Prop := SameIf lines a.line b.line

theorem Span.Alike.refl {lines : Prop} (a : Span) : a.Alike lines a := SameIf.refl a.line

theorem Span.Alike.orElse {lines : Prop} {a b whole whole' : Span} (h : a.Alike lines b)
    (hw : whole.Alike lines whole') : (a.orElse whole).Alike lines (b.orElse whole') := by
  intro hl
  rw [Span.orElse, Span.orElse, h hl]
  split
  · exact hw hl
  · exact h hl

variable (lines : Prop) (key : Position → Position → Prop)

inductive Expr.Alike : Expr → Expr → Prop
  | int : a.Alike lines b → Alike (.int n a) (.int n b)
  | str : a.Alike lines b → Alike (.str text a) (.str text b)
  | bool : a.Alike lines b → Alike (.bool x a) (.bool x b)
  | null : a.Alike lines b → Alike (.null a) (.null b)
  | ident : a.Alike lines b → Alike (.ident name a) (.ident name b)
  | this : a.Alike lines b → Alike (.this a) (.this b)
  | array : List.Forall₂ Alike es es' → a.Alike lines b → Alike (.array es a) (.array es' b)
  | binary : Alike l l' → Alike r r' → a.Alike lines b → Alike (.binary l op r a) (.binary l' op r' b)
  | unary : Alike e e' → a.Alike lines b → Alike (.unary op e a) (.unary op e' b)
  | logical : Alike l l' → Alike r r' → a.Alike lines b → Alike (.logical l op r a) (.logical l' op r' b)
  | ternary : Alike c c' → Alike x x' → Alike y y' → a.Alike lines b →
    Alike (.ternary c x y a) (.ternary c' x' y' b)
  | call : Alike callee callee' → List.Forall₂ Alike args args' → a.Alike lines b →
    Alike (.call callee args a) (.call callee' args' b)
  | new : List.Forall₂ Alike args args' → a.Alike lines b → Alike (.new name args a) (.new name args' b)
  | index : Alike base base' → Alike i i' → a.Alike lines b → Alike (.index base i a) (.index base' i' b)
  | property : Alike object object' → a.Alike lines b →
    Alike (.property object field a) (.property object' field b)

inductive Target.Alike : Target → Target → Prop
  | ident : Alike (.ident name) (.ident name)
  | index : base.Alike lines base' → List.Forall₂ (Expr.Alike lines) indices indices' →
    Alike (.index base indices) (.index base' indices')
  | property : object.Alike lines object' → Alike (.property object field) (.property object' field)

structure Binding.Alike (b b' : Binding) : Prop where
  name : b'.name = b.name
  type : b'.type = b.type
  value : Option.Rel (Expr.Alike lines) b.value b'.value
  isConst : b'.isConst = b.isConst
  span : b.span.Alike lines b'.span

structure Param.Alike (p p' : Param) : Prop where
  name : p'.name = p.name
  type : p'.type = p.type
  span : p.span.Alike lines p'.span

section Parts

variable (R : Stmt → Stmt → Prop)

inductive BlocksAlike : Block → Block → Prop
  | mk : key a.toPosition b.toPosition → List.Forall₂ R body body' → BlocksAlike ⟨body, a⟩ ⟨body', b⟩

inductive CasesAlike : Case → Case → Prop
  | mk : value.Alike lines value' → List.Forall₂ R body body' →
    CasesAlike ⟨value, body, a⟩ ⟨value', body', b⟩

inductive FunctionsAlike : Function → Function → Prop
  | mk : List.Forall₂ (Param.Alike lines) params params' → BlocksAlike key R body body' →
    a.Alike lines b → FunctionsAlike ⟨name, params, result, body, a⟩ ⟨name, params', result, body', b⟩

inductive MembersAlike : Member → Member → Prop
  | field : b.Alike lines b' → MembersAlike (.field b) (.field b')
  | method : FunctionsAlike lines key R f f' → MembersAlike (.method f) (.method f')

inductive ClassesAlike : Class → Class → Prop
  | mk : List.Forall₂ (MembersAlike lines key R) members members' →
    key a.toPosition b.toPosition → a.Alike lines b →
    ClassesAlike ⟨name, parent, members, a⟩ ⟨name, parent, members', b⟩

end Parts

inductive Stmt.Alike : Stmt → Stmt → Prop
  | declare : b.Alike lines b' → Alike (.declare b) (.declare b')
  | assign : target.Alike lines target' → value.Alike lines value' → a.Alike lines b →
    Alike (.assign target value a) (.assign target' value' b)
  | print : e.Alike lines e' → a.Alike lines b → Alike (.print e a) (.print e' b)
  | eval : e.Alike lines e' → a.Alike lines b → Alike (.eval e a) (.eval e' b)
  | block : BlocksAlike key Alike x x' → Alike (.block x) (.block x')
  | ite : c.Alike lines c' → BlocksAlike key Alike yes yes' →
    Option.Rel (BlocksAlike key Alike) no no' → a.Alike lines b →
    Alike (.ite c yes no a) (.ite c' yes' no' b)
  | loop : c.Alike lines c' → BlocksAlike key Alike body body' → a.Alike lines b →
    Alike (.while c body a) (.while c' body' b)
  | doWhile : BlocksAlike key Alike body body' → c.Alike lines c' → a.Alike lines b →
    Alike (.doWhile body c a) (.doWhile body' c' b)
  | forLoop : Option.Rel Alike first first' → Option.Rel (Expr.Alike lines) test test' →
    Option.Rel Alike step step' → BlocksAlike key Alike body body' → a.Alike lines b →
    Alike (.for first test step body a) (.for first' test' step' body' b)
  | foreach : collection.Alike lines collection' → BlocksAlike key Alike body body' →
    a.Alike lines b → Alike (.foreach item collection body a) (.foreach item collection' body' b)
  | switch : subject.Alike lines subject' → List.Forall₂ (CasesAlike lines Alike) cases cases' →
    Option.Rel (List.Forall₂ Alike) other other' → a.Alike lines b →
    Alike (.switch subject cases other a) (.switch subject' cases' other' b)
  | exit : a.Alike lines b → Alike (.break a) (.break b)
  | next : a.Alike lines b → Alike (.continue a) (.continue b)
  | ret : Option.Rel (Expr.Alike lines) e e' → a.Alike lines b → Alike (.return e a) (.return e' b)
  | tryCatch : BlocksAlike key Alike body body' → BlocksAlike key Alike handler handler' →
    a.Alike lines b → Alike (.tryCatch body caught handler a) (.tryCatch body' caught handler' b)
  | function : FunctionsAlike lines key Alike f f' → Alike (.function f) (.function f')
  | classDef : ClassesAlike lines key Alike c c' → Alike (.class c) (.class c')

section Induction

variable {lines : Prop} {key : Position → Position → Prop}

theorem Expr.Alike.induction {P : Expr → Expr → Prop}
    (int : ∀ n {a b}, a.Alike lines b → P (.int n a) (.int n b))
    (str : ∀ text {a b}, a.Alike lines b → P (.str text a) (.str text b))
    (bool : ∀ x {a b}, a.Alike lines b → P (.bool x a) (.bool x b))
    (null : ∀ {a b}, a.Alike lines b → P (.null a) (.null b))
    (ident : ∀ name {a b}, a.Alike lines b → P (.ident name a) (.ident name b))
    (this : ∀ {a b}, a.Alike lines b → P (.this a) (.this b))
    (array : ∀ {es es' a b}, List.Forall₂ P es es' → a.Alike lines b → P (.array es a) (.array es' b))
    (binary : ∀ op {l l' r r' a b}, P l l' → P r r' → a.Alike lines b →
      P (.binary l op r a) (.binary l' op r' b))
    (unary : ∀ op {e e' a b}, P e e' → a.Alike lines b → P (.unary op e a) (.unary op e' b))
    (logical : ∀ op {l l' r r' a b}, P l l' → P r r' → a.Alike lines b →
      P (.logical l op r a) (.logical l' op r' b))
    (ternary : ∀ {c c' x x' y y' a b}, P c c' → P x x' → P y y' → a.Alike lines b →
      P (.ternary c x y a) (.ternary c' x' y' b))
    (call : ∀ {callee callee' args args' a b}, P callee callee' → List.Forall₂ P args args' →
      a.Alike lines b → P (.call callee args a) (.call callee' args' b))
    (new : ∀ name {args args' a b}, List.Forall₂ P args args' → a.Alike lines b →
      P (.new name args a) (.new name args' b))
    (index : ∀ {base base' i i' a b}, P base base' → P i i' → a.Alike lines b →
      P (.index base i a) (.index base' i' b))
    (property : ∀ field {object object' a b}, P object object' → a.Alike lines b →
      P (.property object field a) (.property object' field b))
    {e e' : Expr} (h : e.Alike lines e') : P e e' :=
  @Expr.Alike.rec lines (fun e e' _ => P e e') (fun es es' _ => List.Forall₂ P es es')
    (fun h => int _ h) (fun h => str _ h) (fun h => bool _ h) (fun h => null h)
    (fun h => ident _ h) (fun h => this h) (fun _ h hes => array hes h)
    (fun _ _ h hl hr => binary _ hl hr h) (fun _ h he => unary _ he h)
    (fun _ _ h hl hr => logical _ hl hr h) (fun _ _ _ h hc hx hy => ternary hc hx hy h)
    (fun _ _ h hc ha => call hc ha h) (fun _ h ha => new _ ha h) (fun _ _ h hb hi => index hb hi h)
    (fun _ h ho => property _ ho h) .nil (fun _ _ he hes => .cons he hes) e e' h

theorem Stmt.Alike.induction {P : Stmt → Stmt → Prop}
    (declare : ∀ {b b' : Binding}, b.Alike lines b' → P (.declare b) (.declare b'))
    (assign : ∀ {target target' : Target} {value value' : Expr} {a b : Span},
      target.Alike lines target' → value.Alike lines value' → a.Alike lines b →
      P (.assign target value a) (.assign target' value' b))
    (print : ∀ {e e' : Expr} {a b : Span}, e.Alike lines e' → a.Alike lines b →
      P (.print e a) (.print e' b))
    (eval : ∀ {e e' : Expr} {a b : Span}, e.Alike lines e' → a.Alike lines b →
      P (.eval e a) (.eval e' b))
    (block : ∀ {x x' : Block}, BlocksAlike key P x x' → P (.block x) (.block x'))
    (ite : ∀ {c c' : Expr} {yes yes' : Block} {no no' : Option Block} {a b : Span},
      c.Alike lines c' → BlocksAlike key P yes yes' → Option.Rel (BlocksAlike key P) no no' →
      a.Alike lines b → P (.ite c yes no a) (.ite c' yes' no' b))
    (loop : ∀ {c c' : Expr} {body body' : Block} {a b : Span}, c.Alike lines c' →
      BlocksAlike key P body body' → a.Alike lines b → P (.while c body a) (.while c' body' b))
    (doWhile : ∀ {c c' : Expr} {body body' : Block} {a b : Span}, BlocksAlike key P body body' →
      c.Alike lines c' → a.Alike lines b → P (.doWhile body c a) (.doWhile body' c' b))
    (forLoop : ∀ {first first' : Option Stmt} {test test' : Option Expr} {step step' : Option Stmt}
      {body body' : Block} {a b : Span}, Option.Rel P first first' →
      Option.Rel (Expr.Alike lines) test test' → Option.Rel P step step' →
      BlocksAlike key P body body' → a.Alike lines b →
      P (.for first test step body a) (.for first' test' step' body' b))
    (foreach : ∀ item {collection collection' : Expr} {body body' : Block} {a b : Span},
      collection.Alike lines collection' → BlocksAlike key P body body' → a.Alike lines b →
      P (.foreach item collection body a) (.foreach item collection' body' b))
    (switch : ∀ {subject subject' : Expr} {cases cases' : List Case} {other other' : Option (List Stmt)}
      {a b : Span}, subject.Alike lines subject' → List.Forall₂ (CasesAlike lines P) cases cases' →
      Option.Rel (List.Forall₂ P) other other' → a.Alike lines b →
      P (.switch subject cases other a) (.switch subject' cases' other' b))
    (exit : ∀ {a b : Span}, a.Alike lines b → P (.break a) (.break b))
    (next : ∀ {a b : Span}, a.Alike lines b → P (.continue a) (.continue b))
    (ret : ∀ {e e' : Option Expr} {a b : Span}, Option.Rel (Expr.Alike lines) e e' →
      a.Alike lines b → P (.return e a) (.return e' b))
    (tryCatch : ∀ caught {body body' handler handler' : Block} {a b : Span},
      BlocksAlike key P body body' → BlocksAlike key P handler handler' → a.Alike lines b →
      P (.tryCatch body caught handler a) (.tryCatch body' caught handler' b))
    (function : ∀ {f f' : Function}, FunctionsAlike lines key P f f' →
      P (.function f) (.function f'))
    (classDef : ∀ {c c' : Class}, ClassesAlike lines key P c c' → P (.class c) (.class c'))
    {s s' : Stmt} (h : s.Alike lines key s') : P s s' :=
  @Stmt.Alike.rec lines key (fun s s' _ => P s s') (fun x x' _ => BlocksAlike key P x x')
    (fun x x' _ => Option.Rel (BlocksAlike key P) x x') (fun s s' _ => Option.Rel P s s')
    (fun k k' _ => List.Forall₂ (CasesAlike lines P) k k')
    (fun d d' _ => Option.Rel (List.Forall₂ P) d d') (fun f f' _ => FunctionsAlike lines key P f f')
    (fun c c' _ => ClassesAlike lines key P c c') (fun s s' _ => List.Forall₂ P s s')
    (fun k k' _ => CasesAlike lines P k k') (fun m m' _ => List.Forall₂ (MembersAlike lines key P) m m')
    (fun m m' _ => MembersAlike lines key P m m')
    (fun h => declare h) (fun ht hv h => assign ht hv h) (fun he h => print he h)
    (fun he h => eval he h) (fun _ hx => block hx) (fun hc _ _ h hy hn => ite hc hy hn h)
    (fun hc _ h hb => loop hc hb h) (fun _ hc h hb => doWhile hb hc h)
    (fun _ ht _ _ h hf hs hb => forLoop hf ht hs hb h) (fun hc _ h hb => foreach _ hc hb h)
    (fun hs _ _ h hc hd => switch hs hc hd h) (fun h => exit h) (fun h => next h)
    (fun he h => ret he h) (fun _ _ h hb hh => tryCatch _ hb hh h) (fun _ hf => function hf)
    (fun _ hc => classDef hc) (fun hk _ hb => .mk hk hb) (fun _ hb => .some hb) .none
    (fun _ hs => .some hs) .none .nil (fun _ _ hk hr => .cons hk hr) (fun _ hb => .some hb) .none
    (fun hp _ h hb => .mk hp hb h) (fun _ hk h hm => .mk hm hk h) .nil
    (fun _ _ hs hr => .cons hs hr) (fun hv _ hb => .mk hv hb) .nil (fun _ _ hm hr => .cons hm hr)
    (fun hb => .field hb) (fun _ hf => .method hf) s s' h

end Induction

section Refl

variable {lines : Prop} {key : Position → Position → Prop}

theorem Expr.Alike.refl (e : Expr) : e.Alike lines e :=
  @Expr.rec (fun e => e.Alike lines e) (fun es => List.Forall₂ (Expr.Alike lines) es es)
    (fun _ a => .int (.refl a)) (fun _ a => .str (.refl a)) (fun _ a => .bool (.refl a))
    (fun a => .null (.refl a)) (fun _ a => .ident (.refl a)) (fun a => .this (.refl a))
    (fun _ a hes => .array hes (.refl a)) (fun _ _ _ a hl hr => .binary hl hr (.refl a))
    (fun _ _ a he => .unary he (.refl a)) (fun _ _ _ a hl hr => .logical hl hr (.refl a))
    (fun _ _ _ a hc hx hy => .ternary hc hx hy (.refl a)) (fun _ _ a hc ha => .call hc ha (.refl a))
    (fun _ _ a ha => .new ha (.refl a)) (fun _ _ a hb hi => .index hb hi (.refl a))
    (fun _ _ a ho => .property ho (.refl a)) .nil (fun _ _ he hes => .cons he hes) e

instance : Std.Refl (Expr.Alike lines) := ⟨Expr.Alike.refl⟩

theorem Binding.Alike.refl (b : Binding) : b.Alike lines b := ⟨rfl, rfl, Std.Refl.refl _, rfl, .refl _⟩

theorem Target.Alike.refl (t : Target) : t.Alike lines t := by
  cases t with
  | ident => exact .ident
  | index base indices =>
    exact .index (.refl base) (List.forall₂_same.2 fun e _ => .refl e)
  | property object field => exact .property (.refl object)

theorem Stmt.Alike.refl (hk : ∀ k, key k k) (s : Stmt) : s.Alike lines key s :=
  @Stmt.rec (fun s => s.Alike lines key s) (fun b => BlocksAlike key (Stmt.Alike lines key) b b)
    (fun k => CasesAlike lines (Stmt.Alike lines key) k k)
    (fun f => FunctionsAlike lines key (Stmt.Alike lines key) f f)
    (fun m => MembersAlike lines key (Stmt.Alike lines key) m m)
    (fun c => ClassesAlike lines key (Stmt.Alike lines key) c c)
    (fun b => Option.Rel (BlocksAlike key (Stmt.Alike lines key)) b b)
    (fun s => Option.Rel (Stmt.Alike lines key) s s)
    (fun ks => List.Forall₂ (CasesAlike lines (Stmt.Alike lines key)) ks ks)
    (fun d => Option.Rel (List.Forall₂ (Stmt.Alike lines key)) d d)
    (fun body => List.Forall₂ (Stmt.Alike lines key) body body)
    (fun ms => List.Forall₂ (MembersAlike lines key (Stmt.Alike lines key)) ms ms)
    (fun b => .declare (.refl b)) (fun t e a => .assign (.refl t) (.refl e) (.refl a))
    (fun e a => .print (.refl e) (.refl a)) (fun e a => .eval (.refl e) (.refl a))
    (fun _ hb => .block hb) (fun c _ _ a hy hn => .ite (.refl c) hy hn (.refl a))
    (fun c _ a hb => .loop (.refl c) hb (.refl a)) (fun _ c a hb => .doWhile hb (.refl c) (.refl a))
    (fun _ _ _ _ a hf hs hb => .forLoop hf (Std.Refl.refl _) hs hb (.refl a))
    (fun _ e _ a hb => .foreach (.refl e) hb (.refl a))
    (fun e _ _ a hc hd => .switch (.refl e) hc hd (.refl a)) (fun a => .exit (.refl a))
    (fun a => .next (.refl a)) (fun _ a => .ret (Std.Refl.refl _) (.refl a))
    (fun _ _ _ a hb hh => .tryCatch hb hh (.refl a)) (fun _ hf => .function hf)
    (fun _ hc => .classDef hc) (fun _ _ hb => .mk (hk _) hb) (fun e _ _ hb => .mk (.refl e) hb)
    (fun _ _ _ _ a hb => .mk (List.forall₂_same.2 fun _ _ => ⟨rfl, rfl, .refl _⟩) hb (.refl a))
    (fun b => .field (.refl b)) (fun _ hf => .method hf) (fun _ _ _ a hm => .mk hm (hk _) (.refl a))
    .none (fun _ hb => .some hb) .none (fun _ hs => .some hs) .nil (fun _ _ hk hr => .cons hk hr)
    .none (fun _ hb => .some hb) .nil (fun _ _ hs hr => .cons hs hr) .nil
    (fun _ _ hm hr => .cons hm hr) s

end Refl

end ThreeAddress
