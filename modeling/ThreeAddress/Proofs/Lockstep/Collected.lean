import Mathlib.Logic.Relator
import ThreeAddress.Proofs.Lockstep.Trees
import ThreeAddress.Proofs.Scope.Collect

namespace ThreeAddress

section Lists

variable {R : α → β → Prop} {xs : List α} {ys : List β}

theorem forall₂_modify {f : α → α} {g : β → β} (h : List.Forall₂ R xs ys)
    (hfg : ∀ x y, R x y → R (f x) (g y)) (i : Nat) :
    List.Forall₂ R (xs.modify i f) (ys.modify i g) := by
  induction h generalizing i with
  | nil => simp
  | cons hr hrest ih =>
    cases i with
    | zero => simpa using ⟨hfg _ _ hr, hrest⟩
    | succ i => simpa using ⟨hr, ih i⟩

theorem forall₂_findIdx? {p : α → Bool} {q : β → Bool} (h : List.Forall₂ R xs ys)
    (hpq : ∀ x y, R x y → p x = q y) : xs.findIdx? p = ys.findIdx? q := by
  induction h with
  | nil => rfl
  | cons hr _ ih => rw [List.findIdx?_cons, List.findIdx?_cons, hpq _ _ hr, ih]

theorem forall₂_getElem? (h : List.Forall₂ R xs ys) (i : Nat) : Option.Rel R xs[i]? ys[i]? := by
  induction h generalizing i with
  | nil => exact .none
  | cons hr _ ih =>
    cases i with
    | zero => exact .some hr
    | succ i => simpa using ih i

end Lists

def Scope.unplaced (s : Scope) : Scope := s.overwrite (fun _ => .origin) Symbol.unplaced

def Table.unplaced (t : Table) : Table := t.overwrite (fun _ => .origin) Symbol.unplaced

variable {key : Position → Position → Prop}

structure Scope.Alike (key : Position → Position → Prop) (s s' : Scope) : Prop where
  key : key s.key s'.key
  unplaced : s.unplaced = s'.unplaced

/-- The same scopes with the same declarations, under related keys. -/
def Table.Alike (key : Position → Position → Prop) (t t' : Table) : Prop :=
  List.Forall₂ (Scope.Alike key) t.scopes t'.scopes

namespace Table

variable {t t' : Table} {scope : Nat} {name : String}

theorem lookup_unplaced (t : Table) (scope : Nat) (name : String) :
    t.unplaced.lookup scope name = t.lookup scope name :=
  lookup_overwrite (f := Symbol.unplaced) (fun _ => rfl) scope name

theorem lookupLocal_unplaced (t : Table) (scope : Nat) (name : String) :
    t.unplaced.lookupLocal scope name = t.lookupLocal scope name :=
  lookupLocal_overwrite (f := Symbol.unplaced) (fun _ => rfl) scope name

theorem symbol_unplaced (t : Table) (id : SymbolId) :
    t.unplaced.symbol id = Symbol.unplaced <$> t.symbol id := symbol_overwrite id

theorem visible?_unplaced (t : Table) (scope : Nat) (name : String) :
    t.unplaced.visible? scope name = (t.visible? scope name).map Symbol.unplaced := by
  rw [visible?, visible?, lookup_unplaced]
  split
  · rw [symbol_unplaced]
    cases t.symbol _ <;> rfl
  · rfl

theorem visible?_alike (h : t.unplaced = t'.unplaced) (scope : Nat) (name : String) :
    Option.Rel (fun x x' : Symbol => x.unplaced = x'.unplaced) (t.visible? scope name)
      (t'.visible? scope name) := by
  have hv : (t.visible? scope name).map Symbol.unplaced = (t'.visible? scope name).map Symbol.unplaced := by
    rw [← visible?_unplaced, h, visible?_unplaced]
  generalize t.visible? scope name = r, t'.visible? scope name = r' at hv
  cases r <;> cases r' <;> simp only [Option.map_none, Option.map_some, reduceCtorEq] at hv
  · exact .none
  · exact .some (Option.some.inj hv)

namespace Alike

theorem unplaced (h : t.Alike key t') : t.unplaced = t'.unplaced := by
  refine congrArg Table.mk (List.forall₂_eq_eq_eq ▸ ?_)
  exact List.forall₂_map_left_iff.2 (List.forall₂_map_right_iff.2 (h.imp fun _ _ hs => hs.unplaced))

theorem size (h : t.Alike key t') : t.size = t'.size := h.length_eq

theorem scopeFor {a b : Position} (h : t.Alike key t') (hk : Relator.BiUnique key) (hab : key a b) :
    t.scopeFor a = t'.scopeFor b := by
  refine forall₂_findIdx? h fun s s' hs => ?_
  have he : s.key = a ↔ s'.key = b := Relator.rel_eq hk hs.key hab
  rw [Bool.eq_iff_iff, beq_iff_eq, beq_iff_eq, he]

theorem taken {y y' : Symbol} (h : t.Alike key t') (hy : y.unplaced = y'.unplaced) (scope : Nat) :
    let here := (t.scopes[scope]?.map (·.symbols)).getD []
    let here' := (t'.scopes[scope]?.map (·.symbols)).getD []
    here.length = here'.length ∧
      here.findIdx? (·.name == y.name) = here'.findIdx? (·.name == y'.name) := by
  have hn : y.name = y'.name := (congrArg (·.name) hy :)
  have hs : ((t.scopes[scope]?.map (·.symbols)).getD []).map Symbol.unplaced =
      ((t'.scopes[scope]?.map (·.symbols)).getD []).map Symbol.unplaced := by
    have hi := forall₂_getElem? h scope
    generalize t.scopes[scope]? = r, t'.scopes[scope]? = r' at hi
    cases hi with
    | none => rfl
    | some hs => exact congrArg Scope.symbols hs.unplaced
  refine ⟨by simpa using congrArg List.length hs, ?_⟩
  have hi := congrArg (List.findIdx? (·.name == y'.name)) hs
  rw [List.findIdx?_map, List.findIdx?_map] at hi
  rw [hn]
  exact hi

theorem modifyScope {f g : Scope → Scope} (h : t.Alike key t')
    (hf : ∀ s s' : Scope, s.Alike key s' → (f s).Alike key (g s')) (id : Nat) :
    (t.modifyScope id f).Alike key (t'.modifyScope id g) := forall₂_modify h hf id

theorem addScope {a b : Position} (h : t.Alike key t') (hk : Relator.BiUnique key) (hab : key a b)
    (kind : ScopeKind) (parent : Nat) :
    (t.addScope a kind parent).1 = (t'.addScope b kind parent).1 ∧
      (t.addScope a kind parent).2.Alike key (t'.addScope b kind parent).2 := by
  simp only [Table.addScope, h.scopeFor hk hab]
  cases t'.scopeFor b with
  | some taken => exact ⟨rfl, h⟩
  | none =>
    have hgrown : Alike key ⟨t.scopes ++ [⟨a, kind, parent, [], []⟩]⟩
        ⟨t'.scopes ++ [⟨b, kind, parent, [], []⟩]⟩ :=
      List.rel_append h (.cons ⟨hab, rfl⟩ .nil)
    rw [h.size]
    refine ⟨rfl, ?_⟩
    dsimp only
    refine hgrown.modifyScope ?_ parent
    intro s s' hs
    exact ⟨hs.key, congrArg (fun r : Scope => { r with children := r.children ++ [t'.size] }) hs.unplaced⟩

theorem declare {y y' : Symbol} (h : t.Alike key t') (hy : y.unplaced = y'.unplaced) (scope : Nat) :
    (t.declare scope y).1 = (t'.declare scope y').1 ∧
      (t.declare scope y).2.Alike key (t'.declare scope y').2 := by
  obtain ⟨hl, hn⟩ := h.taken hy scope
  simp only [Table.declare, hl, hn]
  split
  · exact ⟨rfl, h⟩
  · refine ⟨rfl, ?_⟩
    dsimp only
    refine h.modifyScope ?_ scope
    intro s s' hs
    refine ⟨hs.key, ?_⟩
    have hp := congrArg (fun r : Scope => { r with symbols := r.symbols ++ [y.unplaced] }) hs.unplaced
    simpa [Scope.unplaced, Scope.overwrite, hy] using hp

end Alike

end Table

section Inference

variable {lines : Prop} {t t' : Table} {scope : Nat}

theorem Expr.Alike.infer {e e' : Expr} (h : e.Alike lines e') (ht : t.unplaced = t'.unplaced) :
    e.infer t scope = e'.infer t' scope := by
  -- A call of a name has the type of what the name means, and any other call is of no known type.
  let P (e e' : Expr) : Prop := e.infer t scope = e'.infer t' scope ∧ ∀ args args' a b,
    (Expr.call e args a).infer t scope = (Expr.call e' args' b).infer t' scope
  suffices hp : P e e' from hp.1
  apply Expr.Alike.induction (P := P) (h := h)
  case ident =>
    intro name a b _
    have hv := Table.visible?_alike ht scope name
    refine ⟨?_, fun _ _ _ _ => ?_⟩
    · rw [Expr.infer, Expr.infer]
      generalize t.visible? scope name = r, t'.visible? scope name = r' at hv
      cases hv with
      | none => rfl
      | some hx => exact congrArg (·.type) hx
    · rw [Expr.infer, Expr.infer]
      generalize t.visible? scope name = r, t'.visible? scope name = r' at hv
      cases hv with
      | none => rfl
      | @some x x' hx =>
        have hty : x.type = x'.type := (congrArg (·.type) hx :)
        have hc : x.isCallable = x'.isCallable := (congrArg (·.isCallable) hx :)
        dsimp only
        rw [hc, hty]
  case array =>
    intro es es' a b hes _
    refine ⟨?_, fun _ _ _ _ => rfl⟩
    rw [Expr.infer, Expr.infer]
    cases hes with
    | nil => rfl
    | cons he _ => rw [inferHead, inferHead, he.1]
  case binary =>
    intro op l l' r r' a b hl hr _
    refine ⟨?_, fun _ _ _ _ => rfl⟩
    rw [Expr.infer, Expr.infer, hl.1, hr.1]
  case unary =>
    intro op e e' a b _ _
    cases op <;> exact ⟨rfl, fun _ _ _ _ => rfl⟩
  case ternary =>
    intro c c' x x' y y' a b _ hx _ _
    refine ⟨?_, fun _ _ _ _ => rfl⟩
    rw [Expr.infer, Expr.infer, hx.1]
  case call =>
    intro callee callee' args args' a b hc _ _
    exact ⟨hc.2 _ _ _ _, fun _ _ _ _ => rfl⟩
  case index =>
    intro base base' i i' a b hb _ _
    refine ⟨?_, fun _ _ _ _ => rfl⟩
    rw [Expr.infer, Expr.infer, hb.1]
  all_goals
    intros
    exact ⟨rfl, fun _ _ _ _ => rfl⟩

end Inference

inductive Conflict.Alike (key : Position → Position → Prop) : Conflict → Conflict → Prop
  | duplicate : Alike key (.duplicate name n) (.duplicate name m)
  | collision : key a b → Alike key (.collision a) (.collision b)

structure Collection.Alike (key : Position → Position → Prop) (s s' : Collection) : Prop where
  table : s.table.Alike key s'.table
  conflicts : List.Forall₂ (Conflict.Alike key) s.conflicts s'.conflicts

namespace Collect

/-- From collections that are alike, both actions yield the same and lead to collections that are. -/
def Lockstep (key : Position → Position → Prop) (act act' : Collect α) : Prop :=
  ∀ ⦃s s'⦄, s.Alike key s' → (act s).1 = (act' s').1 ∧ (act s).2.Alike key (act' s').2

namespace Lockstep

variable {act act' : Collect α} {f f' : α → Collect β}

theorem pure (a : α) : Lockstep key (Pure.pure a : Collect α) (Pure.pure a) := fun _ _ h => ⟨rfl, h⟩

theorem bind (h : Lockstep key act act') (k : ∀ a, Lockstep key (f a) (f' a)) :
    Lockstep key (act >>= f) (act' >>= f') := by
  intro s s' hs
  obtain ⟨ha, hs₁⟩ := h hs
  have hk := k (act s).1 hs₁
  rw [show (act s).1 = (act' s').1 from ha] at hk
  change (f (act s).1 (act s).2).1 = (f' (act' s').1 (act' s').2).1 ∧
    (f (act s).1 (act s).2).2.Alike key (f' (act' s').1 (act' s').2).2
  rwa [ha]

theorem bind_get {f f' : Collection → Collect α}
    (k : ∀ s s', s.Alike key s' → Lockstep key (f s) (f' s')) : Lockstep key (get >>= f) (get >>= f') :=
  fun s s' hs => k s s' hs hs

theorem forM {R : β → β → Prop} {f f' : β → Collect PUnit} {xs ys : List β}
    (h : List.Forall₂ R xs ys) (hf : ∀ x y, R x y → Lockstep key (f x) (f' y)) :
    Lockstep key (xs.forM f) (ys.forM f') := by
  induction h with
  | nil => exact pure _
  | cons hr _ ih => exact (hf _ _ hr).bind fun _ => ih

end Lockstep

theorem openScope_lockstep {a b : Span} (hk : Relator.BiUnique key) (h : key a.toPosition b.toPosition)
    (kind : ScopeKind) (parent : Nat) : Lockstep key (openScope a kind parent) (openScope b kind parent) := by
  intro s s' hs
  rw [openScope_eq, openScope_eq, hs.table.scopeFor hk h]
  cases s'.table.scopeFor b.toPosition with
  | none => exact ⟨hs.table.size, { hs with table := (hs.table.addScope hk h kind parent).2 }⟩
  | some taken =>
    exact ⟨rfl, { hs with conflicts := List.rel_append hs.conflicts (.cons (.collision h) .nil) }⟩

theorem declare_lockstep {d d' : Declaration} (h : d.unplaced = d'.unplaced) (scope params : Nat) :
    Lockstep key (declare scope d params) (declare scope d' params) := by
  intro s s' hs
  have hy : ({ Symbol.ofDeclaration d with params } : Symbol).unplaced =
      ({ Symbol.ofDeclaration d' with params } : Symbol).unplaced :=
    congrArg (fun d => ({ Symbol.ofDeclaration d with params } : Symbol)) h
  have hn : d.name = d'.name := (congrArg Declaration.name h :)
  obtain ⟨hr, ht⟩ := hs.table.declare hy scope
  rw [declare_eq, declare_eq]
  generalize s.table.declare scope { Symbol.ofDeclaration d with params } = r at hr ht
  generalize s'.table.declare scope { Symbol.ofDeclaration d' with params } = r' at hr ht
  obtain ⟨r, t⟩ := r
  obtain ⟨r', t'⟩ := r'
  cases hr
  cases r with
  | ok id => exact ⟨rfl, { hs with table := ht }⟩
  | error taken =>
    rw [hn]
    exact ⟨rfl, { hs with conflicts := List.rel_append hs.conflicts (.cons .duplicate .nil) }⟩

end Collect

open Collect

section Statements

variable {lines : Prop}

theorem Binding.Alike.collect_lockstep {b b' : Binding} (h : b.Alike lines b') (scope : Nat)
    (kind : SymbolKind) (owner : Option String) :
    Lockstep key (b.collect scope kind owner) (b'.collect scope kind owner) := by
  obtain ⟨name, type, value, isConst, span⟩ := b
  obtain ⟨name', type', value', isConst', span'⟩ := b'
  obtain ⟨rfl, rfl, hv, rfl, _⟩ := h
  refine .bind_get fun s s' hs => declare_lockstep ?_ scope 0
  cases type' with
  | some written => rfl
  | none =>
    cases hv with
    | none => rfl
    | some he =>
      dsimp only
      rw [he.infer hs.table.unplaced]
      rfl

theorem params_collect_lockstep {params params' : List Param}
    (h : List.Forall₂ (Param.Alike lines) params params') (scope : Nat) :
    Lockstep key (params.forM (·.collect scope)) (params'.forM (·.collect scope)) :=
  .forM h fun p p' hp =>
    declare_lockstep (by rw [Declaration.unplaced, Declaration.unplaced, hp.name, hp.type]) scope 0

abbrev Stmt.Collected (key : Position → Position → Prop) (s s' : Stmt) : Prop :=
  ∀ scope, Collect.Lockstep key (s.collect scope) (s'.collect scope)

theorem collectAll_lockstep {body body' : List Stmt} (h : List.Forall₂ (Stmt.Collected key) body body')
    (scope : Nat) : Lockstep key (collectAll scope body) (collectAll scope body') := by
  induction h with
  | nil =>
    rw [collectAll]
    exact .pure _
  | cons hs _ ih =>
    rw [collectAll, collectAll]
    exact (hs scope).bind fun _ => ih

theorem block_collect_lockstep {b b' : Block} (hk : Relator.BiUnique key)
    (h : BlocksAlike key (Stmt.Collected key) b b') (scope : Nat) :
    Lockstep key (b.collect scope) (b'.collect scope) := by
  cases h with
  | mk h hb =>
    rw [Block.collect, Block.collect]
    exact (openScope_lockstep hk h ..).bind fun inner => collectAll_lockstep hb inner

theorem cases_collect_lockstep {cases cases' : List Case}
    (h : List.Forall₂ (CasesAlike lines (Stmt.Collected key)) cases cases') (scope : Nat) :
    Lockstep key (collectCases scope cases) (collectCases scope cases') := by
  induction h with
  | nil =>
    rw [collectCases]
    exact .pure _
  | cons hc _ ih =>
    cases hc with
    | mk _ hb =>
      rw [collectCases, collectCases]
      exact (collectAll_lockstep hb scope).bind fun _ => ih

theorem function_collect_lockstep {f f' : Function} (hk : Relator.BiUnique key)
    (h : FunctionsAlike lines key (Stmt.Collected key) f f') (scope : Nat) (owner : Option String) :
    Lockstep key (f.collect scope owner) (f'.collect scope owner) := by
  cases h with
  | mk hp hb _ =>
    cases hb with
    | mk hspan hb =>
      rw [Function.collect_eq, Function.collect_eq]
      refine (openScope_lockstep hk hspan ..).bind fun inner => ?_
      rw [hp.length_eq]
      exact (declare_lockstep (by rfl) ..).bind fun _ => (params_collect_lockstep hp inner).bind fun _ =>
        collectAll_lockstep hb inner

theorem members_collect_lockstep {members members' : List Member} (hk : Relator.BiUnique key)
    (h : List.Forall₂ (MembersAlike lines key (Stmt.Collected key)) members members') (scope : Nat)
    (owner : String) :
    Lockstep key (collectMembers scope owner members) (collectMembers scope owner members') := by
  induction h with
  | nil =>
    rw [collectMembers]
    exact .pure _
  | cons hm _ ih =>
    rw [collectMembers, collectMembers]
    refine Lockstep.bind ?_ fun _ => ih
    cases hm with
    | field hb =>
      rw [Member.collect, Member.collect]
      exact hb.collect_lockstep ..
    | method hf =>
      rw [Member.collect, Member.collect]
      exact function_collect_lockstep hk hf ..

theorem Stmt.Alike.collect_lockstep {s s' : Stmt} (hk : Relator.BiUnique key) (h : s.Alike lines key s') :
    Stmt.Collected key s s' := by
  apply Stmt.Alike.induction (P := Stmt.Collected key) (h := h)
  case declare =>
    intro b b' hb scope
    rw [Stmt.collect, Stmt.collect]
    exact hb.collect_lockstep ..
  case block =>
    intro x x' hx scope
    rw [Stmt.collect, Stmt.collect]
    exact block_collect_lockstep hk hx scope
  case ite =>
    intro c c' yes yes' no no' a b _ hy hn _ scope
    cases hn with
    | none =>
      rw [Stmt.collect, Stmt.collect]
      exact (block_collect_lockstep hk hy scope).bind fun _ => .pure _
    | some hn =>
      rw [Stmt.collect, Stmt.collect]
      exact (block_collect_lockstep hk hy scope).bind fun _ => block_collect_lockstep hk hn scope
  case loop =>
    intro c c' body body' a b _ hb _ scope
    rw [Stmt.collect, Stmt.collect]
    exact block_collect_lockstep hk hb scope
  case doWhile =>
    intro c c' body body' a b hb _ _ scope
    rw [Stmt.collect, Stmt.collect]
    exact block_collect_lockstep hk hb scope
  case forLoop =>
    intro first first' test test' step step' body body' a b hf _ _ hb _ scope
    cases hb with
    | mk hspan hb =>
      cases hf with
      | none =>
        simp only [Stmt.collect, Block.collectBody_eq]
        exact (openScope_lockstep hk hspan ..).bind fun inner => collectAll_lockstep hb inner
      | some hf =>
        simp only [Stmt.collect, Block.collectBody_eq]
        exact (openScope_lockstep hk hspan ..).bind fun inner => (hf inner).bind fun _ =>
          collectAll_lockstep hb inner
  case foreach =>
    intro item collection collection' body body' a b hc hb _ scope
    cases hb with
    | mk hspan hb =>
      simp only [Stmt.collect, Block.collectBody_eq]
      refine (openScope_lockstep hk hspan ..).bind fun inner => .bind_get fun t t' ht => ?_
      rw [hc.infer ht.table.unplaced]
      exact (declare_lockstep (by rfl) ..).bind fun _ => collectAll_lockstep hb inner
  case switch =>
    intro subject subject' cases cases' default default' a b _ hc hd _ scope
    cases hd with
    | none =>
      rw [Stmt.collect, Stmt.collect]
      exact (cases_collect_lockstep hc scope).bind fun _ => .pure _
    | some hd =>
      rw [Stmt.collect, Stmt.collect]
      exact (cases_collect_lockstep hc scope).bind fun _ => collectAll_lockstep hd scope
  case tryCatch =>
    intro caught body body' handler handler' a b hb hh _ scope
    cases hh with
    | mk hspan hh =>
      simp only [Stmt.collect, Block.collectBody_eq]
      exact (block_collect_lockstep hk hb scope).bind fun _ =>
        (openScope_lockstep hk hspan ..).bind fun inner =>
        (declare_lockstep (by rfl) ..).bind fun _ => collectAll_lockstep hh inner
  case function =>
    intro f f' hf scope
    rw [Stmt.collect, Stmt.collect]
    exact function_collect_lockstep hk hf ..
  case classDef =>
    intro c c' hc scope
    cases hc with
    | mk hm hspan _ =>
      rw [Stmt.collect, Stmt.collect, Class.collect_eq, Class.collect_eq]
      exact (openScope_lockstep hk hspan ..).bind fun inner => (declare_lockstep (by rfl) ..).bind fun _ =>
        members_collect_lockstep hk hm inner _
  all_goals
    intros
    intro scope
    simp only [Stmt.collect]
    exact .pure _

theorem Program.collect_alike {p p' : Program} (hk : Relator.BiUnique key) (ho : key .origin .origin)
    (h : List.Forall₂ (Stmt.Alike lines key) p.statements p'.statements) :
    p.collect.Alike key p'.collect := by
  have hs : Collection.Alike key {} {} := ⟨.cons ⟨ho, rfl⟩ .nil, .nil⟩
  exact (collectAll_lockstep (h.imp fun _ _ hs => hs.collect_lockstep hk) Table.global hs).2

end Statements

end ThreeAddress
