import Mathlib.Order.Defs.Unbundled
import ThreeAddress.Proofs.Scope.Growth
import ThreeAddress.Proofs.Source.Induction
import ThreeAddress.Scope.Collect

namespace ThreeAddress

/-- A relation that holds across steps that open a scope, declare a symbol or report a conflict. -/
class Collecting (R : Collection → Collection → Prop) : Prop extends
    Std.Refl R, IsTrans Collection R where
  addScope : ∀ s key kind parent, s.table.scopeFor key = none →
    R s { s with table := (s.table.addScope key kind parent).2 }
  declare : ∀ s scope d params,
    R s { s with table := (s.table.declare scope { Symbol.ofDeclaration d with params }).2 }
  report : ∀ s c, R s { s with conflicts := s.conflicts ++ [c] }

namespace Collect

/-- Every run of the action relates the collections around it. -/
def Keeps (R : Collection → Collection → Prop) (act : Collect α) : Prop :=
  ∀ ⦃s⦄, R s (act s).2

variable {R : Collection → Collection → Prop} [Collecting R]

namespace Keeps

theorem pure (a : α) : Keeps R (Pure.pure a : Collect α) := fun s => Std.Refl.refl s

theorem get : Keeps R (MonadState.get : Collect Collection) := fun s => Std.Refl.refl s

theorem bind {act : Collect α} {f : α → Collect β} (h : Keeps R act) (k : ∀ a, Keeps R (f a)) :
    Keeps R (act >>= f) :=
  fun _ => IsTrans.trans _ _ _ (@h _) (@k _ _)

theorem forM {f : α → Collect PUnit} {xs : List α} (h : ∀ a ∈ xs, Keeps R (f a)) :
    Keeps R (xs.forM f) := by
  induction xs with
  | nil => exact pure _
  | cons a rest ih => exact (h a (by simp)).bind fun _ => ih fun b hb => h b (by simp [hb])

end Keeps

theorem openScope_eq (span : Span) (kind : ScopeKind) (parent : Nat) (s : Collection) :
    openScope span kind parent s = match s.table.scopeFor span.toPosition with
      | none =>
        (s.table.size, { s with table := (s.table.addScope span.toPosition kind parent).2 })
      | some taken =>
        (taken, { s with conflicts := s.conflicts ++ [.collision span.toPosition] }) := by
  simp only [openScope, Table.addScope, bind, StateT.bind, get, getThe, MonadStateOf.get, StateT.get,
    pure]
  cases s.table.scopeFor span.toPosition <;> rfl

theorem declare_eq (scope : Nat) (d : Declaration) (params : Nat) (s : Collection) :
    declare scope d params s =
      match s.table.declare scope { Symbol.ofDeclaration d with params } with
      | (.ok _, table) => ((), { s with table })
      | (.error _, _) =>
        ((), { s with conflicts := s.conflicts ++ [.duplicate d.name d.span.line] }) := by
  change (match s.table.declare scope { Symbol.ofDeclaration d with params } with
    | (.ok _, table) => (modify fun c : Collection => { c with table } : Collect Unit)
    | (.error _, _) => report (.duplicate d.name d.span.line)) s = _
  obtain ⟨_ | _, _⟩ := s.table.declare scope { Symbol.ofDeclaration d with params } <;> rfl

theorem openScope_keeps (span : Span) (kind : ScopeKind) (parent : Nat) :
    Keeps R (openScope span kind parent) := by
  intro s
  rw [openScope_eq]
  split
  next h => exact Collecting.addScope s _ kind parent h
  next => exact Collecting.report s _

theorem declare_keeps (scope : Nat) (d : Declaration) (params : Nat) :
    Keeps R (declare scope d params) := by
  intro s
  have h := Collecting.declare (R := R) s scope d params
  rw [declare_eq]
  split
  next he =>
    rw [he] at h
    exact h
  next => exact Collecting.report s _

end Collect

open Collect

variable {R : Collection → Collection → Prop} [Collecting R]

theorem Binding.collect_keeps (b : Binding) (scope : Nat) (kind : SymbolKind)
    (owner : Option String) : Keeps R (b.collect scope kind owner) :=
  .bind .get fun _ => declare_keeps ..

theorem collectAll_keeps {body : List Stmt} (h : ∀ s ∈ body, ∀ scope, Keeps R (s.collect scope))
    (scope : Nat) : Keeps R (collectAll scope body) := by
  induction body with
  | nil =>
    rw [collectAll]
    exact .pure _
  | cons s rest ih =>
    rw [collectAll]
    exact (h s (by simp) scope).bind fun _ => ih fun s hs => h s (by simp [hs])

theorem Block.collectBody_eq (b : Block) (scope : Nat) :
    b.collectBody scope = collectAll scope b.body := by
  cases b
  rw [collectBody]

theorem Block.collect_eq (b : Block) (parent : Nat) :
    b.collect parent = openScope b.span .block parent >>= fun inner => collectAll inner b.body := by
  cases b
  rw [collect]

theorem Block.collect_keeps {b : Block} (h : ∀ s ∈ b.body, ∀ scope, Keeps R (s.collect scope))
    (parent : Nat) : Keeps R (b.collect parent) := by
  rw [collect_eq]
  exact (openScope_keeps ..).bind fun _ => collectAll_keeps h _

theorem Function.collect_eq (f : Function) (scope : Nat) (owner : Option String) :
    f.collect scope owner = (do
      let inner ← openScope f.body.span .functionBody scope
      declare scope
        { name := f.name, type := (f.result.map Ty.ofTypeExpr).getD .void, kind := .function, owner,
          members := some inner, span := f.span }
        f.params.length
      f.params.forM (·.collect inner)
      collectAll inner f.body.body) := by
  obtain ⟨name, params, result, body, span⟩ := f
  simp only [Function.collect, Block.collectBody_eq]

theorem Function.collect_keeps {f : Function}
    (h : ∀ s ∈ f.body.body, ∀ scope, Keeps R (s.collect scope)) (scope : Nat)
    (owner : Option String) : Keeps R (f.collect scope owner) := by
  rw [collect_eq]
  exact (openScope_keeps ..).bind fun _ => (declare_keeps ..).bind fun _ =>
    (Keeps.forM fun p _ => declare_keeps ..).bind fun _ => collectAll_keeps h _

theorem collectMembers_keeps {members : List Member}
    (h : ∀ f, .method f ∈ members → ∀ s ∈ f.body.body, ∀ scope, Keeps R (s.collect scope))
    (scope : Nat) (owner : String) : Keeps R (collectMembers scope owner members) := by
  induction members with
  | nil =>
    rw [collectMembers]
    exact .pure _
  | cons m rest ih =>
    rw [collectMembers]
    refine Keeps.bind ?_ fun _ => ih fun f hf => h f (by simp [hf])
    cases m with
    | field b =>
      rw [Member.collect]
      exact b.collect_keeps ..
    | method f =>
      rw [Member.collect]
      exact Function.collect_keeps (h f (by simp)) ..

theorem Class.collect_eq (c : Class) (scope : Nat) :
    c.collect scope = (do
      let inner ← openScope c.span .classBody scope
      declare scope
        { name := c.name, type := .object c.name, kind := .classType, members := some inner,
          span := c.span }
      collectMembers inner c.name c.members) := by
  cases c
  rw [collect]

theorem collectCases_keeps {cases : List Case}
    (h : ∀ k ∈ cases, ∀ s ∈ k.body, ∀ scope, Keeps R (s.collect scope)) (scope : Nat) :
    Keeps R (collectCases scope cases) := by
  induction cases with
  | nil =>
    rw [collectCases]
    exact .pure _
  | cons k rest ih =>
    obtain ⟨value, body, span⟩ := k
    rw [collectCases]
    exact (collectAll_keeps (h ⟨value, body, span⟩ (by simp)) _).bind fun _ => ih fun k hk => h k (by simp [hk])

theorem Stmt.collect_keeps (s : Stmt) (scope : Nat) : Keeps R (s.collect scope) := by
  induction s generalizing scope with
  | declare b =>
    rw [Stmt.collect]
    exact b.collect_keeps ..
  | assign | print | eval | ret | exit | next =>
    simp only [Stmt.collect]
    exact .pure _
  | block b ih =>
    rw [Stmt.collect]
    exact Block.collect_keeps ih _
  | ite c yes no span ihy ihn =>
    cases no with
    | none =>
      rw [Stmt.collect]
      exact (Block.collect_keeps ihy _).bind fun _ => .pure _
    | some no =>
      rw [Stmt.collect]
      exact (Block.collect_keeps ihy _).bind fun _ => Block.collect_keeps (ihn no rfl) _
  | loop c body span ih =>
    rw [Stmt.collect]
    exact Block.collect_keeps ih _
  | doWhile body c span ih =>
    rw [Stmt.collect]
    exact Block.collect_keeps ih _
  | forLoop first test step body span ihf ihs ih =>
    simp only [Stmt.collect, Block.collectBody_eq]
    refine (openScope_keeps ..).bind fun inner => ?_
    cases first with
    | none => exact collectAll_keeps ih _
    | some s => exact (ihf s rfl _).bind fun _ => collectAll_keeps ih _
  | foreach item collection body span ih =>
    simp only [Stmt.collect, Block.collectBody_eq]
    exact (openScope_keeps ..).bind fun inner => Keeps.get.bind fun _ =>
      (declare_keeps ..).bind fun _ => collectAll_keeps ih _
  | switch subject cases default span ihc ihd =>
    cases default with
    | none =>
      rw [Stmt.collect]
      exact (collectCases_keeps ihc _).bind fun _ => .pure _
    | some body =>
      rw [Stmt.collect]
      exact (collectCases_keeps ihc _).bind fun _ => collectAll_keeps (ihd body rfl) _
  | tryCatch body caught handler span ihb ihh =>
    simp only [Stmt.collect, Block.collectBody_eq]
    exact (Block.collect_keeps ihb _).bind fun _ => (openScope_keeps ..).bind fun _ =>
      (declare_keeps ..).bind fun _ => collectAll_keeps ihh _
  | function f ih =>
    rw [Stmt.collect]
    exact Function.collect_keeps ih ..
  | classDef c ih =>
    rw [Stmt.collect, Class.collect_eq]
    exact (openScope_keeps ..).bind fun _ => (declare_keeps ..).bind fun _ =>
      collectMembers_keeps ih ..

theorem collectAll_keeps_all (scope : Nat) (body : List Stmt) : Keeps R (collectAll scope body) :=
  collectAll_keeps (fun s _ => s.collect_keeps) _

theorem collectCases_keeps_all (scope : Nat) (cases : List Case) : Keeps R (collectCases scope cases) :=
  collectCases_keeps (fun _ _ s _ => s.collect_keeps) _

theorem collectMembers_keeps_all (scope : Nat) (owner : String) (members : List Member) :
    Keeps R (collectMembers scope owner members) :=
  collectMembers_keeps (fun _ _ s _ => s.collect_keeps) ..

theorem Program.collect_keeps (p : Program) : R {} p.collect :=
  collectAll_keeps_all (R := R) Table.global p.statements (s := {})

namespace Table

variable {t : Table} {id : SymbolId} {x y : Symbol} {key : Position} {kind : ScopeKind}
  {scope parent : Nat}

theorem scopes_addScope (h : t.scopeFor key = none) (i : Nat) :
    (t.addScope key kind parent).2.scopes[i]? =
      (t.scopes ++ [({ key, kind, parent } : Scope)])[i]?.map fun s =>
        if parent = i then { s with children := s.children ++ [t.size] } else s := by
  simp only [addScope, h, modifyScope, List.getElem?_modify, Option.map_eq_map]

theorem symbol_addScope (h : t.scopeFor key = none)
    (hx : (t.addScope key kind parent).2.symbol id = .ok x) : t.symbol id = .ok x := by
  obtain ⟨s, hs, hx⟩ := symbol_eq_ok.1 hx
  rw [scopes_addScope h, Option.map_eq_some_iff] at hs
  obtain ⟨s, hs, rfl⟩ := hs
  have hx : s.symbols[id.slot]? = some x := by
    split at hx <;> exact hx
  rw [List.getElem?_append] at hs
  split at hs
  · exact symbol_eq_ok.2 ⟨s, hs, hx⟩
  · obtain rfl := List.mem_singleton.1 (List.mem_of_getElem? hs)
    simp at hx

theorem symbol_declare (h : (t.declare scope y).2.symbol id = .ok x) :
    t.symbol id = .ok x ∨ x = y := by
  rw [declare] at h
  split at h
  · exact .inl h
  · obtain ⟨s, hs, hx⟩ := symbol_eq_ok.1 h
    simp only [modifyScope, List.getElem?_modify, Option.map_eq_map, Option.map_eq_some_iff] at hs
    obtain ⟨s, hs, rfl⟩ := hs
    split at hx
    · rw [List.getElem?_append] at hx
      split at hx
      · exact .inl (symbol_eq_ok.2 ⟨s, hs, hx⟩)
      · exact .inr (List.mem_singleton.1 (List.mem_of_getElem? hx))
    · exact .inl (symbol_eq_ok.2 ⟨s, hs, hx⟩)

theorem empty_symbol : empty.symbol id ≠ .ok x := by
  intro h
  obtain ⟨s, hs, hx⟩ := symbol_eq_ok.1 h
  obtain rfl := List.mem_singleton.1 (List.mem_of_getElem? hs)
  simp at hx

/-- Nothing has storage. -/
def Fresh (t : Table) : Prop :=
  ∀ ⦃id x⦄, t.symbol id = .ok x → ∃ d params, x = { Symbol.ofDeclaration d with params }

end Table

instance : Collecting fun s s' => s.table.Fresh → s'.table.Fresh where
  refl _ h := h
  trans _ _ _ h k hs := k (h hs)
  addScope _ _ _ _ hn h _ _ hx := h (Table.symbol_addScope hn hx)
  declare _ _ d params h _ _ hx := by
    obtain hx | rfl := Table.symbol_declare hx
    · exact h hx
    · exact ⟨d, params, rfl⟩
  report _ _ h := h

theorem Program.collect_fresh (p : Program) : p.collect.table.Fresh := by
  refine p.collect_keeps (R := fun s s' => s.table.Fresh → s'.table.Fresh) ?_
  exact fun _ _ h => absurd h Table.empty_symbol

end ThreeAddress
