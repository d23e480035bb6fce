import Mathlib.Data.List.Perm.Subperm
import ThreeAddress.Proofs.Lockstep.Appending
import ThreeAddress.Proofs.Lockstep.Positions
import ThreeAddress.Proofs.Scope.Built
import ThreeAddress.Proofs.Scope.Types

/-! Collecting as a course of openings and declarations, one after the other. What holds along every
course holds of every program: types stay in normal form, and no position is opened without being a key. -/

namespace ThreeAddress

theorem nodup_of_subperm {xs ys : List α} (h : xs.Subperm ys) (hn : ys.Nodup) : xs.Nodup := by
  obtain ⟨zs, hp, hs⟩ := h
  exact hp.nodup_iff.1 (hn.sublist hs)

/-- From one collection to another, with the positions that are opened on the way. What is declared has a
type in normal form if the table has no other types. -/
inductive Course : List Position → Collection → Collection → Prop
  | start : Course [] s s
  | openScope : Course ks s s' → Course (ks ++ [span.toPosition]) s (Collect.openScope span kind parent s').2
  | declare : Course ks s s' → (s'.table.Typed → d.type.IsNormal) →
    Course ks s (Collect.declare scope d params s').2

namespace Course

variable {ks ks' : List Position} {s s' s'' : Collection}

theorem trans (h : Course ks s s') (k : Course ks' s' s'') : Course (ks ++ ks') s s'' := by
  induction k with
  | start =>
    rw [List.append_nil]
    exact h
  | openScope _ ih =>
    rw [← List.append_assoc]
    exact (ih h).openScope
  | declare _ hd ih => exact (ih h).declare hd

end Course

namespace Collect

def Follows (ks : List Position) (act : Collect α) : Prop :=
  ∀ ⦃s⦄, ∃ ks', ks'.Subperm ks ∧ Course ks' s (act s).2

variable {ks ks' : List Position} {act : Collect α} {f : α → Collect β}

namespace Follows

theorem pure (a : α) : Follows [] (Pure.pure a : Collect α) := fun _ => ⟨[], .refl _, .start⟩

theorem mono (h : Follows ks act) (hk : ks.Subperm ks') : Follows ks' act := by
  intro s
  obtain ⟨ks₁, hs, hc⟩ := @h s
  exact ⟨ks₁, hs.trans hk, hc⟩

theorem bind (h : Follows ks act) (k : ∀ a, Follows ks' (f a)) : Follows (ks ++ ks') (act >>= f) := by
  intro s
  obtain ⟨ks₁, hs, hc⟩ := @h s
  obtain ⟨ks₂, hs', hc'⟩ := @k (act s).1 (act s).2
  exact ⟨ks₁ ++ ks₂, hs.append hs', hc.trans hc'⟩

end Follows

theorem openScope_follows {span : Span} {kind : ScopeKind} {parent : Nat} {f : Nat → Collect α}
    (k : ∀ inner, Follows ks (f inner)) :
    Follows (span.toPosition :: ks) (openScope span kind parent >>= f) := by
  suffices ho : Follows [span.toPosition] (openScope span kind parent) from ho.bind k
  exact fun s => ⟨_, .refl _, Course.start.openScope⟩

theorem declare_follows {scope params : Nat} {d : Declaration} {f : Unit → Collect α}
    (hd : d.type.IsNormal) (k : Follows ks (f ())) : Follows ks (declare scope d params >>= f) := by
  intro s
  obtain ⟨ks', hs, hc⟩ := @k (declare scope d params s).2
  exact ⟨ks', hs, (Course.start.declare fun _ => hd).trans hc⟩

theorem get_declare_follows {scope : Nat} {d : Collection → Declaration} {f : Unit → Collect α}
    (hd : ∀ s : Collection, s.table.Typed → (d s).type.IsNormal) (k : Follows ks (f ())) :
    Follows ks (MonadState.get >>= fun s => declare scope (d s) 0 >>= f) := by
  intro s
  obtain ⟨ks', hs, hc⟩ := @k (declare scope (d s) 0 s).2
  exact ⟨ks', hs, (Course.start.declare (hd s)).trans hc⟩

end Collect

open Collect

theorem Binding.collect_follows (b : Binding) (scope : Nat) (kind : SymbolKind) (owner : Option String) :
    Follows [] (b.collect scope kind owner) := by
  refine get_declare_follows (f := Pure.pure) (fun s ht => ?_) (.pure ())
  obtain ⟨name, written, value, isConst, span⟩ := b
  cases written with
  | some written => exact .ofTypeExpr written
  | none =>
    cases value with
    | some value => exact value.infer_normal ht
    | none => exact .unknown

theorem params_follows (params : List Param) (scope : Nat) :
    Follows [] (params.forM (·.collect scope)) := by
  induction params with
  | nil => exact .pure _
  | cons p rest ih =>
    refine declare_follows ?_ ih
    cases p.type with
    | some written => exact .ofTypeExpr written
    | none => exact .unknown

variable {body : List Stmt}

theorem collectAll_follows (h : ∀ s ∈ body, ∀ scope, Follows s.keys (s.collect scope)) (scope : Nat) :
    Follows (keysAll body) (collectAll scope body) := by
  induction body with
  | nil =>
    rw [keysAll, collectAll]
    exact .pure _
  | cons s rest ih =>
    rw [keysAll, collectAll]
    exact (h s (by simp) scope).bind fun _ => ih fun s hs => h s (by simp [hs])

theorem Block.collect_follows {b : Block} (h : ∀ s ∈ b.body, ∀ scope, Follows s.keys (s.collect scope))
    (scope : Nat) : Follows b.keys (b.collect scope) := by
  rw [keys_eq, collect_eq]
  exact openScope_follows fun inner => collectAll_follows h inner

theorem collectCases_follows {cases : List Case}
    (h : ∀ k ∈ cases, ∀ s ∈ k.body, ∀ scope, Follows s.keys (s.collect scope)) (scope : Nat) :
    Follows (keysCases cases) (collectCases scope cases) := by
  induction cases with
  | nil =>
    rw [keysCases, collectCases]
    exact .pure _
  | cons k rest ih =>
    obtain ⟨value, body, span⟩ := k
    rw [keysCases, collectCases, Case.keys]
    exact (collectAll_follows (h ⟨value, body, span⟩ (by simp)) scope).bind fun _ =>
      ih fun k hk => h k (by simp [hk])

theorem Function.collect_follows {f : Function}
    (h : ∀ s ∈ f.body.body, ∀ scope, Follows s.keys (s.collect scope)) (scope : Nat)
    (owner : Option String) : Follows f.keys (f.collect scope owner) := by
  obtain ⟨name, params, result, body, span⟩ := f
  rw [Function.keys, Block.keys_eq, collect_eq]
  refine openScope_follows fun inner => declare_follows ?_
    ((params_follows params inner).bind fun _ => collectAll_follows h inner)
  cases result with
  | some written => exact .ofTypeExpr written
  | none => exact .void

theorem collectMembers_follows {members : List Member}
    (h : ∀ f, .method f ∈ members → ∀ s ∈ f.body.body, ∀ scope, Follows s.keys (s.collect scope))
    (scope : Nat) (owner : String) :
    Follows (keysMembers members) (collectMembers scope owner members) := by
  induction members with
  | nil =>
    rw [keysMembers, collectMembers]
    exact .pure _
  | cons m rest ih =>
    rw [keysMembers, collectMembers]
    refine Follows.bind ?_ fun _ => ih fun f hf => h f (by simp [hf])
    cases m with
    | field b =>
      rw [Member.keys, Member.collect]
      exact b.collect_follows ..
    | method f =>
      rw [Member.keys, Member.collect]
      exact Function.collect_follows (h f (by simp)) ..

theorem Stmt.collect_follows (s : Stmt) (scope : Nat) : Follows s.keys (s.collect scope) := by
  induction s generalizing scope with
  | declare b =>
    rw [Stmt.keys, Stmt.collect]
    exact b.collect_follows ..
  | assign | print | eval | ret | exit | next =>
    simp only [Stmt.keys, Stmt.collect]
    exact .pure _
  | block b ih =>
    rw [Stmt.keys, Stmt.collect]
    exact Block.collect_follows ih scope
  | ite c yes no span ihy ihn =>
    cases no with
    | none =>
      rw [Stmt.keys, Stmt.collect, keysElse]
      exact (Block.collect_follows ihy scope).bind fun _ => .pure _
    | some no =>
      rw [Stmt.keys, Stmt.collect, keysElse]
      exact (Block.collect_follows ihy scope).bind fun _ => Block.collect_follows (ihn no rfl) scope
  | loop c body span ih =>
    rw [Stmt.keys, Stmt.collect]
    exact Block.collect_follows ih scope
  | doWhile body c span ih =>
    rw [Stmt.keys, Stmt.collect]
    exact Block.collect_follows ih scope
  | forLoop first test step body span ihf ihs ih =>
    have hbody := collectAll_follows ih
    simp only [Stmt.keys, Stmt.collect, Block.collectBody_eq, Block.keys_eq]
    -- The scope of the body is opened before the first step is collected, and the other step is left out.
    cases first with
    | none =>
      refine (openScope_follows hbody).mono ?_
      exact (List.sublist_append_right _ _).subperm
    | some s =>
      refine (openScope_follows fun inner => (ihf s rfl inner).bind fun _ => hbody inner).mono ?_
      rw [List.append_assoc]
      exact List.perm_middle.symm.subperm.trans
        ((List.sublist_append_right _ _).append_left _).subperm
  | foreach item collection body span ih =>
    simp only [Stmt.keys, Stmt.collect, Block.collectBody_eq, Block.keys_eq]
    refine openScope_follows fun inner => get_declare_follows (fun s ht => ?_) (collectAll_follows ih inner)
    exact (collection.infer_normal ht).indexed
  | switch subject cases default span ihc ihd =>
    cases default with
    | none =>
      rw [Stmt.keys, Stmt.collect, keysDefault]
      exact (collectCases_follows ihc scope).bind fun _ => .pure _
    | some body =>
      rw [Stmt.keys, Stmt.collect, keysDefault]
      exact (collectCases_follows ihc scope).bind fun _ => collectAll_follows (ihd body rfl) scope
  | tryCatch body caught handler span ihb ihh =>
    simp only [Stmt.keys, Stmt.collect, Block.collectBody_eq, Block.keys_eq handler]
    exact (Block.collect_follows ihb scope).bind fun _ => openScope_follows fun inner =>
      declare_follows (.object _) (collectAll_follows ihh inner)
  | function f ih =>
    rw [Stmt.keys, Stmt.collect]
    exact Function.collect_follows ih ..
  | classDef c ih =>
    obtain ⟨name, parent, members, span⟩ := c
    rw [Stmt.keys, Class.keys, Stmt.collect, Class.collect_eq]
    exact openScope_follows fun inner => declare_follows (.object _) (collectMembers_follows ih inner name)

theorem Program.collect_course (p : Program) : ∃ ks, ks.Subperm p.keys ∧ Course ks {} p.collect := by
  have h : Follows p.keys (collectAll Table.global p.statements) :=
    collectAll_follows (fun s _ => s.collect_follows) _
  exact @h {}

section Runs

variable {ks : List Position} {t : Table} {s s' : Collection} {span : Span} {kind : ScopeKind}
  {parent scope params : Nat} {d : Declaration} {y : Symbol} {key : Position}

namespace Table

theorem Typed.addScope (h : t.Typed) : (t.addScope key kind parent).2.Typed := by
  cases hk : t.scopeFor key with
  | some taken =>
    rw [addScope_taken hk]
    exact h
  | none => exact fun id x hx => h (symbol_addScope hk hx)

theorem Typed.declare (h : t.Typed) (hy : y.type.IsNormal) : (t.declare scope y).2.Typed := by
  intro id x hx
  obtain hx | rfl := symbol_declare hx
  · exact h hx
  · exact hy

def keys (t : Table) : List Position := t.scopes.map (·.key)

theorem mem_keys_of_scopeFor {i : Nat} (h : t.scopeFor key = some i) : key ∈ t.keys := by
  obtain ⟨s, hs, rfl, -⟩ := scopeFor_eq_some.1 h
  exact List.mem_map_of_mem (List.mem_of_getElem? hs)

theorem keys_modifyScope {f : Scope → Scope} (hf : ∀ s, (f s).key = s.key) (id : Nat) :
    (t.modifyScope id f).keys = t.keys := map_modify_eq fun s _ => hf s

theorem keys_grow (hk : t.scopeFor key = none) : (t.grow key kind parent).keys = t.keys ++ [key] := by
  rw [grow, addScope, hk]
  refine (keys_modifyScope ?_ parent).trans List.map_append
  exact fun _ => rfl

theorem keys_declare : (t.declare scope y).2.keys = t.keys := by
  rw [declare]
  split
  · rfl
  · refine keys_modifyScope ?_ scope
    exact fun _ => rfl

end Table

namespace Collection

def reached (s : Collection) (key : Position) : Nat :=
  s.table.keys.count key + s.conflicts.count (.collision key)

/-- Positions collide only with scopes that are there. -/
def Founded (s : Collection) : Prop := ∀ ⦃key⦄, .collision key ∈ s.conflicts → key ∈ s.table.keys

end Collection

namespace Collect

theorem openScope_table :
    (openScope span kind parent s).2.table = (s.table.addScope span.toPosition kind parent).2 := by
  rw [openScope_eq]
  cases h : s.table.scopeFor span.toPosition with
  | some taken => rw [Table.addScope_taken h]
  | none => rfl

theorem declare_table : (declare scope d params s).2.table =
    (s.table.declare scope { Symbol.ofDeclaration d with params }).2 := by
  rw [declare_eq, Table.declare]
  dsimp only
  cases List.findIdx? _ _ <;> rfl

theorem declare_conflicts (scope : Nat) (d : Declaration) (params : Nat) (s : Collection) :
    (declare scope d params s).2.conflicts = s.conflicts ∨
      (declare scope d params s).2.conflicts = s.conflicts ++ [.duplicate d.name d.span.line] := by
  rw [declare_eq]
  split
  · exact .inl rfl
  · exact .inr rfl

theorem openScope_reached : (openScope span kind parent s).2.reached key =
    s.reached key + [span.toPosition].count key := by
  rw [openScope_eq]
  cases h : s.table.scopeFor span.toPosition with
  | some taken =>
    simp only [Collection.reached, List.count_append, List.count_singleton, beq_iff_eq,
      Conflict.collision.injEq]
    omega
  | none =>
    simp only [Collection.reached, Table.addScope_fresh h, Table.keys_grow h, List.count_append]
    omega

theorem declare_reached : (declare scope d params s).2.reached key = s.reached key := by
  rw [Collection.reached, declare_table, Table.keys_declare, Collection.reached]
  obtain h | h := declare_conflicts scope d params s
  · rw [h]
  · simp [h, List.count_append]

theorem openScope_founded (h : s.Founded) : (openScope span kind parent s).2.Founded := by
  rw [openScope_eq]
  intro key
  cases hk : s.table.scopeFor span.toPosition with
  | some taken =>
    simp only [List.mem_append, List.mem_singleton, Conflict.collision.injEq]
    rintro (hc | rfl)
    · exact h hc
    · exact Table.mem_keys_of_scopeFor hk
  | none =>
    intro hc
    simp only [Table.addScope_fresh hk, Table.keys_grow hk]
    exact List.mem_append_left _ (h hc)

theorem declare_founded (h : s.Founded) : (declare scope d params s).2.Founded := by
  intro key hc
  rw [declare_table, Table.keys_declare]
  obtain he | he := declare_conflicts scope d params s
  · exact h (he ▸ hc)
  · rw [he, List.mem_append] at hc
    exact h (hc.resolve_right (by simp))

end Collect

namespace Course

theorem typed (h : Course ks s s') (hs : s.table.Typed) : s'.table.Typed := by
  induction h with
  | start => exact hs
  | openScope _ ih =>
    rw [openScope_table]
    exact (ih hs).addScope
  | declare _ hd ih =>
    rw [declare_table]
    exact (ih hs).declare (hd (ih hs))

theorem reached (h : Course ks s s') (key : Position) : s'.reached key = s.reached key + ks.count key := by
  induction h with
  | start => rfl
  | openScope _ ih => rw [openScope_reached, ih, List.count_append, Nat.add_assoc]
  | declare _ _ ih => rw [declare_reached, ih]

theorem founded (h : Course ks s s') (hs : s.Founded) : s'.Founded := by
  induction h with
  | start => exact hs
  | openScope _ ih => exact openScope_founded (ih hs)
  | declare _ _ ih => exact declare_founded (ih hs)

/-- A course through distinct positions, none of which has a scope, meets no collision. -/
theorem collision_not_mem (h : Course ks {} s') (hks : (.origin :: ks).Nodup) (key : Position) :
    .collision key ∉ s'.conflicts := by
  intro hc
  have hk := h.founded (fun _ h => by cases h) hc
  have htwice : 2 ≤ s'.reached key :=
    Nat.add_le_add (List.count_pos_iff.2 hk) (List.count_pos_iff.2 hc)
  have honce : s'.reached key = (.origin :: ks).count key := by
    rw [h.reached, ← List.singleton_append, List.count_append]
    rfl
  have := List.nodup_iff_count_le_one.1 hks key
  omega

end Course

end Runs

namespace Program

variable {p : Program}

theorem scopes_eq_error {found : List Conflict} :
    p.scopes = .error found ↔ p.collect.conflicts ≠ [] ∧ p.collect.conflicts = found := by
  rw [scopes]
  obtain ⟨table, conflicts⟩ := p.collect
  cases conflicts <;> simp

theorem WellKeyed.collision_not_mem (h : p.WellKeyed) (key : Position) :
    .collision key ∉ p.collect.conflicts := by
  obtain ⟨ks, hks, hc⟩ := p.collect_course
  exact hc.collision_not_mem (nodup_of_subperm ((List.subperm_cons _).2 hks) (List.nodup_cons.2 h.symm)) key

theorem collect_typed (p : Program) : p.collect.table.Typed := by
  obtain ⟨ks, -, hc⟩ := p.collect_course
  exact hc.typed fun _ _ h => absurd h Table.empty_symbol

/-- Whatever a program declares, written or read off an initializer, has a type in normal form. Types in
normal form stay so under wrapping and indexing, and levels are added up and taken away one by one, as long
as the rank stays within its word. -/
theorem types_normal :
    (∀ p : Program, ∀ id x, p.collect.table.symbol id = .ok x → x.type.IsNormal) ∧
    (∀ t : Ty, t.IsNormal → ∀ m n, (t.arrayOf n).IsNormal ∧ t.indexed.IsNormal ∧
      (t.arrayOf m).arrayOf n = t.arrayOf (m + n) ∧ (t.arrayOf (n + 1)).indexed = t.arrayOf n) ∧
    (∀ (a : TypeExpr) n, (Ty.ofTypeExpr a).IsNormal ∧
      Ty.ofTypeExpr (a.arrayOf n) = (Ty.ofTypeExpr a).arrayOf n) ∧
    ∀ (t : Ty) n, n < word64 → t.arrayOfWithin n =
      if t.rank + n < word64 then .ok (t.arrayOf n) else .error .addOverflow :=
  ⟨fun p _ _ hx => p.collect_typed hx,
    fun t ht m n => ⟨ht.arrayOf n, ht.indexed, t.arrayOf_arrayOf m n, ht.indexed_arrayOf n⟩,
    fun a n => ⟨.ofTypeExpr a, Ty.ofTypeExpr_arrayOf a n⟩,
    fun t _ hn => t.arrayOfWithin_eq hn⟩

def rows : Program :=
  ⟨[.declare ⟨"grid", some (TypeExpr.integer.arrayOf 2), none, false, .atLine 1⟩,
    .foreach "row" (.ident "grid" .unplaced)
      ⟨[.declare ⟨"copies", none, some (.array [.ident "row" .unplaced] .unplaced), false, .atLine 3⟩],
        .atLine 2⟩ (.atLine 2)], .unplaced⟩

theorem rows_normal : ∃ x y, rows.collect.table.symbol ⟨1, 0⟩ = .ok x ∧ x.type = .array .integer 1 ∧
    rows.collect.table.symbol ⟨1, 1⟩ = .ok y ∧ y.type = .array .integer 2 ∧
    x.type.IsNormal ∧ y.type.IsNormal ∧
    (y.type.arrayOf (2 + 1)).indexed = y.type.arrayOf 2 ∧ (y.type.arrayOf 1).arrayOf 2 = y.type.arrayOf 3 ∧
    y.type.arrayOfWithin 2 = .ok (y.type.arrayOf 2) := by
  have hx : (·.type) <$> (rows.collect.table.symbol ⟨1, 0⟩).toOption = some (.array .integer 1) := by
    decide +kernel
  have hy : (·.type) <$> (rows.collect.table.symbol ⟨1, 1⟩).toOption = some (.array .integer 2) := by
    decide +kernel
  obtain ⟨x, hx, hxt⟩ := exists_of_check hx
  obtain ⟨y, hy, hyt⟩ := exists_of_check hy
  obtain ⟨hcollect, hlaws, -, hwithin⟩ := types_normal
  have hyn := hcollect rows _ y hy
  obtain ⟨-, -, hadd, hindexed⟩ := hlaws y.type hyn 1 2
  exact ⟨x, y, hx, hxt, hy, hyt, hcollect rows _ x hx, hyn, hindexed, hadd, by
    rw [hwithin y.type 2 (by decide), hyt]
    rfl⟩

end Program

end ThreeAddress
