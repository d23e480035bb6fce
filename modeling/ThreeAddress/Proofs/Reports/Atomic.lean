import Mathlib.Algebra.Order.BigOperators.Group.List
import Mathlib.Algebra.Order.Group.Nat
import ThreeAddress.Proofs.Names.Values
import ThreeAddress.Proofs.Operations.Nodes
import ThreeAddress.Proofs.Reports.Forms

namespace ThreeAddress

open Lowering Lower

def Expr.ownName? : Expr → Option Use
  | .ident name span | .new name _ span => some (name, span)
  | _ => none

mutual

theorem Expr.uses_eq : ∀ e : Expr, e.uses = (e :: e.inner).filterMap Expr.ownName?
  | .int .. | .str .. | .bool .. | .null _ | .ident .. | .this _ => rfl
  | .array es _ => by
    rw [Expr.uses, Expr.inner, List.filterMap_cons_none rfl, usesAll_eq es]
  | .new name es span => by
    rw [Expr.uses, Expr.inner, usesAll_eq es]
    rfl
  | .binary l _ r _ | .logical l _ r _ | .index l r _ => by
    rw [Expr.uses, Expr.inner, List.filterMap_cons_none rfl, List.filterMap_append, l.uses_eq,
      r.uses_eq]
  | .unary _ e _ | .property e _ _ => by
    rw [Expr.uses, Expr.inner, List.filterMap_cons_none rfl, e.uses_eq]
  | .ternary c a b _ => by
    rw [Expr.uses, Expr.inner, List.filterMap_cons_none rfl, List.filterMap_append,
      List.filterMap_append, c.uses_eq, a.uses_eq, b.uses_eq]
  | .call callee args _ => by
    rw [Expr.uses, Expr.inner, List.filterMap_cons_none rfl, List.filterMap_append, callee.uses_eq,
      usesAll_eq args]

theorem usesAll_eq : ∀ es : List Expr, usesAll es = (nodesAll es).filterMap Expr.ownName?
  | [] => rfl
  | e :: rest => by
    rw [usesAll, e.uses_eq, usesAll_eq rest, nodesAll, List.filterMap_append]

end

def Stmt.stored? : Stmt → Option Use
  | .declare b => some (b.name, b.span)
  | .assign (.ident name) _ span => some (name, span)
  | _ => none

/-- All names that a simple statement needs, in the order in which they stand. -/
def Stmt.needs (s : Stmt) : List Use :=
  s.stored?.toList ++ (nodesAll s.exprs).filterMap Expr.ownName?

theorem Stmt.needs_declare (b : Binding) : (Stmt.declare b).needs = b.uses := by
  rw [needs, exprs, ← usesAll_eq, Binding.uses]
  cases b.value <;> simp [stored?, usesAll]

theorem Stmt.needs_assign (target : Target) (value : Expr) (span : Span) :
    (Stmt.assign target value span).needs = target.uses span ++ value.uses := by
  rw [needs, exprs, nodesAll_append, List.filterMap_append, ← usesAll_eq, ← usesAll_eq]
  cases target <;> simp [stored?, usesAll, Target.uses]

/-- The line on which a name stands first, or that of the whole statement if there is no such. -/
def firstLine (needs : List Use) (whole : Span) (name : String) : Nat :=
  match needs.find? (·.1 == name) with
  | none => whole.line
  | some (_, span) => if span.line = 0 then whole.line else span.line

/-- A report for each of the names that do not resolve, in the order of their first uses. -/
def unresolved (t : Table) (scope : Nat) (needs : List Use) (whole : Span) : List Problem :=
  ((needs.map (·.1)).filter fun name => t.lookup scope name matches .ok none).eraseDups.map
    fun name => .unresolved name (firstLine needs whole name)

theorem firstUses_filter (p : String → Bool) (uses : List Use) :
    firstUses (uses.filter fun u => p u.1) = (firstUses uses).filter fun u => p u.1 := by
  induction uses with
  | nil => rfl
  | cons u rest ih =>
    rw [firstUses, List.filter_cons]
    by_cases hu : p u.1
    · rw [if_pos hu, firstUses, ih, List.filter_cons, if_pos hu, List.filter_filter,
        List.filter_filter]
      simp only [Bool.and_comm]
    · rw [if_neg hu, ih, List.filter_cons, if_neg hu, List.filter_filter]
      -- a use of the same name is left out on both sides
      refine List.filter_congr fun v _ => ?_
      by_cases hv : v.1 = u.1 <;> simp_all

theorem firstUses_names (uses : List Use) :
    (firstUses uses).map (·.1) = (uses.map (·.1)).eraseDups := by
  match uses with
  | [] => simp [firstUses]
  | u :: rest =>
    have ih := firstUses_names (rest.filter fun v => v.1 != u.1)
    rw [firstUses_filter fun name => name != u.1] at ih
    rw [firstUses, List.map_cons, ih, List.map_cons, List.eraseDups_cons, List.filter_map]
    rfl
  termination_by uses.length
  decreasing_by exact Nat.lt_succ_of_le (List.length_filter_le ..)

theorem find?_of_firstUses {uses : List Use} {u : Use} (h : u ∈ firstUses uses) :
    uses.find? (·.1 == u.1) = some u := by
  induction uses with
  | nil => cases h
  | cons v rest ih =>
    rw [firstUses, List.mem_cons, List.mem_filter] at h
    obtain rfl | ⟨h, hne⟩ := h
    · simp
    · have hne : u.1 ≠ v.1 := bne_iff_ne.1 hne
      rw [List.find?_cons_of_neg (by simp [hne.symm]), ih h]

theorem unresolved_eq (t : Table) (scope : Nat) (needs : List Use) (whole : Span) :
    unresolved t scope needs whole =
      (firstUses (missing t scope needs)).map (missingProblem whole) := by
  rw [unresolved, List.filter_map, ← firstUses_names, List.map_map]
  refine List.map_congr_left fun u hu => ?_
  have hm : t.lookup scope u.1 = .ok none := (mem_missing.1 (mem_of_firstUses hu)).2
  have hf : needs.find? (·.1 == u.1) = some u := by
    rw [← find?_of_firstUses hu, List.find?_filter]
    congr 1
    funext v
    by_cases hv : v.1 = u.1 <;> simp [hv, hm]
  simp only [Function.comp_apply, firstLine, hf, missingProblem, Span.orElse]
  split <;> rfl

/-- The declarations are those of before, and no name was reported. -/
structure Lowering.State.ReportsNoName (s s' : State) : Prop where
  outline : s'.table.outline = s.table.outline
  reports : ∃ ps, s'.problems = s.problems ++ ps ∧ ∀ name line, .unresolved name line ∉ ps

theorem Lowering.State.ReportsNoName.trans {s s' s'' : State} (h : s.ReportsNoName s')
    (k : s'.ReportsNoName s'') :
    s.ReportsNoName s'' := by
  obtain ⟨ps, hp, hn⟩ := h.reports
  obtain ⟨qs, hq, hm⟩ := k.reports
  refine ⟨k.outline.trans h.outline, ps ++ qs, by rw [hq, hp, List.append_assoc], ?_⟩
  intro name line hmem
  exact (List.mem_append.1 hmem).elim (hn name line) (hm name line)

theorem Lowering.State.ReportsNoName.of_eq {s s' : State} (ho : s'.table.outline = s.table.outline)
    (hp : s'.problems = s.problems) : s.ReportsNoName s' := ⟨ho, [], by simp [hp], by simp⟩

namespace Lower

/-- Where all of the names resolve, the action reports none. -/
def NeedsNames (needs : List Use) (act : Lower α) : Prop :=
  ∀ ⦃c s a s'⦄, (∀ u ∈ needs, s.table.Resolves c.scope u) → Runs act c s a s' → s.ReportsNoName s'

/-- An action that is done as a whole, or, if a name that it needs does not resolve, not at all: then
all that happens is that those names are reported. A chain of scopes that does not end, or leads
nowhere, is a fault before anything is done. -/
structure Atomic (needs : List Use) (whole : Span) (act : Lower Code) : Prop where
  skips : ∀ c s, (∃ u ∈ needs, s.table.lookup c.scope u.1 = .ok none) →
    act c s =
      .ok ([], { s with problems := s.problems ++ unresolved s.table c.scope needs whole }) ∨
    ∃ u ∈ needs, ∃ fault, s.table.lookup c.scope u.1 = .error fault ∧ act c s = .error fault
  needsNames : NeedsNames needs act

variable {needs : List Use} {whole : Span} {act : Lower Code} {c : Context} {s s' : State}

theorem exists_unused_key (t : Table) : ∃ key, t.scopeFor key = none := by
  refine ⟨⟨(t.scopes.map (·.key.line)).sum + 1, 0⟩, ?_⟩
  rw [Table.scopeFor, List.findIdx?_eq_none_iff]
  intro x hx
  have hle : x.key.line ≤ (t.scopes.map (·.key.line)).sum :=
    List.le_sum_of_mem (List.mem_map_of_mem hx)
  rw [beq_eq_false_iff_ne]
  intro he
  rw [he] at hle
  exact Nat.not_succ_le_self _ hle

theorem needsNames_of_reads {act : Lower α} (h : ∀ t key, Reads t key needs act) : NeedsNames needs act := by
  intro c s a s' hn hr
  -- no scope has to have the key that `Reads` speaks of
  obtain ⟨key, hk⟩ := exists_unused_key s.table
  have hs : Stands s.table key c s := ⟨rfl, by simp [hk]⟩
  obtain ⟨ho, _, ps, hp, hc⟩ := (h s.table key hs (by simp [Table.Awaits, slotsAll])).post hr
  refine ⟨ho, ps, hp, fun name line hm => ?_⟩
  obtain ⟨u, hu, hl, _⟩ | ⟨_, _, hp⟩ := hc _ hm
  · obtain ⟨id, hid⟩ := hn u hu
    cases hl.symm.trans hid
  · cases hp

theorem resolves_of_reportsNoName (h : s.ReportsNoName s')
    (hn : ∀ u ∈ needs, s.table.Resolves c.scope u) : ∀ u ∈ needs, s'.table.Resolves c.scope u := by
  intro u hu
  rw [Table.Resolves, ← Table.lookup_outline, h.outline, Table.lookup_outline]
  exact hn u hu

theorem isMissing_apply (u : Use) (c : Context) (s : State) :
    isMissing u c s = (s.table.lookup c.scope u.1).map fun found => (found.isNone, s) := by
  have h : isMissing u c s = ((s.table.lookup c.scope u.1).bind fun found => .ok (found, s)).bind
      fun x => .ok (x.1.isNone, x.2) := rfl
  rw [h]
  cases s.table.lookup c.scope u.1 <;> rfl

theorem filterAuxM_isMissing_error {uses acc : List Use} {fault : Fault}
    (h : uses.filterAuxM isMissing acc c s = .error fault) :
    ∃ u ∈ uses, s.table.lookup c.scope u.1 = .error fault := by
  induction uses generalizing acc with
  | nil => cases h
  | cons u rest ih =>
    cases hl : s.table.lookup c.scope u.1 with
    | error e =>
      -- a lookup that fails ends the filter, whatever has been found missing so far
      have hu : isMissing u c s = .error e := by
        rw [isMissing_apply, hl]
        rfl
      rw [List.filterAuxM, bind_error hu] at h
      cases h
      exact ⟨u, by simp, hl⟩
    | ok found =>
      have hu : Runs (isMissing u) c s found.isNone s := by
        rw [Runs, isMissing_apply, hl]
        rfl
      rw [List.filterAuxM, bind_ok hu] at h
      obtain ⟨v, hv, hf⟩ := ih h
      exact ⟨v, by simp [hv], hf⟩

theorem filterM_isMissing_error {uses : List Use} {fault : Fault}
    (h : uses.filterM isMissing c s = .error fault) :
    ∃ u ∈ uses, s.table.lookup c.scope u.1 = .error fault := by
  cases hf : uses.filterAuxM isMissing [] c s with
  | error e =>
    rw [List.filterM, bind_error hf] at h
    cases h
    exact filterAuxM_isMissing_error hf
  | ok x =>
    obtain ⟨found, s₁⟩ := x
    rw [List.filterM, bind_ok (show Runs _ c s found s₁ from hf)] at h
    cases h

theorem reportAll_runs (uses : List Use) (whole : Span) (c : Context) (s : State) :
    Runs (uses.forM fun (name, span) =>
      report (.unresolved name (span.orElse whole).line)) c s ⟨⟩
      { s with problems := s.problems ++ uses.map (missingProblem whole) } := by
  induction uses generalizing s with
  | nil => simp
  | cons u rest ih =>
    simp only [List.forM_eq_forM, List.forM_cons, runs_bind, runs_report]
    exact ⟨⟨⟩, _, rfl, by simpa using ih (s.report (missingProblem whole u))⟩

theorem guarding_atomic (h : NeedsNames needs act) : Atomic needs whole (guarding needs whole act) where
  skips c s hm := by
    obtain ⟨u, hu, hl⟩ := hm
    have hne : missing s.table c.scope needs ≠ [] := List.ne_nil_of_mem (mem_missing.2 ⟨hu, hl⟩)
    cases hf : needs.filterM isMissing c s with
    | error fault =>
      -- a lookup that faults does so before anything is reported
      obtain ⟨v, hv, hl⟩ := filterM_isMissing_error hf
      exact .inr ⟨v, hv, fault, hl, bind_error hf⟩
    | ok x =>
      obtain ⟨found, s₁⟩ := x
      obtain ⟨rfl, rfl, _⟩ := runs_filterM_isMissing hf
      obtain ⟨v, rest, hv⟩ := List.exists_cons_of_ne_nil hne
      rw [guarding, bind_ok hf, unresolved_eq, hv]
      exact .inl (bind_ok (reportAll_runs ..))
  needsNames c s code s' hn hr := by
    obtain ⟨_, hr⟩ | ⟨hne, _⟩ := runs_guarding hr
    · exact h hn hr
    · obtain ⟨u, hu⟩ := List.exists_mem_of_ne_nil _ hne
      obtain ⟨hu, hl⟩ := mem_missing.1 hu
      obtain ⟨id, hid⟩ := hn u hu
      cases hl.symm.trans hid

theorem bindStorage_reportsNoName {id : SymbolId} {size : Nat} {u : Unit}
    (h : Runs (bindStorage id size) c s u s') : s.ReportsNoName s' := by
  obtain ⟨_, x, _, _, rfl⟩ := runs_bindStorage.1 h
  exact .of_eq (Table.outline_modifySymbol fun _ _ => rfl) rfl

theorem declareArray_needsNames (id : SymbolId) (es : List Expr) (span : Span) :
    NeedsNames (usesAll es) (declareArray id es span) := by
  intro c s code s' hn h
  obtain ⟨x, s₁, _, ⟨hl, ⟨_, hb⟩, _⟩ | ⟨dims, _, _, s₂, hl, _, hb, he⟩⟩ := runs_declareArray h
  · exact (needsNames_of_reads (fun _ _ => literalShape_reads ..) hn hl).trans (bindStorage_reportsNoName hb)
  · have h₁ : s.ReportsNoName s₁ := needsNames_of_reads (fun _ _ => literalShape_reads ..) hn hl
    have h₂ : s₁.ReportsNoName
        { s₁ with table := s₁.table.modifySymbol id ({ · with dimensions := dims }) } :=
      .of_eq (Table.outline_modifySymbol fun _ _ => rfl) rfl
    have h₃ : s.ReportsNoName s₂ := (h₁.trans h₂).trans (bindStorage_reportsNoName hb)
    exact h₃.trans (needsNames_of_reads (fun _ _ => storeElements_reads (leaf_reads es))
      (resolves_of_reportsNoName h₃ hn) he)

end Lower

theorem Binding.lower_needsNames (b : Binding) : NeedsNames b.uses b.lower := by
  intro c s code s' hn h
  obtain ⟨hl, _⟩ | ⟨id, es, span, _, hv, hd⟩ | ⟨id, x, u, s₁, _, _, hb, hrest⟩ := runs_lower h
  · obtain ⟨id, hid⟩ := hn (b.name, b.span) (by simp [uses])
    cases hl.symm.trans hid
  · exact declareArray_needsNames id es span (fun u hu => hn u (by simp [uses, hv, Expr.uses, hu])) hd
  · have h₁ : s.ReportsNoName s₁ := bindStorage_reportsNoName hb
    obtain ⟨_, _, rfl⟩ | ⟨e, y, hv, _, hs, _⟩ := hrest
    · exact h₁
    · have hn : ∀ u ∈ e.uses, s.table.Resolves c.scope u := fun u hu => hn u (by simp [uses, hv, hu])
      exact h₁.trans (needsNames_of_reads (fun _ _ => storable_reads (e.lower_reads _))
        (resolves_of_reportsNoName h₁ hn) hs)

theorem Binding.guarded_atomic (b : Binding) :
    Atomic (Stmt.declare b).needs b.span (guarding b.uses b.span b.lower) := by
  rw [Stmt.needs_declare]
  exact guarding_atomic b.lower_needsNames

theorem Stmt.needs_eq {s : Stmt} {e : Expr} (hs : s.stored? = none) (he : s.exprs = [e]) :
    s.needs = e.uses := by
  rw [needs, hs, he, ← usesAll_eq]
  simp [usesAll]

/-- Simple statements and the fields of classes are lowered as a whole or not at all. -/
theorem Stmt.lower_atomic :
    (∀ s : Stmt, s.isPlain → Atomic s.needs s.span s.lower) ∧
    ∀ b : Binding, Atomic (Stmt.declare b).needs b.span (Member.field b).lower := by
  refine ⟨fun s hp => ?_, fun b => ?_⟩
  · cases s with
    | declare b =>
      rw [Stmt.lower]
      exact b.guarded_atomic
    | assign target value span =>
      rw [Stmt.lower, needs_assign]
      exact guarding_atomic (needsNames_of_reads fun _ _ => target.assign_reads value span)
    | print e span =>
      rw [Stmt.lower, needs_eq (e := e) rfl rfl]
      exact guarding_atomic (needsNames_of_reads fun _ _ =>
        Sound.first (argument_reads (e.lower_reads _)) fun _ => .pure _)
    | eval e span =>
      rw [Stmt.lower, needs_eq (e := e) rfl rfl]
      exact guarding_atomic (needsNames_of_reads fun _ _ =>
        Sound.first (e.lower_reads _) fun _ => .pure _)
    | «return» e span =>
      cases e with
      | none =>
        rw [Stmt.lower]
        refine ⟨?_, needsNames_of_reads fun _ _ => (KeepsRecords.pure _).reads⟩
        rintro c s ⟨u, hu, _⟩
        simp [needs, stored?] at hu
      | some e =>
        rw [Stmt.lower, needs_eq (e := e) rfl rfl]
        exact guarding_atomic (needsNames_of_reads fun _ _ =>
          Sound.first (e.lower_reads _) fun _ => .pure _)
    | _ => simp [isPlain] at hp
  · rw [Member.lower]
    exact b.guarded_atomic

/-- `xs[i] = new Ghost(xs)`, with a line for its first name alone. -/
def Stmt.orphan : Stmt :=
  .assign (.index (.ident "xs" (.atLine 2)) [.ident "i" .unplaced])
    (.new "Ghost" [.ident "xs" (.atLine 3)] .unplaced) (.atLine 1)

theorem Stmt.orphan_skipped : orphan.isPlain ∧
    orphan.lower { options := {} } (.start .empty {}) = .ok ([], { State.start .empty {} with
      problems := [.unresolved "xs" 2, .unresolved "i" 1, .unresolved "Ghost" 1] }) := by
  have hl (name : String) : Table.empty.lookup Table.global name = .ok none := rfl
  refine ⟨rfl, ?_⟩
  obtain h | ⟨u, _, _, he, _⟩ := (lower_atomic.1 orphan rfl).skips { options := {} }
    (.start .empty {}) ⟨("xs", .atLine 2), by simp [needs, orphan, Expr.ownName?], hl "xs"⟩
  · exact h
  · cases (hl u.1).symm.trans he

end ThreeAddress
