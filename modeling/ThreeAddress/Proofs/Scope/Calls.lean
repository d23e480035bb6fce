import ThreeAddress.Proofs.Headers.Tables

namespace ThreeAddress

namespace Table

/-- A call for a scope that may not exist. -/
inductive Call
  | addScope (key : Position) (kind : ScopeKind) (parent : Nat)
  | declare (scope : Nat) (y : Symbol)

def Call.run (t : Table) : Call → Checked Table
  | .addScope key kind parent => Prod.snd <$> t.addScopeChecked key kind parent
  | .declare scope y => Prod.snd <$> t.declareChecked scope y

/-- The call opens a scope inside itself. -/
def Call.Inward (t : Table) : Call → Prop
  | .addScope key _ parent => t.scopeFor key = none ∧ parent = t.size
  | .declare .. => False

instance (t : Table) (c : Call) : Decidable (c.Inward t) :=
  match c with
  | .addScope .. => inferInstanceAs (Decidable (_ ∧ _))
  | .declare .. => inferInstanceAs (Decidable False)

def build (t : Table) (calls : List Call) : Checked Table := calls.foldlM Call.run t

def outward (t : Table) : List Call → Bool
  | [] => true
  | c :: rest => !decide (c.Inward t) && (c.run t).toOption.all (outward · rest)

variable {t t' : Table} {x : Index} {c : Call} {calls : List Call} {i : Nat} {s : Scope}

theorem run_addScope {key : Position} {kind : ScopeKind} {parent : Nat}
    (h : (Call.addScope key kind parent).run t = .ok t') :
    t' = (t.addScope key kind parent).2 ∧ (t.scopeFor key = none → parent ≤ t.size) := by
  rw [Call.run, addScopeChecked] at h
  split at h
  next => cases h
  next hn =>
    cases h
    exact ⟨rfl, fun hk => Nat.le_of_not_lt fun hp => hn ⟨hk, hp⟩⟩

theorem run_declare {scope : Nat} {y : Symbol} (h : (Call.declare scope y).run t = .ok t') :
    t' = (t.declare scope y).2 ∧ scope < t.size := by
  rw [Call.run, declareChecked] at h
  cases hs : t.scope scope with
  | error e =>
    rw [hs] at h
    cases h
  | ok s =>
    rw [hs] at h
    cases h
    exact ⟨rfl, lt_size (nth_eq_ok.1 hs)⟩

/-- Every scope but the global one has a parent that was opened before it, or is its own parent. -/
def Rooted (t : Table) : Prop := ∀ ⦃i s⦄, t.scopes[i]? = some s → i ≠ global → ∃ p ≤ i, s.parent = some p

theorem Rooted.addScope {key : Position} {kind : ScopeKind} {parent : Nat} (h : t.Rooted)
    (hp : t.scopeFor key = none → parent ≤ t.size) : (t.addScope key kind parent).2.Rooted := by
  intro i s hs hi
  cases hk : t.scopeFor key with
  | some taken =>
    rw [addScope_taken hk] at hs
    exact h hs hi
  | none =>
    rw [scopes_addScope hk, Option.map_eq_some_iff] at hs
    obtain ⟨r, hr, rfl⟩ := hs
    suffices hr : ∃ p ≤ i, r.parent = some p by split <;> exact hr
    rw [List.getElem?_append] at hr
    split at hr
    next => exact h hr hi
    -- The new scope stands at the end, so its parent is not behind it.
    next hlt =>
      obtain rfl := List.mem_singleton.1 (List.mem_of_getElem? hr)
      exact ⟨parent, Nat.le_trans (hp hk) (Nat.le_of_not_lt hlt), rfl⟩

theorem Rooted.declare {scope : Nat} {y : Symbol} (h : t.Rooted) (hh : scope < t.size) :
    (t.declare scope y).2.Rooted := by
  obtain ⟨r, hr⟩ := exists_scope hh
  rw [declare_eq hr]
  cases r.slot? y.name with
  | some slot => exact h
  | none =>
    intro i s hs hi
    have hl := @link_push t scope y i
    rw [hs, Option.map_some, eq_comm, Option.map_eq_some_iff] at hl
    obtain ⟨q, hq, he⟩ := hl
    obtain ⟨p, hp, hparent⟩ := h hq hi
    exact ⟨p, hp, (congrArg (·.2.1) he).symm.trans hparent⟩

theorem Rooted.run (h : t.Rooted) (hc : c.run t = .ok t') : t'.Rooted := by
  cases c with
  | addScope key kind parent =>
    obtain ⟨rfl, hp⟩ := run_addScope hc
    exact h.addScope hp
  | declare scope y =>
    obtain ⟨rfl, hh⟩ := run_declare hc
    exact h.declare hh

theorem Built.run (h : Built t x) (hc : c.run t = .ok t') (hn : ¬c.Inward t) : ∃ x', Built t' x' := by
  cases c with
  | addScope key kind parent =>
    obtain ⟨rfl, hp⟩ := run_addScope hc
    cases hk : t.scopeFor key with
    | some taken =>
      rw [addScope_taken hk]
      exact ⟨x, h⟩
    | none => exact ⟨_, h.addScope key kind (Nat.lt_of_le_of_ne (hp hk) fun he => hn ⟨hk, he⟩)⟩
  | declare scope y =>
    obtain ⟨rfl, hh⟩ := run_declare hc
    exact ⟨_, h.declare y hh⟩

theorem build_cons {calls : List Call} (h : t.build (c :: calls) = .ok t') :
    ∃ t₁, c.run t = .ok t₁ ∧ t₁.build calls = .ok t' := by
  rw [build, List.foldlM_cons] at h
  cases hc : c.run t with
  | error e =>
    rw [hc] at h
    cases h
  | ok t₁ =>
    rw [hc] at h
    exact ⟨t₁, rfl, h⟩

theorem Rooted.build (h : t.Rooted) (hb : t.build calls = .ok t') : t'.Rooted := by
  induction calls generalizing t with
  | nil =>
    cases hb
    exact h
  | cons c rest ih =>
    obtain ⟨t₁, hc, hb⟩ := build_cons hb
    exact ih (h.run hc) hb

theorem Built.build (h : Built t x) (hb : t.build calls = .ok t') (hn : t.outward calls) :
    ∃ x', Built t' x' := by
  induction calls generalizing t x with
  | nil =>
    cases hb
    exact ⟨x, h⟩
  | cons c rest ih =>
    obtain ⟨t₁, hc, hb⟩ := build_cons hb
    rw [outward, hc, Bool.and_eq_true] at hn
    obtain ⟨x₁, h₁⟩ := h.run hc (by simpa using hn.1)
    exact ih h₁ hb hn.2

/-- However a table was built, every scope but the global one has a parent that was opened before it, or
it was opened inside itself. If none was, each way up has an end, and a lookup gets there. -/
theorem build_climbs (h : build .empty calls = .ok t) :
    (∀ i s, t.scopes[i]? = some s → i ≠ global → ∃ p ≤ i, s.parent = some p) ∧
    (outward .empty calls →
      (∀ i s, t.scopes[i]? = some s → i ≠ global → ∃ p < i, s.parent = some p) ∧
      ∀ i < t.size, ∀ name, ∃ found, t.lookup i name = .ok found ∧
        ∀ fuel > i, t.climb name fuel i = .ok found) := by
  have hempty : Rooted .empty := fun _ _ hs hi => absurd (Nat.lt_one_iff.1 (lt_size hs)) hi
  refine ⟨hempty.build h, fun hn => ?_⟩
  obtain ⟨x, hb⟩ := Built.empty.build h hn
  have hl := hb.sound.linked
  refine ⟨hl.parent, fun i hi name => ?_⟩
  obtain ⟨found, hf⟩ : ∃ found, t.lookup i name = .ok found := hl.climb_total hi hi
  exact ⟨found, hf, fun fuel hfuel => (hl.climb_congr hfuel hi).trans hf⟩

def nesting : List Call :=
  [.addScope ⟨1, 1⟩ .block 0, .addScope ⟨1, 1⟩ .block 7, .declare 1 (plain "x"), .addScope ⟨2, 1⟩ .block 1]

theorem nesting_climbs : ∃ t, build .empty nesting = .ok t ∧ outward .empty nesting ∧
    t.scopes.map (·.parent) = [none, some 0, some 1] ∧
    (∀ i s, t.scopes[i]? = some s → i ≠ global → ∃ p < i, s.parent = some p) ∧
    ∀ name, ∃ found, t.lookup 2 name = .ok found ∧ ∀ fuel > 2, t.climb name fuel 2 = .ok found := by
  have hn : outward .empty nesting := by decide
  obtain ⟨t, ht, hp⟩ := exists_of_check (f := fun t : Table => t.scopes.map (·.parent))
    (show _ <$> (build .empty nesting).toOption = some [none, some 0, some 1] by decide)
  obtain ⟨hlt, hup⟩ := (build_climbs ht).2 hn
  have hsize : t.size = 3 := (List.length_map _).symm.trans (congrArg List.length hp)
  exact ⟨t, ht, hn, hp, hlt, hup 2 (hsize ▸ Nat.lt_succ_self 2)⟩

/-- A scope that is opened inside itself, which is no fault, has a way up without an end. -/
theorem inward_endless : ∃ t s, build .empty [.addScope ⟨1, 1⟩ .block 1] = .ok t ∧
    t.scopes[1]? = some s ∧ s.parent = some 1 ∧ t.lookup 1 "x" = .error .endless ∧
    ∀ fuel, t.climb "x" fuel 1 = .error .endless := by
  let s : Scope := ⟨⟨1, 1⟩, .block, some 1, [1], []⟩
  let t : Table := ⟨[⟨.origin, .global, none, [], []⟩, s]⟩
  have hs : t.scopes[1]? = some s := rfl
  have hclimb (fuel : Nat) : t.climb "x" fuel 1 = .error .endless := by
    induction fuel with
    | zero => rfl
    | succ fuel ih => exact (climb_scope hs fuel).trans ih
  exact ⟨t, s, rfl, hs, rfl, hclimb _, hclimb⟩

end Table

end ThreeAddress
