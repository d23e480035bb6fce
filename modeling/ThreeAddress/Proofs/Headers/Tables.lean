import ThreeAddress.Proofs.Scope.Consistent

namespace ThreeAddress

variable {hidden : Position → Prop}

inductive Scope.Beside (hidden : Position → Prop) : Scope → Scope → Prop
  | same : ¬hidden r.key → Beside hidden r r
  | apart : hidden r.key → r'.key = r.key → Beside hidden r r'

namespace Scope.Beside

variable {r r' : Scope}

theorem eq (h : r.Beside hidden r') (hr : ¬hidden r.key) : r' = r := by
  cases h with
  | same => rfl
  | apart h => exact absurd h hr

theorem key_eq (h : r.Beside hidden r') : r'.key = r.key := by
  cases h with
  | same => rfl
  | apart _ h => exact h

theorem map {f g : Scope → Scope} (h : r.Beside hidden r') (hk : ∀ r, (f r).key = r.key)
    (hk' : ∀ r, (g r).key = r.key) (hf : ¬hidden r.key → f r = g r) :
    (f r).Beside hidden (g r') := by
  cases h with
  | same h =>
    rw [← hf h]
    exact .same (by rwa [hk])
  | apart h h' => exact .apart (by rwa [hk]) (by rw [hk, hk', h'])

end Scope.Beside

/-- The scopes that a scope leads to, apart from its children: the one around it, and those of the members
of its symbols. -/
def Scope.leads (r : Scope) : List Nat := r.parent.toList ++ r.symbols.flatMap (·.members.toList)

namespace Table

variable {t t' : Table} {i here : Nat} {r : Scope} {x x' : Symbol} {key : Position} {kind : ScopeKind}
  {name : String} {id : SymbolId}

/-- A way up is as long as its scope is high, so more fuel does not matter. -/
theorem Linked.climb_congr (h : t.Linked) {fuel fuel' : Nat} (hi : i < fuel) (hi' : i < fuel') :
    t.climb name fuel i = t.climb name fuel' i := by
  induction fuel generalizing i fuel' with
  | zero => cases hi
  | succ fuel ih =>
    obtain ⟨fuel', rfl⟩ := Nat.exists_eq_add_one_of_ne_zero (Nat.ne_zero_of_lt hi')
    cases hr : t.scopes[i]? with
    | none =>
      have hs : t.scope i = .error (.outOfBounds t.size i) := by rw [scope, nth, hr]; rfl
      rw [climb, climb, hs]
      rfl
    | some r =>
      rw [climb_scope hr, climb_scope hr]
      split
      next => rfl
      next p _ hp =>
        have := h.lt_of_parent hr hp
        exact ih (by omega) (by omega)
      next => rfl

theorem Linked.lookup_parent (h : t.Linked) {p : Nat} (hr : t.scopes[i]? = some r)
    (hn : r.slot? name = none) (hp : r.parent = some p) : t.lookup i name = t.lookup p name := by
  have hlt := lt_size hr
  have hup := h.lt_of_parent hr hp
  obtain ⟨n, hsize⟩ := Nat.exists_eq_add_one_of_ne_zero (Nat.ne_zero_of_lt hlt)
  rw [lookup, lookup, hsize, climb_scope hr, hn, hp]
  exact h.climb_congr (by omega) (by omega)

/-- There is a scope that is not hidden. -/
def Shows (hidden : Position → Prop) (t : Table) (i : Nat) : Prop :=
  ∃ r : Scope, t.scopes[i]? = some r ∧ ¬hidden r.key

/-- The tables differ in hidden scopes alone, and no other scope leads to these. -/
structure Beside (hidden : Position → Prop) (t t' : Table) : Prop where
  linked : t.Linked
  linked' : t'.Linked
  size : t.size = t'.size
  scopes : ∀ {i : Nat} {r r' : Scope}, t.scopes[i]? = some r → t'.scopes[i]? = some r' → r.Beside hidden r'
  leads : ∀ {i : Nat} {r : Scope}, t.scopes[i]? = some r → ¬hidden r.key → ∀ p ∈ r.leads, t.Shows hidden p

theorem Shows.widens (h : t.Shows hidden i) (hw : t.Widens here t') : t'.Shows hidden i := by
  obtain ⟨r, hr, hk⟩ := h
  obtain ⟨r', hr', hr⟩ := hw.scopes hr
  exact ⟨r', hr', hr.key ▸ hk⟩

namespace Beside

theorem empty (h : ¬hidden .origin) : Table.empty.Beside hidden .empty where
  linked := .empty
  linked' := .empty
  size := rfl
  scopes {i r r'} hr hr' := by
    cases hr.symm.trans hr'
    obtain ⟨hi, rfl⟩ := List.getElem?_eq_some_iff.1 hr
    obtain rfl : i = 0 := Nat.lt_one_iff.1 hi
    exact .same h
  leads {i r} hr _ p hp := by
    obtain ⟨hi, rfl⟩ := List.getElem?_eq_some_iff.1 hr
    obtain rfl : i = 0 := Nat.lt_one_iff.1 hi
    simp [Scope.leads, Table.empty] at hp

theorem exists_scope (h : t.Beside hidden t') (hr : t.scopes[i]? = some r) :
    ∃ r', t'.scopes[i]? = some r' ∧ r.Beside hidden r' := by
  obtain ⟨r', hr'⟩ := Table.exists_scope (h.size ▸ lt_size hr : i < t'.size)
  exact ⟨r', hr', h.scopes hr hr'⟩

theorem scopeFor (h : t.Beside hidden t') (key : Position) : t.scopeFor key = t'.scopeFor key := by
  have hkeys : t.scopes.map (·.key) = t'.scopes.map (·.key) := by
    refine List.ext_getElem? fun i => ?_
    rw [List.getElem?_map, List.getElem?_map]
    cases hr : t.scopes[i]? with
    | some r =>
      obtain ⟨r', hr', hb⟩ := h.exists_scope hr
      rw [hr', Option.map_some, Option.map_some, hb.key_eq]
    | none =>
      have hi : t'.size ≤ i := h.size ▸ List.getElem?_eq_none_iff.1 hr
      rw [List.getElem?_eq_none_iff.2 hi]
  rw [Table.scopeFor, Table.scopeFor, ← Function.comp_def (· == key) Scope.key, ← List.findIdx?_map, hkeys,
    List.findIdx?_map]

theorem scope_eq (h : t.Beside hidden t') (hr : t.scopes[i]? = some r) (hk : ¬hidden r.key) :
    t'.scopes[i]? = some r := by
  obtain ⟨r', hr', hb⟩ := h.exists_scope hr
  rw [hr', hb.eq hk]

theorem climb (h : t.Beside hidden t') {fuel : Nat} (hi : t.Shows hidden i) :
    t.climb name fuel i = t'.climb name fuel i ∧
      ∀ id, t.climb name fuel i = .ok (some id) → t.Shows hidden id.scope := by
  induction fuel generalizing i with
  | zero => exact ⟨rfl, nofun⟩
  | succ fuel ih =>
    obtain ⟨r, hr, hk⟩ := hi
    rw [climb_scope hr, climb_scope (h.scope_eq hr hk)]
    split
    next =>
      refine ⟨rfl, fun id he => ?_⟩
      cases he
      exact ⟨r, hr, hk⟩
    next p _ hp => exact ih (h.leads hr hk p (by simp [Scope.leads, hp]))
    next => exact ⟨rfl, nofun⟩

theorem lookup (h : t.Beside hidden t') (hi : t.Shows hidden i) (name : String) :
    t.lookup i name = t'.lookup i name := by
  rw [Table.lookup, Table.lookup, ← h.size]
  exact (h.climb hi).1

theorem shows_of_lookup (h : t.Beside hidden t') (hi : t.Shows hidden i)
    (hl : t.lookup i name = .ok (some id)) : t.Shows hidden id.scope := (h.climb hi).2 id hl

theorem symbol (h : t.Beside hidden t') (hi : t.Shows hidden id.scope) : t.symbol id = t'.symbol id := by
  obtain ⟨r, hr, hk⟩ := hi
  have hs : t.scope id.scope = .ok r := nth_eq_ok.2 hr
  have hs' : t'.scope id.scope = .ok r := nth_eq_ok.2 (h.scope_eq hr hk)
  rw [Table.symbol, Table.symbol, hs, hs']

theorem visible? (h : t.Beside hidden t') (hi : t.Shows hidden i) (name : String) :
    t.visible? i name = t'.visible? i name := by
  rw [Table.visible?, Table.visible?, ← h.lookup hi name]
  split
  next id hl => rw [h.symbol (h.shows_of_lookup hi hl)]
  next => rfl

theorem push (h : t.Beside hidden t') (hr : t.scopes[here]? = some r)
    (hx : ¬hidden r.key → x = x' ∧ ∀ m ∈ x.members, t.Shows hidden m) :
    (t.push here x).Beside hidden (t'.push here x') where
  linked := h.linked.congr link_push
  linked' := h.linked'.congr link_push
  size := by rw [push_size, push_size, h.size]
  scopes {i q q'} hq hq' := by
    rw [scopes_push, Option.map_eq_some_iff] at hq hq'
    obtain ⟨p, hp, rfl⟩ := hq
    obtain ⟨p', hp', rfl⟩ := hq'
    have hb := h.scopes hp hp'
    split
    next hi =>
      cases hr.symm.trans (hi ▸ hp)
      refine hb.map (f := fun r => { r with symbols := r.symbols ++ [x] })
        (g := fun r => { r with symbols := r.symbols ++ [x'] }) (fun _ => rfl) (fun _ => rfl) fun hk => ?_
      rw [(hx hk).1]
    next => exact hb
  leads {i q} hq hk p hp := by
    rw [scopes_push, Option.map_eq_some_iff] at hq
    obtain ⟨q, hq, rfl⟩ := hq
    refine Shows.widens ?_ push_widens
    -- what can be reached from a scope in sight stays in sight, and so does what the new symbol opens
    by_cases hi : here = i
    · subst hi
      cases hr.symm.trans hq
      rw [if_pos rfl] at hk hp
      have hp : p ∈ r.leads ∨ p ∈ x.members := by simpa [Scope.leads, or_assoc] using hp
      exact hp.elim (h.leads hr hk p) ((hx hk).2 p)
    · rw [if_neg hi] at hk hp
      exact h.leads hq hk p hp

theorem push_apart {r' : Scope} (h : t.Beside hidden t') (hr : t'.scopes[here]? = some r')
    (hk : hidden r'.key) : t.Beside hidden (t'.push here x) where
  linked := h.linked
  linked' := h.linked'.congr link_push
  size := by rw [push_size, h.size]
  scopes {i q q'} hq hq' := by
    rw [scopes_push, Option.map_eq_some_iff] at hq'
    obtain ⟨p, hp, rfl⟩ := hq'
    have hb := h.scopes hq hp
    split
    next hi =>
      cases hr.symm.trans (hi ▸ hp)
      exact .apart (hb.key_eq ▸ hk) hb.key_eq
    next => exact hb
  leads := h.leads

theorem grow (h : t.Beside hidden t') (hn : t.scopeFor key = none) (hn' : t'.scopeFor key = none)
    (hr : t.scopes[here]? = some r) (hk : ¬hidden key → ¬hidden r.key) :
    (t.grow key kind here).Beside hidden (t'.grow key kind here) where
  linked := h.linked.grow hn (lt_size hr)
  linked' := h.linked'.grow hn' (h.size ▸ lt_size hr)
  size := by rw [grow_size hn, grow_size hn', h.size]
  scopes {i q q'} hq hq' := by
    have hh := lt_size hr
    obtain ⟨rfl, rfl⟩ | ⟨p, hp, rfl⟩ := scopes_of_grow hn hh hq
    · rw [h.size, scopes_grow_size hn' (h.size ▸ hh)] at hq'
      cases hq'
      by_cases hk : hidden key
      · exact .apart hk rfl
      · exact .same hk
    · rw [scopes_grow hn' (h.size ▸ lt_size hp), Option.map_eq_some_iff, ← h.size] at hq'
      obtain ⟨p', hp', rfl⟩ := hq'
      have hb := h.scopes hp hp'
      split
      · exact hb.map (f := fun r => { r with children := r.children ++ [t.size] })
          (g := fun r => { r with children := r.children ++ [t.size] }) (fun _ => rfl) (fun _ => rfl)
          fun _ => rfl
      · exact hb
  leads {i q} hq hq' p hp := by
    refine Shows.widens ?_ (grow_widens hn)
    obtain ⟨rfl, rfl⟩ | ⟨q, hold, rfl⟩ := scopes_of_grow hn (lt_size hr) hq
    · obtain rfl : p = here := by simpa [Scope.leads] using hp
      exact ⟨r, hr, hk hq'⟩
    · refine h.leads hold ?_ p ?_
      · split at hq' <;> exact hq'
      · split at hp <;> exact hp

end Beside

end Table

end ThreeAddress
