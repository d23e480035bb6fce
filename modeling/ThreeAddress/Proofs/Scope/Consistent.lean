import Mathlib.Logic.Basic
import ThreeAddress.Proofs.Scope.Built

namespace ThreeAddress

namespace Table

variable {t t' : Table} {x : Index} {here i : Nat} {s : Scope} {y : Symbol} {key : Position}
  {kind : ScopeKind} {name : String} {id : SymbolId}

theorem climb_scope (hs : t.scopes[i]? = some s) (fuel : Nat) : t.climb name (fuel + 1) i =
    match s.slot? name, s.parent with
    | some slot, _ => .ok (some ⟨i, slot⟩)
    | none, some p => t.climb name fuel p
    | none, none => .ok none := by
  rw [climb, scope, nth_eq_ok.2 hs]
  rfl

theorem Linked.lt_of_parent (h : t.Linked) {p : Nat} (hs : t.scopes[i]? = some s)
    (hp : s.parent = some p) : p < i := by
  have hne : i ≠ global := by
    rintro rfl
    obtain ⟨r, hr, hroot⟩ := h.root
    cases hs.symm.trans hr
    rw [hroot] at hp
    cases hp
  obtain ⟨q, hq, he⟩ := h.parent hs hne
  cases hp.symm.trans he
  exact hq

theorem Linked.climb_total (h : t.Linked) {fuel : Nat} (hf : i < fuel) (hi : i < t.size) :
    ∃ found, t.climb name fuel i = .ok found := by
  induction fuel generalizing i with
  | zero => cases hf
  | succ fuel ih =>
    obtain ⟨s, hs⟩ := exists_scope hi
    rw [climb_scope hs]
    split
    · exact ⟨_, rfl⟩
    next p _ hp =>
      have := h.lt_of_parent hs hp
      exact ih (by omega) (by omega)
    · exact ⟨_, rfl⟩

/-- A new symbol is seen under its name, from its scope and from below. -/
theorem climb_push (hn : name ≠ y.name ∨ ¬t.Below here i) (fuel : Nat) :
    (t.push here y).climb name fuel i = t.climb name fuel i := by
  induction fuel generalizing i with
  | zero => rfl
  | succ fuel ih =>
    cases hs : t.scopes[i]? with
    | none =>
      have hs' : (t.push here y).scopes[i]? = none := by rw [scopes_push, hs, Option.map_none]
      have hl : (t.push here y).scopes.length = t.scopes.length := push_size
      simp only [climb, scope, nth, hs, hs', hl]
      rfl
    | some s =>
      have hup (p : Nat) (hp : s.parent = some p) : name ≠ y.name ∨ ¬t.Below here p :=
        hn.imp_right fun hb h => hb (.child hs hp h)
      obtain ⟨s', hs', hslot, hparent⟩ : ∃ s' : Scope, (t.push here y).scopes[i]? = some s' ∧
          s'.slot? name = s.slot? name ∧ s'.parent = s.parent := by
        -- in the scope itself the new symbol has another name; any other scope is as it was
        by_cases hi : here = i
        · subst hi
          have hname : name ≠ y.name := hn.resolve_right fun hb => hb .self
          refine ⟨_, scopes_push_self hs, ?_, rfl⟩
          simp [Scope.slot?, List.findIdx?_append, Ne.symm hname]
        · exact ⟨s, by rw [scopes_push, hs, Option.map_some, if_neg hi], rfl, rfl⟩
      rw [climb_scope hs', climb_scope hs, hslot, hparent]
      cases s.slot? name with
      | some slot => rfl
      | none =>
        cases hp : s.parent with
        | none => rfl
        | some p => exact ih (hup p hp)

theorem lookup_push (hn : name ≠ y.name ∨ ¬t.Below here i) :
    (t.push here y).lookup i name = t.lookup i name := by
  rw [lookup, push_size, climb_push hn, lookup]

theorem lookup_push_self (hs : t.scopes[here]? = some s) (hn : s.slot? y.name = none) :
    (t.push here y).lookup here y.name = .ok (some ⟨here, s.symbols.length⟩) := by
  obtain ⟨n, hn'⟩ : ∃ n, (t.push here y).size = n + 1 := by
    have := lt_size hs
    exact ⟨t.size - 1, by rw [push_size]; omega⟩
  rw [lookup, hn', climb_scope (scopes_push_self hs), slot?_push hn, Function.update_self]

/-- What a table and its index say about scopes, keys and names, each in more than one place. -/
structure Consistent (t : Table) (x : Index) : Prop extends Linked t where
  /-- A scope is listed once by its parent, and by no other scope. -/
  once : ∀ ⦃i s⦄, t.scopes[i]? = some s → ∀ p,
    (t.children p).count i = if s.parent = some p then 1 else 0
  distinct : t.Distinct
  keys : x.keys = t.scopeFor
  keys_inj : ∀ ⦃i j : Nat⦄ ⦃s r : Scope⦄, t.scopes[i]? = some s → t.scopes[j]? = some r →
    s.key = r.key → i = j
  /-- Both the index and a search in the scope give the slot that holds the name. -/
  names : ∀ ⦃i⦄, i < t.size → ∀ name, ∃ found, t.lookupLocal i name = .ok found ∧
    found = (x.names i name).map (⟨i, ·⟩) ∧
    ∀ id, found = some id ↔ id.scope = i ∧ ∃ y, t.symbol id = .ok y ∧ y.name = name

theorem Linked.count (h : t.Linked) (hs : t.scopes[i]? = some s) (p : Nat) :
    (t.children p).count i = if s.parent = some p then 1 else 0 := by
  have hnodup : (t.children p).Nodup := (h.order p).imp Nat.ne_of_lt
  have hmem : i ∈ t.children p ↔ s.parent = some p := by
    rw [h.listed]
    constructor
    · rintro ⟨r, hr, hp⟩
      cases hs.symm.trans hr
      exact hp
    · exact fun hp => ⟨s, hs, hp⟩
  rw [hnodup.count]
  simp only [hmem]

theorem Distinct.slot?_eq_some (h : t.Distinct) (hs : t.scopes[i]? = some s) {slot : Nat} :
    s.slot? name = some slot ↔ ∃ y, s.symbols[slot]? = some y ∧ y.name = name := by
  rw [Scope.slot?, List.findIdx?_eq_some_iff_getElem]
  constructor
  · rintro ⟨hslot, hname, -⟩
    exact ⟨_, List.getElem?_eq_getElem hslot, by simpa using hname⟩
  · rintro ⟨y, hy, rfl⟩
    obtain ⟨hslot, rfl⟩ := List.getElem?_eq_some_iff.1 hy
    refine ⟨hslot, by simp, fun j hj => ?_⟩
    have hne := (List.nodup_iff_pairwise_ne.1 (h hs))
    have := List.pairwise_iff_getElem.1 hne j slot (by simp; omega) (by simpa using hslot) hj
    simpa using this

theorem consistent_of_sound (h : t.Sound x) : t.Consistent x where
  toLinked := h.linked
  once _ _ hs p := h.linked.count hs p
  distinct := h.distinct
  keys := h.finds.keys
  keys_inj i j s r hs hr hk := by
    have hi := h.linked.key hs
    rw [hk, h.linked.key hr] at hi
    exact (Option.some.inj hi).symm
  names i hi name := by
    obtain ⟨s, hs⟩ := exists_scope hi
    refine ⟨(s.slot? name).map (⟨i, ·⟩), ?_, by rw [h.finds.names hs], fun id => ?_⟩
    · rw [lookupLocal, scope, nth_eq_ok.2 hs]
      rfl
    · rw [Option.map_eq_some_iff]
      constructor
      · rintro ⟨slot, hn, rfl⟩
        obtain ⟨y, hy, hname⟩ := (h.distinct.slot?_eq_some hs).1 hn
        exact ⟨rfl, y, symbol_eq_ok.2 ⟨s, hs, hy⟩, hname⟩
      · rintro ⟨rfl, y, hy, hname⟩
        obtain ⟨r, hr, hy⟩ := symbol_eq_ok.1 hy
        cases hs.symm.trans hr
        exact ⟨id.slot, (h.distinct.slot?_eq_some hs).2 ⟨y, hy, hname⟩, rfl⟩

theorem Sound.addScope_error (h : t.Sound x) {owner : Nat}
    (ha : t.addScope key kind here = (.error owner, t')) :
    t' = t ∧ x.addScope key t.size = x ∧ ∃ s, t.scopes[owner]? = some s ∧ s.key = key := by
  cases hk : t.scopeFor key with
  | none =>
    rw [addScope_fresh hk] at ha
    cases ha
  | some taken =>
    rw [addScope_taken hk] at ha
    cases ha
    obtain ⟨s, hs, hkey, -⟩ := scopeFor_eq_some.1 hk
    exact ⟨rfl, by rw [Index.addScope, h.finds.keys, hk], s, hs, hkey⟩

theorem addScope_ok (hh : here < t.size) {id : Nat}
    (ha : t.addScope key kind here = (.ok id, t')) :
    id = t.size ∧ t'.scopes[id]? = some ⟨key, kind, some here, [], []⟩ ∧
      (∀ s ∈ t.scopes, s.key ≠ key) ∧ t.Widens here t' := by
  cases hk : t.scopeFor key with
  | some taken =>
    rw [addScope_taken hk] at ha
    cases ha
  | none =>
    rw [addScope_fresh hk] at ha
    cases ha
    have hfresh : ∀ s ∈ t.scopes, s.key ≠ key := by simpa [scopeFor] using hk
    exact ⟨rfl, scopes_grow_size hk hh, hfresh, grow_widens hk⟩

theorem Sound.declare_error (h : t.Sound x) (hh : here < t.size) {owner : SymbolId}
    (hd : t.declare here y = (.error owner, t')) :
    t' = t ∧ x.declare here y.name (t.declared here).length = x ∧
      owner.scope = here ∧ ∃ z, t.symbol owner = .ok z ∧ z.name = y.name := by
  obtain ⟨s, hs⟩ := exists_scope hh
  rw [declare_eq hs] at hd
  cases hn : s.slot? y.name with
  | none =>
    rw [hn] at hd
    cases hd
  | some slot =>
    rw [hn] at hd
    cases hd
    obtain ⟨z, hz, hname⟩ := (h.distinct.slot?_eq_some hs).1 hn
    exact ⟨rfl, by rw [Index.declare, h.finds.names hs, hn], rfl, z, symbol_eq_ok.2 ⟨s, hs, hz⟩, hname⟩

theorem declare_ok (hh : here < t.size) (hd : t.declare here y = (.ok id, t')) :
    id.scope = here ∧ t'.symbol id = .ok y ∧ t.Widens here t' ∧
      t'.lookup here y.name = .ok (some id) ∧
      ∀ i name, t'.lookup i name ≠ t.lookup i name → name = y.name ∧ t.Below here i := by
  obtain ⟨s, hs⟩ := exists_scope hh
  rw [declare_eq hs] at hd
  cases hn : s.slot? y.name with
  | some slot =>
    rw [hn] at hd
    cases hd
  | none =>
    rw [hn] at hd
    cases hd
    refine ⟨rfl, push_symbol hs, push_widens, lookup_push_self hs hn, fun i name hne => ?_⟩
    by_contra hb
    exact hne (lookup_push (not_and_or.1 hb))

/-- However a table was built, it is one tree of scopes with one owner for each key and, in a scope,
for each name. A refused call names that owner, and a new symbol is seen from its scope and from below. -/
theorem Built.consistent (h : Built t x) : t.Consistent x ∧
    (∀ i < t.size, ∀ name, ∃ found, t.lookup i name = .ok found) ∧
    ∀ here < t.size,
      (∀ key kind t',
        (∀ owner, t.addScope key kind here = (.error owner, t') →
          t' = t ∧ x.addScope key t.size = x ∧ ∃ s, t.scopes[owner]? = some s ∧ s.key = key) ∧
        ∀ id, t.addScope key kind here = (.ok id, t') →
          id = t.size ∧ t'.scopes[id]? = some ⟨key, kind, some here, [], []⟩ ∧
            (∀ s ∈ t.scopes, s.key ≠ key) ∧ t.Widens here t') ∧
      ∀ y t',
        (∀ owner, t.declare here y = (.error owner, t') →
          t' = t ∧ x.declare here y.name (t.declared here).length = x ∧
            owner.scope = here ∧ ∃ z, t.symbol owner = .ok z ∧ z.name = y.name) ∧
        ∀ id, t.declare here y = (.ok id, t') →
          id.scope = here ∧ t'.symbol id = .ok y ∧ t.Widens here t' ∧
            t'.lookup here y.name = .ok (some id) ∧
            ∀ i name, t'.lookup i name ≠ t.lookup i name → name = y.name ∧ t.Below here i := by
  have hs := h.sound
  refine ⟨consistent_of_sound hs, fun i hi name => hs.linked.climb_total hi hi, fun here hh => ⟨?_, ?_⟩⟩
  · exact fun key kind t' => ⟨fun owner => hs.addScope_error, fun id => addScope_ok hh⟩
  · exact fun y t' => ⟨fun owner => hs.declare_error hh, fun id => declare_ok hh⟩

def plain (name : String) : Symbol :=
  .ofDeclaration { name, type := .integer, kind := .variable, span := .unplaced }

def shadowed : Table where
  scopes := [⟨.origin, .global, none, [1], [plain "x"]⟩, ⟨⟨1, 1⟩, .block, some 0, [2], [plain "x"]⟩,
    ⟨⟨2, 1⟩, .block, some 1, [], []⟩]

theorem built_consistent_shadowed : ∃ x, Built shadowed x ∧ shadowed.Consistent x := by
  have outer : Built (Table.empty.declare 0 (plain "x")).2 _ := .declare _ .empty (by decide)
  have block := outer.addScope ⟨1, 1⟩ .block (show 0 < _ by decide)
  have inner := block.declare (plain "x") (show 1 < _ by decide)
  have h : Built shadowed _ := inner.addScope ⟨2, 1⟩ .block (show 1 < _ by decide)
  exact ⟨_, h, (Built.consistent h).1⟩

end Table

end ThreeAddress
