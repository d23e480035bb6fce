import ThreeAddress.Proofs.Frames.Items
import ThreeAddress.Proofs.Scope.Growth

namespace ThreeAddress

structure Scope.Widens (s s' : Scope) : Prop where
  key : s'.key = s.key
  kind : s'.kind = s.kind
  symbols : s.symbols <+: s'.symbols
  children : s.children <+: s'.children

theorem Scope.Widens.refl (s : Scope) : s.Widens s := ⟨rfl, rfl, List.prefix_rfl, List.prefix_rfl⟩

theorem Scope.Widens.trans {s s' s'' : Scope} (h : s.Widens s') (k : s'.Widens s'') :
    s.Widens s'' :=
  ⟨k.key.trans h.key, k.kind.trans h.kind, h.symbols.trans k.symbols, h.children.trans k.children⟩

theorem Scope.Widens.slot? {s s' : Scope} {name : String} {slot : Nat} (h : s.Widens s')
    (hn : s.slot? name = some slot) : s'.slot? name = some slot := by
  obtain ⟨rest, hr⟩ := h.symbols
  rw [Scope.slot?] at hn ⊢
  rw [← hr, List.findIdx?_append, hn, Option.some_or]

namespace Table

variable {t t' t'' : Table} {here i : Nat} {s : Scope} {site : Site} {id : SymbolId} {x : Symbol}
  {key : Position}

/-- `t'` is `t` with more in the scope `here`, and with more scopes. -/
structure Widens (here : Nat) (t t' : Table) : Prop where
  scopes : ∀ {i : Nat} {s : Scope}, t.scopes[i]? = some s →
    ∃ s' : Scope, t'.scopes[i]? = some s' ∧ s.Widens s'
  others : ∀ {i : Nat}, i < t.size → i ≠ here → t'.scopes[i]? = t.scopes[i]?

theorem lt_size (h : t.scopes[i]? = some s) : i < t.size := (List.getElem?_eq_some_iff.1 h).1

theorem exists_scope (h : i < t.size) : ∃ s, t.scopes[i]? = some s :=
  ⟨_, List.getElem?_eq_getElem h⟩

namespace Widens

theorem refl (here : Nat) (t : Table) : t.Widens here t := ⟨fun h => ⟨_, h, .refl _⟩, fun _ _ => rfl⟩

theorem size (h : t.Widens here t') : t.size ≤ t'.size := by
  obtain h0 | h0 := Nat.eq_zero_or_pos t.size
  · omega
  · obtain ⟨s, hs⟩ := exists_scope (Nat.sub_lt h0 Nat.one_pos)
    obtain ⟨s', hs', _⟩ := h.scopes hs
    have := lt_size hs'
    omega

theorem trans (h : t.Widens here t') (k : t'.Widens here t'') : t.Widens here t'' where
  scopes hs := by
    obtain ⟨s', hs', hw⟩ := h.scopes hs
    obtain ⟨s'', hs'', hw'⟩ := k.scopes hs'
    exact ⟨s'', hs'', hw.trans hw'⟩
  others hi hne := (k.others (Nat.lt_of_lt_of_le hi h.size) hne).trans (h.others hi hne)

theorem inner {root : Nat} (h : t.Widens here t') (k : t'.Widens root t'') (hr : t.size ≤ root) :
    t.Widens here t'' where
  scopes hs := by
    obtain ⟨s', hs', hw⟩ := h.scopes hs
    obtain ⟨s'', hs'', hw'⟩ := k.scopes hs'
    exact ⟨s'', hs'', hw.trans hw'⟩
  others hi hne := (k.others (Nat.lt_of_lt_of_le hi h.size) (by omega)).trans (h.others hi hne)

end Widens

theorem scopeFor_eq_some : t.scopeFor key = some i ↔ ∃ s, t.scopes[i]? = some s ∧ s.key = key ∧
    ∀ j < i, ∀ s' : Scope, t.scopes[j]? = some s' → s'.key ≠ key := by
  rw [scopeFor, List.findIdx?_eq_some_iff_getElem]
  constructor
  · rintro ⟨hi, hk, hj⟩
    refine ⟨_, List.getElem?_eq_getElem hi, by simpa using hk, fun j hji s' hs' => ?_⟩
    obtain ⟨_, rfl⟩ := List.getElem?_eq_some_iff.1 hs'
    simpa using hj j hji
  · rintro ⟨s, hs, hk, hj⟩
    obtain ⟨hi, rfl⟩ := List.getElem?_eq_some_iff.1 hs
    exact ⟨hi, by simpa using hk, fun j hji => by
      simpa using hj j hji _ (List.getElem?_eq_getElem (by omega))⟩

theorem Widens.scopeFor (h : t.Widens here t') (hk : t.scopeFor key = some i) :
    t'.scopeFor key = some i := by
  obtain ⟨s, hs, hkey, hj⟩ := scopeFor_eq_some.1 hk
  obtain ⟨s', hs', hw⟩ := h.scopes hs
  refine scopeFor_eq_some.2 ⟨s', hs', hw.key.trans hkey, fun j hji s'' hs'' => ?_⟩
  obtain ⟨r, hr⟩ := exists_scope (Nat.lt_trans hji (lt_size hs))
  obtain ⟨r', hr', hw'⟩ := h.scopes hr
  obtain rfl : r' = s'' := Option.some.inj (hr'.symm.trans hs'')
  rw [hw'.key]
  exact hj j hji r hr

theorem find?_eq_some : t.find? site = some id ↔ ∃ s, t.scopeFor site.key = some id.scope ∧
    t.scopes[id.scope]? = some s ∧ s.slot? site.name = some id.slot := by
  obtain ⟨scope, slot⟩ := id
  simp only [find?, Option.bind_eq_bind, Option.bind_eq_some_iff, Option.pure_def, Option.some.injEq,
    SymbolId.mk.injEq]
  constructor
  · rintro ⟨_, hk, s, hs, _, hn, rfl, rfl⟩
    exact ⟨s, hk, hs, hn⟩
  · rintro ⟨s, hk, hs, hn⟩
    exact ⟨scope, hk, s, hs, slot, hn, rfl, rfl⟩

theorem Widens.find? (h : t.Widens here t') (hf : t.find? site = some id) :
    t'.find? site = some id := by
  obtain ⟨s, hk, hs, hn⟩ := find?_eq_some.1 hf
  obtain ⟨s', hs', hw⟩ := h.scopes hs
  exact find?_eq_some.2 ⟨s', h.scopeFor hk, hs', hw.slot? hn⟩

theorem Widens.find?_none (h : t.Widens here t') (hf : t'.find? site = none) :
    t.find? site = none := by
  cases hs : t.find? site with
  | none => rfl
  | some id =>
    rw [h.find? hs] at hf
    cases hf

theorem Widens.symbol (h : t.Widens here t') (hx : t.symbol id = .ok x) : t'.symbol id = .ok x := by
  obtain ⟨s, hs, hx⟩ := symbol_eq_ok.1 hx
  obtain ⟨s', hs', hw⟩ := h.scopes hs
  obtain ⟨rest, hr⟩ := hw.symbols
  refine symbol_eq_ok.2 ⟨s', hs', ?_⟩
  rw [← hr, List.getElem?_append_left (List.getElem?_eq_some_iff.1 hx).1, hx]

theorem find?_inj {site' : Site} (h : t.find? site = some id) (k : t.find? site' = some id) :
    site = site' := by
  obtain ⟨s, hk, hs, hn⟩ := find?_eq_some.1 h
  obtain ⟨s', hk', hs', hn'⟩ := find?_eq_some.1 k
  obtain ⟨_, hs₁, hkey, _⟩ := scopeFor_eq_some.1 hk
  obtain ⟨_, hs₂, hkey', _⟩ := scopeFor_eq_some.1 hk'
  cases hs.symm.trans hs₁
  cases hs.symm.trans hs₂
  cases hs.symm.trans hs'
  obtain ⟨_, hname, _⟩ := List.findIdx?_eq_some_iff_getElem.1 hn
  obtain ⟨_, hname', _⟩ := List.findIdx?_eq_some_iff_getElem.1 hn'
  have hn : site.name = site'.name := by
    rw [beq_iff_eq] at hname hname'
    exact hname.symm.trans hname'
  obtain ⟨key, name⟩ := site
  obtain ⟨key', name'⟩ := site'
  cases hn
  cases hkey.symm.trans hkey'
  rfl

end Table

end ThreeAddress
