import Mathlib.Order.Defs.Unbundled
import ThreeAddress.Proofs.Scope.Outline

namespace ThreeAddress

theorem map_modify_eq {f : α → α} {g : α → β} {xs : List α} {i : Nat}
    (h : ∀ x, xs[i]? = some x → g (f x) = g x) : (xs.modify i f).map g = xs.map g := by
  apply List.ext_getElem?
  intro j
  rw [List.getElem?_map, List.getElem?_map, List.getElem?_modify]
  by_cases hij : i = j
  · subst hij
    cases hx : xs[i]? with
    | none => simp
    | some x => simp [h x hx]
  · simp [hij]

namespace Table

variable {t t' t'' : Table} {id id' : SymbolId} {f : Symbol → Symbol} {x y : Symbol}

theorem symbol_eq_ok : t.symbol id = .ok x ↔
    ∃ s, t.scopes[id.scope]? = some s ∧ s.symbols[id.slot]? = some x := by
  simp only [symbol, scope]
  cases h : t.scopes[id.scope]? with
  | none => simp [nth, h, bind, Except.bind]
  | some s => simp [nth_eq_ok, show nth t.scopes id.scope = .ok s from nth_eq_ok.2 h, bind,
      Except.bind]

theorem exists_symbol_of_climb {name : String} {fuel scope : Nat}
    (h : t.climb name fuel scope = .ok (some id)) : ∃ x, t.symbol id = .ok x ∧ x.name = name := by
  induction fuel generalizing scope with
  | zero => cases h
  | succ fuel ih =>
    rw [climb] at h
    cases hs : t.scope scope with
    | error e => simp [hs, bind, Except.bind] at h
    | ok s =>
      simp only [hs, bind, Except.bind, pure, Except.pure] at h
      split at h
      next slot hn =>
        cases h
        obtain ⟨hlt, hname, _⟩ := List.findIdx?_eq_some_iff_getElem.1 hn
        exact ⟨_, symbol_eq_ok.2 ⟨s, nth_eq_ok.1 hs, List.getElem?_eq_getElem hlt⟩, by simpa using hname⟩
      next => exact ih h
      next => cases h

theorem exists_symbol_of_lookup {name : String} {scope : Nat}
    (h : t.lookup scope name = .ok (some id)) : ∃ x, t.symbol id = .ok x ∧ x.name = name :=
  exists_symbol_of_climb h

theorem lookup_name {name : String} {scope : Nat} (h : t.lookup scope name = .ok (some id))
    (hx : t.symbol id = .ok x) : x.name = name := by
  obtain ⟨y, hy, hn⟩ := exists_symbol_of_lookup h
  cases hy.symm.trans hx
  exact hn

theorem symbol_modifySymbol_self (h : t.symbol id = .ok x) :
    (t.modifySymbol id f).symbol id = .ok (f x) := by
  obtain ⟨s, hs, hx⟩ := symbol_eq_ok.1 h
  exact symbol_eq_ok.2 ⟨_, by simp [modifySymbol, modifyScope, hs]; rfl, by simp [hx]⟩

theorem symbol_modifySymbol_ne (h : id' ≠ id) :
    (t.modifySymbol id f).symbol id' = .ok x ↔ t.symbol id' = .ok x := by
  simp only [symbol_eq_ok, modifySymbol, modifyScope, List.getElem?_modify]
  by_cases hs : id.scope = id'.scope
  · have hn : id.slot ≠ id'.slot := fun hn => h (by cases id; cases id'; simp_all)
    cases t.scopes[id'.scope]? <;> simp [hs, hn]
  · simp [hs]

theorem symbol_of_modifySymbol (h : (t.modifySymbol id f).symbol id' = .ok y) :
    (id' ≠ id ∧ t.symbol id' = .ok y) ∨
      (id' = id ∧ ∃ x, t.symbol id = .ok x ∧ y = f x) := by
  by_cases hi : id' = id
  · subst hi
    obtain ⟨s, hs, hy⟩ := symbol_eq_ok.1 h
    rw [modifySymbol, modifyScope, List.getElem?_modify_eq, Option.map_eq_map,
      Option.map_eq_some_iff] at hs
    obtain ⟨s, hs, rfl⟩ := hs
    rw [List.getElem?_modify_eq, Option.map_eq_map, Option.map_eq_some_iff] at hy
    obtain ⟨x, hx, rfl⟩ := hy
    exact .inr ⟨rfl, x, symbol_eq_ok.2 ⟨s, hs, hx⟩, rfl⟩
  · exact .inl ⟨hi, (symbol_modifySymbol_ne hi).1 h⟩

theorem outline_modifySymbol (h : ∀ x, t.symbol id = .ok x → (f x).outline = x.outline) :
    (t.modifySymbol id f).outline = t.outline := by
  rw [outline, outline, modifySymbol, modifyScope]
  congr 1
  apply map_modify_eq
  intro s hs
  rw [Scope.outline, Scope.outline]
  congr 1
  apply map_modify_eq
  intro x hx
  exact h x (symbol_eq_ok.2 ⟨s, hs, hx⟩)

/-- `t'` is `t` later on. -/
structure Grows (t t' : Table) : Prop where
  outline : t'.outline = t.outline
  symbol : ∀ {id x y}, t.symbol id = .ok x → t'.symbol id = .ok y → x.Grows y

namespace Grows

theorem exists_symbol (h : t.Grows t') (hx : t.symbol id = .ok x) :
    ∃ y, t'.symbol id = .ok y ∧ x.Grows y := by
  have ho : t'.outline.symbol id = t.outline.symbol id := by rw [h.outline]
  rw [symbol_outline, symbol_outline, hx] at ho
  cases hy : t'.symbol id with
  | error e => simp [hy, Functor.map, Except.map] at ho
  | ok y => exact ⟨y, rfl, h.symbol hx hy⟩

theorem refl (t : Table) : t.Grows t :=
  ⟨rfl, fun hx hy => by cases hx.symm.trans hy; exact .refl _⟩

theorem trans (h : t.Grows t') (k : t'.Grows t'') : t.Grows t'' where
  outline := k.outline.trans h.outline
  symbol hx hz := by
    obtain ⟨y, hy, hxy⟩ := h.exists_symbol hx
    exact hxy.trans (k.symbol hy hz)

theorem modifySymbol (h : ∀ x, t.symbol id = .ok x → x.Grows (f x)) :
    t.Grows (t.modifySymbol id f) where
  outline := outline_modifySymbol fun x hx => (h x hx).outline
  symbol hx hy := by
    obtain ⟨_, hy⟩ | ⟨rfl, x, hx', rfl⟩ := symbol_of_modifySymbol hy
    · cases hx.symm.trans hy
      exact .refl _
    · cases hx.symm.trans hx'
      exact h _ hx'

end Grows

end Table

end ThreeAddress
