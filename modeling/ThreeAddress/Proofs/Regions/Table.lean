import Mathlib.Data.List.Forall2
import ThreeAddress.Proofs.Frames.Sites
import ThreeAddress.Proofs.Regions.Names

namespace ThreeAddress

/-- The symbol says what the region says about the name. -/
structure Naming.Records (n : Naming) (t : Table) (owner : Option String) (x : Symbol) : Prop where
  name : x.name = n.name
  kind : x.kind = n.kind
  isConst : x.isConst = n.isConst
  type : ∀ type ∈ n.type, x.type = type
  owner : x.owner = owner
  params : x.params = n.params
  members : Option.Rel (fun key i => t.scopeFor key = some i) n.members x.members
  span : x.span = n.span

/-- The scope stands below that of the region around, and holds the names in their order. -/
structure Region.Holds (r : Region) (t : Table) (s : Scope) : Prop where
  key : s.key = r.key
  kind : s.kind = r.kind
  parent : Option.Rel (fun key i => t.scopeFor key = some i) r.outer s.parent
  names : List.Forall₂ (fun n x => Naming.Records n t r.owner x) r.names s.symbols

structure Table.Has (t : Table) (rs : List Region) : Prop where
  size : t.size = rs.length
  scopes : ∀ {i : Nat} {r : Region}, rs[i]? = some r → ∃ s, t.scopes[i]? = some s ∧ r.Holds t s

/-- No two regions have the same key, and none has a name twice. -/
structure WellDeclared (rs : List Region) : Prop where
  keys : (rs.map (·.key)).Nodup
  names : ∀ r ∈ rs, (r.names.map (·.name)).Nodup

def Region.add (names : List Naming) (r : Region) : Region := { r with names := r.names ++ names }

/-- The regions after the one at `here` got more names and more regions were opened. -/
def extend (rs : List Region) (here : Nat) (names : List Naming) (inner : List Region) : List Region :=
  (rs ++ inner).modify here (.add names)

section Regions

variable {rs inner inner' : List Region} {here : Nat} {names names' : List Naming} {r new : Region}
  {n : Naming}

theorem rel_mono {R S : α → β → Prop} {x : Option α} {y : Option β} (h : Option.Rel R x y)
    (hrs : ∀ a b, R a b → S a b) : Option.Rel S x y := by
  cases h with
  | none => exact .none
  | some h => exact .some (hrs _ _ h)

theorem extend_getElem? (i : Nat) : (extend rs here names inner)[i]? =
    (rs ++ inner)[i]?.map fun r => if here = i then r.add names else r := by
  rw [extend, List.getElem?_modify, Option.map_eq_map]

theorem extend_keys : (extend rs here names inner).map (·.key) = (rs ++ inner).map (·.key) := by
  apply List.ext_getElem?
  intro i
  rw [List.getElem?_map, List.getElem?_map, extend_getElem?, Option.map_map]
  congr 1
  funext r
  dsimp only [Function.comp]
  split <;> rfl

theorem extend_nil (here : Nat) : extend rs here [] inner = rs ++ inner := by
  apply List.ext_getElem?
  intro i
  rw [extend_getElem?]
  cases (rs ++ inner)[i]? <;> simp [Region.add]

theorem extend_here (h : rs[here]? = some r) :
    (extend rs here names inner)[here]? = some (r.add names) := by
  have hlt := (List.getElem?_eq_some_iff.1 h).1
  rw [extend_getElem?, List.getElem?_append_left hlt, h, Option.map_some, if_pos rfl]

theorem extend_extend (h : rs[here]? = some r) :
    extend (extend rs here names inner) here names' inner' =
      extend rs here (names ++ names') (inner ++ inner') := by
  have hlt := (List.getElem?_eq_some_iff.1 h).1
  have hlen : (extend rs here names inner).length = (rs ++ inner).length := List.length_modify ..
  apply List.ext_getElem?
  intro i
  rw [extend_getElem?, extend_getElem?, ← List.append_assoc]
  by_cases hi : i < (rs ++ inner).length
  · rw [List.getElem?_append_left (hlen ▸ hi), List.getElem?_append_left hi, extend_getElem?,
      Option.map_map]
    congr 1
    funext r
    by_cases he : here = i <;> simp [he, Region.add]
  · have hne : here ≠ i := by
      rw [List.length_append] at hi
      omega
    rw [List.getElem?_append_right (by omega), List.getElem?_append_right (by omega), hlen]
    simp [hne]

theorem extend_concat : extend (rs ++ [new]) rs.length names inner = rs ++ new.add names :: inner := by
  apply List.ext_getElem?
  intro i
  rw [extend_getElem?, List.append_assoc, List.singleton_append]
  obtain hi | rfl | hi := Nat.lt_trichotomy i rs.length
  · rw [List.getElem?_append_left hi, List.getElem?_append_left hi]
    simp [Nat.ne_of_gt hi]
  · simp
  · obtain ⟨j, rfl⟩ := Nat.exists_eq_add_of_lt hi
    rw [List.getElem?_append_right (by omega), List.getElem?_append_right (by omega),
      show rs.length + j + 1 - rs.length = j + 1 by omega]
    simp [Nat.ne_of_lt hi]

theorem extend_within (h : rs[here]? = some r) :
    extend (extend (rs ++ [new]) here names []) rs.length names' inner =
      extend rs here names (new.add names' :: inner) := by
  have happend (inner : List Region) : extend rs here names inner = extend rs here names [] ++ inner := by
    rw [← extend_nil here, extend_extend h, List.append_nil, List.nil_append]
  have hlen : (extend rs here names []).length = rs.length := by
    rw [extend, List.length_modify, List.append_nil]
  have hnew : extend (rs ++ [new]) here names [] = extend rs here names [] ++ [new] := by
    rw [← happend, extend, extend, List.append_nil]
  rw [hnew, ← hlen, extend_concat, ← happend]

theorem WellDeclared.of_extend (h : WellDeclared (extend rs here names inner)) : WellDeclared rs where
  keys := by
    have hk := h.keys
    rw [extend_keys, List.map_append] at hk
    exact (List.nodup_append.1 hk).1
  names r hr := by
    obtain ⟨i, hi⟩ := List.mem_iff_getElem?.1 hr
    have hlt := (List.getElem?_eq_some_iff.1 hi).1
    have he : (extend rs here names inner)[i]? = some (if here = i then r.add names else r) := by
      rw [extend_getElem?, List.getElem?_append_left hlt, hi, Option.map_some]
    have hn := h.names _ (List.mem_of_getElem? he)
    split at hn
    · rw [Region.add, List.map_append] at hn
      exact (List.nodup_append.1 hn).1
    · exact hn

theorem wellDeclared_concat (hn : new.names = []) :
    WellDeclared (rs ++ [new]) ↔ WellDeclared rs ∧ new.key ∉ rs.map (·.key) := by
  constructor
  · intro h
    have hk := h.keys
    rw [List.map_append, List.nodup_append] at hk
    exact ⟨⟨hk.1, fun r hr => h.names r (by simp [hr])⟩, fun hm => hk.2.2 _ hm _ (by simp) rfl⟩
  · rintro ⟨h, hk⟩
    refine ⟨?_, fun r hr => ?_⟩
    · rw [List.map_append, List.nodup_append]
      refine ⟨h.keys, by simp, ?_⟩
      rintro _ hm _ hm' rfl
      obtain rfl := List.mem_singleton.1 hm'
      exact hk hm
    · obtain hr | hr := List.mem_append.1 hr
      · exact h.names r hr
      · obtain rfl := List.mem_singleton.1 hr
        simp [hn]

theorem wellDeclared_declare (hw : WellDeclared rs) (hr : rs[here]? = some r) :
    WellDeclared (extend rs here [n] []) ↔ n.name ∉ r.names.map (·.name) := by
  have hadd : (r.add [n]).names.map (·.name) = r.names.map (·.name) ++ [n.name] := by
    rw [Region.add, List.map_append, List.map_singleton]
  constructor
  · intro h hm
    have hn := h.names _ (List.mem_of_getElem? (extend_here hr))
    rw [hadd, List.nodup_append] at hn
    exact hn.2.2 _ hm _ (by simp) rfl
  · intro hm
    -- keys are as they were, and only the region `here` has a name more
    refine ⟨by rw [extend_keys, List.append_nil]; exact hw.keys, fun q hq => ?_⟩
    obtain ⟨i, hi⟩ := List.mem_iff_getElem?.1 hq
    rw [extend_getElem?, List.append_nil, Option.map_eq_some_iff] at hi
    obtain ⟨q, hi, rfl⟩ := hi
    split
    next he =>
      cases hr.symm.trans (he ▸ hi)
      rw [hadd, List.nodup_append]
      refine ⟨hw.names _ (List.mem_of_getElem? hr), by simp, ?_⟩
      rintro _ hm' _ hm'' rfl
      obtain rfl := List.mem_singleton.1 hm''
      exact hm hm'
    next => exact hw.names q (List.mem_of_getElem? hi)

end Regions

theorem Region.Holds.widens {r : Region} {t t' : Table} {s : Scope} {here : Nat} (h : r.Holds t s)
    (hw : t.Widens here t') : r.Holds t' s where
  key := h.key
  kind := h.kind
  parent := rel_mono h.parent fun _ _ hk => hw.scopeFor hk
  names := h.names.imp fun _ _ hx =>
    { hx with members := rel_mono hx.members fun _ _ hk => hw.scopeFor hk }

theorem Region.Holds.map_name {r : Region} {t : Table} {s : Scope} (h : r.Holds t s) :
    s.symbols.map (·.name) = r.names.map (·.name) := by
  rw [eq_comm, ← List.forall₂_eq_eq_eq, List.forall₂_map_left_iff, List.forall₂_map_right_iff]
  exact h.names.imp fun _ _ hx => hx.name.symm

theorem Region.Holds.slot? {r : Region} {t : Table} {s : Scope} (h : r.Holds t s) (name : String) :
    s.slot? name = none ↔ name ∉ r.names.map (·.name) := by
  rw [← h.map_name, Scope.slot?, List.findIdx?_eq_none_iff]
  simp

namespace Table.Has

variable {t : Table} {rs : List Region} {key : Position} {r : Region} {here i : Nat}

theorem keys (h : t.Has rs) : t.scopes.map (·.key) = rs.map (·.key) := by
  apply List.ext_getElem?
  intro i
  rw [List.getElem?_map, List.getElem?_map]
  cases hr : rs[i]? with
  | none =>
    have hlen : t.scopes.length = rs.length := h.size
    rw [List.getElem?_eq_none_iff, ← hlen] at hr
    rw [List.getElem?_eq_none hr]
    rfl
  | some r =>
    obtain ⟨s, hs, hh⟩ := h.scopes hr
    rw [hs, Option.map_some, Option.map_some, hh.key]

theorem scopeFor_eq_none (h : t.Has rs) : t.scopeFor key = none ↔ key ∉ rs.map (·.key) := by
  rw [← h.keys, Table.scopeFor, List.findIdx?_eq_none_iff]
  simp

theorem scopeFor (h : t.Has rs) (hw : WellDeclared rs) (hr : rs[i]? = some r) :
    t.scopeFor r.key = some i := by
  obtain ⟨s, hs, hh⟩ := h.scopes hr
  refine Table.scopeFor_eq_some.2 ⟨s, hs, hh.key, fun j hj s' hs' he => ?_⟩
  have hi : (t.scopes.map (·.key))[i]? = some r.key := by simp [hs, hh.key]
  have hj' : (t.scopes.map (·.key))[j]? = some r.key := by simp [hs', he]
  rw [h.keys] at hi hj'
  have := (List.getElem?_inj (List.getElem?_eq_some_iff.1 hi).1 hw.keys).1 (hi.trans hj'.symm)
  omega

theorem find? {j : Nat} {n : Naming} (h : t.Has rs) (hw : WellDeclared rs) (hr : rs[i]? = some r)
    (hn : r.names[j]? = some n) : ∃ x, t.find? ⟨r.key, n.name⟩ = some ⟨i, j⟩ ∧
      t.symbol ⟨i, j⟩ = .ok x ∧ n.Records t r.owner x := by
  obtain ⟨s, hs, hh⟩ := h.scopes hr
  obtain ⟨hj, rfl⟩ := List.getElem?_eq_some_iff.1 hn
  have hj' : j < s.symbols.length := by rwa [← hh.names.length_eq]
  have hslot : s.slot? r.names[j].name = some j := by
    have hnodup := hh.map_name ▸ hw.names r (List.mem_of_getElem? hr)
    have hname : s.symbols[j].name = r.names[j].name := (hh.names.get hj hj').name
    rw [Scope.slot?, List.findIdx?_eq_some_iff_getElem]
    refine ⟨hj', by simp [hname], fun k hk he => ?_⟩
    have hk' : k < s.symbols.length := Nat.lt_trans hk hj'
    have he : s.symbols[k].name = s.symbols[j].name := by simpa [hname] using he
    have hkj : (s.symbols.map (·.name))[k]? = (s.symbols.map (·.name))[j]? := by simp [hj', hk', he]
    exact absurd ((List.getElem?_inj (by simpa using hk') hnodup).1 hkj) (Nat.ne_of_lt hk)
  exact ⟨_, Table.find?_eq_some.2 ⟨s, h.scopeFor hw hr, hs, hslot⟩,
    Table.symbol_eq_ok.2 ⟨s, hs, List.getElem?_eq_getElem hj'⟩, hh.names.get hj hj'⟩

end Table.Has

end ThreeAddress
