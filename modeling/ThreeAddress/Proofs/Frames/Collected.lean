import Mathlib.Data.List.Basic
import ThreeAddress.Proofs.Frames.Sites
import ThreeAddress.Proofs.Scope.Collect
import ThreeAddress.Proofs.Scope.Region

namespace ThreeAddress

namespace Table

variable {t t' t'' : Table} {here i lo root : Nat} {is : List Nat} {items : List Item} {key : Position}

def children (t : Table) (i : Nat) : List Nat := (t.scopes[i]?.map (·.children)).getD []

def ids (t : Table) (i : Nat) : List SymbolId :=
  (List.range (t.declared i).length).map fun slot => ⟨i, slot⟩

def itemIds (t : Table) (items : List Item) : List SymbolId := items.filterMap fun i => t.find? i.site

@[simp] theorem itemIds_append (items items' : List Item) :
    t.itemIds (items ++ items') = t.itemIds items ++ t.itemIds items' := List.filterMap_append

/-- The scopes of the frame at `root` declare its items and nothing else. No scope of it comes before
`lo`. -/
def Roots (t : Table) (lo root : Nat) (items : List Item) : Prop :=
  ∃ is, t.Regions (t.children root) is ∧ lo ≤ root ∧ (∀ i ∈ is, lo ≤ i) ∧ is.length < t.size ∧
    (t.itemIds items).Perm ((root :: is).flatMap t.ids)

end Table

/-- The item is declared, and if it is a frame, so is what it has inside. -/
inductive Item.Placed (lo : Nat) (t : Table) : Item → Prop
  | slot {s : Site} {id : SymbolId} : t.find? s = some id → Placed lo t (.slot s)
  | frame {s : Site} {id : SymbolId} {x : Symbol} {root : Nat} : t.find? s = some id →
    t.symbol id = .ok x → x.members = some root → t.scopeFor scope = some root →
    t.Roots lo root inside → (∀ i ∈ inside, Placed lo t i) →
    Placed lo t (.frame s scope parent inside)

theorem Item.Placed.exists_id {lo : Nat} {t : Table} {i : Item} (h : i.Placed lo t) :
    ∃ id, t.find? i.site = some id := by
  cases h with
  | slot h => exact ⟨_, h⟩
  | frame h => exact ⟨_, h⟩

namespace Table

variable {t t' t'' : Table} {here i lo lo' root : Nat} {is : List Nat} {items items' : List Item}
  {key : Position}

theorem Widens.itemIds (h : t.Widens here t') (hp : ∀ i ∈ items, i.Placed lo t) :
    t'.itemIds items = t.itemIds items := by
  apply List.filterMap_congr
  intro i hi
  obtain ⟨id, hid⟩ := (hp i hi).exists_id
  rw [hid, h.find? hid]

theorem Widens.children_eq (h : t.Widens here t') (hi : i < t.size) (hne : i ≠ here) :
    t'.children i = t.children i := by
  rw [children, children, h.others hi hne]

theorem Widens.ids_eq (h : t.Widens here t') (hi : i < t.size) (hne : i ≠ here) :
    t'.ids i = t.ids i := by
  rw [ids, ids, declared, declared, h.others hi hne]

theorem Regions.lt_size {cs : List Nat} (h : t.Regions cs is) : ∀ i ∈ is, i < t.size := by
  induction h with
  | nil => nofun
  | apart _ _ _ ih => exact ih
  | within hs _ _ _ ihc ihr => 
    have := Table.lt_size hs
    simp only [List.cons_append, List.mem_cons, List.mem_append]
    rintro i (rfl | hi | hi)
    · exact this
    · exact ihc i hi
    · exact ihr i hi

theorem Regions.widens {cs : List Nat} (h : t.Regions cs is) (hw : t.Widens here t')
    (hi : ∀ i ∈ is, i ≠ here) : t'.Regions cs is := by
  refine h.congr (fun i s hs => ?_) fun i hm s s' hs hs' => ?_
  · obtain ⟨s', hs', hk⟩ := hw.scopes hs
    exact ⟨s', hs', hk.kind⟩
  · rw [hw.others (Table.lt_size hs) (hi i hm), hs] at hs'
    cases hs'
    rfl

theorem Roots.widens (h : t.Roots lo root items) (hr : root < t.size) (hw : t.Widens here t')
    (hp : ∀ i ∈ items, i.Placed lo t) (hlo : here < lo) : t'.Roots lo root items := by
  obtain ⟨is, hreg, hroot, his, hlen, hperm⟩ := h
  refine ⟨is, ?_, hroot, his, Nat.lt_of_lt_of_le hlen hw.size, ?_⟩
  · rw [hw.children_eq hr (by omega)]
    exact hreg.widens hw fun i hi => by have := his i hi; omega
  · rw [hw.itemIds hp]
    refine hperm.trans (List.Perm.of_eq ?_)
    apply List.flatMap_congr
    intro i hi
    obtain rfl | hi := List.mem_cons.1 hi
    · exact (hw.ids_eq hr (by omega)).symm
    · have := his i hi
      exact (hw.ids_eq (hreg.lt_size i hi) (by omega)).symm

theorem Roots.mono (h : t.Roots lo root items) (hlo : lo' ≤ lo) : t.Roots lo' root items := by
  obtain ⟨is, hreg, hroot, his, hrest⟩ := h
  exact ⟨is, hreg, Nat.le_trans hlo hroot, fun i hi => Nat.le_trans hlo (his i hi), hrest⟩

end Table

namespace Item.Placed

variable {t t' : Table} {here lo lo' : Nat} {i : Item}

theorem widens (h : i.Placed lo t) (hw : t.Widens here t') (hlo : here < lo) : i.Placed lo t' := by
  induction h with
  | slot hf => exact .slot (hw.find? hf)
  | frame hf hx hm hs hr hp ih =>
    obtain ⟨_, hs', _⟩ := Table.scopeFor_eq_some.1 hs
    exact .frame (hw.find? hf) (hw.symbol hx) hm (hw.scopeFor hs)
      (hr.widens (Table.lt_size hs') hw hp hlo) ih

theorem mono (h : i.Placed lo t) (hlo : lo' ≤ lo) : i.Placed lo' t := by
  induction h with
  | slot hf => exact .slot hf
  | frame hf hx hm hs hr _ ih => exact .frame hf hx hm hs (hr.mono hlo) ih

theorem sites (h : i.Placed lo t) : ∀ s ∈ i.sites, ∃ id, t.find? s = some id := by
  induction h with
  | slot hf => simpa [Item.sites] using ⟨_, hf⟩
  | frame hf _ _ _ _ _ ih =>
    intro s hs
    rw [Item.sites, List.mem_cons, mem_sitesAll] at hs
    obtain rfl | ⟨i, hi, hs⟩ := hs
    · exact ⟨_, hf⟩
    · exact ih i hi s hs

end Item.Placed

/-- From `t` to `t'` the items were declared in the scope `here` and in new scopes below it. -/
structure Collects (here : Nat) (items : List Item) (t t' : Table) : Prop where
  widens : t.Widens here t'
  fresh : ∀ s ∈ sitesAll items, t.find? s = none
  nodup : (sitesAll items).Nodup
  placed : ∀ i ∈ items, i.Placed t.size t'
  region : ∃ cs is, t'.children here = t.children here ++ cs ∧ t'.Regions cs is ∧
    (∀ i ∈ is, t.size ≤ i) ∧ t.size + is.length ≤ t'.size ∧
    (t.ids here ++ t'.itemIds items).Perm (t'.ids here ++ is.flatMap t'.ids)

open scoped List

namespace Collects

variable {t t' t'' : Table} {here : Nat} {items items' : List Item}

theorem nil (here : Nat) (t : Table) : Collects here [] t t where
  widens := .refl here t
  fresh := nofun
  nodup := List.nodup_nil
  placed := nofun
  region := ⟨[], [], by simp, .nil, nofun, Nat.le_refl _, by simp [Table.itemIds]⟩

theorem append (h : Collects here items t t') (k : Collects here items' t' t'')
    (hh : here < t.size) : Collects here (items ++ items') t t'' where
  widens := h.widens.trans k.widens
  fresh s hs := by
    rw [sitesAll_append, List.mem_append] at hs
    obtain hs | hs := hs
    · exact h.fresh s hs
    · exact h.widens.find?_none (k.fresh s hs)
  nodup := by
    rw [sitesAll_append, List.nodup_append]
    refine ⟨h.nodup, k.nodup, ?_⟩
    rintro s hs _ hs' rfl
    -- a site of the first part is known by now, and those of the second were not
    obtain ⟨i, hi, hs⟩ := mem_sitesAll.1 hs
    obtain ⟨id, hid⟩ := (h.placed i hi).sites s hs
    rw [k.fresh s hs'] at hid
    cases hid
  placed i hi := by
    obtain hi | hi := List.mem_append.1 hi
    · exact (h.placed i hi).widens k.widens hh
    · exact (k.placed i hi).mono h.widens.size
  region := by
    obtain ⟨cs, is, hc, hreg, hlo, hlen, hperm⟩ := h.region
    obtain ⟨cs', is', hc', hreg', hlo', hlen', hperm'⟩ := k.region
    have hne (i : Nat) (hi : i ∈ is) : i ≠ here := by
      have := hlo i hi
      omega
    refine ⟨cs ++ cs', is ++ is', by rw [hc', hc, List.append_assoc],
      (hreg.widens k.widens hne).append hreg', ?_, ?_, ?_⟩
    · intro i hi
      obtain hi | hi := List.mem_append.1 hi
      · exact hlo i hi
      · exact Nat.le_trans h.widens.size (hlo' i hi)
    · rw [List.length_append]
      omega
    -- the second part declares nothing in scopes that the first part opened
    · have hids : is.flatMap t''.ids = is.flatMap t'.ids :=
        List.flatMap_congr fun i hi => k.widens.ids_eq (hreg.lt_size i hi) (hne i hi)
      rw [Table.itemIds_append, k.widens.itemIds h.placed, List.flatMap_append, hids]
      calc t.ids here ++ (t'.itemIds items ++ t''.itemIds items')
          _ = t.ids here ++ t'.itemIds items ++ t''.itemIds items' := (List.append_assoc ..).symm
          _ ~ t'.ids here ++ is.flatMap t'.ids ++ t''.itemIds items' := hperm.append_right _
          _ ~ t'.ids here ++ t''.itemIds items' ++ is.flatMap t'.ids := by
            rw [List.append_assoc, List.append_assoc]
            exact List.perm_append_comm.append_left _
          _ ~ t''.ids here ++ is'.flatMap t''.ids ++ is.flatMap t'.ids := hperm'.append_right _
          _ ~ t''.ids here ++ (is.flatMap t'.ids ++ is'.flatMap t''.ids) := by
            rw [List.append_assoc]
            exact List.perm_append_comm.append_left _

end Collects

namespace Table

variable {t : Table} {here i : Nat} {s : Scope} {y : Symbol} {key key' : Position} {kind : ScopeKind}

def push (t : Table) (here : Nat) (y : Symbol) : Table :=
  t.modifyScope here fun s => { s with symbols := s.symbols ++ [y] }

theorem scopes_push (i : Nat) : (t.push here y).scopes[i]? =
    t.scopes[i]?.map fun s => if here = i then { s with symbols := s.symbols ++ [y] } else s := by
  simp only [push, modifyScope, List.getElem?_modify, Option.map_eq_map]

theorem declare_eq (hs : t.scopes[here]? = some s) :
    t.declare here y = match s.slot? y.name with
      | some slot => (.error ⟨here, slot⟩, t)
      | none => (.ok ⟨here, s.symbols.length⟩, t.push here y) := by
  simp only [declare, hs, Option.map_some, Option.getD_some, Scope.slot?]
  cases s.symbols.findIdx? (·.name == y.name) <;> rfl

theorem push_widens : t.Widens here (t.push here y) where
  scopes {i s'} hs' := by
    rw [scopes_push, hs']
    refine ⟨_, rfl, ?_⟩
    dsimp only
    split
    · exact ⟨rfl, rfl, List.prefix_append _ _, List.prefix_rfl⟩
    · exact .refl _
  others {i} _ hne := by
    simp [scopes_push, hne.symm]

section Push

variable (hs : t.scopes[here]? = some s)

include hs

theorem scopes_push_self :
    (t.push here y).scopes[here]? = some { s with symbols := s.symbols ++ [y] } := by
  simp [scopes_push, hs]

theorem push_symbol : (t.push here y).symbol ⟨here, s.symbols.length⟩ = .ok y :=
  symbol_eq_ok.2 ⟨_, scopes_push_self hs, by simp⟩

theorem push_ids : (t.push here y).ids here = t.ids here ++ [⟨here, s.symbols.length⟩] := by
  simp [ids, declared, scopes_push_self hs, hs, List.range_succ]

theorem push_children : (t.push here y).children here = t.children here := by
  simp [children, scopes_push_self hs, hs]

theorem push_find? (hk : t.scopeFor key = some here) (hn : s.slot? y.name = none) :
    (t.push here y).find? ⟨key, y.name⟩ = some ⟨here, s.symbols.length⟩ := by
  refine find?_eq_some.2 ⟨_, push_widens.scopeFor hk, scopes_push_self hs, ?_⟩
  rw [Scope.slot?] at hn ⊢
  simp [List.findIdx?_append, hn]

theorem find?_eq_none {name : String} (hk : t.scopeFor key = some here) (hn : s.slot? name = none) :
    t.find? ⟨key, name⟩ = none := by
  cases h : t.find? ⟨key, name⟩ with
  | none => rfl
  | some id =>
    obtain ⟨s', hk', hs', hn'⟩ := find?_eq_some.1 h
    cases hk.symm.trans hk'
    cases hs.symm.trans hs'
    cases hn.symm.trans hn'

end Push

def grow (t : Table) (key : Position) (kind : ScopeKind) (here : Nat) : Table :=
  (t.addScope key kind here).2

section Grow

variable (hk : t.scopeFor key = none) (hh : here < t.size)

include hk

theorem scopes_grow (hi : i < t.size) : (t.grow key kind here).scopes[i]? =
    t.scopes[i]?.map fun s => if here = i then { s with children := s.children ++ [t.size] } else s := by
  rw [grow, scopes_addScope hk, List.getElem?_append_left hi]

theorem grow_widens : t.Widens here (t.grow key kind here) where
  scopes {i s} hs := by
    rw [scopes_grow hk (lt_size hs), hs]
    refine ⟨_, rfl, ?_⟩
    dsimp only
    split
    · exact ⟨rfl, rfl, List.prefix_rfl, List.prefix_append _ _⟩
    · exact .refl _
  others {i} hi hne := by
    rw [scopes_grow hk hi]
    simp [hne.symm]

theorem grow_size : (t.grow key kind here).size = t.size + 1 := by
  simp [grow, addScope, hk, size, modifyScope]

include hh

theorem scopes_grow_size : (t.grow key kind here).scopes[t.size]? = some ⟨key, kind, here, [], []⟩ := by
  have hne : here ≠ t.scopes.length := Nat.ne_of_lt hh
  rw [grow, scopes_addScope hk, size, List.getElem?_concat_length, Option.map_some, if_neg hne]

theorem grow_scopeFor : (t.grow key kind here).scopeFor key = some t.size := by
  refine scopeFor_eq_some.2 ⟨_, scopes_grow_size hk hh, rfl, fun j hj s' hs' => ?_⟩
  rw [scopes_grow hk hj] at hs'
  obtain ⟨s, hs, rfl⟩ := Option.map_eq_some_iff.1 hs'
  have hne : s.key ≠ key := by
    have := List.findIdx?_eq_none_iff.1 hk s (List.mem_of_getElem? hs)
    simpa using this
  split <;> exact hne

theorem grow_children : (t.grow key kind here).children here = t.children here ++ [t.size] := by
  obtain ⟨s, hs⟩ := exists_scope hh
  simp [children, scopes_grow hk hh, hs]

theorem grow_ids : (t.grow key kind here).ids here = t.ids here := by
  obtain ⟨s, hs⟩ := exists_scope hh
  simp [ids, declared, scopes_grow hk hh, hs]

theorem grow_ids_size : (t.grow key kind here).ids t.size = [] := by
  simp [ids, declared, scopes_grow_size hk hh]

theorem grow_children_size : (t.grow key kind here).children t.size = [] := by
  simp [children, scopes_grow_size hk hh]

end Grow

end Table

namespace Collects

variable {t t' : Table} {here : Nat} {s : Scope} {y : Symbol} {key key' : Position}
  {kind : ScopeKind} {items : List Item}

theorem slot (hk : t.scopeFor key = some here) (hs : t.scopes[here]? = some s)
    (hn : s.slot? y.name = none) : Collects here [.slot ⟨key, y.name⟩] t (t.push here y) where
  widens := Table.push_widens
  fresh := by simpa [sitesAll, Item.sites] using Table.find?_eq_none hs hk hn
  nodup := by simp [sitesAll, Item.sites]
  placed := by simpa using .slot (Table.push_find? hs hk hn)
  region := by
    refine ⟨[], [], by simp [Table.push_children hs], .nil, by simp, Table.push_widens.size, ?_⟩
    simp [Table.push_ids hs, Table.itemIds, Item.site, Table.push_find? hs hk hn]

theorem block (hk : t.scopeFor key = none) (hh : here < t.size) (ho : ¬kind.opensFrame)
    (h : Collects t.size items (t.grow key kind here) t') : Collects here items t t' where
  widens := (Table.grow_widens hk).inner h.widens (Nat.le_refl _)
  fresh s hs := (Table.grow_widens hk).find?_none (h.fresh s hs)
  nodup := h.nodup
  placed i hi := (h.placed i hi).mono (Table.grow_widens hk).size
  region := by
    obtain ⟨cs, is, hc, hreg, hlo, hlen, hperm⟩ := h.region
    have hsize : (t.grow key kind here).size = t.size + 1 := Table.grow_size hk
    have hne : here ≠ t.size := Nat.ne_of_lt hh
    have hlt : here < (t.grow key kind here).size := by omega
    obtain ⟨s', hs', hw⟩ := h.widens.scopes (Table.scopes_grow_size hk hh)
    rw [Table.grow_children_size hk hh, List.nil_append] at hc
    have hchild : s'.children = cs := by
      rw [← hc, Table.children, hs']
      rfl
    refine ⟨[t.size], t.size :: is ++ [], ?_, .within hs' (hw.kind ▸ ho) (hchild ▸ hreg) .nil,
      ?_, ?_, ?_⟩
    · rw [h.widens.children_eq hlt hne, Table.grow_children hk hh]
    · intro i hi
      obtain rfl | hi := by simpa using hi
      · exact Nat.le_refl _
      · have := hlo i hi
        omega
    · simp
      omega
    · rw [h.widens.ids_eq hlt hne, Table.grow_ids hk hh, List.append_nil, List.flatMap_cons]
      rw [Table.grow_ids_size hk hh, List.nil_append] at hperm
      exact hperm.append_left _

theorem frame {inside : List Item} {parent : Option String} (hk : t.scopeFor key = some here)
    (hk' : t.scopeFor key' = none) (ho : kind.opensFrame)
    (hs : (t.grow key' kind here).scopes[here]? = some s) (hn : s.slot? y.name = none)
    (hm : y.members = some t.size)
    (h : Collects t.size inside ((t.grow key' kind here).push here y) t') :
    Collects here [.frame ⟨key, y.name⟩ key' parent inside] t t' := by
  obtain ⟨_, hs₀, _⟩ := Table.scopeFor_eq_some.1 hk
  have hh : here < t.size := Table.lt_size hs₀
  have hne : here ≠ t.size := Nat.ne_of_lt hh
  have hg : t.Widens here (t.grow key' kind here) := Table.grow_widens hk'
  have hp : (t.grow key' kind here).Widens here ((t.grow key' kind here).push here y) :=
    Table.push_widens
  have hsize : (t.grow key' kind here).size = t.size + 1 := Table.grow_size hk'
  have hlt : here < ((t.grow key' kind here).push here y).size := by
    have := hp.size
    omega
  have hfind := h.widens.find? (Table.push_find? hs (hg.scopeFor hk) hn)
  have hw : t.Widens here t' := (hg.trans hp).inner h.widens (Nat.le_refl _)
  have hfresh : t.find? ⟨key, y.name⟩ = none :=
    hg.find?_none (Table.find?_eq_none hs (hg.scopeFor hk) hn)
  -- the new scope is empty at first, so all that it holds at last comes from inside
  have hroot : t'.Roots t.size t.size inside := by
    obtain ⟨cs, is, hc, hreg, hlo, hlen, hperm⟩ := h.region
    have hle := hp.size
    rw [hp.children_eq (by omega) hne.symm, Table.grow_children_size hk' hh, List.nil_append] at hc
    rw [hp.ids_eq (by omega) hne.symm, Table.grow_ids_size hk' hh, List.nil_append] at hperm
    refine ⟨is, hc ▸ hreg, Nat.le_refl _, fun i hi => ?_, by omega, ?_⟩
    · have := hlo i hi
      omega
    · rw [List.flatMap_cons]
      exact hperm
  refine ⟨hw, ?_, ?_, ?_, ?_⟩
  · intro s' hs'
    simp only [sitesAll, Item.sites, List.append_nil, List.mem_cons] at hs'
    obtain rfl | hs' := hs'
    · exact hfresh
    · exact hg.find?_none (hp.find?_none (h.fresh s' hs'))
  · simp only [sitesAll, Item.sites, List.append_nil, List.nodup_cons]
    refine ⟨fun hmem => ?_, h.nodup⟩
    have := h.fresh _ hmem
    rw [Table.push_find? hs (hg.scopeFor hk) hn] at this
    cases this
  · rw [List.forall_mem_singleton]
    refine .frame hfind (h.widens.symbol (Table.push_symbol hs)) hm ?_ hroot fun i hi => ?_
    · exact h.widens.scopeFor (hp.scopeFor (Table.grow_scopeFor hk' hh))
    · exact (h.placed i hi).mono (Nat.le_trans hg.size hp.size)
  · obtain ⟨s₁, hs₁, hw₁⟩ := hp.scopes (Table.scopes_grow_size hk' hh)
    obtain ⟨s₂, hs₂, hw₂⟩ := h.widens.scopes hs₁
    have hkind : s₂.kind = kind := hw₂.kind.trans hw₁.kind
    refine ⟨[t.size], [], ?_, .apart hs₂ (hkind ▸ ho) .nil, by simp, hw.size, ?_⟩
    · rw [h.widens.children_eq hlt hne, Table.push_children hs, Table.grow_children hk' hh]
    · rw [h.widens.ids_eq hlt hne, Table.push_ids hs, Table.grow_ids hk' hh, List.flatMap_nil,
        List.append_nil]
      simp [Table.itemIds, Item.site, hfind]

end Collects

abbrev Collection.Quiets (s s' : Collection) : Prop := s'.conflicts = [] → s.conflicts = []

instance : Collecting Collection.Quiets where
  refl _ h := h
  trans _ _ _ h k hs := h (k hs)
  addScope _ _ _ _ _ h := h
  declare _ _ _ _ h := h
  report _ _ h := (List.append_eq_nil_iff.1 h).1

namespace Collect

/-- Without a conflict, the action declares the items in the scope `here` and below it. -/
def Declares (key : Position) (here : Nat) (items : List Item) (act : Collect α) : Prop :=
  ∀ ⦃s⦄, (act s).2.conflicts = [] → s.table.scopeFor key = some here →
    Collects here items s.table (act s).2.table

variable {key : Position} {here : Nat} {items items' : List Item} {act : Collect α}
  {f : α → Collect β}

theorem Declares.pure (a : α) : Declares key here [] (Pure.pure a : Collect α) :=
  fun s _ _ => .nil here s.table

theorem Declares.get : Declares key here [] (MonadState.get : Collect Collection) :=
  fun s _ _ => .nil here s.table

theorem Declares.bind (h : Declares key here items act) (k : ∀ a, Declares key here items' (f a))
    (hq : ∀ a, Keeps Collection.Quiets (f a)) : Declares key here (items ++ items') (act >>= f) := by
  intro s hc hk
  have ha := h (@hq _ _ hc) hk
  obtain ⟨_, hs, _⟩ := Table.scopeFor_eq_some.1 hk
  exact ha.append (@k _ _ hc (ha.widens.scopeFor hk)) (Table.lt_size hs)

theorem declare_quiet {d : Declaration} {params : Nat} {s : Collection} {r : Scope}
    (hr : s.table.scopes[here]? = some r) (hc : (declare here d params s).2.conflicts = []) :
    r.slot? d.name = none ∧ (declare here d params s).2.table =
      s.table.push here { Symbol.ofDeclaration d with params } := by
  have hd : ({ Symbol.ofDeclaration d with params } : Symbol).name = d.name := rfl
  rw [declare_eq, Table.declare_eq hr, hd] at hc ⊢
  cases hn : r.slot? d.name with
  | some slot => simp [hn] at hc
  | none => exact ⟨rfl, rfl⟩

theorem openScope_quiet {span : Span} {kind : ScopeKind} {s : Collection}
    (hc : (openScope span kind here s).2.conflicts = []) :
    s.table.scopeFor span.toPosition = none ∧ openScope span kind here s =
      (s.table.size, { s with table := s.table.grow span.toPosition kind here }) := by
  rw [openScope_eq] at hc ⊢
  cases hn : s.table.scopeFor span.toPosition with
  | some taken => simp [hn] at hc
  | none => exact ⟨rfl, rfl⟩

theorem openScope_bind_quiet {span : Span} {kind : ScopeKind} {f : Nat → Collect α} {s : Collection}
    (hc : ((openScope span kind here >>= f) s).2.conflicts = [])
    (hq : ∀ inner, Keeps Collection.Quiets (f inner)) :
    s.table.scopeFor span.toPosition = none ∧ (openScope span kind here >>= f) s =
      f s.table.size { s with table := s.table.grow span.toPosition kind here } := by
  have hb : (openScope span kind here >>= f) s =
      f (openScope span kind here s).1 (openScope span kind here s).2 := rfl
  rw [hb] at hc ⊢
  obtain ⟨hn, hr⟩ := openScope_quiet (@hq _ _ hc)
  rw [hr]
  exact ⟨hn, rfl⟩

theorem frame_quiet {span : Span} {kind : ScopeKind} {d : Nat → Declaration} {params : Nat}
    {f : Nat → Collect α} {s : Collection} {r : Scope} (hr : s.table.scopes[here]? = some r)
    (hc : ((openScope span kind here >>= fun inner =>
      declare here (d inner) params >>= fun _ => f inner) s).2.conflicts = [])
    (hq : ∀ inner, Keeps Collection.Quiets (f inner)) :
    s.table.scopeFor span.toPosition = none ∧ ∃ r' s',
      (s.table.grow span.toPosition kind here).scopes[here]? = some r' ∧
      r'.slot? (d s.table.size).name = none ∧
      s'.table = (s.table.grow span.toPosition kind here).push here
        { Symbol.ofDeclaration (d s.table.size) with params } ∧
      (openScope span kind here >>= fun inner =>
        declare here (d inner) params >>= fun _ => f inner) s = f s.table.size s' := by
  obtain ⟨hn, he⟩ := openScope_bind_quiet hc fun inner => (declare_keeps ..).bind fun _ => hq inner
  rw [he] at hc ⊢
  obtain ⟨r', hr', _⟩ := (Table.grow_widens hn : s.table.Widens here _).scopes hr
  obtain ⟨hslot, ht⟩ := declare_quiet hr' (@hq _ _ hc)
  exact ⟨hn, r', _, hr', hslot, ht, rfl⟩

theorem declare_declares (d : Declaration) (params : Nat) :
    Declares key here [.slot ⟨key, d.name⟩] (declare here d params) := by
  intro s hc hk
  obtain ⟨r, hr, _⟩ := Table.scopeFor_eq_some.1 hk
  obtain ⟨hn, ht⟩ := declare_quiet hr hc
  rw [ht]
  exact .slot (y := { Symbol.ofDeclaration d with params }) hk hr hn

theorem openScope_declares {span : Span} {kind : ScopeKind} {f : Nat → Collect α}
    (ho : ¬kind.opensFrame) (h : ∀ inner, Declares span.toPosition inner items (f inner))
    (hq : ∀ inner, Keeps Collection.Quiets (f inner)) :
    Declares key here items (openScope span kind here >>= f) := by
  intro s hc hk
  obtain ⟨_, hs, _⟩ := Table.scopeFor_eq_some.1 hk
  obtain ⟨hn, he⟩ := openScope_bind_quiet hc hq
  rw [he] at hc ⊢
  exact .block hn (Table.lt_size hs) ho (@h _ _ hc (Table.grow_scopeFor hn (Table.lt_size hs)))

/-- A function or a class: its scope is opened first, and then its name is declared. -/
theorem frame_declares {span : Span} {kind : ScopeKind} {d : Nat → Declaration} {params : Nat}
    {name : String} {parent : Option String} {f : Nat → Collect α} (ho : kind.opensFrame)
    (hd : ∀ inner, (d inner).name = name) (hm : ∀ inner, (d inner).members = some inner)
    (h : ∀ inner, Declares span.toPosition inner items (f inner))
    (hq : ∀ inner, Keeps Collection.Quiets (f inner)) :
    Declares key here [.frame ⟨key, name⟩ span.toPosition parent items]
      (openScope span kind here >>= fun inner => declare here (d inner) params >>= fun _ => f inner) := by
  intro s hc hk
  obtain ⟨_, hs, _⟩ := Table.scopeFor_eq_some.1 hk
  obtain ⟨hn, r', s', hr', hslot, ht, he⟩ := frame_quiet hs hc hq
  rw [he] at hc ⊢
  have hin := @h _ _ hc (by
    rw [ht]
    exact Table.push_widens.scopeFor (Table.grow_scopeFor hn (Table.lt_size hs)))
  rw [ht] at hin
  have hf : Collects here [.frame ⟨key, (d s.table.size).name⟩ span.toPosition parent items] s.table _ :=
    .frame (y := { Symbol.ofDeclaration (d s.table.size) with params }) hk hn ho hr' hslot (hm _) hin
  rwa [hd] at hf

end Collect

open Collect

variable {key : Position} {here : Nat}

theorem Binding.collect_declares (b : Binding) (kind : SymbolKind) (owner : Option String) :
    Declares key here [.slot ⟨key, b.name⟩] (b.collect here kind owner) :=
  Declares.get.bind (fun _ => declare_declares ..) fun _ => declare_keeps ..

theorem params_declares (params : List Param) :
    Declares key here (params.map fun p => .slot ⟨key, p.name⟩) (params.forM (·.collect here)) := by
  induction params with
  | nil => exact .pure _
  | cons p rest ih =>
    exact Declares.bind (declare_declares ..) (fun _ => ih) fun _ => .forM fun p _ => declare_keeps ..

theorem Block.items_eq (b : Block) : b.items = itemsAll b.span.toPosition b.body := by
  cases b
  rw [items]

theorem Function.item_eq (f : Function) (key : Position) :
    f.item key = .frame ⟨key, f.name⟩ f.body.span.toPosition none
      (f.params.map (fun p => .slot ⟨f.body.span.toPosition, p.name⟩) ++
        itemsAll f.body.span.toPosition f.body.body) := by
  cases f
  rw [item, Block.items_eq]

theorem Class.item_eq (c : Class) (key : Position) :
    c.item key = .frame ⟨key, c.name⟩ c.span.toPosition c.parent
      (itemsMembers c.span.toPosition c.members) := by
  cases c
  rw [item]

theorem collectAll_declares {body : List Stmt}
    (h : ∀ s ∈ body, ∀ key here, Declares key here (s.items key) (s.collect here)) :
    Declares key here (itemsAll key body) (collectAll here body) := by
  induction body with
  | nil =>
    rw [itemsAll, collectAll]
    exact .pure _
  | cons s rest ih =>
    rw [itemsAll, collectAll]
    exact (h s (by simp) key here).bind (fun _ => ih fun s hs => h s (by simp [hs]))
      fun _ => collectAll_keeps_all ..

theorem Block.collect_declares {b : Block}
    (h : ∀ s ∈ b.body, ∀ key here, Declares key here (s.items key) (s.collect here)) :
    Declares key here b.items (b.collect here) := by
  rw [collect_eq, items_eq]
  exact openScope_declares (by decide) (fun _ => collectAll_declares h) fun _ => collectAll_keeps_all ..

theorem collectCases_declares {cases : List Case}
    (h : ∀ k ∈ cases, ∀ s ∈ k.body, ∀ key here, Declares key here (s.items key) (s.collect here)) :
    Declares key here (itemsCases key cases) (collectCases here cases) := by
  induction cases with
  | nil =>
    rw [itemsCases, collectCases]
    exact .pure _
  | cons k rest ih =>
    obtain ⟨value, body, span⟩ := k
    rw [itemsCases, collectCases]
    exact (collectAll_declares (h ⟨value, body, span⟩ (by simp))).bind
      (fun _ => ih fun k hk => h k (by simp [hk]))
      fun _ => collectCases_keeps_all ..

theorem Function.collect_declares {f : Function} (owner : Option String)
    (h : ∀ s ∈ f.body.body, ∀ key here, Declares key here (s.items key) (s.collect here)) :
    Declares key here [f.item key] (f.collect here owner) := by
  rw [collect_eq, item_eq]
  refine frame_declares rfl (fun _ => rfl) (fun _ => rfl) (fun _ => ?_) fun _ => ?_
  · exact (params_declares f.params).bind (fun _ => collectAll_declares h) fun _ => collectAll_keeps_all ..
  · exact Keeps.bind (.forM fun p _ => declare_keeps ..) fun _ => collectAll_keeps_all ..

theorem collectMembers_declares {members : List Member} (owner : String)
    (h : ∀ f, .method f ∈ members → ∀ s ∈ f.body.body, ∀ key here,
      Declares key here (s.items key) (s.collect here)) :
    Declares key here (itemsMembers key members) (collectMembers here owner members) := by
  induction members with
  | nil =>
    rw [itemsMembers, collectMembers]
    exact .pure _
  | cons m rest ih =>
    rw [itemsMembers, collectMembers]
    have hm : Declares key here [m.item key] (m.collect here owner) := by
      cases m with
      | field b =>
        rw [Member.item, Member.collect]
        exact b.collect_declares ..
      | method f =>
        rw [Member.item, Member.collect]
        exact Function.collect_declares _ (h f (by simp))
    exact hm.bind (fun _ => ih fun f hf => h f (by simp [hf]))
      fun _ => collectMembers_keeps_all ..

theorem Class.collect_declares {c : Class}
    (h : ∀ f, .method f ∈ c.members → ∀ s ∈ f.body.body, ∀ key here,
      Declares key here (s.items key) (s.collect here)) :
    Declares key here [c.item key] (c.collect here) := by
  rw [collect_eq, item_eq]
  exact frame_declares rfl (fun _ => rfl) (fun _ => rfl) (fun _ => collectMembers_declares _ h)
    fun _ => collectMembers_keeps_all ..

theorem Stmt.collect_declares (s : Stmt) (key : Position) (here : Nat) :
    Declares key here (s.items key) (s.collect here) := by
  induction s generalizing key here with
  | declare b =>
    rw [Stmt.items, Stmt.collect]
    exact b.collect_declares ..
  | assign | print | eval | ret | exit | next =>
    simp only [Stmt.items, Stmt.collect]
    exact .pure _
  | block b ih =>
    rw [Stmt.items, Stmt.collect]
    exact Block.collect_declares ih
  | ite c yes no span ihy ihn =>
    cases no with
    | none =>
      rw [Stmt.items, Stmt.collect]
      exact (Block.collect_declares ihy).bind (fun _ => .pure _) fun _ => .pure _
    | some no =>
      rw [Stmt.items, Stmt.collect]
      exact (Block.collect_declares ihy).bind (fun _ => Block.collect_declares (ihn no rfl))
        fun _ => Block.collect_keeps (fun s _ => s.collect_keeps) _
  | loop c body span ih =>
    rw [Stmt.items, Stmt.collect]
    exact Block.collect_declares ih
  | doWhile body c span ih =>
    rw [Stmt.items, Stmt.collect]
    exact Block.collect_declares ih
  | forLoop first test step body span ihf ihs ih =>
    cases first with
    | none =>
      simp only [Stmt.items, Stmt.collect, Block.collectBody_eq, Block.items_eq]
      exact openScope_declares (by decide) (fun _ => collectAll_declares ih) fun _ => collectAll_keeps_all ..
    | some s =>
      simp only [Stmt.items, Stmt.collect, Block.collectBody_eq, Block.items_eq]
      exact openScope_declares (by decide)
        (fun inner => (ihf s rfl _ inner).bind (fun _ => collectAll_declares ih)
          fun _ => collectAll_keeps_all ..)
        fun _ => (s.collect_keeps _).bind fun _ => collectAll_keeps_all ..
  | foreach item collection body span ih =>
    simp only [Stmt.items, Stmt.collect, Block.collectBody_eq, Block.items_eq]
    refine openScope_declares (by decide) (fun inner => Declares.get.bind (fun _ => ?_) fun _ => ?_)
      fun inner => Keeps.get.bind fun _ => ?_
    · exact (declare_declares _ 0).bind (fun _ => collectAll_declares ih) fun _ => collectAll_keeps_all ..
    · exact (declare_keeps ..).bind fun _ => collectAll_keeps_all ..
    · exact (declare_keeps ..).bind fun _ => collectAll_keeps_all ..
  | switch subject cases default span ihc ihd =>
    cases default with
    | none =>
      rw [Stmt.items, Stmt.collect]
      exact (collectCases_declares ihc).bind (fun _ => .pure _) fun _ => .pure _
    | some body =>
      rw [Stmt.items, Stmt.collect]
      exact (collectCases_declares ihc).bind (fun _ => collectAll_declares (ihd body rfl))
        fun _ => collectAll_keeps_all ..
  | tryCatch body caught handler span ihb ihh =>
    simp only [Stmt.items, Stmt.collect, Block.collectBody_eq, Block.items_eq handler]
    have hq (d : Nat → Declaration) (inner : Nat) : Keeps Collection.Quiets
        (Collect.declare inner (d inner) >>= fun _ => collectAll inner handler.body) :=
      (declare_keeps ..).bind fun _ => collectAll_keeps_all ..
    refine (Block.collect_declares ihb).bind (fun _ => openScope_declares (by decide) (fun inner => ?_)
      (hq _)) fun _ => (openScope_keeps ..).bind (hq _)
    exact (declare_declares _ 0).bind (fun _ => collectAll_declares ihh) fun _ => collectAll_keeps_all ..
  | function f ih =>
    rw [Stmt.items, Stmt.collect]
    exact Function.collect_declares _ ih
  | classDef c ih =>
    rw [Stmt.items, Stmt.collect]
    exact Class.collect_declares ih

theorem Program.collect_declares {p : Program} (h : p.collect.conflicts = []) :
    Collects Table.global p.items .empty p.collect.table :=
  @collectAll_declares .origin Table.global p.statements (fun s _ => s.collect_declares) {} h rfl

end ThreeAddress
