import ThreeAddress.Proofs.Frames.Collected
import ThreeAddress.Proofs.Scope.Addresses

/-! Tables that are built call by call. Links to parents, lists of children, and the two indexes that
scopes and symbols are found by say the same thing, whatever calls there were. -/

namespace ThreeAddress

/-- What scopes and symbols are found by, written down along with the calls: a key gives a scope, and
in a scope a name gives a slot. -/
structure Index where
  keys : Position → Option Nat
  names : Nat → String → Option Nat

namespace Index

def empty : Index := ⟨Function.update (fun _ => none) .origin (some Table.global), fun _ _ => none⟩

def addScope (x : Index) (key : Position) (id : Nat) : Index :=
  match x.keys key with
  | some _ => x
  | none => { x with keys := Function.update x.keys key (some id) }

def declare (x : Index) (here : Nat) (name : String) (slot : Nat) : Index :=
  match x.names here name with
  | some _ => x
  | none =>
    { x with names := Function.update x.names here (Function.update (x.names here) name (some slot)) }

theorem addScope_fresh {x : Index} {key : Position} (h : x.keys key = none) (id : Nat) :
    x.addScope key id = { x with keys := Function.update x.keys key (some id) } := by
  rw [addScope, h]

theorem declare_fresh {x : Index} {here : Nat} {name : String} (h : x.names here name = none)
    (slot : Nat) : x.declare here name slot =
      { x with names := Function.update x.names here (Function.update (x.names here) name slot) } := by
  rw [declare, h]

/-- The index finds what a search through the table finds. -/
structure Finds (x : Index) (t : Table) : Prop where
  keys : x.keys = t.scopeFor
  names : ∀ ⦃i s⦄, t.scopes[i]? = some s → x.names i = s.slot?
  fresh : ∀ i ≥ t.size, x.names i = fun _ => none

end Index

namespace Table

/-- A table with its index, after some calls for scopes that are there. -/
inductive Built : Table → Index → Prop
  | empty : Built .empty .empty
  | addScope {t : Table} {x : Index} {here : Nat} (key : Position) (kind : ScopeKind) : Built t x →
    here < t.size → Built (t.addScope key kind here).2 (x.addScope key t.size)
  | declare {t : Table} {x : Index} {here : Nat} (y : Symbol) : Built t x → here < t.size →
    Built (t.declare here y).2 (x.declare here y.name (t.declared here).length)

/-- The scopes that are at `here` or below it. -/
inductive Below (t : Table) (here : Nat) : Nat → Prop
  | self : Below t here here
  | child {i p : Nat} {s : Scope} : t.scopes[i]? = some s → s.parent = some p → Below t here p →
    Below t here i

/-- Parents and children are two readings of one tree, and a key belongs to one scope of it. -/
structure Linked (t : Table) : Prop where
  root : ∃ s, t.scopes[global]? = some s ∧ s.parent = none
  parent : ∀ ⦃i s⦄, t.scopes[i]? = some s → i ≠ global → ∃ p < i, s.parent = some p
  listed : ∀ {i p : Nat}, i ∈ t.children p ↔ ∃ s, t.scopes[i]? = some s ∧ s.parent = some p
  order : ∀ p, (t.children p).Pairwise (· < ·)
  key : ∀ ⦃i s⦄, t.scopes[i]? = some s → t.scopeFor s.key = some i

section Steps

variable {t t' : Table} {here i p : Nat} {s s' : Scope} {y : Symbol} {key : Position}
  {kind : ScopeKind}

def link (s : Scope) : Position × Option Nat × List Nat := (s.key, s.parent, s.children)

theorem scopeFor_congr (h : ∀ i : Nat, t'.scopes[i]?.map link = t.scopes[i]?.map link) :
    t'.scopeFor = t.scopeFor := by
  have hl : t'.scopes.map link = t.scopes.map link := List.ext_getElem? (by simpa using h)
  have hk : t'.scopes.map (·.key) = t.scopes.map (·.key) := by
    simpa [link, Function.comp_def] using congrArg (List.map Prod.fst) hl
  have hs (t : Table) (key : Position) : t.scopeFor key = (t.scopes.map (·.key)).findIdx? (· == key) := by
    rw [scopeFor, List.findIdx?_map]
    rfl
  funext key
  rw [hs, hs, hk]

theorem Linked.congr (h : t.Linked) (hl : ∀ i : Nat, t'.scopes[i]?.map link = t.scopes[i]?.map link) :
    t'.Linked := by
  have hback {i : Nat} {s' : Scope} (hs' : t'.scopes[i]? = some s') :
      ∃ s, t.scopes[i]? = some s ∧ s.key = s'.key ∧ s.parent = s'.parent := by
    have := hl i
    rw [hs', Option.map_some, eq_comm, Option.map_eq_some_iff] at this
    obtain ⟨s, hs, he⟩ := this
    simp only [link, Prod.mk.injEq] at he
    exact ⟨s, hs, he.1, he.2.1⟩
  have hchildren (p : Nat) : t'.children p = t.children p := by
    have := congrArg (Option.map (·.2.2)) (hl p)
    simp only [Option.map_map, Function.comp_def, link] at this
    rw [children, children, this]
  have hparent {i : Nat} {q : Option Nat} : (∃ s, t'.scopes[i]? = some s ∧ s.parent = q) ↔
      ∃ s, t.scopes[i]? = some s ∧ s.parent = q := by
    have := congrArg (Option.map (·.2.1)) (hl i)
    simp only [Option.map_map, Function.comp_def, link] at this
    rw [← Option.map_eq_some_iff, ← Option.map_eq_some_iff, this]
  exact {
    root := hparent.2 h.root
    parent := by
      intro i s' hs' hi
      obtain ⟨s, hs, -, hp⟩ := hback hs'
      rw [← hp]
      exact h.parent hs hi
    listed := by
      intro i p
      rw [hchildren, hparent, h.listed]
    order := by
      intro p
      rw [hchildren]
      exact h.order p
    key := by
      intro i s' hs'
      obtain ⟨s, hs, hk, -⟩ := hback hs'
      rw [scopeFor_congr hl, ← hk]
      exact h.key hs }

theorem link_push (i : Nat) : (t.push here y).scopes[i]?.map link = t.scopes[i]?.map link := by
  rw [scopes_push, Option.map_map]
  congr 1
  funext s
  dsimp only [Function.comp]
  split <;> rfl

theorem push_size : (t.push here y).size = t.size := by simp [push, modifyScope, size]

theorem slot?_push (h : s.slot? y.name = none) :
    Scope.slot? { s with symbols := s.symbols ++ [y] } =
      Function.update s.slot? y.name (some s.symbols.length) := by
  funext name
  by_cases hn : name = y.name
  · subst hn
    rw [Scope.slot?] at h
    simp [Scope.slot?, List.findIdx?_append, h]
  · rw [Function.update_of_ne hn]
    simp [Scope.slot?, List.findIdx?_append, Ne.symm hn]

theorem Linked.empty : Linked .empty where
  root := ⟨_, rfl, rfl⟩
  parent i s hs hi := by
    have := lt_size hs
    exact absurd (Nat.lt_one_iff.1 this) hi
  listed {i p} := by
    constructor
    · intro hi
      obtain _ | p := p <;> cases hi
    · rintro ⟨s, hs, hp⟩
      obtain rfl := List.mem_singleton.1 (List.mem_of_getElem? hs)
      cases hp
  order p := by
    obtain _ | p := p <;> exact .nil
  key i s hs := by
    obtain rfl := Nat.lt_one_iff.1 (lt_size hs)
    cases hs
    rfl

theorem scopes_of_grow (hk : t.scopeFor key = none) (hh : here < t.size)
    (hs : (t.grow key kind here).scopes[i]? = some s') :
    (i = t.size ∧ s' = ⟨key, kind, some here, [], []⟩) ∨
      ∃ s, t.scopes[i]? = some s ∧
        s' = if here = i then { s with children := s.children ++ [t.size] } else s := by
  have hi := lt_size hs
  rw [grow_size hk] at hi
  obtain hi | rfl := Nat.lt_succ_iff_lt_or_eq.1 hi
  · rw [scopes_grow hk hi, Option.map_eq_some_iff] at hs
    obtain ⟨s, hs, he⟩ := hs
    exact .inr ⟨s, hs, he.symm⟩
  · rw [scopes_grow_size hk hh] at hs
    exact .inl ⟨rfl, (Option.some.inj hs).symm⟩

theorem children_grow (hk : t.scopeFor key = none) (hh : here < t.size) (p : Nat) :
    (t.grow key kind here).children p = t.children p ++ if here = p then [t.size] else [] := by
  obtain hp | hp := Nat.lt_or_ge p t.size
  · obtain ⟨s, hs⟩ := exists_scope hp
    rw [children, children, scopes_grow hk hp, hs]
    by_cases he : here = p <;> simp [he]
  · have hn : t.children p = [] := by
      rw [children, List.getElem?_eq_none_iff.2 hp]
      rfl
    rw [hn, if_neg (by omega), List.append_nil]
    obtain hp | rfl := Nat.lt_or_eq_of_le hp
    · have : (t.grow key kind here).scopes.length ≤ p := by
        rw [← size, grow_size hk]
        exact hp
      rw [children, List.getElem?_eq_none_iff.2 this]
      rfl
    · exact grow_children_size hk hh

theorem parent_grow (hk : t.scopeFor key = none) (hh : here < t.size) :
    (∃ s, (t.grow key kind here).scopes[i]? = some s ∧ s.parent = some p) ↔
      (∃ s, t.scopes[i]? = some s ∧ s.parent = some p) ∨ (i = t.size ∧ here = p) := by
  constructor
  · rintro ⟨s', hs', hp⟩
    obtain ⟨rfl, rfl⟩ | ⟨s, hs, rfl⟩ := scopes_of_grow hk hh hs'
    · exact .inr ⟨rfl, Option.some.inj hp⟩
    · refine .inl ⟨s, hs, ?_⟩
      split at hp <;> exact hp
  · rintro (⟨s, hs, hp⟩ | ⟨rfl, rfl⟩)
    · refine ⟨_, by rw [scopes_grow hk (lt_size hs), hs]; rfl, ?_⟩
      dsimp only
      split <;> exact hp
    · exact ⟨_, scopes_grow_size hk hh, rfl⟩

theorem Linked.grow (h : t.Linked) (hk : t.scopeFor key = none) (hh : here < t.size) :
    (t.grow key kind here).Linked where
  root := by
    obtain ⟨s, hs, hp⟩ := h.root
    refine ⟨_, by rw [scopes_grow hk (lt_size hs), hs]; rfl, ?_⟩
    dsimp only
    split <;> exact hp
  parent i s' hs' hi := by
    obtain ⟨rfl, rfl⟩ | ⟨s, hs, rfl⟩ := scopes_of_grow hk hh hs'
    · exact ⟨here, hh, rfl⟩
    · obtain ⟨p, hp, he⟩ := h.parent hs hi
      refine ⟨p, hp, ?_⟩
      split <;> exact he
  listed {i p} := by
    rw [children_grow hk hh, List.mem_append, h.listed, parent_grow hk hh]
    by_cases he : here = p <;> simp [he]
  order p := by
    rw [children_grow hk hh]
    split
    -- the new scope comes last among its siblings and has the largest number
    · refine List.pairwise_append.2 ⟨h.order p, List.pairwise_singleton _ _, ?_⟩
      intro i hi j hj
      obtain ⟨s, hs, -⟩ := h.listed.1 hi
      obtain rfl := List.mem_singleton.1 hj
      exact lt_size hs
    · rw [List.append_nil]
      exact h.order p
  key i s' hs' := by
    obtain ⟨rfl, rfl⟩ | ⟨s, hs, rfl⟩ := scopes_of_grow hk hh hs'
    · exact grow_scopeFor hk hh
    · have hw : t.Widens here (t.grow key kind here) := grow_widens hk
      have := hw.scopeFor (h.key hs)
      split <;> exact this

theorem scopeFor_grow (hk : t.scopeFor key = none) (hh : here < t.size) :
    (t.grow key kind here).scopeFor = Function.update t.scopeFor key (some t.size) := by
  funext key'
  by_cases he : key' = key
  · subst he
    rw [Function.update_self, grow_scopeFor hk hh]
  · rw [Function.update_of_ne he]
    cases hk' : t.scopeFor key' with
    | some i => exact (grow_widens hk).scopeFor hk'
    | none =>
      rw [scopeFor, List.findIdx?_eq_none_iff] at hk' ⊢
      intro s' hs'
      obtain ⟨i, hi⟩ := List.mem_iff_getElem?.1 hs'
      obtain ⟨rfl, rfl⟩ | ⟨s, hs, rfl⟩ := scopes_of_grow hk hh hi
      · simpa using Ne.symm he
      · have := hk' s (List.mem_of_getElem? hs)
        split <;> exact this

end Steps

end Table

namespace Index.Finds

variable {t : Table} {x : Index} {here : Nat} {s : Scope} {y : Symbol} {key : Position}
  {kind : ScopeKind}

theorem empty : Index.empty.Finds .empty where
  keys := by
    funext key
    by_cases hk : key = .origin
    · subst hk
      rfl
    · have hs : Table.empty.scopeFor key = none := by
        have hb : (Position.origin == key) = false := beq_false_of_ne (Ne.symm hk)
        simp [Table.scopeFor, Table.empty, hb]
      rw [hs]
      exact Function.update_of_ne hk (some Table.global) fun _ => none
  names i s hs := by
    obtain rfl := List.mem_singleton.1 (List.mem_of_getElem? hs)
    rfl
  fresh _ _ := rfl

theorem grow (h : x.Finds t) (hk : t.scopeFor key = none) (hh : here < t.size) :
    (x.addScope key t.size).Finds (t.grow key kind here) := by
  rw [addScope_fresh (h.keys ▸ hk), h.keys]
  refine ⟨(Table.scopeFor_grow hk hh).symm, ?_, ?_⟩
  · intro i s' hs'
    obtain ⟨rfl, rfl⟩ | ⟨s, hs, rfl⟩ := Table.scopes_of_grow hk hh hs'
    · exact h.fresh _ (Nat.le_refl _)
    · rw [h.names hs]
      split <;> rfl
  · intro i hi
    rw [Table.grow_size hk] at hi
    exact h.fresh i (by omega)

theorem push (h : x.Finds t) (hs : t.scopes[here]? = some s) (hn : s.slot? y.name = none) :
    (x.declare here y.name s.symbols.length).Finds (t.push here y) := by
  rw [declare_fresh (h.names hs ▸ hn)]
  refine ⟨?_, ?_, ?_⟩
  · rw [Table.scopeFor_congr Table.link_push, h.keys]
  · intro i s' hs'
    rw [Table.scopes_push, Option.map_eq_some_iff] at hs'
    obtain ⟨r, hr, rfl⟩ := hs'
    split
    next hi =>
      subst hi
      cases hs.symm.trans hr
      simp only [Function.update_self]
      rw [Table.slot?_push hn, h.names hs]
    next hi =>
      simp only [Function.update_of_ne (Ne.symm hi)]
      exact h.names hr
  · intro i hi
    rw [Table.push_size] at hi
    have := Table.lt_size hs
    have hne : i ≠ here := by omega
    simp only [Function.update_of_ne hne]
    exact h.fresh i hi

end Index.Finds

namespace Table

variable {t t' : Table} {x : Index} {here i : Nat} {s : Scope} {y : Symbol} {key : Position}
  {kind : ScopeKind} {name : String} {id : SymbolId}

theorem addScope_taken {taken : Nat} (hk : t.scopeFor key = some taken) :
    t.addScope key kind here = (.error taken, t) := by
  rw [addScope, hk]

theorem addScope_fresh (hk : t.scopeFor key = none) :
    t.addScope key kind here = (.ok t.size, t.grow key kind here) := by
  rw [grow, addScope, hk]

/-- What holds of a table and its index after every sequence of calls. -/
structure Sound (t : Table) (x : Index) : Prop where
  linked : t.Linked
  distinct : t.Distinct
  finds : x.Finds t

theorem Sound.addScope (h : t.Sound x) (hh : here < t.size) :
    (t.addScope key kind here).2.Sound (x.addScope key t.size) := by
  cases hk : t.scopeFor key with
  | some taken =>
    have hx : x.addScope key t.size = x := by rw [Index.addScope, h.finds.keys, hk]
    rw [addScope_taken hk, hx]
    exact h
  | none =>
    rw [addScope_fresh hk]
    refine ⟨h.linked.grow hk hh, ?_, h.finds.grow hk hh⟩
    exact h.distinct.addScope kind here hk

theorem Sound.declare (h : t.Sound x) (hh : here < t.size) :
    (t.declare here y).2.Sound (x.declare here y.name (t.declared here).length) := by
  obtain ⟨s, hs⟩ := exists_scope hh
  have hd : t.declared here = s.symbols := by rw [declared, hs]; rfl
  rw [declare_eq hs, hd]
  cases hn : s.slot? y.name with
  | some slot =>
    have hx : x.declare here y.name s.symbols.length = x := by rw [Index.declare, h.finds.names hs, hn]
    rw [hx]
    exact h
  | none => exact ⟨h.linked.congr link_push, h.distinct.push hs hn, h.finds.push hs hn⟩

theorem Built.sound (h : Built t x) : t.Sound x := by
  induction h with
  | empty => exact ⟨.empty, .empty, .empty⟩
  | addScope key kind _ hh ih => exact ih.addScope hh
  | declare y _ hh ih => exact ih.declare hh

end Table

end ThreeAddress
