import Mathlib.Data.List.Nodup
import Mathlib.Data.List.Perm.Subperm
import Mathlib.Logic.Relation
import ThreeAddress.Proofs.Scope.Consistent

namespace ThreeAddress

namespace Table

/-- The scope `i` is a child of `p` and belongs to the frame that `p` belongs to. -/
def Nests (t : Table) (p i : Nat) : Prop := i ∈ t.children p ∧ t.sharesFrame i

/-- From `root` the way down to a scope passes through no function and no class. -/
def Inside (t : Table) (root : Nat) : Nat → Prop := Relation.ReflTransGen t.Nests root

variable {t : Table} {x : Index} {cs is : List Nat} {i j p q root : Nat} {s : Scope} {y : Symbol}
  {id owner : SymbolId}

theorem children_eq (hs : t.scopes[i]? = some s) : t.children i = s.children := by
  rw [children, hs]
  rfl

theorem sharesFrame_eq (hs : t.scopes[i]? = some s) : t.sharesFrame i = !s.kind.opensFrame := by
  rw [sharesFrame, hs]
  rfl

theorem inside_iff : t.Inside p i ↔ i = p ∨ ∃ c ∈ t.children p, t.sharesFrame c ∧ t.Inside c i := by
  rw [Inside, Relation.ReflTransGen.cases_head_iff, eq_comm]
  simp only [Nests, and_assoc, Inside]

namespace Linked

variable (h : t.Linked)
include h

theorem lt_of_mem_children (hi : i ∈ t.children p) : p < i ∧ i < t.size := by
  obtain ⟨s, hs, hp⟩ := h.listed.1 hi
  exact ⟨h.lt_of_parent hs hp, lt_size hs⟩

theorem parent_unique (hp : i ∈ t.children p) (hq : i ∈ t.children q) : p = q := by
  obtain ⟨s, hs, hp⟩ := h.listed.1 hp
  obtain ⟨r, hr, hq⟩ := h.listed.1 hq
  cases hs.symm.trans hr
  exact Option.some.inj (hp.symm.trans hq)

theorem le_of_inside (hi : t.Inside p i) : p ≤ i := by
  induction hi with
  | refl => exact Nat.le_refl _
  | tail _ hn ih => exact Nat.le_trans ih (Nat.le_of_lt (h.lt_of_mem_children hn.1).1)

/-- Two scopes above the same scope are above each other, since there is one way up. -/
theorem inside_total (hp : t.Inside p i) (hq : t.Inside q i) : t.Inside p q ∨ t.Inside q p := by
  have hup : Relator.RightUnique (Function.swap t.Nests) :=
    fun _ _ _ hp hq => h.parent_unique hp.1 hq.1
  have := Relation.ReflTransGen.total_of_right_unique hup (Relation.reflTransGen_swap.2 hp)
    (Relation.reflTransGen_swap.2 hq)
  simpa only [Relation.reflTransGen_swap, or_comm, Inside] using this

theorem eq_of_inside_sibling (hi : i ∈ t.children p) (hj : j ∈ t.children p) (hij : t.Inside i j) :
    i = j := by
  cases hij with
  | refl => rfl
  | tail hq hn =>
    cases h.parent_unique hn.1 hj
    have := h.le_of_inside hq
    have := (h.lt_of_mem_children hi).1
    omega

/-- Every list of scopes has a preorder, by induction on the number of scopes after them. -/
theorem exists_regions_of (n : Nat) (hcs : ∀ c ∈ cs, c < t.size ∧ t.size ≤ c + n) :
    ∃ is, t.Regions cs is := by
  induction n generalizing cs with
  | zero =>
    obtain rfl : cs = [] := List.eq_nil_iff_forall_not_mem.2 fun c hc => by have := hcs c hc; omega
    exact ⟨_, .nil⟩
  | succ n ih =>
    induction cs with
    | nil => exact ⟨_, .nil⟩
    | cons c rest ihr =>
      obtain ⟨⟨hc, hn⟩, hrest⟩ := List.forall_mem_cons.1 hcs
      obtain ⟨s, hs⟩ := exists_scope hc
      obtain ⟨is', hr⟩ := ihr hrest
      by_cases ho : s.kind.opensFrame
      · exact ⟨_, .apart hs ho hr⟩
      -- children come after their parent, so fewer scopes are left for them
      · have hbelow : ∀ i ∈ s.children, i < t.size ∧ t.size ≤ i + n := by
          intro i hi
          rw [← children_eq hs] at hi
          have := h.lt_of_mem_children hi
          omega
        obtain ⟨is, hd⟩ := ih hbelow
        exact ⟨_, .within hs ho hd hr⟩

theorem exists_regions (root : Nat) : ∃ is, t.Regions (t.children root) is :=
  h.exists_regions_of t.size fun _ hc => ⟨(h.lt_of_mem_children hc).2, Nat.le_add_left _ _⟩

end Linked

theorem Regions.mem_iff (h : t.Regions cs is) :
    i ∈ is ↔ ∃ c ∈ cs, t.sharesFrame c ∧ t.Inside c i := by
  induction h with
  | nil => simp
  | apart hs ho _ ih => simp [ih, sharesFrame_eq hs, ho]
  | within hs ho _ _ ihc ihr =>
    rw [List.cons_append, List.mem_cons, List.mem_append, ihc, ihr, ← children_eq hs, ← or_assoc,
      ← inside_iff]
    simp [sharesFrame_eq hs, ho]

theorem Regions.mem_cons_iff (h : t.Regions (t.children root) is) :
    i ∈ root :: is ↔ t.Inside root i := by
  rw [List.mem_cons, h.mem_iff, inside_iff]

theorem Regions.nodup (h : t.Regions cs is) (ht : t.Linked) (hcs : cs.Nodup)
    (hp : ∀ c ∈ cs, c ∈ t.children p) : is.Nodup := by
  induction h generalizing p with
  | nil => exact List.nodup_nil
  | apart _ _ _ ih => exact ih hcs.of_cons fun c hc => hp c (List.mem_cons_of_mem _ hc)
  | @within c s is rest is' hs ho hd hr ihd ihr =>
    rw [← children_eq hs] at hd ihd
    have hne : c ∉ rest := (List.nodup_cons.1 hcs).1
    have hrest : ∀ d ∈ rest, d ∈ t.children p := fun d hd => hp d (List.mem_cons_of_mem _ hd)
    have hbelow : (c :: is).Nodup := by
      refine List.nodup_cons.2 ⟨fun hc => ?_, ihd ((ht.order c).imp Nat.ne_of_lt) fun _ => id⟩
      obtain ⟨d, hd, -, hin⟩ := hd.mem_iff.1 hc
      have := (ht.lt_of_mem_children hd).1
      have := ht.le_of_inside hin
      omega
    refine List.nodup_append'.2 ⟨hbelow, ihr hcs.of_cons hrest, fun i hi hi' => ?_⟩
    -- a scope below two siblings would have one of them inside the other
    obtain ⟨d, hmem, -, hin⟩ := hr.mem_iff.1 hi'
    have hc : c ∈ t.children p := hp c List.mem_cons_self
    obtain hcd | hdc := ht.inside_total (hd.mem_cons_iff.1 hi) hin
    · exact hne (ht.eq_of_inside_sibling hc (hrest d hmem) hcd ▸ hmem)
    · exact hne (ht.eq_of_inside_sibling (hrest d hmem) hc hdc ▸ hmem)

theorem Regions.nodup_cons (h : t.Regions (t.children root) is) (ht : t.Linked) :
    (root :: is).Nodup := by
  refine List.nodup_cons.2 ⟨fun hr => ?_, h.nodup ht ((ht.order root).imp Nat.ne_of_lt) fun _ => id⟩
  obtain ⟨c, hc, -, hin⟩ := h.mem_iff.1 hr
  have := (ht.lt_of_mem_children hc).1
  have := ht.le_of_inside hin
  omega

/-- A search that may visit as many scopes as there are visits all of them. -/
theorem Regions.length_lt (h : t.Regions (t.children root) is) (ht : t.Linked)
    (hr : root < t.size) : is.length < t.size := by
  have hsub : (root :: is) ⊆ List.range t.size := by
    intro i hi
    obtain rfl | hi := List.mem_cons.1 hi
    · exact List.mem_range.2 hr
    · exact List.mem_range.2 (h.lt_size i hi)
  have := (List.Nodup.subperm (h.nodup_cons ht) hsub).length_le
  rwa [List.length_range] at this

theorem mem_declared : y ∈ t.declared i ↔ ∃ id : SymbolId, id.scope = i ∧ t.symbol id = .ok y := by
  simp only [declared, symbol_eq_ok]
  constructor
  · intro hy
    cases hs : t.scopes[i]? with
    | none => simp [hs] at hy
    | some s =>
      rw [hs] at hy
      obtain ⟨slot, hslot⟩ := List.mem_iff_getElem?.1 hy
      exact ⟨⟨i, slot⟩, rfl, s, hs, hslot⟩
  · rintro ⟨id, rfl, s, hs, hy⟩
    rw [hs]
    exact List.mem_of_getElem? hy

theorem mem_ids : id ∈ t.ids i ↔ id.scope = i ∧ ∃ y, t.symbol id = .ok y := by
  simp only [ids, declared, symbol_eq_ok, List.mem_map, List.mem_range]
  constructor
  · rintro ⟨slot, hslot, rfl⟩
    cases hs : t.scopes[i]? with
    | none => simp [hs] at hslot
    | some s =>
      rw [hs] at hslot
      exact ⟨rfl, _, s, rfl, List.getElem?_eq_getElem hslot⟩
  · rintro ⟨rfl, y, s, hs, hy⟩
    rw [hs]
    exact ⟨id.slot, (List.getElem?_eq_some_iff.1 hy).1, rfl⟩

theorem forall₂_ids (t : Table) (i : Nat) :
    List.Forall₂ (fun id y => t.symbol id = .ok y) (t.ids i) (t.declared i) := by
  rw [List.forall₂_iff_get]
  refine ⟨by simp [ids], fun slot hslot hd => ?_⟩
  cases hs : t.scopes[i]? with
  | none => simp [declared, hs] at hd
  | some s => simp [ids, symbol_eq_ok, hs, declared]

theorem forall₂_flatMap (t : Table) (is : List Nat) :
    List.Forall₂ (fun id y => t.symbol id = .ok y) (is.flatMap t.ids) (is.flatMap t.declared) := by
  refine List.rel_flatMap (R := Eq) (List.forall₂_refl _) fun i j hij => ?_
  subst hij
  exact t.forall₂_ids i

theorem Regions.mem_flatMap_ids (h : t.Regions (t.children root) is) :
    id ∈ (root :: is).flatMap t.ids ↔ t.Inside root id.scope ∧ ∃ y, t.symbol id = .ok y := by
  simp only [List.mem_flatMap, mem_ids, h.mem_cons_iff]
  constructor
  · rintro ⟨_, hi, rfl, hy⟩
    exact ⟨hi, hy⟩
  · rintro ⟨hi, hy⟩
    exact ⟨_, hi, rfl, hy⟩

theorem Regions.mem_flatMap_declared (h : t.Regions (t.children root) is) :
    y ∈ (root :: is).flatMap t.declared ↔
      ∃ id : SymbolId, t.Inside root id.scope ∧ t.symbol id = .ok y := by
  simp only [List.mem_flatMap, mem_declared, h.mem_cons_iff]
  constructor
  · rintro ⟨_, hi, id, rfl, hy⟩
    exact ⟨id, hi, hy⟩
  · rintro ⟨id, hi, hy⟩
    exact ⟨_, hi, id, rfl, hy⟩

theorem nodup_flatMap_ids (h : is.Nodup) : (is.flatMap t.ids).Nodup := by
  refine List.nodup_flatMap.2 ⟨fun i _ => ?_, h.imp fun {i j} hij id hi hj => ?_⟩
  · exact List.nodup_range.map fun _ _ he => congrArg SymbolId.slot he
  · exact hij ((mem_ids.1 hi).1.symm.trans (mem_ids.1 hj).1)

/-- The symbols `xs` of a frame, which stand at `found`, and what asking for one by name gives. -/
structure Gathers (t : Table) (owner : SymbolId) (root : Nat) (found : List SymbolId)
    (xs : List Symbol) : Prop where
  preorder : ∃ is, t.Regions (t.children root) is ∧ found = (root :: is).flatMap t.ids
  order : ∀ p, (t.children p).Pairwise (· < ·)
  nodup : found.Nodup
  mem_iff : ∀ id, id ∈ found ↔ t.Inside root id.scope ∧ ∃ y, t.symbol id = .ok y
  symbols : List.Forall₂ (fun id y => t.symbol id = .ok y) found xs
  frameMembers : t.frameMembers owner = .ok xs
  member : ∀ name, t.member owner name = .ok (xs.find? (·.name == name))
  member_none : ∀ name, t.member owner name = .ok none ↔
    ∀ id y, t.Inside root id.scope → t.symbol id = .ok y → y.name ≠ name

theorem frameMembers_eq (ho : t.symbol owner = .ok y) (hm : y.members = some root)
    (hs : t.scopes[root]? = some s) (h : t.Regions s.children is) (hl : is.length < t.size) :
    t.frameMembers owner = .ok ((root :: is).flatMap t.declared) := by
  rw [frameMembers, ho]
  exact (congrArg _ (congrArg Option.toList hm)).trans (gather_root hs h hl)

/-- A search for the symbols of a frame ends, and it finds each of them once. -/
theorem Built.gathers (h : Built t x) (ho : t.symbol owner = .ok y) (hm : y.members = some root)
    (hr : root < t.size) : ∃ found xs, t.Gathers owner root found xs := by
  have ht := h.sound.linked
  obtain ⟨s, hs⟩ := exists_scope hr
  obtain ⟨is, hreg⟩ := ht.exists_regions root
  have hfound : t.frameMembers owner = .ok ((root :: is).flatMap t.declared) :=
    frameMembers_eq ho hm hs (children_eq hs ▸ hreg) (hreg.length_lt ht hr)
  have hname (name : String) : t.member owner name =
      .ok (((root :: is).flatMap t.declared).find? (·.name == name)) := by
    rw [Table.member, hfound]
    rfl
  refine ⟨_, _, ⟨is, hreg, rfl⟩, ht.order, nodup_flatMap_ids (hreg.nodup_cons ht),
    fun _ => hreg.mem_flatMap_ids, t.forall₂_flatMap _, hfound, hname, fun name => ?_⟩
  simp only [hname, Except.ok.injEq, List.find?_eq_none, hreg.mem_flatMap_declared, beq_iff_eq]
  constructor
  · exact fun hn id y hi hy => hn y ⟨id, hi, hy⟩
  · rintro hn y ⟨id, hi, hy⟩
    exact hn id y hi hy

def rooms : Table where
  scopes :=
    [⟨.origin, .global, none, [1], [{ plain "f" with kind := .function, members := some 1 }]⟩,
      ⟨⟨1, 1⟩, .functionBody, some 0, [2, 4], [plain "p"]⟩,
      ⟨⟨2, 1⟩, .block, some 1, [3, 5], [plain "first"]⟩,
      ⟨⟨3, 1⟩, .functionBody, some 2, [], [plain "hidden"]⟩,
      ⟨⟨6, 1⟩, .block, some 1, [], [plain "last"]⟩,
      ⟨⟨5, 1⟩, .block, some 2, [], [plain "inner"]⟩]

theorem built_gathers_rooms : ∃ x, Built rooms x ∧
    rooms.frameMembers ⟨0, 0⟩ = .ok [plain "p", plain "first", plain "inner", plain "last"] ∧
    ∃ found xs, rooms.Gathers ⟨0, 0⟩ 1 found xs := by
  have body := Built.empty.addScope ⟨1, 1⟩ .functionBody (show 0 < _ by decide)
  have f := body.declare { plain "f" with kind := .function, members := some 1 } (show 0 < _ by decide)
  have p := f.declare (plain "p") (show 1 < _ by decide)
  have block := p.addScope ⟨2, 1⟩ .block (show 1 < _ by decide)
  have first := block.declare (plain "first") (show 2 < _ by decide)
  have other := first.addScope ⟨3, 1⟩ .functionBody (show 2 < _ by decide)
  have hidden := other.declare (plain "hidden") (show 3 < _ by decide)
  have second := hidden.addScope ⟨6, 1⟩ .block (show 1 < _ by decide)
  have last := second.declare (plain "last") (show 4 < _ by decide)
  have within := last.addScope ⟨5, 1⟩ .block (show 2 < _ by decide)
  have h : Built rooms _ := within.declare (plain "inner") (show 5 < _ by decide)
  exact ⟨_, h, rfl, Built.gathers h rfl rfl (by decide)⟩

end Table

end ThreeAddress
