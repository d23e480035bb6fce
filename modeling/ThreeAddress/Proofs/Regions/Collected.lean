import ThreeAddress.Proofs.Frames.Collected
import ThreeAddress.Proofs.Lowering.Forms
import ThreeAddress.Proofs.Regions.Table

namespace ThreeAddress

namespace Table.Has

variable {t : Table} {rs : List Region} {here : Nat} {r : Region}

theorem push {n : Naming} {x : Symbol} (h : t.Has rs) (hr : rs[here]? = some r)
    (hx : n.Records t r.owner x) : (t.push here x).Has (extend rs here [n] []) where
  size := by
    rw [extend, List.append_nil, List.length_modify, ← h.size]
    exact List.length_modify ..
  scopes {i q} hq := by
    rw [extend_getElem?, List.append_nil, Option.map_eq_some_iff] at hq
    obtain ⟨q, hq, rfl⟩ := hq
    obtain ⟨s, hs, hh⟩ := h.scopes hq
    have hw : q.Holds (t.push here x) s := hh.widens push_widens
    rw [scopes_push, hs]
    refine ⟨_, rfl, ?_⟩
    dsimp only
    split
    next he =>
      cases hr.symm.trans (he ▸ hq)
      have hx' : n.Records (t.push here x) r.owner x :=
        { hx with members := rel_mono hx.members fun _ _ hk => push_widens.scopeFor hk }
      exact ⟨hw.key, hw.kind, hw.parent, List.rel_append hw.names (.cons hx' .nil)⟩
    next => exact hw

theorem grow {key : Position} {kind : ScopeKind} {owner : Option String} (h : t.Has rs)
    (hw : WellDeclared rs) (hr : rs[here]? = some r) (hk : t.scopeFor key = none) :
    (t.grow key kind here).Has (rs ++ [⟨key, kind, some r.key, owner, []⟩]) where
  size := by rw [grow_size hk, h.size, List.length_append, List.length_singleton]
  scopes {i q} hq := by
    have hh : here < t.size := by
      rw [h.size]
      exact (List.getElem?_eq_some_iff.1 hr).1
    have hg : t.Widens here (t.grow key kind here) := grow_widens hk
    obtain hi | hi := Nat.lt_or_ge i t.size
    · rw [List.getElem?_append_left (h.size ▸ hi)] at hq
      obtain ⟨s, hs, hh⟩ := h.scopes hq
      have hw := hh.widens hg
      rw [scopes_grow hk hi, hs]
      refine ⟨_, rfl, ?_⟩
      dsimp only
      split
      · exact ⟨hw.key, hw.kind, hw.parent, hw.names⟩
      · exact hw
    · have hlt := (List.getElem?_eq_some_iff.1 hq).1
      rw [List.length_append, List.length_singleton, ← h.size] at hlt
      obtain rfl : i = t.size := by omega
      rw [h.size, List.getElem?_concat_length] at hq
      cases hq
      refine ⟨_, scopes_grow_size hk hh, rfl, rfl, .some (hg.scopeFor (h.scopeFor hw hr)), .nil⟩

end Table.Has

/-- What was collected so far are these regions. -/
structure Collection.Fits (s : Collection) (rs : List Region) : Prop where
  accepts : s.conflicts = [] ↔ WellDeclared rs
  has : s.conflicts = [] → s.table.Has rs

theorem Collection.Fits.spoilt {s : Collection} {rs : List Region} (hs : s.conflicts ≠ [])
    (hrs : ¬WellDeclared rs) : s.Fits rs :=
  ⟨iff_of_false hs hrs, fun h => absurd h hs⟩

namespace Collect

/-- The action adds names to the region at `here`, and the regions `inner` behind the others. -/
def Adds (here : Nat) (key : Position) (owner : Option String) (names : List Naming)
    (inner : List Region) (act : Collect Unit) : Prop :=
  ∀ ⦃s rs r⦄, s.Fits rs → rs[here]? = some r → r.key = key → r.owner = owner →
    (act s).2.Fits (extend rs here names inner)

variable {here : Nat} {key : Position} {owner : Option String} {names names' : List Naming}
  {inner inner' rs : List Region} {s : Collection} {r : Region} {act : Collect Unit}
  {f : Unit → Collect Unit}

namespace Adds

theorem pure (a : Unit) : Adds here key owner [] [] (Pure.pure a : Collect Unit) := by
  intro s rs r h _ _ _
  rw [extend_nil, List.append_nil]
  exact h

theorem bind (h : Adds here key owner names inner act) (k : Adds here key owner names' inner' (f ())) :
    Adds here key owner (names ++ names') (inner ++ inner') (act >>= f) := by
  intro s rs r hs hr hk ho
  rw [← extend_extend hr]
  exact k (h hs hr hk ho) (extend_here hr) hk ho

theorem get_bind {f : Collection → Collect Unit} (h : ∀ s, Adds here key owner names inner (f s)) :
    Adds here key owner names inner (MonadState.get >>= f) := fun s _ _ => @h s _ _ _

end Adds

theorem declare_fits {d : Declaration} (params : Nat) {n : Naming} (h : s.Fits rs)
    (hr : rs[here]? = some r) (hn : n.name = d.name)
    (hx : s.conflicts = [] → n.Records s.table r.owner { Symbol.ofDeclaration d with params }) :
    (declare here d params s).2.Fits (extend rs here [n] []) := by
  by_cases hs : s.conflicts = []
  · obtain ⟨sc, hsc, hh⟩ := (h.has hs).scopes hr
    have hw := h.accepts.1 hs
    have hd : ({ Symbol.ofDeclaration d with params } : Symbol).name = n.name := hn.symm
    rw [declare_eq, Table.declare_eq hsc, hd]
    cases hslot : sc.slot? n.name with
    | some slot =>
      refine .spoilt (by simp) fun hc => ?_
      rw [wellDeclared_declare hw hr, ← hh.slot?, hslot] at hc
      cases hc
    | none =>
      refine ⟨iff_of_true hs ((wellDeclared_declare hw hr).2 ((hh.slot? _).1 hslot)), fun _ => ?_⟩
      exact (h.has hs).push hr (hx hs)
  · have hq : Keeps Collection.Quiets (declare here d params) := declare_keeps ..
    exact .spoilt (fun hc => hs (@hq s hc)) fun hc => hs (h.accepts.2 hc.of_extend)

theorem openScope_fits (span : Span) (kind : ScopeKind) (h : s.Fits rs) (hr : rs[here]? = some r)
    (owner : Option String) :
    (openScope span kind here s).2.Fits (rs ++ [⟨span.toPosition, kind, some r.key, owner, []⟩]) ∧
      ((openScope span kind here s).2.conflicts = [] → (openScope span kind here s).1 = rs.length) := by
  rw [openScope_eq]
  by_cases hs : s.conflicts = []
  · have ht := h.has hs
    have hw := h.accepts.1 hs
    cases hk : s.table.scopeFor span.toPosition with
    | some taken =>
      refine ⟨.spoilt (by simp) fun hc => ?_, fun hc => by simp at hc⟩
      rw [wellDeclared_concat rfl, ← ht.scopeFor_eq_none, hk] at hc
      cases hc.2
    | none =>
      refine ⟨⟨iff_of_true hs ((wellDeclared_concat rfl).2 ⟨hw, ht.scopeFor_eq_none.1 hk⟩),
        fun _ => ?_⟩, fun _ => ht.size⟩
      exact ht.grow hw hr hk
  · have hq : Keeps Collection.Quiets (openScope span kind here) := openScope_keeps ..
    have hs' := fun hc => hs (@hq s hc)
    rw [openScope_eq] at hs'
    refine ⟨.spoilt hs' fun hc => hs (h.accepts.2 ((wellDeclared_concat rfl).1 hc).1), ?_⟩
    exact fun hc => absurd hc hs'

theorem declare_adds {d : Declaration} {params : Nat} {n : Naming}
    (hx : ∀ t, n.Records t owner { Symbol.ofDeclaration d with params }) :
    Adds here key owner [n] [] (declare here d params) := by
  rintro s rs r h hr _ rfl
  exact declare_fits params h hr (hx s.table).name.symm fun _ => hx _

theorem openScope_adds {span : Span} {k : Nat → Collect Unit}
    (h : ∀ i, Adds i span.toPosition none names inner (k i))
    (hq : ∀ i, Keeps Collection.Quiets (k i)) :
    Adds here key owner [] (⟨span.toPosition, .block, some key, none, names⟩ :: inner)
      (openScope span .block here >>= k) := by
  rintro s rs r hs hr rfl rfl
  obtain ⟨hf, hi⟩ := openScope_fits span .block hs hr none
  have he : extend rs here [] (⟨span.toPosition, .block, some r.key, none, names⟩ :: inner) =
      extend (rs ++ [⟨span.toPosition, .block, some r.key, none, []⟩]) rs.length names inner := by
    rw [extend_concat, extend_nil]
    rfl
  change (k (openScope span .block here s).1 (openScope span .block here s).2).2.Fits _
  rw [he]
  by_cases hc : (openScope span .block here s).2.conflicts = []
  · rw [hi hc]
    exact h _ hf List.getElem?_concat_length rfl rfl
  · exact .spoilt (fun hc' => hc (@hq _ _ hc')) fun hw => hc (hf.accepts.2 hw.of_extend)

theorem frame_adds {span : Span} {kind : ScopeKind} {d : Nat → Declaration} {params : Nat} {n : Naming}
    {owner' : Option String} {k : Nat → Collect Unit}
    (hx : ∀ t i, t.scopeFor span.toPosition = some i →
      n.Records t owner { Symbol.ofDeclaration (d i) with params })
    (hn : ∀ i, n.name = (d i).name)
    (h : ∀ i, Adds i span.toPosition owner' names inner (k i))
    (hq : ∀ i, Keeps Collection.Quiets (k i)) :
    Adds here key owner [n] (⟨span.toPosition, kind, some key, owner', names⟩ :: inner)
      (openScope span kind here >>= fun i => declare here (d i) params >>= fun _ => k i) := by
  rintro s rs r hs hr rfl rfl
  have hlt := (List.getElem?_eq_some_iff.1 hr).1
  obtain ⟨hf, hi⟩ := openScope_fits span kind hs hr owner'
  have hr₁ : (rs ++ [(⟨span.toPosition, kind, some r.key, owner', []⟩ : Region)])[here]? = some r := by
    rw [List.getElem?_append_left hlt, hr]
  have hd := declare_fits params hf hr₁ (hn (openScope span kind here s).1) fun hc => by
    refine hx _ _ ?_
    rw [hi hc]
    exact (hf.has hc).scopeFor (hf.accepts.1 hc) List.getElem?_concat_length
  have hq₁ : Keeps Collection.Quiets (declare here (d (openScope span kind here s).1) params) :=
    declare_keeps ..
  have he : extend rs here [n] (⟨span.toPosition, kind, some r.key, owner', names⟩ :: inner) =
      extend (extend (rs ++ [⟨span.toPosition, kind, some r.key, owner', []⟩]) here [n] []) rs.length
        names inner := by
    rw [extend_within hr]
    rfl
  change (k (openScope span kind here s).1
    (declare here (d (openScope span kind here s).1) params (openScope span kind here s).2).2).2.Fits _
  rw [he]
  -- after a conflict the table no longer matters, only that the regions are refused as well
  by_cases hc : (declare here (d (openScope span kind here s).1) params
      (openScope span kind here s).2).2.conflicts = []
  · rw [hi (@hq₁ _ hc)] at hd ⊢
    have hnew : (extend (rs ++ [⟨span.toPosition, kind, some r.key, owner', []⟩]) here [n]
        [])[rs.length]? = some ⟨span.toPosition, kind, some r.key, owner', []⟩ := by
      rw [extend_getElem?, List.append_nil, List.getElem?_concat_length, Option.map_some,
        if_neg (Nat.ne_of_lt hlt)]
    exact h _ hd hnew rfl rfl
  · exact .spoilt (fun hc' => hc (@hq _ _ hc')) fun hw => hc (hd.accepts.2 hw.of_extend)

end Collect

open Collect

variable {here : Nat} {key : Position} {owner : Option String}

theorem Binding.collect_adds (b : Binding) (kind : SymbolKind) :
    Adds here key owner [b.naming kind] [] (b.collect here kind owner) := by
  refine .get_bind fun s => declare_adds fun t => ⟨rfl, rfl, rfl, ?_, rfl, rfl, .none, rfl⟩
  obtain ⟨name, written, value, isConst, span⟩ := b
  cases written <;> cases value <;> simp [naming, Symbol.ofDeclaration]

theorem params_adds (params : List Param) :
    Adds here key none (params.map Param.naming) [] (params.forM (·.collect here)) := by
  induction params with
  | nil => exact .pure ()
  | cons p rest ih =>
    refine Adds.bind (declare_adds fun t => ?_) ih
    exact ⟨rfl, rfl, rfl, by simp [Param.naming, Symbol.ofDeclaration], rfl, rfl, .none, rfl⟩

theorem collectAll_adds {body : List Stmt}
    (h : ∀ s ∈ body, ∀ here key, Adds here key none s.names (s.regions key) (s.collect here)) :
    Adds here key none (namesAll body) (regionsAll key body) (collectAll here body) := by
  induction body with
  | nil =>
    rw [namesAll, regionsAll, collectAll]
    exact .pure ()
  | cons s rest ih =>
    rw [namesAll, regionsAll, collectAll]
    exact (h s (by simp) here key).bind (ih fun s hs => h s (by simp [hs]))

theorem Block.collect_adds {b : Block}
    (h : ∀ s ∈ b.body, ∀ here key, Adds here key none s.names (s.regions key) (s.collect here)) :
    Adds here key owner [] (b.regions .block [] [] key) (b.collect here) := by
  rw [collect_eq, regions_eq]
  exact openScope_adds (fun i => collectAll_adds h) fun _ => collectAll_keeps_all ..

theorem collectCases_adds {cases : List Case}
    (h : ∀ k ∈ cases, ∀ s ∈ k.body, ∀ here key,
      Adds here key none s.names (s.regions key) (s.collect here)) :
    Adds here key none (namesCases cases) (regionsCases key cases) (collectCases here cases) := by
  induction cases with
  | nil =>
    rw [namesCases, regionsCases, collectCases]
    exact .pure ()
  | cons k rest ih =>
    obtain ⟨value, body, span⟩ := k
    rw [namesCases, regionsCases, collectCases]
    exact (collectAll_adds (h ⟨value, body, span⟩ (by simp))).bind (ih fun k hk => h k (by simp [hk]))

theorem Function.collect_adds {f : Function}
    (h : ∀ s ∈ f.body.body, ∀ here key, Adds here key none s.names (s.regions key) (s.collect here)) :
    Adds here key owner [f.naming] (f.regions key) (f.collect here owner) := by
  rw [collect_eq, regions_eq, Block.regions_eq]
  refine frame_adds (fun t i hi => ?_) (fun _ => rfl) (fun i => ?_) fun i => ?_
  · exact ⟨rfl, rfl, rfl, by simp [naming, Symbol.ofDeclaration], rfl, rfl, .some hi, rfl⟩
  · exact (params_adds f.params).bind (collectAll_adds h)
  · exact Keeps.bind (.forM fun p _ => declare_keeps ..) fun _ => collectAll_keeps_all ..

theorem collectMembers_adds {members : List Member} {owner : String}
    (h : ∀ f, .method f ∈ members → ∀ s ∈ f.body.body, ∀ here key,
      Adds here key none s.names (s.regions key) (s.collect here)) :
    Adds here key owner (members.map Member.naming) (regionsMembers key members)
      (collectMembers here owner members) := by
  induction members with
  | nil =>
    rw [regionsMembers, collectMembers]
    exact .pure ()
  | cons m rest ih =>
    have hrest := ih fun f hf => h f (by simp [hf])
    rw [collectMembers]
    cases m with
    | field b =>
      rw [regionsMembers, Member.collect]
      exact (b.collect_adds .field).bind hrest
    | method f =>
      rw [regionsMembers, Member.collect]
      exact (Function.collect_adds (h f (by simp))).bind hrest

theorem Class.collect_adds {c : Class}
    (h : ∀ f, .method f ∈ c.members → ∀ s ∈ f.body.body, ∀ here key,
      Adds here key none s.names (s.regions key) (s.collect here)) :
    Adds here key none [c.naming] (c.regions key) (c.collect here) := by
  rw [collect_eq, regions_eq]
  refine frame_adds (fun t i hi => ?_) (fun _ => rfl) (fun i => collectMembers_adds h) fun i => ?_
  · exact ⟨rfl, rfl, rfl, by simp [naming, Symbol.ofDeclaration], rfl, rfl, .some hi, rfl⟩
  · exact collectMembers_keeps_all ..

theorem Stmt.collect_adds (s : Stmt) (here : Nat) (key : Position) :
    Adds here key none s.names (s.regions key) (s.collect here) := by
  induction s generalizing here key with
  | declare b =>
    rw [names, regions, collect]
    exact b.collect_adds .variable
  | assign | print | eval | ret | exit | next =>
    simp only [names, regions, collect]
    exact .pure ()
  | block b ih =>
    rw [names, regions, collect]
    exact Block.collect_adds ih
  | ite c yes no span ihy ihn =>
    cases no with
    | none =>
      rw [names, regions, collect]
      exact (Block.collect_adds ihy).bind (.pure ())
    | some no =>
      rw [names, regions, collect]
      exact (Block.collect_adds ihy).bind (Block.collect_adds (ihn no rfl))
  | loop c body span ih =>
    rw [names, regions, collect]
    exact Block.collect_adds ih
  | doWhile body c span ih =>
    rw [names, regions, collect]
    exact Block.collect_adds ih
  | forLoop first test step body span ihf ihs ih =>
    cases first with
    | none =>
      simp only [names, regions, collect, Block.collectBody_eq, Block.regions_eq]
      exact openScope_adds (fun _ => collectAll_adds ih) fun _ => collectAll_keeps_all ..
    | some s =>
      simp only [names, regions, collect, Block.collectBody_eq, Block.regions_eq]
      exact openScope_adds (fun _ => (ihf s rfl _ _).bind (collectAll_adds ih)) fun _ =>
        (s.collect_keeps _).bind fun _ => collectAll_keeps_all ..
  | foreach item collection body span ih =>
    simp only [names, regions, collect, Block.collectBody_eq, Block.regions_eq]
    refine openScope_adds (fun _ => .get_bind fun _ => ?_) fun _ => Keeps.get.bind fun _ => ?_
    · refine (declare_adds fun t => ?_).bind (collectAll_adds ih)
      exact ⟨rfl, rfl, rfl, by simp [Naming.item], rfl, rfl, .none, rfl⟩
    · exact (declare_keeps ..).bind fun _ => collectAll_keeps_all ..
  | switch subject cases default span ihc ihd =>
    cases default with
    | none =>
      rw [names, regions, collect]
      exact (collectCases_adds ihc).bind (.pure ())
    | some body =>
      rw [names, regions, collect]
      exact (collectCases_adds ihc).bind (collectAll_adds (ihd body rfl))
  | tryCatch body caught handler span ihb ihh =>
    simp only [names, regions, collect, Block.collectBody_eq, Block.regions_eq handler]
    refine (Block.collect_adds ihb).bind (openScope_adds (fun _ => ?_) fun _ => ?_)
    · refine (declare_adds fun t => ?_).bind (collectAll_adds ihh)
      exact ⟨rfl, rfl, rfl, by simp [Naming.caught, Symbol.ofDeclaration], rfl, rfl, .none, rfl⟩
    · exact (declare_keeps ..).bind fun _ => collectAll_keeps_all ..
  | function f ih =>
    rw [names, regions, collect]
    exact Function.collect_adds ih
  | classDef c ih =>
    rw [names, regions, collect]
    exact Class.collect_adds ih

namespace Program

theorem collect_fits (p : Program) : p.collect.Fits p.regions := by
  have hstart : ({} : Collection).Fits [⟨.origin, .global, none, none, []⟩] := by
    refine ⟨iff_of_true rfl ⟨by simp, by simp⟩, fun _ => ⟨rfl, ?_⟩⟩
    intro i r hr
    obtain ⟨hi, rfl⟩ := List.getElem?_eq_some_iff.1 hr
    obtain rfl : i = 0 := Nat.lt_one_iff.1 hi
    exact ⟨_, rfl, rfl, rfl, .none, .nil⟩
  exact collectAll_adds (fun s _ => s.collect_adds) hstart rfl rfl rfl

/-- The declarations of a program are accepted just when no two of its regions have the same key and no
region has a name twice. The table then has a scope for each region, with its names in their order. -/
theorem scopes_regions (p : Program) :
    ((∃ t, p.scopes = .ok t) ↔
      (p.inner.map (·.key)).Nodup ∧ (∀ r ∈ p.inner, r.key ≠ .origin) ∧
        ∀ r ∈ p.regions, (r.names.map (·.name)).Nodup) ∧
    ∀ t, p.scopes = .ok t → t.Has p.regions := by
  have hf := p.collect_fits
  -- the first region is the global one, with the origin for its key
  constructor
  · have hc : (∃ t, p.scopes = .ok t) ↔ p.collect.conflicts = [] := by
      rw [scopes]
      obtain ⟨table, _ | ⟨c, cs⟩⟩ := p.collect <;> simp
    rw [hc, hf.accepts]
    constructor
    · intro hw
      have hk := hw.keys
      rw [regions, List.map_cons, List.nodup_cons] at hk
      exact ⟨hk.2, fun r hr he => hk.1 (List.mem_map.2 ⟨r, hr, he⟩), hw.names⟩
    · rintro ⟨hk, ho, hn⟩
      refine ⟨?_, hn⟩
      rw [regions, List.map_cons, List.nodup_cons]
      refine ⟨fun hm => ?_, hk⟩
      obtain ⟨r, hr, he⟩ := List.mem_map.1 hm
      exact ho r hr he
  · intro t ht
    obtain ⟨hc, rfl⟩ := scopes_eq_ok.1 ht
    exact hf.has hc

def furnished : Program :=
  ⟨[.class ⟨"C", none, [.field ⟨"a", none, some (.int 1 .unplaced), false, .atLine 1⟩,
      .method ⟨"m", [⟨"n", none, .atLine 2⟩], none,
        ⟨[.switch (.ident "n" .unplaced) [⟨.int 0 .unplaced,
          [.declare ⟨"x", none, none, false, .atLine 3⟩], .atLine 4⟩] none .unplaced], .atLine 5⟩,
        .atLine 6⟩], .atLine 7⟩,
    .tryCatch ⟨[], .atLine 8⟩ "e" ⟨[], .atLine 9⟩ .unplaced], .unplaced⟩

theorem furnished_regions :
    ∃ t, furnished.scopes = .ok t ∧ t.scopes.map (·.symbols.map fun x => (x.name, x.owner)) =
      [[("C", none)], [("a", some "C"), ("m", some "C")], [("n", none), ("x", none)], [],
        [("e", none)]] ∧ t.Has furnished.regions := by
  have hn : ∀ r ∈ furnished.regions, (r.names.map (·.name)).Nodup := by decide +kernel
  obtain ⟨t, ht⟩ := furnished.scopes_regions.1.2 ⟨by decide +kernel, by decide +kernel, hn⟩
  obtain ⟨_, rfl⟩ := scopes_eq_ok.1 ht
  exact ⟨_, ht, by decide +kernel, furnished.scopes_regions.2 _ ht⟩

end Program

end ThreeAddress
