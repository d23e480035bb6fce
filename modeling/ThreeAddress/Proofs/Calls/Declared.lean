import ThreeAddress.Proofs.Regions.Lowered
import ThreeAddress.Proofs.Stages.Contexts

namespace ThreeAddress

open Lowering

def Lowering.Context.At (c : Context) (t : Table) (key : Position) : Prop :=
  ∀ i ∈ t.scopeFor key, c.scope = i

/-- A function is declared in one of the stages, and a class has its members in one of the regions. -/
structure Naming.Found (t : Table) (stages : List Stage) (regions : List Region) (key : Position)
    (n : Naming) : Prop where
  function : n.kind = .function →
    ∃ c f, .stmt c (.function f) ∈ stages ∧ f.name = n.name ∧ c.At t key
  members : n.kind = .classType → ∃ r ∈ regions, n.members = some r.key ∧ r.owner = some n.name

/-- If all names have their symbols, the stages and regions have what is declared with members. -/
def Tracks (t : Table) (key : Position) (names : List Naming) (inner : List Region)
    (stages : List Stage) : Prop :=
  ∀ ⦃S R⦄, stages ⊆ S → inner ⊆ R → Throughout (Naming.Placed t) key names inner →
    Throughout (Naming.Found t S R) key names inner

namespace Tracks

variable {t : Table} {key : Position} {names names' : List Naming} {inner inner' : List Region}
  {stages stages' : List Stage} {r : Region} {n : Naming}

theorem nil (stages : List Stage) : Tracks t key [] [] stages := fun _ _ _ _ _ => .nil

theorem append (h : Tracks t key names inner stages) (k : Tracks t key names' inner' stages') :
    Tracks t key (names ++ names') (inner ++ inner') (stages ++ stages') := by
  intro S R hS hR hp
  obtain ⟨hS, hS'⟩ := List.append_subset.1 hS
  obtain ⟨hR, hR'⟩ := List.append_subset.1 hR
  obtain ⟨hp, hp'⟩ := Throughout.append.1 hp
  exact Throughout.append.2 ⟨h hS hR hp, k hS' hR' hp'⟩

theorem mono (h : Tracks t key names inner stages) (hs : stages ⊆ stages') :
    Tracks t key names inner stages' :=
  fun _ _ hS => h (List.Subset.trans hs hS)

theorem stored (h : ∀ n ∈ names, n.kind.isStored) (stages : List Stage) :
    Tracks t key names [] stages := by
  refine fun S R _ _ _ => ⟨fun n hn => ⟨fun hk => ?_, fun hk => ?_⟩, nofun⟩
  · exact absurd (h n hn) (by simp [hk, SymbolKind.isStored])
  · exact absurd (h n hn) (by simp [hk, SymbolKind.isStored])

theorem block (h : Tracks t r.key r.names inner stages) : Tracks t key [] (r :: inner) stages := by
  intro S R hS hR hp
  obtain ⟨_, hR⟩ := List.cons_subset.1 hR
  exact Throughout.within.2 ⟨by simp, h hS hR (Throughout.within.1 hp).2⟩

theorem frame (h : n.Placed t key → Tracks t r.key r.names inner stages)
    (hn : ∀ ⦃S R⦄, stages ⊆ S → r ∈ R → n.Found t S R key) :
    Tracks t key [n] (r :: inner) stages := by
  intro S R hS hR hp
  obtain ⟨hr, hR⟩ := List.cons_subset.1 hR
  obtain ⟨hp, hin⟩ := Throughout.within.1 hp
  refine Throughout.within.2 ⟨fun n' hn' => ?_, h (hp n (by simp)) hS hR hin⟩
  obtain rfl := List.mem_singleton.1 hn'
  exact hn hS hr

end Tracks

section Statements

variable {t : Table} {c : Context} {key : Position}

theorem Lowering.Context.at_within (c : Context) (t : Table) (span : Span) :
    (c.within t span).At t span.toPosition := by
  intro i hi
  rw [within, Table.opened, show t.scopeFor span.toPosition = some i from hi]
  rfl

theorem Naming.Placed.inside {n : Naming} {scope : Position} (h : n.Placed t key) (hc : c.At t key)
    (hm : n.members = some scope) :
    ∃ x, t.visible? c.scope n.name = some x ∧ (c.inside x).At t scope := by
  obtain ⟨id, x, hf, hx, _⟩ := id h
  have hl : t.lookup c.scope n.name = .ok (some id) := Table.lookup_of_find? rfl hf hc
  refine ⟨x, by simp [Table.visible?, hl, hx, Except.toOption], fun i hi => ?_⟩
  rw [Context.inside, h.members_eq hm hf rfl hx, show t.scopeFor scope = some i from hi]
  rfl

abbrev Stmt.Tracks (t : Table) (s : Stmt) : Prop :=
  ∀ ⦃c key⦄, c.At t key →
    ThreeAddress.Tracks t key s.names (s.regions key) (.stmt c s :: s.stages t c)

theorem stagesAll_tracks {body : List Stmt} (h : ∀ s ∈ body, s.Tracks t) (hc : c.At t key) :
    Tracks t key (namesAll body) (regionsAll key body) (stagesAll t c body) := by
  induction body with
  | nil =>
    rw [namesAll, regionsAll]
    exact .nil _
  | cons s rest ih =>
    rw [namesAll, regionsAll, stagesAll, ← List.cons_append]
    exact (h s (by simp) hc).append (ih fun s hs => h s (by simp [hs]))

theorem Block.stages_tracks {b : Block} {kind : ScopeKind} (c : Context)
    (h : ∀ s ∈ b.body, s.Tracks t) :
    Tracks t key [] (b.regions kind [] [] key) (b.stages t (c.within t b.span)) := by
  rw [regions_eq, stages_eq]
  exact .block (stagesAll_tracks h (c.at_within t b.span))

theorem stagesCases_tracks {cases : List Case} (h : ∀ k ∈ cases, ∀ s ∈ k.body, s.Tracks t)
    (hc : c.At t key) :
    Tracks t key (namesCases cases) (regionsCases key cases) (stagesCases t c cases) := by
  induction cases with
  | nil =>
    rw [namesCases, regionsCases]
    exact .nil _
  | cons k rest ih =>
    rw [namesCases_cons, regionsCases_cons, stagesCases_cons]
    exact (stagesAll_tracks (h k (by simp)) hc).append (ih fun k hk => h k (by simp [hk]))

theorem Function.stages_tracks {f : Function} (h : ∀ s ∈ f.body.body, s.Tracks t)
    (hc : c.At t key) :
    Tracks t key [f.naming] (f.regions key) (.stmt c (.function f) :: f.stages t c) := by
  rw [regions_eq, Block.regions_eq, List.nil_append]
  refine .frame (fun hp => ?_) fun S R hS _ => ⟨fun _ => ?_, nofun⟩
  · obtain ⟨x, hx, hin⟩ := hp.inside hc rfl
    have hx : t.visible? c.scope f.name = some x := hx
    rw [stages_eq, hx]
    have hparams : Tracks t f.body.span.toPosition (f.params.map Param.naming) [] [] :=
      .stored (by simp [Param.naming, SymbolKind.isStored]) _
    exact (hparams.append (stagesAll_tracks h hin)).mono (List.subset_cons_self ..)
  · exact ⟨c, f, hS (by simp), rfl, hc⟩

theorem stagesMembers_tracks {members : List Member}
    (h : ∀ f, .method f ∈ members → ∀ s ∈ f.body.body, s.Tracks t) (hc : c.At t key) :
    Tracks t key (members.map Member.naming) (regionsMembers key members)
      (stagesMembers t c members) := by
  induction members with
  | nil =>
    rw [regionsMembers]
    exact .nil _
  | cons m rest ih =>
    have hrest := ih fun f hf => h f (by simp [hf])
    cases m with
    | field b =>
      rw [regionsMembers, stagesMembers]
      have hb : Tracks t key [b.naming .field] [] [.stmt c (.declare b)] :=
        .stored (by simp [Binding.naming, SymbolKind.isStored]) _
      exact hb.append hrest
    | method f =>
      rw [regionsMembers, stagesMembers, ← List.cons_append]
      exact (Function.stages_tracks (h f (by simp)) hc).append hrest

theorem Class.stages_tracks {k : Class} (h : ∀ f, .method f ∈ k.members → ∀ s ∈ f.body.body, s.Tracks t)
    (hc : c.At t key) : Tracks t key [k.naming] (k.regions key) (k.stages t c) := by
  rw [regions_eq]
  refine .frame (fun hp => ?_) fun S R _ hr => ⟨nofun, fun _ => ⟨_, hr, rfl, rfl⟩⟩
  obtain ⟨x, hx, hin⟩ := hp.inside hc rfl
  have hx : t.visible? c.scope k.name = some x := hx
  rw [stages_eq, hx]
  exact stagesMembers_tracks h hin

theorem Stmt.stages_tracks (s : Stmt) : s.Tracks t := by
  induction s with
  | declare b =>
    intro c key _
    rw [names, regions]
    exact .stored (by simp [Binding.naming, SymbolKind.isStored]) _
  | assign | print | eval | ret | exit | next =>
    intro c key _
    simp only [names, regions]
    exact .nil _
  | block b ih =>
    intro c key _
    rw [names, regions, stages]
    exact (Block.stages_tracks c ih).mono (List.subset_cons_self ..)
  | ite e yes no span ihy ihn =>
    intro c key _
    cases no with
    | none =>
      simp only [names, regions, stages, List.append_nil]
      exact (Block.stages_tracks c ihy).mono (by grind)
    | some no =>
      simp only [names, regions, stages]
      exact ((Block.stages_tracks c ihy).append (Block.stages_tracks c (ihn no rfl))).mono (by grind)
  | loop e body span ih =>
    intro c key _
    rw [names, regions, stages]
    exact (Block.stages_tracks c ih).mono (by grind)
  | doWhile body e span ih =>
    intro c key _
    rw [names, regions, stages]
    exact (Block.stages_tracks c ih).mono (by grind)
  | forLoop first test step body span ihf _ ih =>
    intro c key _
    have hin := c.at_within t body.span
    cases first with
    | none =>
      simp only [names, regions, stages, Block.regions_eq, Block.stages_eq]
      exact (ThreeAddress.Tracks.block (stagesAll_tracks ih hin)).mono (by grind)
    | some s =>
      simp only [names, regions, stages, Block.regions_eq, Block.stages_eq, stagesOption]
      exact (ThreeAddress.Tracks.block ((ihf s rfl hin).append (stagesAll_tracks ih hin))).mono (by grind)
  | foreach item e body span ih =>
    intro c key _
    rw [names, regions, stages, Block.regions_eq, Block.stages_eq]
    have hitem : ThreeAddress.Tracks t body.span.toPosition [.item item span] [] [] :=
      .stored (by simp [Naming.item, SymbolKind.isStored]) _
    exact (ThreeAddress.Tracks.block (hitem.append (stagesAll_tracks ih (c.at_within t body.span)))).mono
      (by grind)
  | switch subject cases default span ihc ihd =>
    intro c key hc
    cases default with
    | none =>
      simp only [names, regions, stages, List.append_nil]
      exact (stagesCases_tracks ihc hc).mono (by grind)
    | some body =>
      simp only [names, regions, stages]
      exact ((stagesCases_tracks ihc hc).append (stagesAll_tracks (ihd body rfl) hc)).mono (by grind)
  | tryCatch body caught handler span ihb ihh =>
    intro c key _
    rw [names, regions, stages, Block.regions_eq handler, Block.stages_eq handler]
    have hcaught : ThreeAddress.Tracks t handler.span.toPosition [.caught caught span] [] [] :=
      .stored (by simp [Naming.caught, SymbolKind.isStored]) _
    have hh := hcaught.append (stagesAll_tracks ihh (c.at_within t handler.span))
    exact ((Block.stages_tracks c ihb).append (ThreeAddress.Tracks.block hh)).mono (by grind)
  | function f ih =>
    intro c key hc
    rw [names, regions, stages]
    exact Function.stages_tracks ih hc
  | classDef k ih =>
    intro c key hc
    rw [names, regions, stages]
    exact (Class.stages_tracks ih hc).mono (List.subset_cons_self ..)

end Statements

theorem Table.Has.exists_naming {t : Table} {rs : List Region} {id : SymbolId} {x : Symbol}
    (h : t.Has rs) (hx : t.symbol id = .ok x) :
    ∃ r n, rs[id.scope]? = some r ∧ r.names[id.slot]? = some n ∧ n.Records t r.owner x := by
  obtain ⟨s, hs, hx⟩ := Table.symbol_eq_ok.1 hx
  have hlt : id.scope < rs.length := h.size ▸ Table.lt_size hs
  obtain ⟨s', hs', hh⟩ := h.scopes (List.getElem?_eq_getElem hlt)
  cases hs.symm.trans hs'
  obtain ⟨hj', rfl⟩ := List.getElem?_eq_some_iff.1 hx
  have hj : id.slot < rs[id.scope].names.length := by rwa [hh.names.length_eq]
  exact ⟨_, _, List.getElem?_eq_getElem hlt, List.getElem?_eq_getElem hj, hh.names.get hj hj'⟩

/-- The class of the name declares the method as `id`. -/
def Table.HasMethod (t : Table) (className method : String) (id : SymbolId) : Prop :=
  ∃ k y x, t.symbol k = .ok y ∧ y.kind = .classType ∧ y.name = className ∧
    y.members = some id.scope ∧ t.symbol id = .ok x ∧ x.isCallable ∧ x.name = method

namespace Program

variable {p : Program} {id : SymbolId} {x : Symbol}

theorem found (hc : p.collect.conflicts = []) (options : Options) :
    ∀ r ∈ p.regions, ∀ n ∈ r.names,
      n.Found p.collect.table (p.stages p.collect.table options) p.inner r.key := by
  have hhas := p.collect_fits.has hc
  have hw := p.collect_fits.accepts.1 hc
  have hroot : Context.At { options } p.collect.table .origin := fun i hi =>
    Option.some.inj ((hhas.scopeFor hw (List.getElem?_cons_zero ..)).symm.trans hi)
  have hplaced : Throughout (Naming.Placed p.collect.table) .origin (namesAll p.statements) p.inner :=
    ⟨fun n hn => hhas.placed hw List.mem_cons_self hn,
      fun r hr n hn => hhas.placed hw (List.mem_cons_of_mem _ hr) hn⟩
  have hfound := stagesAll_tracks (fun s _ => s.stages_tracks) hroot (List.Subset.refl _)
    (List.Subset.refl _) hplaced
  exact List.forall_mem_cons.2 hfound

theorem exists_function (hc : p.collect.conflicts = []) (options : Options)
    (hx : p.collect.table.symbol id = .ok x) (hk : x.isCallable) :
    ∃ c f, .stmt c (.function f) ∈ p.stages p.collect.table options ∧
      p.collect.table.lookup c.scope f.name = .ok (some id) := by
  have hhas := p.collect_fits.has hc
  have hw := p.collect_fits.accepts.1 hc
  obtain ⟨r, n, hr, hn, hrec⟩ := hhas.exists_naming hx
  obtain ⟨_, hf, _⟩ := hhas.find? hw hr hn
  have hkind : n.kind = .function := by simpa [Symbol.isCallable, hrec.kind] using hk
  obtain ⟨c, f, hs, hname, hat⟩ :=
    (found hc options r (List.mem_of_getElem? hr) n (List.mem_of_getElem? hn)).function hkind
  exact ⟨c, f, hs, hname ▸ Table.lookup_of_find? rfl hf hat⟩

theorem owner_of_hasMethod (hc : p.collect.conflicts = []) {className method : String}
    (h : p.collect.table.HasMethod className method id) (hx : p.collect.table.symbol id = .ok x) :
    x.owner = some className ∧ x.name = method ∧ x.isCallable := by
  have hhas := p.collect_fits.has hc
  have hw := p.collect_fits.accepts.1 hc
  obtain ⟨k, y, x', hy, hkind, rfl, hm, hx', hcall, rfl⟩ := h
  cases hx.symm.trans hx'
  obtain ⟨r, n, hr, hn, hrec⟩ := hhas.exists_naming hy
  obtain ⟨r', hr', hkey, howner⟩ :=
    (found hc {} r (List.mem_of_getElem? hr) n (List.mem_of_getElem? hn)).members
      (hrec.kind.symm.trans hkind)
  -- the region that holds the members is the one that the symbol stands in
  have hscope : p.collect.table.scopeFor r'.key = some id.scope := by
    have hrel := hrec.members
    rw [hkey, show y.members = some id.scope from hm] at hrel
    cases hrel with
    | some h => exact h
  obtain ⟨j, hj⟩ := List.mem_iff_getElem?.1 (List.mem_cons_of_mem _ hr' : r' ∈ p.regions)
  cases (hhas.scopeFor hw hj).symm.trans hscope
  obtain ⟨r'', n', hr'', _, hrec'⟩ := hhas.exists_naming hx
  cases hj.symm.trans hr''
  exact ⟨by rw [hrec'.owner, howner, hrec.name], rfl, hcall⟩

end Program

end ThreeAddress
