import Mathlib.Algebra.GroupWithZero.Nat
import ThreeAddress.Proofs.Frames.Lowered

namespace ThreeAddress

open Lowering Lower

namespace Table

variable {t t' : Table} {lo root i : Nat} {items : List Item} {id : SymbolId}

theorem scopes_outline (h : t'.outline = t.outline) (i : Nat) :
    t'.scopes[i]?.map Scope.outline = t.scopes[i]?.map Scope.outline := by
  have h : t'.scopes.map Scope.outline = t.scopes.map Scope.outline := congrArg Table.scopes h
  rw [← List.getElem?_map, h, List.getElem?_map]

theorem scope_of_outline {s : Scope} (h : t'.outline = t.outline) (hs : t.scopes[i]? = some s) :
    ∃ s' : Scope, t'.scopes[i]? = some s' ∧ s'.outline = s.outline := by
  have hi := scopes_outline h i
  rwa [hs, Option.map_some, Option.map_eq_some_iff] at hi

theorem children_outline (h : t'.outline = t.outline) (i : Nat) : t'.children i = t.children i := by
  have := congrArg (Option.map (·.children)) (scopes_outline h i)
  rw [Option.map_map, Option.map_map] at this
  exact congrArg (·.getD []) this

theorem ids_outline (h : t'.outline = t.outline) (i : Nat) : t'.ids i = t.ids i := by
  have := congrArg (Option.map (·.symbols.length)) (scopes_outline h i)
  simp only [Option.map_map, Function.comp_def, Scope.outline, List.length_map] at this
  rw [ids, ids, declared, declared]
  cases hs : t.scopes[i]? <;> cases hs' : t'.scopes[i]? <;> simp_all

theorem size_of_outline (h : t'.outline = t.outline) : t'.size = t.size := by
  rw [← size_outline, h, size_outline]

theorem itemIds_outline (h : t'.outline = t.outline) (items : List Item) :
    t'.itemIds items = t.itemIds items :=
  List.filterMap_congr fun _ _ => find?_congr h _

theorem Regions.outline {cs is : List Nat} (hr : t.Regions cs is) (h : t'.outline = t.outline) :
    t'.Regions cs is := by
  refine hr.congr (fun i s hs => ?_) fun i _ s s' hs hs' => ?_
  · obtain ⟨s', hs', ho⟩ := scope_of_outline h hs
    have hk := congrArg Scope.kind ho
    exact ⟨s', hs', hk⟩
  · obtain ⟨_, hs'', ho⟩ := scope_of_outline h hs
    cases hs'.symm.trans hs''
    have hc := congrArg Scope.children ho
    exact hc

theorem Roots.outline (hr : t.Roots lo root items) (h : t'.outline = t.outline) :
    t'.Roots lo root items := by
  obtain ⟨is, hreg, hroot, his, hlen, hperm⟩ := hr
  refine ⟨is, ?_, hroot, his, ?_, ?_⟩
  · rw [children_outline h]
    exact hreg.outline h
  · rwa [size_of_outline h]
  · rw [itemIds_outline h]
    exact hperm.trans (.of_eq (List.flatMap_congr fun i _ => (ids_outline h i).symm))

def sizeAt (t : Table) (id : SymbolId) : Nat := (t.fact (·.size) id).getD 0

theorem sizeAt_eq {x : Symbol} (h : t.symbol id = .ok x) : t.sizeAt id = x.size := by
  rw [sizeAt, fact_eq_some.2 ⟨x, h, rfl⟩, Option.getD_some]

theorem map_sizeAt_ids (i : Nat) : (t.ids i).map t.sizeAt = (t.declared i).map (·.size) := by
  refine List.ext_getElem (by simp [ids]) fun slot h _ => ?_
  rw [List.getElem_map, List.getElem_map]
  refine sizeAt_eq ?_
  have hslot : slot < (t.declared i).length := by simpa [ids] using h
  cases hs : t.scopes[i]? with
  | none => simp [declared, hs] at hslot
  | some s => exact symbol_eq_ok.2 ⟨s, by simp [ids, hs], by simp [ids, declared, hs]⟩

theorem frameMembers_sum {T : Table} {site : Site} {scope : Position} {parent : Option String}
    {x : Symbol} (hp : (Item.frame site scope parent items).Placed lo t) (ho : T.outline = t.outline)
    (hid : T.find? site = some id) (hx : T.symbol id = .ok x) :
    ∃ xs, T.frameMembers id = .ok xs ∧
      (xs.map (·.size)).sum = ((T.itemIds items).map T.sizeAt).sum := by
  cases hp with
  | frame hf hy hm hk hr _ =>
    rw [find?_congr ho, hf] at hid
    cases hid
    obtain ⟨_, hs, _⟩ := scopeFor_eq_some.1 hk
    obtain ⟨s, hs, _⟩ := scope_of_outline ho hs
    obtain ⟨is, hreg, _, _, hlen, hperm⟩ := hr.outline ho
    rw [children, hs, Option.map_some, Option.getD_some] at hreg
    -- the members are found by the outline, which the collected table and the last one share
    have hmem := (congrArg (fun z : Symbol => z.members) (symbol_congr ho hx hy)).trans hm
    change x.members = _ at hmem
    refine ⟨_, Eq.trans ?_ (gather_root hs hreg hlen), ?_⟩
    · simp only [frameMembers, hx, hmem, bind, Except.bind, Option.toList]
    · rw [(hperm.map T.sizeAt).sum_nat, List.map_flatMap, List.map_flatMap]
      simp only [map_sizeAt_ids]

end Table

/-- Frames of their own take no room in the frame around them. -/
theorem Tiles.sum {t : Table} {items : List Item} {a b : Nat} (h : Tiles .independent t a items b)
    (hf : ∀ s ∈ ownersAll items, ∀ id, t.find? s = some id → t.sizeAt id = 0) :
    b = a + ((t.itemIds items).map t.sizeAt).sum := by
  induction items generalizing a with
  | nil => exact h.symm
  | cons i rest ih =>
    have hrest : ∀ s ∈ ownersAll rest, ∀ id, t.find? s = some id → t.sizeAt id = 0 :=
      fun s hs => hf s (List.mem_append_right _ hs)
    cases i with
    | slot s =>
      obtain ⟨x, hx, _, h⟩ := h
      obtain ⟨id, hid, hx⟩ := Table.get?_eq_some.1 hx
      rw [ih h hrest]
      simp [Table.itemIds, Item.site, hid, Table.sizeAt_eq hx, Nat.add_assoc]
    | frame s scope parent inside =>
      obtain ⟨x, hx, h⟩ := h
      obtain ⟨id, hid, hx⟩ := Table.get?_eq_some.1 hx
      -- with independent frames, the layout goes on where the inner frame was entered
      have hz := hf s (List.mem_append_left _ (by simp [Item.owners])) id hid
      rw [show b = a + _ from ih h hrest]
      simp [Table.itemIds, Item.site, hid, hz]

theorem Item.Placed.frames {lo : Nat} {t : Table} {items : List Item} {closed : List Site} {f : Frame}
    (hp : ∀ i ∈ items, i.Placed lo t) (hf : f ∈ framesAll closed items) :
    (∃ scope, (Item.frame f.site scope f.parent f.inside).Placed lo t) ∧
      ∀ s ∈ ownersAll f.inside, s ∈ ownersAll items := by
  induction items using Item.induction generalizing closed with
  | nil => simp [framesAll] at hf
  | slot s rest ih =>
    obtain ⟨hs, ho⟩ := ih (fun i hi => hp i (List.mem_cons_of_mem _ hi)) hf
    exact ⟨hs, fun s hs => List.mem_append_right _ (ho s hs)⟩
  | frame s scope parent inside rest ihi ihr =>
    rw [framesAll, Item.frames, List.cons_append, List.mem_cons, List.mem_append] at hf
    obtain rfl | hf | hf := hf
    · exact ⟨⟨scope, hp _ List.mem_cons_self⟩, fun s hs => by simp [ownersAll, Item.owners, hs]⟩
    · obtain ⟨hs, ho⟩ := ihi (by cases hp _ List.mem_cons_self with | frame _ _ _ _ _ hin => exact hin) hf
      exact ⟨hs, fun s hs => by simp [ownersAll, Item.owners, ho s hs]⟩
    · obtain ⟨hs, ho⟩ := ihr (fun i hi => hp i (List.mem_cons_of_mem _ hi)) hf
      exact ⟨hs, fun s hs => List.mem_append_right _ (ho s hs)⟩

namespace Program

variable {p : Program} {options : Options} {out : Compiled}

theorem unclosed_collect (p : Program) : p.collect.table.Unclosed [] p.collect.table := by
  intro id _ n hn
  obtain ⟨x, hx, rfl⟩ := Table.fact_eq_some.1 hn
  obtain ⟨d, params, rfl⟩ := p.collect_fresh hx
  rfl

theorem arranged_collect (h : p.collect.conflicts = []) :
    Arranged Table.empty.size p.collect.table p.items :=
  ⟨(collect_declares h).placed, (collect_declares h).nodup⟩

theorem stands_start (h : p.collect.conflicts = []) (options : Options) :
    Stands p.collect.table .origin { options } (.start p.collect.table options) where
  outline := rfl
  scope i hi := by
    have hk : p.collect.table.scopeFor .origin = some Table.global :=
      (collect_declares h).widens.scopeFor rfl
    exact Option.some.inj (hk.symm.trans hi)

theorem compile_lays (h : p.compile options = .ok out) (hs : ∀ s ∈ p.statements, s.Steady) :
    ∃ stop, Lays p.collect.table options.nestedFrames p.items p.collect.table 0 out.table stop ∧
      out.table.outline = p.collect.table.outline := by
  obtain ⟨hc, hl⟩ := compile_eq_ok.1 h
  obtain ⟨s, hr, _, _, ht, hp⟩ := runs_program.1 hl
  have hlays : LaysOut p.collect.table .origin p.items (lowerAll p.statements) :=
    lowerAll_laysOut (arranged_collect hc) fun s hm => s.lower_laysOut (hs s hm) _
  have hs := hlays hr (stands_start hc options)
  dsimp only at ht hp
  rw [ht]
  exact ⟨_, hs.lays hp.symm, hs.outline⟩

theorem owner_takes_nothing {stop : Nat} {s : Site}
    (hl : Lays p.collect.table options.nestedFrames p.items p.collect.table 0 out.table stop)
    (hn : (sitesAll p.items).Nodup) (hs : s ∈ ownersAll p.items)
    (ho : out.table.outline = p.collect.table.outline) ⦃id : SymbolId⦄
    (hid : out.table.find? s = some id) : out.table.sizeAt id = 0 := by
  have hd := (List.nodup_append.1 ((sitesAll_perm p.items).nodup_iff.1 hn)).2.2
  rw [Table.find?_congr ho] at hid
  have hb := hl.bytes id fun s' hs' hid' => hd s' hs' s hs (Table.find?_inj hid' hid)
  cases hy : out.table.symbol id with
  | error e => simp [Table.sizeAt, Table.fact, hy, Except.toOption]
  | ok y =>
    rw [Table.fact_eq_some.2 ⟨y, hy, rfl⟩, eq_comm, Table.fact_eq_some] at hb
    obtain ⟨x, hx, hxy⟩ := hb
    obtain ⟨d, params, rfl⟩ := p.collect_fresh hx
    rw [Table.sizeAt_eq hy]
    exact (congrArg Prod.snd hxy).symm

theorem final_of_outline (ho : out.table.outline = p.collect.table.outline) (slots owners : List Site) :
    p.collect.table.Final slots owners out.table out.table :=
  ⟨ho, fun _ _ _ _ => rfl, fun _ _ _ _ => rfl⟩

theorem compile_laidOut (h : p.compile options = .ok out) (hs : ∀ s ∈ p.statements, s.Steady) :
    ∀ f ∈ p.frames, f.LaidOut options.nestedFrames out.table := by
  obtain ⟨hc, _⟩ := compile_eq_ok.1 h
  obtain ⟨_, hl, ho⟩ := compile_lays h hs
  have hnodup := (arranged_collect hc).nodup
  obtain ⟨_, howners, _⟩ := List.nodup_append.1 ((sitesAll_perm p.items).nodup_iff.1 hnodup)
  exact hl.frames (final_of_outline ho _ _) howners p.unclosed_collect

/-- The items of the program are laid out from zero on. Every frame begins with what it inherits, has
its items right behind, and is as large as where they stop. With frames that are independent, that is
what its members take together. -/
theorem compile_tiles (h : p.compile options = .ok out) (hs : ∀ s ∈ p.statements, s.Steady) :
    (∃ stop, Tiles options.nestedFrames out.table 0 p.items stop) ∧
    ∀ f ∈ p.frames, ∃ id x, out.table.find? f.site = some id ∧ out.table.symbol id = .ok x ∧
      Tiles options.nestedFrames out.table (out.table.inherited f) f.inside x.frame ∧
      (options.nestedFrames = .independent → ∃ xs, out.table.frameMembers id = .ok xs ∧
        x.frame = out.table.inherited f + (xs.map (·.size)).sum) := by
  obtain ⟨hc, _⟩ := compile_eq_ok.1 h
  obtain ⟨stop, hl, ho⟩ := compile_lays h hs
  obtain ⟨hplaced, hnodup⟩ := arranged_collect hc
  refine ⟨⟨stop, hl.tiles (final_of_outline ho _ _)⟩, fun f hf => ?_⟩
  obtain ⟨x, hx, htiles⟩ := compile_laidOut h hs f hf
  obtain ⟨id, hid, hx⟩ := Table.get?_eq_some.1 hx
  refine ⟨id, x, hid, hx, htiles, fun hi => ?_⟩
  obtain ⟨⟨scope, hpf⟩, hin⟩ := Item.Placed.frames hplaced hf
  obtain ⟨xs, hxs, hsum⟩ := Table.frameMembers_sum hpf ho hid hx
  rw [hi] at htiles
  refine ⟨xs, hxs, ?_⟩
  rw [hsum]
  exact htiles.sum fun s hm => owner_takes_nothing hl hnodup (hin s hm) ho

def derived : Program :=
  ⟨[.class ⟨"Base", none, [.field ⟨"a", none, some (.int 1 .unplaced), false, .atLine 1⟩], .atLine 2⟩,
    .class ⟨"Derived", some "Base", [.field ⟨"b", none, some (.str "b" .unplaced), false, .atLine 3⟩,
      .method ⟨"m", [⟨"n", none, .atLine 4⟩], none,
        ⟨[.for (some (.declare ⟨"i", none, some (.int 0 .unplaced), false, .atLine 5⟩)) none
          (some (.assign (.ident "i") (.ident "n" .unplaced) .unplaced)) ⟨[], .atLine 6⟩ .unplaced],
          .atLine 7⟩, .atLine 8⟩], .atLine 9⟩], .unplaced⟩

theorem derived_steady : ∀ s ∈ derived.statements, s.Steady := by
  simp only [derived, List.mem_cons, List.not_mem_nil, or_false, forall_eq_or_imp, forall_eq]
  refine ⟨.mk (by simp) (by simp [Stmt.parts]), .mk (by simp) ?_⟩
  simp only [Stmt.parts, List.flatMap_cons, List.flatMap_nil, List.nil_append, List.append_nil,
    List.mem_singleton, forall_eq]
  refine .mk ?_ ?_
  · rintro _ _ _ _ _ ⟨⟩
    exact .inl ⟨_, _, _, rfl⟩
  · simp only [Stmt.parts, Option.toList, List.cons_append, List.nil_append, List.append_nil,
      List.mem_cons, List.not_mem_nil, or_false, forall_eq_or_imp, forall_eq]
    exact ⟨.mk (by simp) (by simp [Stmt.parts]), .mk (by simp) (by simp [Stmt.parts])⟩

theorem derived_tiles :
    ∃ out, derived.compile {} = .ok out ∧ out.table.symbols.map (·.frame) = [4, 12, 0, 0, 8, 0, 0] ∧
      (∃ stop, Tiles .independent out.table 0 derived.items stop) ∧
      ∀ f ∈ derived.frames, ∃ id x, out.table.find? f.site = some id ∧ out.table.symbol id = .ok x ∧
        Tiles .independent out.table (out.table.inherited f) f.inside x.frame ∧
        (NestedFrames.independent = .independent → ∃ xs, out.table.frameMembers id = .ok xs ∧
          x.frame = out.table.inherited f + (xs.map (·.size)).sum) := by
  have h : (·.table.symbols.map (·.frame)) <$> (derived.compile {}).toOption =
      some [4, 12, 0, 0, 8, 0, 0] := by
    decide +kernel
  obtain ⟨out, ho, hf⟩ := exists_of_check h
  exact ⟨out, ho, hf, compile_tiles ho derived_steady⟩

end Program

end ThreeAddress
