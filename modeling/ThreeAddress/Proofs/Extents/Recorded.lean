import ThreeAddress.Proofs.Regions.Elements
import ThreeAddress.Proofs.Stages.Walks

namespace ThreeAddress

open Lowering Lower

/-- From `t` to `t'` the symbol `id` gets the extents of the literal with the given cells, and room for a
header and all elements. It has had no storage before. -/
structure ArrayLaid (options : Options) (es : List Expr) (id : SymbolId) (t t' : Table) : Prop where
  free : ∃ x, t.symbol id = .ok x ∧ x.offset = none
  laid : ∃ y, t'.symbol id = .ok y ∧ y.offset.isSome ∧
    (Nest.row (lowerCells es)).shape? options.raggedArrays = some y.dimensions ∧
    y.size = options.pointerSize +
      y.dimensions.prod * leafSize options.pointerSize y.type.element es
  others : ∀ {i x y}, i ≠ id → t.symbol i = .ok x → t'.symbol i = .ok y → y.dimensions = x.dimensions

namespace Lower

variable {c : Context} {s s' : State} {code : Code}

theorem declareArray_lays {id : SymbolId} {es : List Expr} {span : Span}
    (h : Runs (declareArray id es span) c s code s') :
    ((Nest.row (lowerCells es)).shape? c.options.raggedArrays = none ∧ s'.problems ≠ [] ∧
      s.Leads s') ∨ ArrayLaid c.options es id s.table s'.table := by
  obtain ⟨x, s₁, hx, ⟨hl, ⟨_, hb⟩, _⟩ | ⟨dims, size, _, s₂, hl, hz, hb, he⟩⟩ := runs_declareArray h
  · obtain ⟨hd, ⟨hn, _⟩ | ⟨_, rfl⟩⟩ := runs_literalShape hl
    · cases hn
    · have hb := bindStorage_leads _ _ hb
      exact .inl ⟨hd.symm, fun hp => by simpa using hb.quiet hp, (State.Leads.report s _).trans hb⟩
  · obtain ⟨hd, ⟨_, rfl⟩ | ⟨hn, _⟩⟩ := runs_literalShape hl
    · refine .inr ?_
      obtain ⟨_, y, hy, ho, rfl⟩ := runs_bindStorage.1 hb
      obtain ⟨hn, _⟩ | ⟨_, z, hz', rfl⟩ := Table.symbol_of_modifySymbol hy
      · exact absurd rfl hn
      · cases hx.symm.trans hz'
        have hx₁ := Table.symbol_modifySymbol_self (f := ({ · with dimensions := dims })) hx
        rw [(storeElements_keeps (leaf_advances es) he).table]
        refine ⟨⟨x, hx, ho⟩, ⟨_, Table.symbol_modifySymbol_self hx₁, rfl, hd.symm, ?_⟩, ?_⟩
        · exact arraySize_eq_ok hz (declareArray_bounded h hd.symm)
        · intro i y z hi hy hz
          rw [Table.symbol_modifySymbol_ne hi, Table.symbol_modifySymbol_ne hi] at hz
          cases hy.symm.trans hz
          rfl
    · cases hn

end Lower

/-- A declaration of the name `id` with an array literal. -/
def Binding.Declares (b : Binding) (t : Table) (c : Context) (es : List Expr) (id : SymbolId) : Prop :=
  t.lookup c.scope b.name = .ok (some id) ∧ ∃ at_, b.value = some (.array es at_)

theorem Binding.lower_lays {b : Binding} {c : Context} {s s' : State} {code : Code}
    (h : Runs b.lower c s code s') :
    s.Leads s' ∨ ∃ es id, b.Declares s.table c es id ∧ ArrayLaid c.options es id s.table s'.table := by
  obtain ⟨_, _, rfl⟩ | ⟨id, es, at_, hl, hv, h⟩ | ⟨id, x, u, s₁, _, _, hb, h⟩ := b.runs_lower h
  · exact .inl (.report s _)
  · obtain ⟨_, _, h⟩ | h := declareArray_lays h
    · exact .inl h
    · exact .inr ⟨es, id, ⟨hl, at_, hv⟩, h⟩
  · have hb := bindStorage_leads _ _ hb
    obtain ⟨_, _, rfl⟩ | ⟨e, y, _, _, hy, _⟩ := h
    · exact .inl hb
    · exact .inl (hb.trans (storable_keeps (R := State.Advances) (e.lower_advances _) hy).leads)

theorem Stmt.lower_lays {r : Stmt} {c : Context} {s s' : State} {code : Code} (hi : r.isPlain)
    (h : Runs r.lower c s code s') :
    s.Leads s' ∨ ∃ b es id, r = .declare b ∧ b.Declares s.table c es id ∧
      ArrayLaid c.options es id s.table s'.table := by
  cases r with
  | declare b =>
    rw [Stmt.lower] at h
    obtain ⟨_, h⟩ | ⟨_, _, rfl⟩ := runs_guarding h
    · obtain hl | ⟨es, id, h⟩ := Binding.lower_lays h
      · exact .inl hl
      · exact .inr ⟨b, es, id, rfl, h⟩
    · exact .inl (.of_table rfl (List.prefix_append ..))
  | assign | print | eval | «return» => exact .inl (Stmt.lower_advances rfl h).leads
  | _ => simp [isPlain] at hi

/-- Among the parts is a declaration of `id` with an array literal that has the extents. -/
def Recorded (options : Options) (t : Table) (stages : List Stage) (id : SymbolId) (dims : List Nat) :
    Prop :=
  ∃ c b es, .stmt c (.declare b) ∈ stages ∧ b.Declares t c es id ∧
    (Nest.row (lowerCells es)).shape? options.raggedArrays = some dims

section

variable {options : Options} {last d d' : FullState} {course : List (Part × FullState)} {stages : List Stage}
  {id : SymbolId} {dims : List Nat} {t t' : Table} {x y : Symbol}

theorem Binding.Declares.outline {b : Binding} {c : Context} {es : List Expr}
    (h : b.Declares t c es id) (ho : t'.outline = t.outline) : b.Declares t' c es id := by
  refine ⟨?_, h.2⟩
  rw [← Table.lookup_outline, ho, Table.lookup_outline]
  exact h.1

theorem Recorded.before {st : Stage} (h : Recorded options t stages id dims)
    (ho : t'.outline = t.outline) : Recorded options t' (st :: stages) id dims := by
  obtain ⟨c, b, es, hm, hb, hd⟩ := h
  exact ⟨c, b, es, .tail _ hm, hb.outline ho, hd⟩

theorem Symbol.Grows.free (h : x.Grows y) (hy : y.offset = none) : x.offset = none := by
  by_contra hx
  have ho := h.offset (Option.isSome_iff_ne_none.2 hx)
  exact hx (ho.symm.trans hy)

/-- Extents change with a declaration, and as long as the symbol has no storage. -/
theorem Trail.recorded (h : Trail options last d course d') (hx : d.table.symbol id = .ok x)
    (hy : d'.table.symbol id = .ok y) :
    y.dimensions = x.dimensions ∨
      x.offset = none ∧ Recorded options d.table (course.map (Part.stage options)) id y.dimensions := by
  -- A part that leaves the extents of the symbol alone.
  have pass {s σ : State} {st : Stage} {rest : List Stage} {x y : Symbol} (hs : s.Precedes σ)
      (hx : s.table.symbol id = .ok x)
      (hd : ∀ {z}, σ.table.symbol id = .ok z → z.dimensions = x.dimensions)
      (ih : ∀ {z}, σ.table.symbol id = .ok z → y.dimensions = z.dimensions ∨
        z.offset = none ∧ Recorded options σ.table rest id y.dimensions) :
      y.dimensions = x.dimensions ∨
        x.offset = none ∧ Recorded options s.table (st :: rest) id y.dimensions := by
    obtain ⟨z, hz, hg⟩ := hs.table.exists_symbol hx
    obtain h | ⟨ho, h⟩ := ih hz
    · exact .inl (h.trans (hd hz))
    · exact .inr ⟨hg.free ho, h.before hs.table.outline.symm⟩
  induction h generalizing x with
  | rest h => exact .inl (h.leads.dimensions hx hy)
  | around h _ _ _ _ ih => exact pass h.leads.toPrecedes hx (h.leads.dimensions hx) (ih · hy)
  | header h _ hr _ _ ih =>
    have h := h.leads.trans (Expr.leads_of_plan hr)
    exact pass h.toPrecedes hx (h.dimensions hx) (ih · hy)
  | plain h hi hr _ _ ih =>
    have h := h.leads
    obtain ⟨code, hr, _⟩ := Stmt.runs_of_plan hr
    have hs := h.toPrecedes.trans (State.precedes_of_lower hr)
    obtain hl | ⟨b, es, id', rfl, hb, hl⟩ := Stmt.lower_lays hi hr
    · exact pass hs hx ((h.trans hl).dimensions hx) (ih · hy)
    · obtain ⟨w, hw, hxw⟩ := h.table.exists_symbol hx
      by_cases hid : id = id'
      · subst hid
        obtain ⟨v, hv, hv'⟩ := hl.free
        obtain ⟨z, hz, hz', hd, _⟩ := hl.laid
        cases hw.symm.trans hv
        refine .inr ⟨hxw.free hv', ?_⟩
        obtain hyz | ⟨hn, _⟩ := ih hz hy
        · exact ⟨_, b, es, .head _, hb.outline h.table.outline.symm, hyz ▸ hd⟩
        · simp [hn] at hz'
      · exact pass hs hx
          (fun hz => (hl.others hid hw hz).trans (h.dimensions hx hw)) (ih · hy)

theorem Trail.keeps (h : Trail options last d course d') {es : List Expr}
    (hl : ArrayLaid options es id t d.table) :
    ∃ x, d'.table.symbol id = .ok x ∧
      (Nest.row (lowerCells es)).shape? options.raggedArrays = some x.dimensions ∧
      x.size = options.pointerSize +
        x.dimensions.prod * leafSize options.pointerSize x.type.element es := by
  obtain ⟨x, hx, ho, hd, hz⟩ := hl.laid
  obtain ⟨y, hy, hxy⟩ := h.precedes.table.exists_symbol hx
  obtain hdim | ⟨hn, _⟩ := h.recorded hx hy
  · refine ⟨y, hy, hdim ▸ hd, ?_⟩
    rw [hxy.size ho, hxy.toDeclaration, hdim, hz]
  · simp [hn] at ho

end

theorem Binding.declares {b : Binding} {c : Context} {s s' : State} {code : Code} {es : List Expr}
    {at_ : Span} (h : Runs (Stmt.declare b).lower c s code s') (hb : b.value = some (.array es at_)) :
    (s'.problems ≠ [] ∧ ((∃ u ∈ b.uses, s.table.lookup c.scope u.1 = .ok none) ∨
      (Nest.row (lowerCells es)).shape? c.options.raggedArrays = none)) ∨
      ∃ id, b.Declares s.table c es id ∧ ArrayLaid c.options es id s.table s'.table := by
  rw [Stmt.lower] at h
  obtain ⟨_, hr⟩ | ⟨hm, _, _⟩ := runs_guarding h
  · obtain ⟨hl, _, rfl⟩ | ⟨id, es', at', hl, hv, hr⟩ | ⟨_, _, _, _, _, _, _, h⟩ := b.runs_lower hr
    · exact .inl ⟨by simp, .inl ⟨_, List.mem_cons_self .., hl⟩⟩
    · cases hb.symm.trans hv
      obtain ⟨hn, hp, _⟩ | hr := declareArray_lays hr
      · exact .inl ⟨hp, .inr hn⟩
      · exact .inr ⟨id, ⟨hl, at_, hb⟩, hr⟩
    · obtain ⟨hv, _⟩ | ⟨e, _, hv, he, _⟩ := h
      · cases hb.symm.trans hv
      · cases hb.symm.trans hv
        exact absurd rfl (he es at_)
  · refine .inl ⟨fun hp => hm (missing_of_guarding h hp).1, ?_⟩
    obtain ⟨u, hu⟩ := List.exists_mem_of_ne_nil _ hm
    exact .inl ⟨u, mem_missing.1 hu⟩

theorem Program.lower_records {p : Program} {table : Table} {options : Options} {out : Lowered}
    (h : p.lower table options = .ok out) {c : Context} {b : Binding} {es : List Expr} {at_ : Span}
    (hs : .stmt c (.declare b) ∈ p.stages table options) (hb : b.value = some (.array es at_))
    (hd : ((Nest.row (lowerCells es)).shape? options.raggedArrays).isSome) :
    (out.problems ≠ [] ∧ ∃ u ∈ b.uses, table.lookup c.scope u.1 = .ok none) ∨
      ∃ id x, table.lookup c.scope b.name = .ok (some id) ∧ out.table.symbol id = .ok x ∧
        (Nest.row (lowerCells es)).shape? options.raggedArrays = some x.dimensions ∧
        x.size = options.pointerSize +
          x.dimensions.prod * leafSize options.pointerSize x.type.element es := by
  obtain ⟨d, hw, hstages, rfl⟩ := p.walk h
  rw [← hstages] at hs
  obtain ⟨x, hm, hx⟩ := List.mem_map.1 hs
  obtain ⟨σ, rfl, rfl⟩ := Part.stage_eq_stmt.1 hx
  obtain ⟨front, back, hf⟩ := List.mem_iff_append.1 hm
  rw [hf] at hw
  obtain ⟨hfront, σ', hr, _, hback⟩ := hw.pass
  obtain ⟨code, hr, _⟩ := Stmt.runs_of_plan hr
  have hσ : table.outline = σ.table.outline := hfront.precedes.table.outline.symm
  obtain ⟨hq, ⟨u, hu, hl⟩ | hn⟩ | ⟨id, hid, hl⟩ := Binding.declares hr hb
  · refine .inl ⟨fun hn => hq (hback.precedes.quiet hn), u, hu, ?_⟩
    rwa [← Table.lookup_outline, hσ, Table.lookup_outline]
  · have hn : (Nest.row (lowerCells es)).shape? options.raggedArrays = none := hn
    simp [hn] at hd
  · obtain ⟨x, hx, hdim, hz⟩ := Trail.keeps hback hl
    exact .inr ⟨id, x, (hid.outline hσ).1, hx, hdim, hz⟩

end ThreeAddress
