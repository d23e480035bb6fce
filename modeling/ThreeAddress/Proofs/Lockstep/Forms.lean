import ThreeAddress.Proofs.Lockstep.Values

namespace ThreeAddress

open Lowering Lower
open Lowering.State (Follows)

variable {κ : Comparison}

structure UseAlike (lines : Prop) (u u' : Use) : Prop where
  name : u.1 = u'.1
  span : u.2.Alike lines u'.2

section Trees

variable {lines : Prop}

theorem forall₂_uses {es es' : List Expr}
    (h : List.Forall₂ (fun e e' => List.Forall₂ (UseAlike lines) e.uses e'.uses) es es') :
    List.Forall₂ (UseAlike lines) (usesAll es) (usesAll es') := by
  induction h with
  | nil => exact .nil
  | cons he _ ih =>
    rw [usesAll, usesAll]
    exact List.rel_append he ih

theorem Expr.Alike.uses {e e' : Expr} (h : e.Alike lines e') :
    List.Forall₂ (UseAlike lines) e.uses e'.uses := by
  apply Expr.Alike.induction (P := fun e e' => List.Forall₂ (UseAlike lines) e.uses e'.uses) (h := h)
  case ident => exact fun name _ _ h => .cons ⟨rfl, h⟩ .nil
  case new => exact fun name _ _ _ _ ha h => .cons ⟨rfl, h⟩ (forall₂_uses ha)
  case array => exact fun hes _ => forall₂_uses hes
  case call => exact fun hc ha _ => List.rel_append hc (forall₂_uses ha)
  case ternary => exact fun hc hx hy _ => List.rel_append (List.rel_append hc hx) hy
  case binary | logical => exact fun _ _ _ _ _ _ _ hl hr _ => List.rel_append hl hr
  case index => exact fun hl hr _ => List.rel_append hl hr
  case unary => exact fun _ _ _ _ _ he _ => he
  case property => exact fun _ _ _ _ _ he _ => he
  all_goals
    intros
    exact .nil

theorem usesAll_alike {es es' : List Expr} (h : List.Forall₂ (Expr.Alike lines) es es') :
    List.Forall₂ (UseAlike lines) (usesAll es) (usesAll es') :=
  forall₂_uses (h.imp fun _ _ h => h.uses)

theorem Binding.Alike.uses {b b' : Binding} (h : b.Alike lines b') :
    List.Forall₂ (UseAlike lines) b.uses b'.uses := by
  refine .cons ⟨h.name.symm, h.span⟩ ?_
  have hv := h.value
  generalize b.value = v, b'.value = v' at hv
  cases hv with
  | some he => exact he.uses
  | none => exact .nil

theorem Target.Alike.uses {t t' : Target} {a b : Span} (h : t.Alike lines t') (hs : a.Alike lines b) :
    List.Forall₂ (UseAlike lines) (t.uses a) (t'.uses b) := by
  cases h with
  | ident => exact .cons ⟨rfl, hs⟩ .nil
  | index hb hi => exact List.rel_append hb.uses (usesAll_alike hi)
  | property ho => exact ho.uses

theorem Expr.Alike.cornerSize {e e' : Expr} (h : e.Alike lines e') (pointer : Nat) :
    e.cornerSize pointer = e'.cornerSize pointer := by
  apply Expr.Alike.induction (P := fun e e' => e.cornerSize pointer = e'.cornerSize pointer) (h := h)
  case array =>
    intro es es' a b hes _
    cases hes with
    | nil => rfl
    | cons he _ => exact he
  all_goals
    intros
    rfl

theorem firstUses_alike {us us' : List Use} (h : List.Forall₂ (UseAlike lines) us us') :
    List.Forall₂ (UseAlike lines) (firstUses us) (firstUses us') := by
  induction h with
  | nil => exact .nil
  | cons hu _ ih =>
    rw [firstUses, firstUses]
    refine .cons hu (List.rel_filter ?_ ih)
    intro v v' hv
    simp [hu.name, hv.name]

end Trees

namespace Lower

theorem inBlock_lockstep {A : α → α → Prop} {span span' : Span} {act act' : Lower α}
    (hk : κ.SameScope span.toPosition span'.toPosition) (h : Lockstep κ A act act') :
    Lockstep κ A (inBlock span act) (inBlock span' act') where
  follows := h.follows.inBlock span
  agree c c' s s' _ _ _ _ hc hs hr hr' hq := by
    have hb : blockScope c s span = blockScope c' s' span' := by
      rw [blockScope, blockScope, hs.sameScope hk, hc.scope]
    have hc' : Context.Like κ { c with scope := blockScope c s span }
        { c' with scope := blockScope c' s' span' } := { hc with scope := hb }
    exact h.agree hc' hs (runs_inBlock.1 hr) (runs_inBlock.1 hr') hq

theorem missing_alike {t t' : Table} {scope : Nat} {uses uses' : List Use} {lines : Prop}
    (h : List.Forall₂ (UseAlike lines) uses uses')
    (hl : ∀ u ∈ uses, t.lookup scope u.1 = t'.lookup scope u.1) :
    List.Forall₂ (UseAlike lines) (missing t scope uses) (missing t' scope uses') := by
  induction h with
  | nil => exact .nil
  | cons hu _ ih =>
    have hrest := ih fun v hv => hl v (by simp [hv])
    simp only [missing, List.filter_cons, ← hu.name, ← hl _ (.head _)]
    split
    · exact .cons hu hrest
    · exact hrest

theorem lookup_of_runs {c : Context} {s s' : State} {uses : List Use} {whole : Span} {act : Lower Code}
    {code : Code} (h : Runs (guarding uses whole act) c s code s') :
    ∀ u ∈ uses, ∃ id?, s.table.lookup c.scope u.1 = .ok id? := by
  simp only [guarding, runs_bind] at h
  obtain ⟨_, _, hm, _⟩ := h
  exact (runs_filterM_isMissing hm).2.2

theorem guarding_lockstep {uses uses' : List Use} {whole whole' : Span} {act act' : Lower Code}
    (hu : List.Forall₂ (UseAlike κ.lines) uses uses') (hw : whole.Alike κ.lines whole')
    (h : Lockstep κ (Code.Like κ) act act') :
    Lockstep κ (Code.Like κ) (guarding uses whole act) (guarding uses' whole' act') where
  follows := guarding_keeps uses whole (fun h => h.grows.follows) h.follows
  agree c c' s s' code code' s₁ s₁' hc hs hr hr' hq := by
    have hl (u) (hm : u ∈ uses) : s.table.lookup c.scope u.1 = s'.table.lookup c.scope u.1 := by
      obtain ⟨found, hf⟩ := lookup_of_runs hr u hm
      obtain ⟨u', hm', hu'⟩ := forall₂_mem hu hm
      obtain ⟨found', hf'⟩ := lookup_of_runs hr' u' hm'
      rw [← hu'.name, ← hc.scope] at hf'
      obtain rfl | ⟨q, rfl, _⟩ := hs.lookup hf hf'
      · rw [hf, hf']
      · have hn := (missing_of_guarding hr (hq q)).1
        cases hn ▸ mem_missing.2 ⟨hm, hf⟩
    have hm := missing_alike hu hl
    rw [hc.scope] at hm
    obtain ⟨he, hr⟩ | ⟨hne, rfl, rfl⟩ := runs_guarding hr
    · obtain ⟨he', hr'⟩ | ⟨hne', _⟩ := runs_guarding hr'
      · exact h.agree hc hs hr hr' hq
      · rw [hc.scope] at he
        rw [he] at hm
        exact absurd (List.forall₂_nil_left_iff.1 hm) hne'
    · obtain ⟨he', hr'⟩ | ⟨hne', rfl, rfl⟩ := runs_guarding hr'
      · rw [he'] at hm
        rw [hc.scope] at hne
        exact absurd (List.forall₂_nil_right_iff.1 hm) hne
      · refine ⟨.refl _, { hs with problems := List.rel_append hs.problems ?_ }⟩
        rw [hc.scope]
        refine List.forall₂_map_left_iff.2 <| List.forall₂_map_right_iff.2 <|
          (firstUses_alike hm).imp fun u u' hu => ?_
        rw [missingProblem, missingProblem, hu.name]
        exact .unresolved (hu.span.orElse hw)

theorem bindLocal_lockstep (name : String) {span span' : Span} (h : span.Alike κ.lines span') :
    Lockstep κ (fun _ _ => True) (bindLocal name span) (bindLocal name span') :=
  lookup_lockstep name (unresolved_lockstep name h) (report_reportsMissing _) fun id =>
    (valueSize_lockstep id).bind fun _ _ hs => bindStorage_lockstep id hs

theorem bindParams_lockstep {params params' : List Param}
    (h : List.Forall₂ (Param.Alike κ.lines) params params') :
    Lockstep κ (fun _ _ => True) (bindParams params) (bindParams params') where
  follows := (bindParams_binds params).bound.stored.follows
  agree c c' s s' u u' s₁ s₁' hc hs hr hr' hq := by
    induction h generalizing s s' with
    | nil =>
      obtain ⟨_, rfl⟩ := runs_pure.1 hr
      obtain ⟨_, rfl⟩ := runs_pure.1 hr'
      exact ⟨trivial, hs⟩
    | @cons p p' rest rest' hp _ ih =>
      obtain ⟨m, hm, hr⟩ := runs_bindParams_cons hr
      obtain ⟨m', hm', hr'⟩ := runs_bindParams_cons hr'
      have hq₁ (q : κ.quiet) : m.problems = [] :=
        ((bindParams_binds rest).bound.stored.follows hr).quiet (hq q)
      refine ih m m' ?_ hr hr'
      rw [hp.name, ← hc.scope] at hm'
      obtain ⟨hl, rfl⟩ | ⟨id, x, _, hl, hx, hb⟩ := hm
      · obtain ⟨hl', rfl⟩ | ⟨id', x', _, hl', hx', hb'⟩ := hm'
        · exact hs.report (.unresolved hp.span)
        · obtain h | ⟨q, _⟩ := hs.lookupLocal hl hl'
          · cases h
          · simpa using hq₁ q
      · obtain ⟨hl', rfl⟩ | ⟨id', x', _, hl', hx', hb'⟩ := hm'
        · obtain h | ⟨_, h⟩ := hs.lookupLocal hl hl' <;> cases h
        · obtain h | ⟨_, h⟩ := hs.lookupLocal hl hl'
          · cases h
            have hz : SameIf κ.bytes (x.type.size c.options.pointerSize)
                (x'.type.size c'.options.pointerSize) := fun b => by
              rw [(hs.symbol hx hx').type, hc.pointerSize b]
            exact ((bindStorage_lockstep id hz).agree hc hs hb hb' hq₁).2
          · cases h

theorem inherited_lockstep (parent : Option String) :
    Lockstep κ (SameIf κ.bytes) (inherited parent) (inherited parent) where
  follows := fun _ _ _ _ h => by
    obtain ⟨rfl, _⟩ := runs_inherited h
    exact Std.Refl.refl _
  agree c c' s s' size size' s₁ s₁' hc hs hr hr' hq := by
    obtain ⟨rfl, h⟩ := runs_inherited hr
    obtain ⟨rfl, h'⟩ := runs_inherited hr'
    refine ⟨?_, hs⟩
    rw [← hc.scope] at h'
    obtain ⟨rfl, hn⟩ | ⟨name, hp, id, x, hl, hx, rfl⟩ := h
    · obtain ⟨rfl, _⟩ | ⟨name, hp, id, x, hl, hx, rfl⟩ := h'
      · exact .refl _
      · obtain h | ⟨_, _, hb⟩ := hs.lookup (hn name hp) hl
        · cases h
        · exact .of_eq (hs.beyond hx (hb id rfl)).1.symm
    · obtain ⟨rfl, hn⟩ | ⟨name', hp', id', x', hl', hx', rfl⟩ := h'
      · obtain h | ⟨_, h, _⟩ := hs.lookup hl (hn name hp) <;> cases h
      · cases hp.symm.trans hp'
        obtain h | ⟨_, h, _⟩ := hs.lookup hl hl'
        · cases h
          exact (hs.symbol hx hx').frame
        · cases h

/-- The bound of a loop, given the extents of what it runs through. -/
def boundOf (value : Operand) (dimensions : List Nat) : Operand :=
  match dimensions.head? with
  | some n => .int (signed n)
  | none => .field value "length"

theorem runs_loopBound_ident {c : Context} {s s' : State} {name : String} {span : Span}
    {value bound : Operand} (h : Runs (loopBound (.ident name span) value) c s bound s') :
    s' = s ∧ ∃ found, s.table.lookup c.scope name = .ok found ∧
      ((found = none ∧ bound = boundOf value []) ∨
        ∃ id x, found = some id ∧ s.table.symbol id = .ok x ∧ bound = boundOf value x.dimensions) := by
  simp only [loopBound, runs_bind, runs_lookup] at h
  obtain ⟨found, _, ⟨hl, rfl⟩, h⟩ := h
  cases found with
  | none =>
    simp only [runs_bind, runs_pure] at h
    obtain ⟨_, _, ⟨rfl, rfl⟩, rfl, rfl⟩ := h
    exact ⟨rfl, none, hl, .inl ⟨rfl, rfl⟩⟩
  | some id =>
    simp only [runs_bind, runs_symbol, runs_pure] at h
    obtain ⟨x, _, ⟨hx, rfl⟩, _, _, ⟨rfl, rfl⟩, rfl, rfl⟩ := h
    exact ⟨rfl, some id, hl, .inr ⟨id, x, rfl, hx, rfl⟩⟩

theorem loopBound_lockstep {e e' : Expr} (h : e.Alike κ.lines e') (value : Operand) :
    Lockstep κ Eq (loopBound e value) (loopBound e' value) where
  follows := loopBound_keeps e value
  agree c c' s s' bound bound' s₁ s₁' hc hs hr hr' hq := by
    cases h with
    | ident =>
      obtain ⟨rfl, found, hl, hb⟩ := runs_loopBound_ident hr
      obtain ⟨rfl, found', hl', hb'⟩ := runs_loopBound_ident hr'
      refine ⟨?_, hs⟩
      obtain ⟨rfl, rfl⟩ | ⟨id, x, rfl, hx, rfl⟩ := hb
      · obtain ⟨_, rfl⟩ | ⟨id', x', rfl, hx', rfl⟩ := hb'
        · rfl
        · obtain h | ⟨_, _, hn⟩ := hs.lookup hl (hc.scope ▸ hl')
          · cases h
          · rw [(hs.beyond hx' (hn id' rfl)).2]
      · obtain ⟨rfl, _⟩ | ⟨id', x', rfl, hx', rfl⟩ := hb'
        · obtain h | ⟨_, h, _⟩ := hs.lookup hl (hc.scope ▸ hl') <;> cases h
        · obtain h | ⟨_, h, _⟩ := hs.lookup hl (hc.scope ▸ hl')
          · cases h
            rw [(hs.symbol hx hx').dimensions]
          · cases h
    | _ =>
      simp only [loopBound, runs_bind, runs_pure] at hr hr'
      obtain ⟨_, _, ⟨rfl, rfl⟩, rfl, rfl⟩ := hr
      obtain ⟨_, _, ⟨rfl, rfl⟩, rfl, rfl⟩ := hr'
      exact ⟨rfl, hs⟩

section Arrays

variable {es es' : List Expr} {span span' : Span}

theorem cells_lockstep (h : List.Forall₂ (Expr.Alike κ.lines) es es') :
    SameShape (.row (lowerCells es)) (.row (lowerCells es')) ∧
      SameLeaves κ (.row (lowerCells es)) (.row (lowerCells es')) := by
  have ht := (Expr.Alike.array (a := .unplaced) (b := .unplaced) h (.refl _)).lockstep
  exact ⟨ht.shape, ht.leaves⟩

theorem storeElements_lockstep (base : Operand) (h : List.Forall₂ (Expr.Alike κ.lines) es es')
    (dims : List Nat) (zero : Operand) :
    Lockstep κ (Code.Like κ) (storeElements base (.row (lowerCells es)) dims zero)
      (storeElements base (.row (lowerCells es')) dims zero) := by
  refine (mapM_lockstep (B := Code.Like κ) fun p _ =>
    (leafAt_lockstep (cells_lockstep h).2 zero p).bind_coded fun _ _ _ hc =>
      .pure (hc.append (.refl _))).bind fun stores stores' hstores => .pure ?_
  induction hstores with
  | nil => exact .refl _
  | cons hx _ ih => exact hx.append ih

theorem leafSize_alike {pointer pointer' : Nat} (hp : SameIf κ.bytes pointer pointer') (element : Ty)
    (h : List.Forall₂ (Expr.Alike κ.lines) es es') :
    SameIf κ.bytes (leafSize pointer element es) (leafSize pointer' element es') := by
  intro b
  rw [leafSize, leafSize, hp b]
  cases h with
  | nil => rfl
  | cons he _ => rw [cornerSizeHead, cornerSizeHead, he.cornerSize]

theorem declareArray_lockstep (id : SymbolId) (h : List.Forall₂ (Expr.Alike κ.lines) es es')
    (hs : span.Alike κ.lines span') :
    Lockstep κ (Code.Like κ) (declareArray id es span) (declareArray id es' span') := by
  refine symbol_twins_bind (declareArray_stores id es span).stored.follows fun hid x x' hx =>
    read_lockstep.bind fun c c' hc => ?_
  rw [hx.name, hx.type]
  refine (literalShape_lockstep _ hs (cells_lockstep h).1).bind_eq fun shape => ?_
  cases shape with
  | none => exact (bindStorage_lockstep id hc.pointerSize).seq fun _ _ => .pure (.refl _)
  | some dims =>
    have hz := leafSize_alike hc.pointerSize x'.type.element h
    have hdims : Lockstep κ (fun _ _ => True) (modifySymbol id ({ · with dimensions := dims }))
        (modifySymbol id ({ · with dimensions := dims })) :=
      modifySymbol_lockstep hid (fun _ => rfl) (fun _ => rfl) fun _ _ hy => { hy with dimensions := rfl }
    refine (lift_lockstep (P := κ.bytes) fun b => ?_).bind fun size size' hsize => hdims.seq fun _ _ =>
      (bindStorage_lockstep id hsize).seq fun _ _ => storeElements_lockstep _ h _ _
    rw [hz b, hc.pointerSize b]

theorem assignArray_lockstep (id : SymbolId) (h : List.Forall₂ (Expr.Alike κ.lines) es es')
    (hs : span.Alike κ.lines span') :
    Lockstep κ (Code.Like κ) (assignArray id es span) (assignArray id es' span') := by
  refine (symbol_lockstep id).bind fun x x' hx => ?_
  rw [hx.name, hx.type]
  refine (literalShape_lockstep _ hs (cells_lockstep h).1).bind_eq fun shape => ?_
  cases shape with
  | none => exact .pure (.refl _)
  | some dims => exact storeElements_lockstep _ h _ _

theorem lowerIndices_lockstep (h : List.Forall₂ (Expr.Alike κ.lines) es es') :
    Lockstep κ (Coded κ Eq) (lowerIndices es) (lowerIndices es') := by
  induction h with
  | nil => exact .pure (Std.Refl.refl _)
  | cons he _ ih =>
    exact (he.lockstep.value _).bind_coded fun _ _ _ hx => (ensureTemp_lockstep _).bind_coded fun _ _ _ hy =>
      ih.bind_coded fun _ _ _ hz => .pure ⟨(hx.append hy).append hz, rfl⟩

end Arrays

theorem named_lockstep (name : String) {span span' : Span} {f f' : SymbolId → Lower Code}
    (h : span.Alike κ.lines span') (k : ∀ id, Lockstep κ (Code.Like κ) (f id) (f' id)) :
    Lockstep κ (Code.Like κ)
      (do match ← lookup name with
          | none => do
            report (.unresolved name span.line)
            return []
          | some id => f id)
      (do match ← lookup name with
          | none => do
            report (.unresolved name span'.line)
            return []
          | some id => f' id) :=
  lookup_lockstep name ((unresolved_lockstep name h).seq fun _ _ => .pure (.refl _))
    ((report_reportsMissing _).bind_pure _) k

end Lower

theorem Binding.Alike.lower_lockstep {b b' : Binding} (h : b.Alike κ.lines b') :
    Lower.Lockstep κ (Code.Like κ) b.lower b'.lower := by
  obtain ⟨_, _, value, _, span⟩ := b
  obtain ⟨n, type, value', isConst, span'⟩ := b'
  obtain ⟨rfl, rfl, hv, rfl, hs⟩ := h
  refine named_lockstep n hs fun id => ?_
  have scalar {e e' : Expr} (he : e.Alike κ.lines e') : Lower.Lockstep κ (Code.Like κ)
      (do bindStorage id (← valueSize id)
          let x ← storable (e.lower .value)
          return x.1 ++ [.assign (.var n) x.2])
      (do bindStorage id (← valueSize id)
          let x ← storable (e'.lower .value)
          return x.1 ++ [.assign (.var n) x.2]) :=
    (valueSize_lockstep id).bind fun _ _ hz => (bindStorage_lockstep id hz).seq fun _ _ =>
      (storable_lockstep (he.lockstep.value _)).bind_coded fun _ _ _ hc => .pure (hc.append (.refl _))
  cases hv with
  | none =>
    exact (valueSize_lockstep id).bind fun _ _ hz => (bindStorage_lockstep id hz).seq fun _ _ => .pure (.refl _)
  | some he =>
    have hstore := scalar he
    cases he with
    | array hes ha => exact declareArray_lockstep id hes ha
    | _ => exact hstore

theorem Target.Alike.assign_lockstep {t t' : Target} {value value' : Expr} {a b : Span}
    (h : t.Alike κ.lines t') (hv : value.Alike κ.lines value') (hs : a.Alike κ.lines b) :
    Lower.Lockstep κ (Code.Like κ) (t.assign value a) (t'.assign value' b) := by
  cases h with
  | @ident n =>
    refine named_lockstep n hs fun id => ?_
    have hstore : Lower.Lockstep κ (Code.Like κ)
        (do let place := (← symbol id).address.getD n
            let x ← storable (value.lower .value)
            return x.1 ++ [.assign (.var place) x.2])
        (do let place := (← symbol id).address.getD n
            let x ← storable (value'.lower .value)
            return x.1 ++ [.assign (.var place) x.2]) := by
      refine (symbol_lockstep id).bind fun x x' hx => ?_
      rw [hx.address]
      exact (storable_lockstep (hv.lockstep.value _)).bind_coded fun _ _ _ hc => .pure (hc.append (.refl _))
    cases hv with
    | array hes ha => exact assignArray_lockstep id hes ha
    | _ => exact hstore
  | index hb hi =>
    exact (hb.lockstep.value _).bind_coded fun _ _ _ hx => (lowerIndices_lockstep hi).bind_coded fun _ _ _ hy =>
      (storable_lockstep (hv.lockstep.value _)).bind_coded fun _ _ _ hz =>
      .pure (((hx.append hy).append hz).append (.refl _))
  | property ho =>
    exact (ho.lockstep.value _).bind_coded fun _ _ _ hx =>
      (storable_lockstep (hv.lockstep.value _)).bind_coded fun _ _ _ hz =>
      .pure ((hx.append hz).append (.refl _))

end ThreeAddress
