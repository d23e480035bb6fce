import ThreeAddress.Proofs.Reports.Values

namespace ThreeAddress

open Lowering Lower

namespace Table

variable {t : Table} {key : Position} {site : Site} {id : SymbolId} {sites : List Site}

theorem Spares.modifySymbol (hf : t.find? site = some id) (hs : site ∈ sites) (g : Symbol → Symbol)
    (t' : Table) : t.Spares (·.offset) sites t' (t'.modifySymbol id g) := fun _ hid =>
  fact_modifySymbol_ne fun he => hid site hs (he ▸ hf)

end Table

namespace Lower

variable {t : Table} {key : Position} {items items' : List Item} {R R' : Reporting}
  {act : Lower α} {f : α → Lower β}

namespace Sound

theorem silent {uses : List Use} (h : Sound t key items .nothing act) :
    Sound t key items (.concerning t uses) act := h.mono fun _ ps hp => by
  rw [show ps = [] from hp]
  exact nofun

theorem lookup {name : String} {id : SymbolId} {f : Option SymbolId → Lower β}
    (hf : t.find? ⟨key, name⟩ = some id) (h : Sound t key items R (f (some id))) :
    Sound t key items R (lookup name >>= f) := by
  intro c s hs ha
  refine Ensures.bind (P := fun found s' => found = some id ∧ s' = s) (.lookup fun found hl => ?_) ?_
  · rw [Table.lookup_of_find? hs.outline hf hs.scope] at hl
    exact ⟨(Except.ok.inj hl).symm, rfl⟩
  · rintro _ _ ⟨rfl, rfl⟩
    exact h hs ha

theorem lookupLocal {name : String} {id : SymbolId} {f : Option SymbolId → Lower β}
    (hf : t.find? ⟨key, name⟩ = some id) (h : Sound t key items R (f (some id))) :
    Sound t key items R (do f (← (← get).table.lookupLocal (← read).scope name)) := by
  intro c s hs ha
  refine Ensures.bind (P := fun a s₁ => a = s ∧ s₁ = s) (.get ⟨rfl, rfl⟩) ?_
  rintro _ s ⟨rfl, rfl⟩
  refine Ensures.bind (P := fun a s₁ => a = c ∧ s₁ = s) (.read ⟨rfl, rfl⟩) ?_
  rintro c s ⟨rfl, rfl⟩
  refine Ensures.bind (P := fun found s₁ => found = some id ∧ s₁ = s)
    (.lift (.lookupLocal ..) fun found hl => ?_) ?_
  · rw [Table.lookupLocal_of_find? hs.outline hf hs.scope] at hl
    exact ⟨(Except.ok.inj hl).symm, rfl⟩
  · rintro _ _ ⟨rfl, rfl⟩
    exact h hs ha

theorem modifySymbol (id : SymbolId) {g : Symbol → Symbol} (hg : ∀ x, (g x).outline = x.outline)
    (ho : ∀ x, (g x).offset = x.offset) : Sound t key [] .nothing (modifySymbol id g) :=
  fun _ _ _ _ => .modifySymbol ⟨Table.outline_modifySymbol fun x _ => hg x,
    fun id' _ => Table.fact_modifySymbol ho id', [], (List.append_nil _).symm, rfl⟩

theorem inFrame (h : Sound t key items R act) : Sound t key items R (inFrame act) :=
  .last (.account (Ledger.NoRebind.modify _)) fun _ =>
    h.first fun _ => (KeepsRecords.account Ledger.exitFrame_noRebind).bind fun _ => .pure _

end Sound

def bindParam (p : Param) : Lower Unit := do
  match ← (← get).table.lookupLocal (← read).scope p.name with
  | some id => bindStorage id (← valueSize id)
  | none => report (.unresolved p.name p.span.line)

theorem bindParams_cons (p : Param) (rest : List Param) :
    bindParams (p :: rest) = bindParam p >>= fun _ => bindParams rest := by
  simp only [bindParams, List.forM_eq_forM, List.forM_cons]
  rfl

section Storage

variable {site : Site} {id : SymbolId} {name : String}

theorem bindStorage_sound (size : Nat) (hf : t.find? site = some id) :
    Sound t key [.slot site] .nothing (bindStorage id size) := by
  have hm : site ∈ slotsAll [.slot site] := by simp [slotsAll, Item.slots]
  intro c s hs ha
  refine Ensures.bind (P := fun _ s₁ => s₁.table = s.table ∧ s₁.problems = s.problems)
    (.account (Ledger.allocate_noRebind size) fun _ _ _ => ⟨rfl, rfl⟩) ?_
  rintro offset s₁ ⟨ht, hp⟩
  refine Ensures.bind (P := fun x s₂ => s₂ = s₁ ∧ x.offset = none)
    (.symbol fun x hx => ⟨rfl, ha site hm id hf x (ht ▸ hx)⟩) ?_
  rintro x _ ⟨rfl, ho⟩
  rw [ho]
  refine .modifySymbol (.before ht hp ⟨Table.outline_modifySymbol fun _ _ => rfl, ?_, [], ?_, rfl⟩)
  · exact .modifySymbol hf hm _ _
  · exact (List.append_nil _).symm

theorem declareArray_sound (es : List Expr) (span : Span) (hf : t.find? site = some id) :
    Sound t key [.slot site] (.concerning t (usesAll es)) (declareArray id es span) := by
  refine .last (.symbol id) fun x => .last .read fun c => ?_
  refine Sound.also (literalShape_reads ..) fun shape => ?_
  cases shape with
  | none => exact Sound.silent <| (bindStorage_sound _ hf).first fun _ => .pure _
  | some dims =>
    refine .last (.lift (.arraySize ..)) fun size => ?_
    have hd : Sound t key [] .nothing (Lower.modifySymbol id ({ · with dimensions := dims })) :=
      .modifySymbol id (fun _ => rfl) fun _ => rfl
    simpa using hd.before fun _ => (bindStorage_sound size hf).behind fun _ =>
      storeElements_reads (leaf_reads es)

theorem bindLocal_sound (span : Span) (hf : t.find? ⟨key, name⟩ = some id) :
    Sound t key [.slot ⟨key, name⟩] .nothing (bindLocal name span) :=
  .lookup hf <| .last (.valueSize id) fun _ => bindStorage_sound _ hf

theorem bindParams_sound {params : List Param}
    (hf : ∀ p ∈ params, ∃ id, t.find? ⟨key, p.name⟩ = some id)
    (hn : (sitesAll (params.map fun p => .slot ⟨key, p.name⟩)).Nodup) :
    Sound t key (params.map fun p => .slot ⟨key, p.name⟩) .nothing (bindParams params) := by
  induction params with
  | nil => exact .of_keepsRecords (.pure _) fun _ => rfl
  | cons p rest ih =>
    obtain ⟨id, hid⟩ := hf p (by simp)
    have hp : Sound t key [.slot ⟨key, p.name⟩] .nothing (bindParam p) := by
      refine Sound.lookupLocal (f := fun found => match found with
        | some id => do bindStorage id (← valueSize id)
        | none => report (.unresolved p.name p.span.line)) hid ?_
      exact .last (.valueSize id) fun _ => bindStorage_sound _ hid
    rw [bindParams_cons]
    simpa using hp.bind (fun _ => ih (fun p hm => hf p (by simp [hm])) (List.nodup_append.1 hn).2.1) hn

theorem isMissing_keepsRecords (u : Use) : KeepsRecords (isMissing u) :=
  (KeepsRecords.lookup u.1).bind fun _ => .pure _

theorem filterAuxM_isMissing_keepsRecords (uses acc : List Use) :
    KeepsRecords (uses.filterAuxM isMissing acc) := by
  induction uses generalizing acc with
  | nil => exact .pure _
  | cons u rest ih => exact (isMissing_keepsRecords u).bind fun _ => ih _

theorem reportAll_keepsRecords (uses : List Use) (whole : Span) (c : Context) (s : State) :
    Checked.NoRebind ((uses.forM fun (name, span) =>
      report (.unresolved name (span.orElse whole).line)) c s) := by
  induction uses generalizing s with
  | nil => exact .ok _
  | cons u rest ih => exact ih _

theorem mem_of_firstUses {uses : List Use} {u : Use} (h : u ∈ firstUses uses) : u ∈ uses := by
  induction uses with
  | nil => exact h
  | cons v rest ih =>
    obtain rfl | h := List.mem_cons.1 h
    · exact List.mem_cons_self
    · exact List.mem_cons_of_mem _ (ih (List.mem_filter.1 h).1)

theorem guarding_sound {uses : List Use} {whole : Span} {act : Lower Code}
    (h : Sound t key items (.concerning t uses) act) :
    Sound t key items (.concerning t uses) (guarding uses whole act) := by
  intro c s hs ha
  have hm : KeepsRecords (uses.filterM isMissing) :=
    (filterAuxM_isMissing_keepsRecords uses []).bind fun _ => .pure _
  refine Ensures.bind (P := fun found s₁ => found = missing s.table c.scope uses ∧ s₁ = s)
    ⟨(hm.ensures c s).noRebind, fun _ _ hr => (runs_filterM_isMissing hr).imp_right And.left⟩ ?_
  rintro found _ ⟨hfound, rfl⟩
  split
  · exact h hs ha
  · refine Ensures.bind ⟨reportAll_keepsRecords .., fun _ _ => runs_reportAll⟩ ?_
    rintro _ _ rfl
    refine .pure ⟨rfl, fun _ _ => rfl, _, rfl, fun p hp => ?_⟩
    obtain ⟨u, hu, rfl⟩ := List.mem_map.1 hp
    rw [hfound] at hu
    obtain ⟨hu, hl⟩ := mem_missing.1 (mem_of_firstUses hu)
    rw [← Table.lookup_outline, hs.outline, Table.lookup_outline] at hl
    exact .inl ⟨u, hu, hl, _, rfl⟩

theorem Sound.resolved {u : Use} {uses : List Use} {id : SymbolId}
    (h : Sound t key items (.concerning t (u :: uses)) act) (hf : t.find? ⟨key, u.1⟩ = some id) :
    Sound t key items (.concerning t uses) act := fun _ _ hs ha =>
  (h hs ha).mono fun _ _ hp => hp.mono fun _ hr p hm => by
    obtain ⟨v, hv, hl, hp⟩ | hp := hr p hm
    · obtain rfl | hv := List.mem_cons.1 hv
      · cases hl.symm.trans (Table.lookup_of_find? rfl hf hs.scope)
      · exact .inl ⟨v, hv, hl, hp⟩
    · exact .inr hp

end Storage

end Lower

section Bindings

variable {t : Table} {key : Position}

theorem Binding.lower_sound {b : Binding} {id : SymbolId} (hf : t.find? ⟨key, b.name⟩ = some id) :
    Sound t key [.slot ⟨key, b.name⟩] (.concerning t (optionUses b.value)) b.lower := by
  refine .lookup hf ?_
  cases hv : b.value with
  | none => exact .silent <| .last (.valueSize id) fun _ => (bindStorage_sound _ hf).first fun _ => .pure _
  | some e =>
    have stored : Reads t key e.uses (storable (e.lower .value)) := storable_reads (e.lower_reads _)
    have bound : Sound t key [.slot ⟨key, b.name⟩] (.concerning t e.uses) (do
        bindStorage id (← valueSize id)
        let x ← storable (e.lower .value)
        return x.1 ++ [.assign (.var b.name) x.2]) := by
      refine .last (.valueSize id) fun _ => ?_
      simpa using (bindStorage_sound _ hf).behind fun _ => Sound.first stored fun _ => .pure _
    cases e with
    | array es span => exact declareArray_sound es span hf
    | _ => exact bound

theorem Binding.guarded_sound {b : Binding} {id : SymbolId} (hf : t.find? ⟨key, b.name⟩ = some id) :
    Sound t key [.slot ⟨key, b.name⟩] (.declaring t [b.name] (.concerning t (optionUses b.value)))
      (guarding b.uses b.span b.lower) := by
  have hb : Sound t key [.slot ⟨key, b.name⟩] (.concerning t b.uses) (guarding b.uses b.span b.lower) :=
    guarding_sound <| (b.lower_sound hf).mono fun _ _ hr p hp =>
      (hr p hp).mono fun _ => List.mem_cons_of_mem _
  refine (hb.resolved hf).declaring fun name hm => ?_
  obtain rfl := List.mem_singleton.1 hm
  exact ⟨id, hf⟩

end Bindings

namespace Lower

variable {t : Table} {key : Position} {lo : Nat} {items items' : List Item}
  {R R' R₁ R₂ : Reporting}

section Control

variable {test : Lower Valued} {first body other step : Lower Code}

theorem enterLoop_keepsRecords (b k : Option Label) : KeepsRecords (account (Ledger.enterLoop b k)) :=
  .account (.modify _)

theorem exitLoop_keepsRecords : KeepsRecords (account Ledger.exitLoop) := .account Ledger.exitLoop_noRebind

theorem ifThen_sound (ht : Sound t key [] R test) (hb : Sound t key items R' body) :
    Sound t key items (R.andThen R') (ifThen test body) :=
  ht.before fun _ => .last .freshLabel fun _ => hb.first fun _ => .pure _

theorem ifThenElse_sound (ht : Sound t key [] R test) (hb : Sound t key items R₁ body)
    (ho : Sound t key items' R₂ other) (hn : (sitesAll (items ++ items')).Nodup) :
    Sound t key (items ++ items') (R.andThen (R₁.andThen R₂)) (ifThenElse test body other) :=
  ht.before fun _ => .last .freshLabel fun _ => hb.bind
    (fun _ => .last .freshLabel fun _ => ho.first fun _ => .pure _) hn

theorem whileLoop_sound (ht : Sound t key [] R test) (hb : Sound t key items R' body) :
    Sound t key items (R.andThen R') (whileLoop test body) :=
  .last .freshLabel fun _ => ht.before fun _ => .last .freshLabel fun _ =>
    .last (enterLoop_keepsRecords ..) fun _ => hb.first fun _ => exitLoop_keepsRecords.bind fun _ => .pure _

theorem doWhile_sound (ht : Sound t key [] R' test) (hb : Sound t key items R body) :
    Sound t key items (R.andThen R') (doWhile body test) :=
  .last .freshLabel fun _ => .last (enterLoop_keepsRecords ..) fun _ => hb.behind fun _ =>
    ht.first fun _ => exitLoop_keepsRecords.bind fun _ => .pure _

theorem forLoop_sound {test : Option (Lower Valued)} {hasStep : Bool}
    (hf : Sound t key items R first) (ht : Sound t key [] R' (loopTest test))
    (hb : Sound t key items' R₁ body) (hp : Sound t key [] R₂ step)
    (hn : (sitesAll (items ++ items')).Nodup) :
    Sound t key (items ++ items') (R.andThen (R'.andThen (R₁.andThen R₂)))
      (forLoop first test hasStep step body) :=
  hf.bind (fun _ => .last .freshLabel fun _ => ht.before fun _ => .last (enterLoop_keepsRecords ..) fun _ =>
    hb.behind fun _ => .last exitLoop_keepsRecords fun _ => hp.first fun _ => .pure _) hn

theorem indexLoop_sound {base bound : Operand} {item : String} {bind : Lower Unit}
    (hi : Sound t key items R bind) (hb : Sound t key items' R' body)
    (hn : (sitesAll (items ++ items')).Nodup) :
    Sound t key (items ++ items') (R.andThen R') (indexLoop base bound item bind body) :=
  .last (.copyToTemp _) fun _ => .last (.copyToTemp _) fun _ => hi.bind
    (fun _ => .last .freshLabel fun _ => .last .freshTemp fun _ => .last .freshLabel fun _ =>
      .last .freshTemp fun _ => .last (enterLoop_keepsRecords ..) fun _ =>
        hb.first fun _ => exitLoop_keepsRecords.bind fun _ => .pure _) hn

theorem tryCatch_sound {caught : String} (hb : Sound t key items R body)
    (ho : Sound t key items' R' other) (hn : (sitesAll (items ++ items')).Nodup) :
    Sound t key (items ++ items') (R.andThen R') (tryCatch body caught other) :=
  .last .freshLabel fun _ => hb.bind
    (fun _ => .last .freshLabel fun _ => ho.first fun _ => .pure _) hn

theorem caseBody_sound (l : Label) (isEmpty : Bool) (hb : Sound t key items R body) :
    Sound t key items R (caseBody l isEmpty body) := by
  refine hb.first fun _ => KeepsRecords.read.bind fun _ => ?_
  split
  · exact KeepsRecords.gotoBreak.bind fun _ => .pure _
  · exact .pure _

theorem switch_sound {subject : Lower Valued} {cases : List Case}
    {bodies : List Label → Lower Code} {default : Option (Lower Code)}
    (hs : Sound t key [] R subject)
    (hb : ∀ labels, labels.length = cases.length → Sound t key items R₁ (bodies labels))
    (hd : ∀ act ∈ default, Sound t key items' R₂ act) (he : default = none → ∀ scope, R₂ scope [])
    (hn : (sitesAll (items ++ items')).Nodup) :
    Sound t key (items ++ items')
      (R.andThen (.andThen (.concerning t (cases.flatMap (·.value.uses))) (R₁.andThen R₂)))
      (switch subject cases bodies default) := by
  refine hs.before fun (_, v) => .last (.ensureTemp v) fun (_, w) =>
    (caseTests_reads w cases).before_of_runs fun (_, labels) ⟨_, _, _, hr⟩ => ?_
  have hb := hb labels (length_caseTests hr)
  refine .last (.account (.modify _)) fun _ => ?_
  cases default with
  | none =>
    refine .last .gotoBreak fun _ => hb.bind (fun _ => .of_keepsRecords ?_ (he rfl)) hn
    exact (KeepsRecords.account Ledger.exitSwitch_noRebind).bind fun _ => .pure _
  | some act =>
    refine .last .freshLabel fun _ => hb.bind (fun _ => (hd act rfl).first fun _ => ?_) hn
    exact (KeepsRecords.account Ledger.exitSwitch_noRebind).bind fun _ => .pure _

theorem jump_sound {target : Account (Option Label)} (h : Ledger.NoRebind target) {problem : Problem} :
    Sound t key [] (fun _ ps => ∀ p ∈ ps, p = problem) (jump target problem) := by
  refine .last (.account h) fun found => ?_
  cases found with
  | some l => exact .of_keepsRecords (.pure _) fun _ => nofun
  | none =>
    refine Sound.first (fun _ _ _ _ => .report ⟨rfl, fun _ _ => rfl, [problem], rfl, ?_⟩) fun _ => .pure _
    simp

end Control

theorem loopBound_keepsRecords (e : Expr) (value : Operand) : KeepsRecords (loopBound e value) := by
  cases e with
  | ident name span =>
    refine (KeepsRecords.lookup name).bind fun found => ?_
    cases found with
    | none => exact (KeepsRecords.pure none).bind fun _ => .pure _
    | some id => exact (KeepsRecords.symbol id).bind fun _ => (KeepsRecords.pure _).bind fun _ => .pure _
  | _ => exact (KeepsRecords.pure none).bind fun _ => .pure _

section Frames

variable {name : String} {span : Span} {scope : Position} {parent : Option String}

theorem Ensures.symbol_read {c : Context} {s : State} {id : SymbolId} {k : Symbol → Context → Lower α}
    {Q : α → State → Prop} (h : ∀ x, s.table.symbol id = .ok x → Ensures (k x c) c s Q) :
    Ensures (Lower.symbol id >>= fun x => MonadReader.read >>= k x) c s Q := by
  refine Ensures.bind (P := fun x s₁ => s₁ = s ∧ s.table.symbol id = .ok x)
    (.symbol fun _ hx => ⟨rfl, hx⟩) ?_
  rintro x s ⟨rfl, hx⟩
  refine Ensures.bind (P := fun d s₁ => d = c ∧ s₁ = s) (.read ⟨rfl, rfl⟩) ?_
  rintro c s ⟨rfl, rfl⟩
  exact h x hx

theorem Sound.ended {c : Context} {s : State} {id : SymbolId} {x : Symbol} {site : Site}
    {r : Context → Context} {act : Lower α} {g : α × Nat → Lower β} (h : Sound t scope items R act)
    (hp : (Item.frame site scope parent items).Placed lo t) (hf : t.find? site = some id)
    (hs : Stands t key c s)
    (ha : t.Awaits (slotsAll [.frame site scope parent items]) s.table)
    (hx : s.table.symbol id = .ok x) (hr : (r c).scope = x.members.getD c.scope)
    (hg : ∀ a, Sound t key [] .nothing (g a)) :
    Ensures (Lower.inFrame (withReader r act) >>= g) c s fun _ s' => s.Passes t
      (slotsAll [.frame site scope parent items]) (R.within t scope c.scope) s' := by
  have he : slotsAll [.frame site scope parent items] = slotsAll items := by
    simp [slotsAll, Item.slots]
  rw [he] at ha ⊢
  have hm := Stands.members (c := c) hp hf hs.outline hx
  obtain ⟨i, hi⟩ : ∃ i, t.scopeFor scope = some i := by
    cases hp with
    | frame _ _ _ hk => exact ⟨_, hk⟩
  have hin : Ensures (Lower.inFrame (withReader r act)) c s fun _ s' =>
      s.Passes t (slotsAll items) (R.within t scope c.scope) s' := by
    rw [Reporting.within, hi, Option.getD_some, ← hm i hi, ← hr]
    exact (h.inFrame (c := r c) ⟨hs.outline, hr ▸ hm⟩ ha).congr rfl
  refine hin.bind fun a s₁ hp => ?_
  have hawaits : t.Awaits (slotsAll []) s₁.table := by simp [Table.Awaits, slotsAll]
  refine (hg a (hs.of_outline hp.outline) hawaits).mono fun _ _ hp' => ?_
  simpa [slotsAll] using State.Passes.append (R := R.within t scope) hp hp'

theorem functionFrame_sound {params : List Param} {body : Lower Code}
    (ha : Arranged lo t
      [.frame ⟨key, name⟩ scope none (params.map (fun p => .slot ⟨scope, p.name⟩) ++ items)])
    (hb : Sound t scope items R body) :
    Sound t key [.frame ⟨key, name⟩ scope none (params.map (fun p => .slot ⟨scope, p.name⟩) ++ items)]
      (.declaring t [name] <| .within t scope <| .declaring t (params.map (·.name)) R)
      (functionFrame name params span body) := by
  obtain ⟨id, hf⟩ : ∃ id, t.find? ⟨key, name⟩ = some id :=
    (ha.placed _ List.mem_cons_self).exists_id
  have hin := ha.inside
  have hparams : ∀ p ∈ params, ∃ id, t.find? ⟨scope, p.name⟩ = some id := fun p hp =>
    (hin.left.placed _ (List.mem_map_of_mem hp)).exists_id
  have hinside : Sound t scope (params.map (fun p => .slot ⟨scope, p.name⟩) ++ items)
      (.declaring t (params.map (·.name)) R) (do bindParams params; body) := by
    refine Sound.declaring ?_ (by simpa using hparams)
    simpa using (bindParams_sound hparams hin.left.nodup).bind (fun _ => hb) hin.nodup
  refine Sound.declaring (.lookup hf ?_) (by simpa using ⟨id, hf⟩)
  intro c s hs haw
  refine .symbol_read fun x hx => ?_
  refine hinside.ended (ha.placed _ List.mem_cons_self) hf hs haw hx rfl fun (_, _) => ?_
  refine Sound.first (.modifySymbol id ?_ ?_) fun _ => .pure _ <;> exact fun _ => rfl

theorem inherited_keepsRecords (parent : Option String) : KeepsRecords (inherited parent) := by
  cases parent with
  | none => exact .pure _
  | some parent =>
    refine (KeepsRecords.lookup parent).bind fun found => ?_
    cases found with
    | none => exact .pure _
    | some id => exact (KeepsRecords.symbol id).bind fun _ => .pure _

theorem classFrame_sound {members : Lower Code}
    (ha : Arranged lo t [.frame ⟨key, name⟩ scope parent items])
    (hb : Sound t scope items R members) :
    Sound t key [.frame ⟨key, name⟩ scope parent items] (.declaring t [name] (.within t scope R))
      (classFrame name parent span members) := by
  obtain ⟨id, hf⟩ : ∃ id, t.find? ⟨key, name⟩ = some id :=
    (ha.placed _ List.mem_cons_self).exists_id
  have hinside (size : Nat) : Sound t scope items R (do
      let _ ← account (Ledger.allocate size)
      members) :=
    .last (.account (Ledger.allocate_noRebind size)) fun _ => hb
  refine Sound.declaring (.lookup hf ?_) (by simpa using ⟨id, hf⟩)
  intro c s hs haw
  refine .symbol_read fun x hx => ?_
  refine ((inherited_keepsRecords parent).ensures c s).bind fun size s₁ ⟨ht, hp⟩ => ?_
  refine ((hinside size).ended (ha.placed _ List.mem_cons_self) hf (hs.of_outline (by rw [ht]))
    (by rwa [ht]) (by rwa [ht]) rfl fun (_, _) => ?_).mono fun _ _ hq => .before ht hp hq
  refine Sound.first (.modifySymbol id ?_ ?_) fun _ => .pure _ <;> exact fun _ => rfl

end Frames

end Lower

end ThreeAddress
