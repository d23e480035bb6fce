import ThreeAddress.Proofs.Frames.Collected
import ThreeAddress.Proofs.Frames.Layout
import ThreeAddress.Proofs.Lowering.Growth

namespace ThreeAddress

open Lowering Lower

namespace Table

variable {t t₀ : Table} {key : Position} {name : String} {id : SymbolId} {scope : Nat}

theorem lookupLocal_of_find? (ht : t.outline = t₀.outline) (hf : t₀.find? ⟨key, name⟩ = some id)
    (hs : ∀ i ∈ t₀.scopeFor key, scope = i) : t.lookupLocal scope name = .ok (some id) := by
  obtain ⟨r, hk, hr, hn⟩ := find?_eq_some.1 hf
  obtain rfl := hs _ hk
  have hr' : t₀.scope id.scope = .ok r := nth_eq_ok.2 hr
  rw [← lookupLocal_outline, ht, lookupLocal_outline]
  simp [lookupLocal, hr', hn, bind, Except.bind, pure, Except.pure]

theorem lookup_of_find? (ht : t.outline = t₀.outline) (hf : t₀.find? ⟨key, name⟩ = some id)
    (hs : ∀ i ∈ t₀.scopeFor key, scope = i) : t.lookup scope name = .ok (some id) := by
  obtain ⟨r, hk, hr, hn⟩ := find?_eq_some.1 hf
  obtain rfl := hs _ hk
  have hr' : t₀.scope id.scope = .ok r := nth_eq_ok.2 hr
  obtain ⟨fuel, hfuel⟩ : ∃ fuel, t₀.size = fuel + 1 :=
    Nat.exists_eq_add_one_of_ne_zero (Nat.ne_zero_of_lt (lt_size hr))
  rw [← lookup_outline, ht, lookup_outline, lookup, hfuel, climb]
  simp [hr', hn, bind, Except.bind, pure, Except.pure]

end Table

/-- A run that starts in the scope with the given key. -/
structure Stands (t : Table) (key : Position) (c : Context) (s : State) : Prop where
  outline : s.table.outline = t.outline
  scope : ∀ i ∈ t.scopeFor key, c.scope = i

namespace Lowering.State

structure Rests (s s' : State) : Prop where
  layout : s'.ledger.layout = s.ledger.layout
  cursor : s'.ledger.cursor = s.ledger.cursor
  table : s'.table = s.table
  quiet : s'.problems = [] → s.problems = []

/-- Unless there was a problem, the items got their room from `s` to `s'`. -/
structure Lays (t : Table) (items : List Item) (s s' : State) : Prop where
  layout : s'.ledger.layout = s.ledger.layout
  outline : s'.table.outline = s.table.outline
  quiet : s'.problems = [] → s.problems = []
  lays : s'.problems = [] → ThreeAddress.Lays t s.ledger.layout items s.table s.ledger.cursor
    s'.table s'.ledger.cursor

variable {s s' s'' : State} {t : Table} {items items' : List Item}

theorem Advances.rests (h : s.Advances s') : s.Rests s' :=
  ⟨h.layout, h.cursor, h.table, h.grows.quiet⟩

namespace Rests

theorem trans (h : s.Rests s') (k : s'.Rests s'') : s.Rests s'' :=
  ⟨k.layout.trans h.layout, k.cursor.trans h.cursor, k.table.trans h.table, h.quiet ∘ k.quiet⟩

theorem targets (s : State) (targets : Targets) : s.Rests (s.withTargets targets) :=
  ⟨rfl, rfl, rfl, id⟩

theorem report (s : State) (p : Problem) : s.Rests (s.report p) :=
  ⟨rfl, rfl, rfl, fun h => (List.append_eq_nil_iff.1 h).1⟩

theorem lays (h : s.Rests s') : s.Lays t [] s' where
  layout := h.layout
  outline := by rw [h.table]
  quiet := h.quiet
  lays _ := by
    rw [h.table, h.cursor]
    exact .nil (fun _ => rfl) fun _ => rfl

end Rests

namespace Lays

theorem before (h : s.Rests s') (k : s'.Lays t items s'') : s.Lays t items s'' where
  layout := k.layout.trans h.layout
  outline := k.outline.trans (by rw [h.table])
  quiet := h.quiet ∘ k.quiet
  lays hp := by
    have hl := k.lays hp
    rwa [h.table, h.cursor, h.layout] at hl

theorem after (h : s.Lays t items s') (k : s'.Rests s'') : s.Lays t items s'' where
  layout := k.layout.trans h.layout
  outline := .trans (by rw [k.table]) h.outline
  quiet := h.quiet ∘ k.quiet
  lays hp := by
    have hl := h.lays (k.quiet hp)
    rwa [← k.table, ← k.cursor] at hl

theorem append (h : s.Lays t items s') (k : s'.Lays t items' s'')
    (hn : (sitesAll (items ++ items')).Nodup) : s.Lays t (items ++ items') s'' where
  layout := k.layout.trans h.layout
  outline := k.outline.trans h.outline
  quiet := h.quiet ∘ k.quiet
  lays hp := (h.lays (k.quiet hp)).append (h.layout ▸ k.lays hp) hn

theorem of_grows (h : s.Grows s') (k : s'.problems = [] → s.Lays t items s') :
    s.Lays t items s' :=
  ⟨h.layout, h.table.outline, h.quiet, fun hp => (k hp).lays hp⟩

end Lays

end Lowering.State

namespace Stands

variable {t : Table} {key : Position} {c : Context} {s s' : State} {items : List Item}

theorem rests (h : Stands t key c s) (k : s.Rests s') : Stands t key c s' :=
  ⟨by rw [k.table, h.outline], h.scope⟩

theorem lays (h : Stands t key c s) (k : s.Lays t items s') : Stands t key c s' :=
  ⟨k.outline.trans h.outline, h.scope⟩

theorem inBlock (h : Stands t key c s) (span : Span) :
    Stands t span.toPosition { c with scope := blockScope c s span } s where
  outline := h.outline
  scope i hi := by
    rw [blockScope, ← Table.scopeFor_outline, h.outline, Table.scopeFor_outline]
    rw [show t.scopeFor span.toPosition = some i from hi]
    rfl

end Stands

/-- Every run of the action in the scope with the given key gives the items their room. -/
def Lower.LaysOut (t : Table) (key : Position) (items : List Item) (act : Lower α) : Prop :=
  ∀ ⦃c s a s'⦄, Runs act c s a s' → Stands t key c s → s.Lays t items s'

namespace Lower

variable {t : Table} {key : Position} {items items' : List Item} {act : Lower α} {f : α → Lower β}

theorem Keeps.laysOut (h : Keeps State.Advances act) : LaysOut t key [] act :=
  fun _ _ _ _ hr _ => (h hr).rests.lays

namespace LaysOut

theorem behind {c : Context} {s s₁ s' : State} {a : α} (h : LaysOut t key items act)
    (hr : Runs act c s₁ a s') (hs : Stands t key c s) (k : s.Rests s₁) : s.Lays t items s' :=
  (h hr (hs.rests k)).before k

theorem bind (h : LaysOut t key items act) (k : ∀ a, LaysOut t key items' (f a))
    (hn : (sitesAll (items ++ items')).Nodup) : LaysOut t key (items ++ items') (act >>= f) := by
  intro c s b s' hr hs
  obtain ⟨a, s₁, ha, hf⟩ := runs_bind.1 hr
  have h₁ := h ha hs
  exact h₁.append (k a hf (hs.lays h₁)) hn

theorem first (h : LaysOut t key items act) (k : ∀ a, Keeps State.Advances (f a)) :
    LaysOut t key items (act >>= f) := by
  intro c s b s' hr hs
  obtain ⟨a, s₁, ha, hf⟩ := runs_bind.1 hr
  exact (h ha hs).after (k a hf).rests

theorem last (h : Keeps State.Advances act) (k : ∀ a, LaysOut t key items (f a)) :
    LaysOut t key items (act >>= f) := by
  intro c s b s' hr hs
  obtain ⟨a, s₁, ha, hf⟩ := runs_bind.1 hr
  exact (k a).behind hf hs (h ha).rests

theorem inBlock {act : Lower α} {span : Span} (h : LaysOut t span.toPosition items act) :
    LaysOut t key items (inBlock span act) :=
  fun _ _ _ _ hr hs => h (runs_inBlock.1 hr) (hs.inBlock span)

end LaysOut

section Storage

variable {site : Site} {id : SymbolId} {name : String}

theorem bindStorage_laysOut (size : Nat) (hf : t.find? site = some id) :
    LaysOut t key [.slot site] (bindStorage id size) := by
  intro c s u s' hr _
  have ho := (bindStorage_binds id size hr).table.outline
  obtain ⟨_, x, hx, _, rfl⟩ := runs_bindStorage.1 hr
  exact ⟨rfl, ho, fun h => h, fun _ => .slot hf hx rfl fun _ => rfl⟩

theorem declareArray_laysOut (es : List Expr) (span : Span) (hf : t.find? site = some id) :
    LaysOut t key [.slot site] (declareArray id es span) := by
  intro c s code s' hr hs
  obtain ⟨x, s₁, hx, ⟨hl, ⟨u, hb⟩, _⟩ | ⟨dims, size, u, s₂, hl, _, hb, he⟩⟩ := runs_declareArray hr
  · have h₁ : s.Rests s₁ := (literalShape_keeps (R := State.Advances) _ _ _ hl).rests
    exact (bindStorage_laysOut _ hf).behind hb hs h₁
  · have h₁ : s.Rests s₁ := (literalShape_keeps (R := State.Advances) _ _ _ hl).rests
    have hd : s₁.Lays t [] { s₁ with table := s₁.table.modifySymbol id ({ · with dimensions := dims }) } :=
      ⟨rfl, Table.outline_modifySymbol fun _ _ => rfl, fun h => h, fun _ =>
        .nil (Table.fact_modifySymbol fun _ => rfl) (Table.fact_modifySymbol fun _ => rfl)⟩
    have h₂ := bindStorage_laysOut size hf hb ((hs.rests h₁).lays hd)
    exact ((hd.append h₂ (by simp [sitesAll, Item.sites])).before h₁).after
      (storeElements_keeps (leaf_advances es) he).rests

theorem bindLocal_laysOut (span : Span) (hf : t.find? ⟨key, name⟩ = some id) :
    LaysOut t key [.slot ⟨key, name⟩] (bindLocal name span) := by
  intro c s u s' hr hs
  have hl := Table.lookup_of_find? hs.outline hf hs.scope
  obtain ⟨hn, _⟩ | ⟨id', x, hl', _, hr⟩ := runs_bindLocal.1 hr
  · cases hl.symm.trans hn
  · cases hl.symm.trans hl'
    exact bindStorage_laysOut _ hf hr hs

theorem guarding_laysOut {uses : List Use} {whole : Span} {act : Lower Code}
    (h : LaysOut t key items act) (hg : Keeps State.Stores act) :
    LaysOut t key items (guarding uses whole act) :=
  fun _ _ _ _ hr hs => .of_grows (guarding_stores _ _ hg hr).toGrows fun hp =>
    h (runs_of_guarding hr hp) hs

end Storage

end Lower

theorem Binding.lower_laysOut {t : Table} {key : Position} {b : Binding} {id : SymbolId}
    (hf : t.find? ⟨key, b.name⟩ = some id) : LaysOut t key [.slot ⟨key, b.name⟩] b.lower := by
  intro c s code s' hr hs
  have hl := Table.lookup_of_find? hs.outline hf hs.scope
  obtain ⟨hn, _⟩ | ⟨id', es, span, hl', _, hr⟩ | ⟨id', x, u, s₁, hl', hx, hb, hr⟩ := b.runs_lower hr
  · cases hl.symm.trans hn
  · cases hl.symm.trans hl'
    exact declareArray_laysOut es span hf hr hs
  · cases hl.symm.trans hl'
    have hb := bindStorage_laysOut _ hf hb hs
    obtain ⟨_, _, rfl⟩ | ⟨e, y, _, _, hy, _⟩ := hr
    · exact hb
    · exact hb.after (storable_keeps (R := State.Advances) (e.lower_advances _) hy).rests

structure Arranged (lo : Nat) (t : Table) (items : List Item) : Prop where
  placed : ∀ i ∈ items, i.Placed lo t
  nodup : (sitesAll items).Nodup

namespace Arranged

variable {lo : Nat} {t : Table} {items items' : List Item}

theorem left (h : Arranged lo t (items ++ items')) : Arranged lo t items where
  placed i hi := h.placed i (List.mem_append_left _ hi)
  nodup := by
    have hn := h.nodup
    rw [sitesAll_append, List.nodup_append] at hn
    exact hn.1

theorem right (h : Arranged lo t (items ++ items')) : Arranged lo t items' where
  placed i hi := h.placed i (List.mem_append_right _ hi)
  nodup := by
    have hn := h.nodup
    rw [sitesAll_append, List.nodup_append] at hn
    exact hn.2.1

theorem tail {i : Item} (h : Arranged lo t (i :: items)) : Arranged lo t items :=
  right (show Arranged lo t ([i] ++ items) from h)

theorem slot {s : Site} (h : Arranged lo t (.slot s :: items)) : ∃ id, t.find? s = some id :=
  (h.placed _ List.mem_cons_self).exists_id

end Arranged

namespace Lower

variable {t : Table} {key : Position} {items items' : List Item} {lo : Nat}

section Forms

variable {test : Lower Valued} {first body other step : Lower Code} {c : Context} {s s' : State}

theorem ifThen_laysOut (ht : Keeps State.Advances test) (hb : LaysOut t key items body) :
    LaysOut t key items (ifThen test body) :=
  .last ht fun _ => .last freshLabel_advances fun _ => hb.first fun _ => .pure _

theorem ifThenElse_laysOut (ht : Keeps State.Advances test) (hb : LaysOut t key items body)
    (ho : LaysOut t key items' other) (hn : (sitesAll (items ++ items')).Nodup) :
    LaysOut t key (items ++ items') (ifThenElse test body other) :=
  .last ht fun _ => .last freshLabel_advances fun _ => hb.bind
    (fun _ => .last freshLabel_advances fun _ => ho.first fun _ => .pure _) hn

theorem whileLoop_laysOut (ht : Keeps State.Advances test) (hb : LaysOut t key items body) :
    LaysOut t key items (whileLoop test body) := by
  intro c s code s' hr hs
  obtain ⟨_, _, _, s₁, h₁, _, _, s₂, h₂, rfl, _⟩ := runs_whileLoop.1 hr
  have h₂ := hb.behind h₂ hs <| (State.Advances.nextLabel s).rests.trans <| (ht h₁).rests.trans <|
    (State.Advances.nextLabel s₁).rests.trans (.targets ..)
  exact h₂.after (.targets ..)

theorem doWhile_laysOut (ht : Keeps State.Advances test) (hb : LaysOut t key items body) :
    LaysOut t key items (doWhile body test) := by
  intro c s code s' hr hs
  obtain ⟨_, _, s₁, h₁, _, _, s₂, h₂, rfl, _⟩ := runs_doWhile.1 hr
  have h₁ := hb.behind h₁ hs <| (State.Advances.nextLabel s).rests.trans (.targets ..)
  exact h₁.after ((ht h₂).rests.trans (.targets ..))

theorem forLoop_laysOut {test : Option (Lower Valued)} {hasStep : Bool}
    (hf : LaysOut t key items first) (ht : Keeps State.Advances (loopTest test))
    (hp : Keeps State.Advances step) (hb : LaysOut t key items' body)
    (hn : (sitesAll (items ++ items')).Nodup) :
    LaysOut t key (items ++ items') (forLoop first test hasStep step body) := by
  intro c s code s' hr hs
  obtain ⟨_, s₁, h₁, _, _, _, s₂, h₂, _, s₃, h₃, _, h₄, _⟩ := runs_forLoop.1 hr
  have h₁ := hf h₁ hs
  have h₃ := hb.behind h₃ (hs.lays h₁) <| (State.Advances.nextLabel s₁).rests.trans <|
    (ht h₂).rests.trans (.targets ..)
  exact (h₁.append h₃ hn).after ((State.Rests.targets ..).trans (hp h₄).rests)

theorem indexLoop_laysOut {base bound : Operand} {item : String} {bind : Lower Unit}
    (hi : LaysOut t key items bind) (hb : LaysOut t key items' body)
    (hn : (sitesAll (items ++ items')).Nodup) :
    LaysOut t key (items ++ items') (indexLoop base bound item bind body) := by
  intro c s code s' hr hs
  obtain ⟨_, _, _, s₁, h₁, _, _, _, _, _, s₂, h₂, rfl, _⟩ := runs_indexLoop.1 hr
  have h₁ := hi.behind h₁ hs ((State.Advances.nextTemp s).trans (.nextTemp _)).rests
  have h₂ := hb.behind h₂ (hs.lays h₁) <| .trans ((State.Advances.nextLabel s₁).trans <|
    (State.Advances.nextTemp _).trans <| (State.Advances.nextLabel _).trans (.nextTemp _)).rests
      (.targets ..)
  exact (h₁.append h₂ hn).after (.targets ..)

theorem breakLabel_rests {l? : Option Label} (h : Runs (account Ledger.breakLabel) c s l? s') :
    s.Rests s' := by
  obtain ⟨_, _, rfl⟩ | ⟨_, _, _, _, rfl⟩ | ⟨_, _, _, _, rfl⟩ := runs_breakLabel.1 h
  all_goals exact ⟨rfl, rfl, rfl, fun h => h⟩

theorem continueLabel_rests {l? : Option Label} (h : Runs (account Ledger.continueLabel) c s l? s') :
    s.Rests s' := by
  obtain ⟨_, _, rfl⟩ | ⟨_, _, _, _, rfl⟩ | ⟨_, _, _, _, rfl⟩ := runs_continueLabel.1 h
  all_goals exact ⟨rfl, rfl, rfl, fun h => h⟩

theorem gotoBreak_rests {code : Code} (h : Runs gotoBreak c s code s') : s.Rests s' := by
  obtain ⟨_, h, _⟩ := runs_gotoBreak.1 h
  exact breakLabel_rests h

theorem jump_laysOut {target : Account (Option Label)} (problem : Problem)
    (h : ∀ ⦃c s l? s'⦄, Runs (account target) c s l? s' → s.Rests s') :
    LaysOut t key [] (jump target problem) := by
  intro c s code s' hr _
  obtain ⟨_, hl, _⟩ | ⟨s₁, hl, rfl, _⟩ := runs_jump.1 hr
  · exact (h hl).lays
  · exact ((h hl).trans (.report s₁ problem)).lays

theorem caseBody_laysOut (l : Label) (isEmpty : Bool) (hb : LaysOut t key items body) :
    LaysOut t key items (caseBody l isEmpty body) := by
  intro c s code s' hr hs
  obtain ⟨inner, s₁, h₁, h⟩ := runs_caseBody.1 hr
  split at h
  · obtain ⟨_, he, _⟩ := h
    exact (hb h₁ hs).after (gotoBreak_rests he)
  · obtain ⟨_, rfl⟩ := h
    exact hb h₁ hs

theorem switch_laysOut {subject : Lower Valued} {cases : List Case}
    {bodies : List Label → Lower Code} {default : Option (Lower Code)}
    (hs : Keeps State.Advances subject)
    (hb : ∀ labels, labels.length = cases.length → LaysOut t key items (bodies labels))
    (hd : ∀ act ∈ default, LaysOut t key items' act) (he : default = none → items' = [])
    (hn : (sitesAll (items ++ items')).Nodup) :
    LaysOut t key (items ++ items') (switch subject cases bodies default) := by
  intro c s code s' hr ht
  obtain ⟨_, _, s₁, h₁, _, _, s₂, h₂, _, labels, s₃, h₃, hr⟩ := runs_switch.1 hr
  have hl : labels.length = cases.length := length_caseTests h₃
  have hs₃ : s.Rests s₃.enterSwitch := (hs h₁).rests.trans <|
    (ensureTemp_keeps (R := State.Advances) _ h₂).rests.trans <|
    (caseTests_advances _ _ h₃).rests.trans (.targets ..)
  obtain ⟨hd', _, s₄, h₄, _, s₅, h₅, rfl, _⟩ | ⟨_, hd', _, _, s₄, h₄, _, s₅, h₅, rfl, _⟩ := hr
  · rw [he hd', List.append_nil]
    have h₅ := (hb labels hl).behind h₅ ht (hs₃.trans (gotoBreak_rests h₄))
    exact h₅.after (.targets ..)
  · have h₄ := (hb labels hl).behind h₄ ht (hs₃.trans (State.Advances.nextLabel _).rests)
    exact (h₄.append (hd _ hd' h₅ (ht.lays h₄)) hn).after (.targets ..)

theorem tryCatch_laysOut {caught : String} (hb : LaysOut t key items body)
    (ho : LaysOut t key items' other) (hn : (sitesAll (items ++ items')).Nodup) :
    LaysOut t key (items ++ items') (tryCatch body caught other) :=
  .last freshLabel_advances fun _ => hb.bind
    (fun _ => .last freshLabel_advances fun _ => ho.first fun _ => .pure _) hn

end Forms

theorem bindParams_laysOut {params : List Param}
    (hp : Arranged lo t (params.map fun p => .slot ⟨key, p.name⟩)) :
    LaysOut t key (params.map fun p => .slot ⟨key, p.name⟩) (bindParams params) := by
  intro c s u s' hr hs
  induction params generalizing s with
  | nil =>
    obtain ⟨_, rfl⟩ := runs_pure.1 hr
    exact (State.Advances.refl s').rests.lays
  | cons p rest ih =>
    obtain ⟨id, hf⟩ := hp.slot
    have hl := Table.lookupLocal_of_find? hs.outline hf hs.scope
    obtain ⟨s₁, ⟨hn, _⟩ | ⟨id', x, v, hl', _, hb⟩, hr⟩ := runs_bindParams_cons hr
    · cases hl.symm.trans hn
    · cases hl.symm.trans hl'
      have hb := bindStorage_laysOut _ hf hb hs
      exact hb.append (ih hp.tail hr (hs.lays hb)) hp.nodup

end Lower

namespace Lowering.State

theorem Lays.frame {t : Table} {s s₁ s₂ s₃ : State} {c : Context} {site : Site} {scope : Position}
    {parent : Option String} {items : List Item} {id : SymbolId} {x : Symbol} {g : Symbol → Symbol}
    {size : Nat} (hs : t.find? site = some id) (hx : s.table.symbol id = .ok x)
    (h₁ : s.enterFrame.Grows s₁) (ht : s₁.table = s.table) (h₂ : s₁.Grows s₂)
    (h : s₁.Lays t items s₂) (hr : Runs (account Ledger.exitFrame) c s₂ size s₃)
    (ho : ∀ x, (g x).outline = x.outline) (hb : ∀ x, (g x).bytes = x.bytes)
    (hf : ∀ x, (g x).frame = size)
    (hbase : ∀ ⦃T closed⦄, T.outline = t.outline → t.Settles (·.frame) closed s.table T →
      t.Unclosed closed s.table → T.inherited ⟨site, parent, items, closed⟩ = s₁.ledger.cursor) :
    s.Lays t [.frame site scope parent items]
      { s₃ with table := s₃.table.modifySymbol id g } := by
  have hsaved : s₂.ledger.saved = (s.ledger.cursor, s.ledger.targets) :: s.ledger.saved :=
    (h₁.trans h₂).saved
  have hlayout : s₂.ledger.layout = s.ledger.layout := (h₁.trans h₂).layout
  obtain ⟨l, hl, rfl⟩ := runs_account.1 hr
  obtain ⟨cursor, hc, rfl, rfl⟩ := Ledger.runs_exitFrame.1 hl
  rw [hsaved, hlayout] at hc
  have hcursor : cursor = s.ledger.layout.resume s.ledger.cursor s₂.ledger.cursor :=
    NestedFrames.eq_resume hc
  have hout : s₂.table.outline = s.table.outline := by rw [h.outline, ht]
  refine ⟨hlayout, ?_, fun hp => h₁.quiet (h.quiet hp), fun hp => ?_⟩
  · rw [← hout]
    exact Table.outline_modifySymbol fun x _ => ho x
  · obtain ⟨y, hy, _⟩ := h₂.table.exists_symbol (ht ▸ hx)
    have hl := h.lays hp
    rw [ht, h₁.layout] at hl
    rw [hcursor]
    exact hl.ended hs hy hb (hf y) hbase

end Lowering.State

theorem Table.inherited_none {T : Table} {f : Frame} (h : f.parent = none) : T.inherited f = 0 := by
  rw [inherited, h]
  cases T.scopeFor f.site.key <;> rfl

theorem Table.inherited_eq {t T : Table} {site : Site} {id : SymbolId} {parent : Option String}
    {items : List Item} {closed : List Site} {c : Context} {s s' : State} {size : Nat}
    (hr : Runs (Lower.inherited parent) c s size s') (hs : Stands t site.key c s)
    (hf : t.find? site = some id) (hT : T.outline = t.outline)
    (hset : t.Settles (·.frame) closed s.table T) (hu : t.Unclosed closed s.table) :
    T.inherited ⟨site, parent, items, closed⟩ = size := by
  obtain ⟨_, hk, _⟩ := find?_eq_some.1 hf
  have hk' : T.scopeFor site.key = some c.scope := by
    rw [← scopeFor_outline, hT, scopeFor_outline, hk, hs.scope _ hk]
  have hl (name : String) : T.lookup c.scope name = s.table.lookup c.scope name := by
    rw [← lookup_outline, hT, ← hs.outline, lookup_outline]
  obtain ⟨_, ⟨rfl, hn⟩ | ⟨name, hp, id', x, hl', hx, rfl⟩⟩ := runs_inherited hr
  · cases parent with
    | none => exact inherited_none rfl
    | some name => simp only [inherited, hk', hl, hn name rfl]
  · cases hp
    have hfact : s.table.fact (·.frame) id' = some x.frame := fact_eq_some.2 ⟨x, hx, rfl⟩
    simp only [inherited, hk', hl, hl']
    split
    next hc =>
      obtain ⟨s', hs', hid⟩ := hc
      rw [find?_congr hT] at hid
      have := (hset s' hs' id' hid).trans hfact
      rw [fact] at this
      rw [this, Option.getD_some]
    next hc =>
      refine (hu id' (fun s' hs' hid => hc ⟨s', hs', ?_⟩) _ hfact).symm
      rw [find?_congr hT, hid]

theorem Arranged.inside {t : Table} {lo : Nat} {site : Site} {scope : Position} {parent : Option String}
    {items : List Item}
    (h : Arranged lo t [.frame site scope parent items]) : Arranged lo t items := by
  have hn := h.nodup
  simp only [sitesAll, Item.sites, List.append_nil, List.nodup_cons] at hn
  refine ⟨?_, hn.2⟩
  cases h.placed _ List.mem_cons_self with
  | frame _ _ _ _ _ hp => exact hp

theorem Stands.members {t : Table} {lo : Nat} {site : Site} {scope : Position} {parent : Option String}
    {items : List Item} {c : Context}
    {s : State} {id : SymbolId} {x : Symbol} (h : (Item.frame site scope parent items).Placed lo t)
    (hf : t.find? site = some id) (ho : s.table.outline = t.outline)
    (hx : s.table.symbol id = .ok x) : ∀ i ∈ t.scopeFor scope, x.members.getD c.scope = i := by
  cases h with
  | frame hf' hy hm hk =>
    cases hf.symm.trans hf'
    have hmem := (congrArg (fun z : Symbol => z.members) (Table.symbol_congr ho hx hy)).trans hm
    intro i hi
    have hi : x.members = some i := hmem.trans (hk.symm.trans hi)
    rw [hi, Option.getD_some]

namespace Lower

variable {t : Table} {key : Position} {lo : Nat} {name : String} {span : Span} {body : Lower Code}
  {scope : Position}

theorem functionFrame_laysOut {params : List Param} {items : List Item}
    (ha : Arranged lo t
      [.frame ⟨key, name⟩ scope none (params.map (fun p => .slot ⟨scope, p.name⟩) ++ items)])
    (hb : LaysOut t scope items body) (hg : Keeps State.Grows body) :
    LaysOut t key [.frame ⟨key, name⟩ scope none (params.map (fun p => .slot ⟨scope, p.name⟩) ++ items)]
      (functionFrame name params span body) := by
  intro c s code s' hr hs
  obtain ⟨id, hf⟩ : ∃ id, t.find? ⟨key, name⟩ = some id :=
    (ha.placed _ List.mem_cons_self).exists_id
  have hl := Table.lookup_of_find? hs.outline hf hs.scope
  obtain ⟨hn, _⟩ | ⟨id', x, _, s₁, _, s₂, _, s₃, hl', hx, h₁, h₂, h₃, rfl, _⟩ := runs_functionFrame hr
  · cases hl.symm.trans hn
  cases hl.symm.trans hl'
  have hst : Stands t scope { c with scope := x.members.getD c.scope } s.enterFrame :=
    ⟨hs.outline, Stands.members (ha.placed _ List.mem_cons_self) hf hs.outline hx⟩
  have hin := ha.inside
  have hp := bindParams_laysOut hin.left h₁ hst
  have hbody := hb h₂ (hst.lays hp)
  refine State.Lays.frame hf hx (.refl _) rfl ((bindParams_binds _ h₁).toGrows.trans (hg h₂))
    (hp.append hbody hin.nodup) h₃ (fun _ => rfl) (fun _ => rfl) (fun _ => rfl) ?_
  exact fun T closed _ _ _ => Table.inherited_none rfl

theorem classFrame_laysOut {parent : Option String} {items : List Item}
    (ha : Arranged lo t [.frame ⟨key, name⟩ scope parent items])
    (hb : LaysOut t scope items body) (hg : Keeps State.Grows body) :
    LaysOut t key [.frame ⟨key, name⟩ scope parent items] (classFrame name parent span body) := by
  intro c s code s' hr hs
  obtain ⟨id, hf⟩ : ∃ id, t.find? ⟨key, name⟩ = some id :=
    (ha.placed _ List.mem_cons_self).exists_id
  have hl := Table.lookup_of_find? hs.outline hf hs.scope
  obtain ⟨hn, _⟩ | ⟨id', x, size, s₁, _, s₂, _, s₃, _, s₄, hl', hx, h₁, h₂, h₃, h₄, rfl, _⟩ :=
    runs_classFrame hr
  · cases hl.symm.trans hn
  cases hl.symm.trans hl'
  obtain ⟨rfl, _⟩ := runs_inherited h₁
  have hg₂ := allocate_frame_grows h₂
  obtain ⟨l, hl, rfl⟩ := runs_account.1 h₂
  obtain ⟨_, rfl, _⟩ := Ledger.runs_allocate.1 hl
  have hm := hb h₃ ⟨hs.outline, Stands.members (ha.placed _ List.mem_cons_self) hf hs.outline hx⟩
  refine State.Lays.frame hf hx hg₂ rfl (hg h₃) hm h₄ (fun _ => rfl) (fun _ => rfl) (fun _ => rfl) ?_
  intro T closed hT hset hu
  rw [Table.inherited_eq h₁ hs hf hT hset hu]
  exact (Nat.zero_add _).symm

end Lower

section Statements

variable {t : Table} {key : Position} {lo : Nat}

theorem lowerAll_laysOut {body : List Stmt} (ha : Arranged lo t (itemsAll key body))
    (h : ∀ s ∈ body, Arranged lo t (s.items key) → LaysOut t key (s.items key) s.lower) :
    LaysOut t key (itemsAll key body) (lowerAll body) := by
  induction body with
  | nil =>
    rw [itemsAll, lowerAll]
    exact (Keeps.pure _).laysOut
  | cons s rest ih =>
    rw [itemsAll] at ha ⊢
    rw [lowerAll]
    exact (h s (by simp) ha.left).bind
      (fun _ => (ih ha.right fun s hs => h s (by simp [hs])).first fun _ => .pure _) ha.nodup

theorem Block.lower_laysOut {b : Block} (ha : Arranged lo t b.items)
    (h : ∀ s ∈ b.body, ∀ key, Arranged lo t (s.items key) → LaysOut t key (s.items key) s.lower) :
    LaysOut t key b.items (inBlock b.span b.lower) := by
  rw [items_eq] at ha ⊢
  rw [lower_eq]
  exact (lowerAll_laysOut ha fun s hs => h s hs _).inBlock

theorem lowerCases_laysOut {cases : List Case} {labels : List Label}
    (hl : labels.length = cases.length) (ha : Arranged lo t (itemsCases key cases))
    (h : ∀ k ∈ cases, ∀ s ∈ k.body, Arranged lo t (s.items key) →
      LaysOut t key (s.items key) s.lower) :
    LaysOut t key (itemsCases key cases) (lowerCases cases labels) := by
  induction cases generalizing labels with
  | nil =>
    rw [itemsCases, lowerCases_nil]
    exact (Keeps.pure _).laysOut
  | cons k rest ih =>
    obtain ⟨l, labels, rfl⟩ := List.exists_cons_of_length_eq_add_one hl
    have hk : itemsCases key (k :: rest) = itemsAll key k.body ++ itemsCases key rest := by
      cases k
      rw [itemsCases]
    rw [hk] at ha ⊢
    rw [lowerCases_cons]
    refine (caseBody_laysOut l _ (lowerAll_laysOut ha.left (h k (by simp)))).bind (fun _ => ?_) ha.nodup
    exact (ih (by simpa using hl) ha.right fun k hk => h k (by simp [hk])).first fun _ => .pure _

theorem Function.lower_laysOut {f : Function} (ha : Arranged lo t [f.item key])
    (h : ∀ s ∈ f.body.body, ∀ key, Arranged lo t (s.items key) →
      LaysOut t key (s.items key) s.lower) : LaysOut t key [f.item key] f.lower := by
  rw [item_eq] at ha ⊢
  rw [lower_eq]
  exact functionFrame_laysOut ha (lowerAll_laysOut ha.inside.right fun s hs => h s hs _)
    (lowerBody_grows _)

theorem lowerMembers_laysOut {members : List Member} (ha : Arranged lo t (itemsMembers key members))
    (h : ∀ f, .method f ∈ members → ∀ s ∈ f.body.body, ∀ key, Arranged lo t (s.items key) →
      LaysOut t key (s.items key) s.lower) :
    LaysOut t key (itemsMembers key members) (lowerMembers members) := by
  induction members with
  | nil =>
    rw [itemsMembers, lowerMembers]
    exact (Keeps.pure _).laysOut
  | cons m rest ih =>
    rw [itemsMembers] at ha ⊢
    rw [lowerMembers]
    have hm : LaysOut t key [m.item key] m.lower := by
      have ha' : Arranged lo t ([m.item key] ++ itemsMembers key rest) := ha
      cases m with
      | field b =>
        rw [Member.item] at ha ⊢
        rw [Member.lower]
        obtain ⟨id, hf⟩ := ha.slot
        exact guarding_laysOut (b.lower_laysOut hf) b.lower_stores
      | method f =>
        rw [Member.item] at ha' ⊢
        rw [Member.lower]
        exact Function.lower_laysOut ha'.left (h f (by simp))
    exact hm.bind (fun _ => (ih ha.tail fun f hf => h f (by simp [hf])).first fun _ => .pure _) ha.nodup

theorem Class.lower_laysOut {c : Class} (ha : Arranged lo t [c.item key])
    (h : ∀ f, .method f ∈ c.members → ∀ s ∈ f.body.body, ∀ key, Arranged lo t (s.items key) →
      LaysOut t key (s.items key) s.lower) : LaysOut t key [c.item key] c.lower := by
  rw [item_eq] at ha ⊢
  rw [lower_eq]
  exact classFrame_laysOut ha (lowerMembers_laysOut ha.inside h)
    (lowerMembers_grows _)

theorem Stmt.Steady.part {s : Stmt} (h : s.Steady) : ∀ part ∈ s.parts, part.Steady := by
  cases h with
  | mk _ h => exact h

theorem Stmt.Steady.step_advances {first step : Option Stmt} {test : Option Expr} {body : Block}
    {span : Span} (h : (Stmt.for first test step body span).Steady) :
    Keeps State.Advances (lowerOption step) := by
  cases step with
  | none =>
    rw [lowerOption]
    exact .pure _
  | some step =>
    rw [lowerOption]
    cases h with
    | mk h _ =>
      obtain ⟨target, value, span, rfl⟩ | ⟨e, span, rfl⟩ := h _ _ _ _ _ rfl <;>
        exact lower_advances rfl

theorem Stmt.lower_laysOut {s : Stmt} (hs : s.Steady) (key : Position)
    (ha : Arranged lo t (s.items key)) : LaysOut t key (s.items key) s.lower := by
  induction s generalizing key with
  | declare b =>
    rw [Stmt.items] at ha ⊢
    rw [Stmt.lower]
    -- the only items of a plain statement are the slot of what it declares
    obtain ⟨id, hf⟩ := ha.slot
    exact guarding_laysOut (b.lower_laysOut hf) b.lower_stores
  | assign | print | eval | ret =>
    rw [Stmt.items]
    exact (lower_advances rfl).laysOut
  | block b ih =>
    rw [Stmt.items] at ha ⊢
    rw [Stmt.lower]
    exact Block.lower_laysOut ha fun s hm => ih s hm (hs.part s hm)
  | ite c yes no span ihy ihn =>
    have hc := c.lower_advances .value
    have hy (ha : Arranged lo t yes.items) : LaysOut t key yes.items (inBlock yes.span yes.lower) :=
      Block.lower_laysOut ha fun s hm => ihy s hm (hs.part s (by simp [Stmt.parts, hm]))
    cases no with
    | none =>
      rw [Stmt.items, List.append_nil] at ha ⊢
      rw [Stmt.lower]
      exact ifThen_laysOut hc (hy ha)
    | some no =>
      rw [Stmt.items] at ha ⊢
      rw [Stmt.lower]
      refine ifThenElse_laysOut hc (hy ha.left) ?_ ha.nodup
      exact Block.lower_laysOut ha.right fun s hm =>
        ihn no rfl s hm (hs.part s (by simp [Stmt.parts, hm]))
  | loop c body span ih =>
    rw [Stmt.items] at ha ⊢
    rw [Stmt.lower]
    exact whileLoop_laysOut (c.lower_advances .value) <|
      Block.lower_laysOut ha fun s hm => ih s hm (hs.part s hm)
  | doWhile body c span ih =>
    rw [Stmt.items] at ha ⊢
    rw [Stmt.lower]
    exact doWhile_laysOut (c.lower_advances .value) <|
      Block.lower_laysOut ha fun s hm => ih s hm (hs.part s hm)
  | forLoop first test step body span ihf _ ih =>
    have hb (ha : Arranged lo t body.items) :
        LaysOut t body.span.toPosition body.items (lowerAll body.body) := by
      rw [Block.items_eq] at ha ⊢
      exact lowerAll_laysOut ha fun s hm => ih s hm (hs.part s (by simp [Stmt.parts, hm])) _
    rw [Stmt.lower, Block.lower_eq]
    refine LaysOut.inBlock ?_
    cases first with
    | none =>
      rw [Stmt.items] at ha ⊢
      rw [lowerOption]
      exact forLoop_laysOut (Keeps.pure _).laysOut (loopTest_advances test) hs.step_advances
        (hb ha.right) ha.nodup
    | some s =>
      rw [Stmt.items] at ha ⊢
      rw [lowerOption]
      exact forLoop_laysOut (ihf s rfl (hs.part s (by simp [Stmt.parts])) _ ha.left)
        (loopTest_advances test) hs.step_advances (hb ha.right) ha.nodup
  | foreach item collection body span ih =>
    rw [Stmt.items] at ha ⊢
    rw [Stmt.lower, Block.lower_eq]
    obtain ⟨id, hf⟩ := ha.slot
    have hb : LaysOut t body.span.toPosition body.items (lowerAll body.body) := by
      -- behind the slot of the item come the items of the body, in the same scope
      have ha := ha.tail
      rw [Block.items_eq] at ha ⊢
      exact lowerAll_laysOut ha fun s hm => ih s hm (hs.part s hm) _
    refine LaysOut.inBlock (.last (collection.lower_advances _) ?_)
    rintro ⟨_, base⟩
    refine .last (loopBound_keeps ..) fun _ => ?_
    exact (indexLoop_laysOut (bindLocal_laysOut span hf) hb ha.nodup).first fun _ => .pure _
  | switch subject cases default span ihc ihd =>
    rw [Stmt.lower_switch]
    have hsub := subject.lower_advances .value
    have hc (ha : Arranged lo t (itemsCases key cases)) (labels : List Label)
        (hl : labels.length = cases.length) :
        LaysOut t key (itemsCases key cases) (lowerCases cases labels) :=
      lowerCases_laysOut hl ha fun k hk s hm =>
        ihc k hk s hm (hs.part s (List.mem_append_left _ (List.mem_flatMap.2 ⟨k, hk, hm⟩))) key
    cases default with
    | none =>
      rw [Stmt.items] at ha ⊢
      exact switch_laysOut hsub (hc ha.left) (by simp) (fun _ => rfl) ha.nodup
    | some body =>
      rw [Stmt.items] at ha ⊢
      refine switch_laysOut hsub (hc ha.left) ?_ (by simp) ha.nodup
      rintro _ ⟨⟩
      exact lowerAll_laysOut ha.right fun s hm =>
        ihd body rfl s hm (hs.part s (List.mem_append_right _ hm)) key
  | exit span =>
    rw [Stmt.items, Stmt.lower]
    exact jump_laysOut _ fun _ _ _ _ => breakLabel_rests
  | next span =>
    rw [Stmt.items, Stmt.lower]
    exact jump_laysOut _ fun _ _ _ _ => continueLabel_rests
  | tryCatch body caught handler span ihb ihh =>
    rw [Stmt.items] at ha ⊢
    rw [Stmt.lower]
    obtain ⟨id, hf⟩ := ha.right.slot
    have hh : LaysOut t handler.span.toPosition handler.items (lowerAll handler.body) := by
      have ha := ha.right.tail
      rw [Block.items_eq] at ha ⊢
      exact lowerAll_laysOut ha fun s hm =>
        ihh s hm (hs.part s (List.mem_append_right _ hm)) _
    refine tryCatch_laysOut (Block.lower_laysOut ha.left fun s hm =>
      ihb s hm (hs.part s (List.mem_append_left _ hm))) ?_ ha.nodup
    rw [Block.lower_eq]
    exact LaysOut.inBlock ((bindLocal_laysOut span hf).bind (fun _ => hh) ha.right.nodup)
  | function f ih =>
    rw [Stmt.items] at ha ⊢
    rw [Stmt.lower]
    exact Function.lower_laysOut ha fun s hm => ih s hm (hs.part s hm)
  | classDef c ih =>
    rw [Stmt.items] at ha ⊢
    rw [Stmt.lower]
    exact Class.lower_laysOut ha fun f hf s hm =>
      ih f hf s hm (hs.part s (List.mem_flatMap.2 ⟨_, hf, hm⟩))

end Statements

end ThreeAddress
