import ThreeAddress.Proofs.Plans.Runs
import ThreeAddress.Proofs.Scope.Growth

namespace ThreeAddress

/-- A part of two tables: from its scopes, its names lead to the same symbols in both, and whatever scopes
these symbols and its keys name are its own. -/
structure View (T T' : Table) where
  scopes : Nat → Prop
  keys : Position → Prop
  names : String → Prop
  locals : String → Prop
  ids : SymbolId → Prop
  lookup : ∀ {i name found}, scopes i → names name → T.lookup i name = .ok found →
    T'.lookup i name = .ok found ∧ ∀ id ∈ found, ids id
  lookupLocal : ∀ {i name found}, scopes i → locals name → T.lookupLocal i name = .ok found →
    T'.lookupLocal i name = .ok found ∧ ∀ id ∈ found, ids id
  symbol : ∀ {id x}, ids id → T.symbol id = .ok x → T'.symbol id = .ok x ∧ ∀ i ∈ x.members, scopes i
  scopeFor : ∀ {key}, keys key → T.scopeFor key = T'.scopeFor key ∧ ∀ i ∈ T.scopeFor key, scopes i

namespace View

variable {T T' t t' : Table} {v : View T T'} {i : Nat} {name : String} {id : SymbolId} {x : Symbol}
  {key : Position}

/-- What lowering has made of the two tables is the same in the view. -/
structure Alike (v : View T T') (t t' : Table) : Prop where
  left : t.outline = T.outline
  right : t'.outline = T'.outline
  symbol : ∀ {id x}, v.ids id → t.symbol id = .ok x → t'.symbol id = .ok x

namespace Alike

theorem start (v : View T T') : v.Alike T T' := ⟨rfl, rfl, fun h hx => (v.symbol h hx).1⟩

theorem lookup {found : Option SymbolId} (h : v.Alike t t') (hi : v.scopes i) (hn : v.names name)
    (hl : t.lookup i name = .ok found) : t'.lookup i name = .ok found ∧ ∀ id ∈ found, v.ids id := by
  rw [← Table.lookup_outline, h.left, Table.lookup_outline] at hl
  rw [← Table.lookup_outline, h.right, Table.lookup_outline]
  exact v.lookup hi hn hl

theorem lookupLocal {found : Option SymbolId} (h : v.Alike t t') (hi : v.scopes i) (hn : v.locals name)
    (hl : t.lookupLocal i name = .ok found) :
    t'.lookupLocal i name = .ok found ∧ ∀ id ∈ found, v.ids id := by
  rw [← Table.lookupLocal_outline, h.left, Table.lookupLocal_outline] at hl
  rw [← Table.lookupLocal_outline, h.right, Table.lookupLocal_outline]
  exact v.lookupLocal hi hn hl

theorem scopeFor (h : v.Alike t t') (hk : v.keys key) :
    t.scopeFor key = t'.scopeFor key ∧ ∀ i ∈ t.scopeFor key, v.scopes i := by
  rw [← Table.scopeFor_outline, h.left, Table.scopeFor_outline, ← Table.scopeFor_outline (t := t'), h.right,
    Table.scopeFor_outline]
  exact v.scopeFor hk

theorem members (h : v.Alike t t') (hi : v.ids id) (hx : t.symbol id = .ok x) :
    ∀ i ∈ x.members, v.scopes i := by
  have ho : t.outline.symbol id = T.outline.symbol id := by rw [h.left]
  rw [Table.symbol_outline, Table.symbol_outline, hx] at ho
  cases hy : T.symbol id with
  | error e => simp [hy, Functor.map, Except.map] at ho
  | ok y =>
    rw [hy] at ho
    have hxy : x.outline = y.outline := Except.ok.inj ho
    have hm : x.members = y.members := congrArg (fun s => s.members) hxy
    rw [hm]
    exact (v.symbol hi hy).2

theorem modifySymbol {f : Symbol → Symbol} (h : v.Alike t t') (hi : v.ids id)
    (hf : ∀ x, (f x).outline = x.outline) : v.Alike (t.modifySymbol id f) (t'.modifySymbol id f) where
  left := (Table.outline_modifySymbol fun x _ => hf x).trans h.left
  right := (Table.outline_modifySymbol fun x _ => hf x).trans h.right
  symbol hj hy := by
    obtain ⟨hn, hy⟩ | ⟨rfl, x, hx, rfl⟩ := Table.symbol_of_modifySymbol hy
    · exact (Table.symbol_modifySymbol_ne hn).2 (h.symbol hj hy)
    · exact Table.symbol_modifySymbol_self (h.symbol hi hx)

end Alike

end View

namespace FullState

variable {T T' t : Table} {v : View T T'} {d d₁ : FullState}

def withTable (d : FullState) (t : Table) : FullState := { d with table := t }

/-- What the step asks for is in the view. -/
def Step.Within (v : View T T') : Step → Prop
  | .moveTo i => v.scopes i
  | .scopeFor key => v.keys key
  | .lookup name => v.names name
  | .lookupLocal name => v.locals name
  | .symbol id | .place id .. | .extend id _ | .closeFunction id .. | .closeClass id _ => v.ids id
  | _ => True

/-- What the step answers is in the view. -/
def Step.Tells (v : View T T') : (s : Step) → s.Answer → Prop
  | .scope, i => v.scopes i
  | .scopeFor _, i? => ∀ i ∈ i?, v.scopes i
  | .lookup _, id? | .lookupLocal _, id? => ∀ id ∈ id?, v.ids id
  | .symbol _, x => ∀ i ∈ x.members, v.scopes i
  | _, _ => True

/-- The state stands in the view, and its table is the same there as `t`. -/
structure Seen (v : View T T') (d : FullState) (t : Table) : Prop where
  table : v.Alike d.table t
  scope : v.scopes d.scope

theorem keep_withTable {act : Account α} {a : α} (h : d.keep act = .ok (a, d₁)) (ht : d.Seen v t) :
    (d.withTable t).keep act = .ok (a, d₁.withTable t) ∧ d₁.Seen v t := by
  rw [keep] at h ⊢
  change (act.run d.ledger >>= _) = _ ∧ _
  cases hl : act.run d.ledger with
  | error e => simp [hl, bind, Except.bind] at h
  | ok x =>
    rw [hl] at h
    cases h
    exact ⟨rfl, ht.table, ht.scope⟩

theorem ask_withTable {x x' : Checked α} {a : α} {P : α → Prop} (h : d.ask x = .ok (a, d₁)) (ht : d.Seen v t)
    (hx : x = .ok a → x' = .ok a ∧ P a) :
    (d.withTable t).ask x' = .ok (a, d₁.withTable t) ∧ d₁.Seen v t ∧ P a := by
  cases x with
  | error e => simp [ask, bind, Except.bind] at h
  | ok b =>
    cases h
    obtain ⟨rfl, hp⟩ := hx rfl
    exact ⟨rfl, ht, hp⟩

theorem modifySymbol_seen {id : SymbolId} {f : Symbol → Symbol} (ht : d.Seen v t) (hi : v.ids id)
    (hf : ∀ x, (f x).outline = x.outline) : (d.modifySymbol id f).Seen v (t.modifySymbol id f) :=
  ⟨ht.table.modifySymbol hi hf, ht.scope⟩

theorem step_withTable {s : Step} {b : s.Answer} (h : d.step s = .ok (b, d₁)) (ht : d.Seen v t)
    (hw : s.Within v) :
    ∃ t₁, (d.withTable t).step s = .ok (b, d₁.withTable t₁) ∧ d₁.Seen v t₁ ∧ s.Tells v b := by
  -- what only the account answers does not depend on the table
  have kept {act : Account s.Answer} (h : d.keep act = .ok (b, d₁))
      (hs : (d.withTable t).step s = (d.withTable t).keep act)
      (htell : s.Tells v b) :
      ∃ t₁, (d.withTable t).step s = .ok (b, d₁.withTable t₁) ∧ d₁.Seen v t₁ ∧ s.Tells v b := by
    obtain ⟨hk, hd⟩ := keep_withTable h ht
    exact ⟨t, hs.trans hk, hd, htell⟩
  cases s with
  | freshTemp | freshLabel | enterLoop | exitLoop | enterSwitch | exitSwitch | breakLabel | continueLabel
  | allocate | enterFrame | exitFrame => exact kept h rfl trivial
  | begin | evaluate | emit | enterFunction | exitFunction | enterClass | exitClass | want | report =>
    cases h
    exact ⟨t, rfl, ⟨ht.table, ht.scope⟩, trivial⟩
  | moveTo scope =>
    cases h
    exact ⟨t, rfl, ⟨ht.table, hw⟩, trivial⟩
  | endsInJump | className | isWanted | arraySize => exact ⟨t, ask_withTable h ht fun hx => ⟨hx, trivial⟩⟩
  | scope => exact ⟨t, ask_withTable h ht fun hx => ⟨hx, by cases hx; exact ht.scope⟩⟩
  | scopeFor key =>
    obtain ⟨he, hs⟩ := ht.table.scopeFor hw
    exact ⟨t, ask_withTable h ht fun hx => by
      cases hx
      exact ⟨congrArg Except.ok he.symm, hs⟩⟩
  | lookup name => exact ⟨t, ask_withTable h ht fun hx => ht.table.lookup ht.scope hw hx⟩
  | lookupLocal name => exact ⟨t, ask_withTable h ht fun hx => ht.table.lookupLocal ht.scope hw hx⟩
  | symbol id => exact ⟨t, ask_withTable h ht fun hx => ⟨ht.table.symbol hw hx, ht.table.members hw hx⟩⟩
  | place id offset size =>
    obtain ⟨x, hx, ho, rfl⟩ := step_place_eq_ok.1 h
    exact ⟨_, step_place_eq_ok.2 ⟨x, ht.table.symbol hw hx, ho, rfl⟩,
      modifySymbol_seen ht hw fun _ => rfl, trivial⟩
  | extend id dimensions =>
    cases h
    exact ⟨_, rfl, modifySymbol_seen ht hw fun _ => rfl, trivial⟩
  | closeFunction id params frame =>
    cases h
    exact ⟨_, rfl, modifySymbol_seen ht hw fun _ => rfl, trivial⟩
  | closeClass id frame =>
    cases h
    exact ⟨_, rfl, modifySymbol_seen ht hw fun _ => rfl, trivial⟩

end FullState

namespace Plan

variable {T T' t : Table} {v : View T T'} {post : α → Prop} {post' : β → Prop} {d d₁ : FullState}

/-- Whatever the plan asks for is in the view, as long as the answers are; then `post` holds of what comes
of it. -/
def Stays (v : View T T') (post : α → Prop) : Plan α → Prop
  | .done a => post a
  | .step s next => s.Within v ∧ ∀ b, s.Tells v b → (next b).Stays v post

abbrev KeepsTo (v : View T T') (plan : Plan α) : Prop := plan.Stays v fun _ => True

/-- A plan that keeps to the view is carried out by the other table just as well. -/
theorem Stays.run {plan : Plan α} {a : α} (h : plan.Stays v post) (hr : plan.run d = .ok (a, d₁))
    (ht : d.Seen v t) : ∃ t₁, plan.run (d.withTable t) = .ok (a, d₁.withTable t₁) ∧ d₁.Seen v t₁ ∧ post a := by
  induction plan generalizing d t with
  | done b =>
    cases hr
    exact ⟨t, rfl, ht, h⟩
  | step s next ih =>
    rw [Plan.run] at hr ⊢
    cases hs : d.step s with
    | error e => simp [hs, Bind.bind, Except.bind] at hr
    | ok x =>
      rw [hs] at hr
      obtain ⟨t₁, hs', ht₁, htell⟩ := FullState.step_withTable hs ht h.1
      rw [hs']
      exact ih x.1 (h.2 _ htell) hr ht₁

namespace Stays

theorem pure {a : α} (h : post a) : (Pure.pure a : Plan α).Stays v post := h

theorem mono {plan : Plan α} {post₁ : α → Prop} (h : plan.Stays v post) (hp : ∀ a, post a → post₁ a) :
    plan.Stays v post₁ := by
  induction plan with
  | done a => exact hp a h
  | step s next ih => exact ⟨h.1, fun b hb => ih b (h.2 b hb)⟩

theorem keepsTo {plan : Plan α} (h : plan.Stays v post) : plan.KeepsTo v := h.mono fun _ _ => trivial

theorem bind {plan : Plan α} {f : α → Plan β} (h : plan.Stays v post)
    (k : ∀ a, post a → (f a).Stays v post') : (plan >>= f).Stays v post' := by
  rw [bind_eq]
  induction plan with
  | done a => exact k a h
  | step s next ih => exact ⟨h.1, fun b hb => ih b (h.2 b hb)⟩

theorem seq {plan : Plan α} {f : α → Plan β} (h : plan.KeepsTo v) (k : ∀ a, (f a).Stays v post') :
    (plan >>= f).Stays v post' := h.bind fun a _ => k a

theorem of {s : FullState.Step} (hw : s.Within v) : (Plan.of s).Stays v (s.Tells v) := ⟨hw, fun _ hb => hb⟩

theorem ask {s : FullState.Step} {f : s.Answer → Plan β} (hw : s.Within v)
    (k : ∀ b, s.Tells v b → (f b).Stays v post') : (Plan.of s >>= f).Stays v post' := (of hw).bind k

theorem begins {part : Part} {plan : Plan β} (h : plan.Stays v post') : (Plan.begins part plan).Stays v post' :=
  ask (s := .begin part) trivial fun _ _ => h

theorem valueOf {e : Expr} {plan : Plan β} (h : plan.Stays v post') : (Plan.valueOf e plan).Stays v post' :=
  ask (s := .evaluate e) trivial fun _ _ => h

theorem emit {i : Instruction} {plan : Plan β} (h : plan.Stays v post') :
    (Plan.emit i >>= fun _ => plan).Stays v post' := ask trivial fun _ _ => h

theorem wrote (i : Instruction) : (Plan.emit i).KeepsTo v := (of (s := .emit i) trivial).keepsTo

theorem report (p : Problem) : (Plan.report p).KeepsTo v := (of (s := .report p) trivial).keepsTo

section Lists

variable {f : γ → Plan β} {xs : List γ}

theorem mapM (h : ∀ x ∈ xs, (f x).KeepsTo v) : (xs.mapM f).KeepsTo v := by
  induction xs with
  | nil => exact pure trivial
  | cons x rest ih =>
    rw [List.mapM_cons]
    exact (h x (by simp)).seq fun _ => (ih fun y hy => h y (by simp [hy])).seq fun _ => pure trivial

theorem forM {f : γ → Plan Unit} (h : ∀ x ∈ xs, (f x).KeepsTo v) : (xs.forM f).KeepsTo v := by
  induction xs with
  | nil => exact pure trivial
  | cons x rest ih => exact (h x (by simp)).seq fun _ => ih fun y hy => h y (by simp [hy])

theorem filterM {f : γ → Plan Bool} (h : ∀ x ∈ xs, (f x).KeepsTo v) : (xs.filterM f).KeepsTo v := by
  have haux (acc : List γ) : (xs.filterAuxM f acc).KeepsTo v := by
    induction xs generalizing acc with
    | nil => exact pure trivial
    | cons x rest ih => exact (h x (by simp)).seq fun b => ih (fun y hy => h y (by simp [hy])) _
  exact (haux []).seq fun _ => pure trivial

end Lists

end Stays

end Plan

end ThreeAddress
