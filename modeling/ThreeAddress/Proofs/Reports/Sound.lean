import ThreeAddress.Proofs.Reports.Ensures

namespace ThreeAddress

open Lowering Lower

/-- The problem is about one of the names, which does not resolve from the scope, or it is about the
shape of a literal. -/
def Problem.Concerns (t : Table) (scope : Nat) (uses : List Use) (p : Problem) : Prop :=
  (∃ u ∈ uses, t.lookup scope u.1 = .ok none ∧ ∃ line, p = .unresolved u.1 line) ∨
    ∃ name line, p = .ragged name line

theorem Problem.Concerns.mono {t : Table} {scope : Nat} {uses uses' : List Use} {p : Problem}
    (h : p.Concerns t scope uses) (hu : ∀ u ∈ uses, u ∈ uses') : p.Concerns t scope uses' :=
  h.imp_left fun ⟨u, hm, hp⟩ => ⟨u, hu u hm, hp⟩

abbrev Reporting := Nat → List Problem → Prop

namespace Reporting

def andThen (R R' : Reporting) : Reporting := fun scope ps =>
  ∃ qs rs, ps = qs ++ rs ∧ R scope qs ∧ R' scope rs

def nothing : Reporting := fun _ ps => ps = []

/-- Names that do not resolve, and literals without a shape. -/
def concerning (t : Table) (uses : List Use) : Reporting := fun scope ps =>
  ∀ p ∈ ps, p.Concerns t scope uses

/-- The scope itself declares the names, so that they are not what is reported. -/
def declaring (t : Table) (names : List String) (R : Reporting) : Reporting := fun scope ps =>
  (∀ name ∈ names, ∃ id, t.lookupLocal scope name = .ok (some id)) ∧ R scope ps

def within (t : Table) (key : Position) (R : Reporting) : Reporting := fun scope =>
  R ((t.scopeFor key).getD scope)

variable {R : Reporting} {t : Table} {uses : List Use}

@[simp] theorem nothing_andThen : nothing.andThen R = R := by
  funext scope ps
  simp [andThen, nothing]

@[simp] theorem andThen_nothing : R.andThen nothing = R := by
  funext scope ps
  simp [andThen, nothing]

@[simp] theorem concerning_andThen :
    (concerning t uses).andThen (concerning t uses) = concerning t uses := by
  funext scope ps
  refine propext ⟨?_, fun h => ⟨ps, [], by simp, h, nofun⟩⟩
  rintro ⟨qs, rs, rfl, hq, hr⟩ p hp
  exact (List.mem_append.1 hp).elim (hq p) (hr p)

end Reporting

/-- None of the sites is bound in `t`. -/
def Table.Awaits (t₀ : Table) (sites : List Site) (t : Table) : Prop :=
  ∀ s ∈ sites, ∀ id, t₀.find? s = some id → ∀ x, t.symbol id = .ok x → x.offset = none

/-- From `s` to `s'` the sites may have been bound, and `R` was reported. -/
structure Lowering.State.Passes (t : Table) (sites : List Site) (R : List Problem → Prop)
    (s s' : State) : Prop where
  outline : s'.table.outline = s.table.outline
  spares : t.Spares (·.offset) sites s.table s'.table
  reports : ∃ ps, s'.problems = s.problems ++ ps ∧ R ps

/-- In the scope with the given key, while the items await their storage, the action binds no symbol
twice, binds nothing but the items, and reports what `R` allows. -/
def Lower.Sound (t : Table) (key : Position) (items : List Item) (R : Reporting) (act : Lower α) :
    Prop :=
  ∀ ⦃c s⦄, Stands t key c s → t.Awaits (slotsAll items) s.table →
    Ensures act c s fun _ s' => s.Passes t (slotsAll items) (R c.scope) s'

/-- The action binds nothing and reports nothing. -/
structure Lower.KeepsRecords (act : Lower α) : Prop where
  ensures : ∀ c s, Ensures act c s fun _ s' => s'.table = s.table ∧ s'.problems = s.problems

variable {t t' t'' : Table} {key : Position} {items items' : List Item} {R R' : Reporting}
  {sites sites' : List Site}

theorem Table.Awaits.mono (h : t.Awaits sites t') (hs : ∀ s ∈ sites', s ∈ sites) :
    t.Awaits sites' t' := fun s hm => h s (hs s hm)

theorem Table.Awaits.after (h : t.Awaits sites t') (k : t.Spares (·.offset) sites' t' t'')
    (hd : ∀ s ∈ sites, s ∉ sites') : t.Awaits sites t'' := by
  intro s hs id hid y hy
  have hf : t''.fact (·.offset) id = some y.offset := Table.fact_eq_some.2 ⟨y, hy, rfl⟩
  rw [k id fun s' hs' hid' => hd s hs (Table.find?_inj hid hid' ▸ hs')] at hf
  obtain ⟨x, hx, hxy⟩ := Table.fact_eq_some.1 hf
  rw [← hxy]
  exact h s hs id hid x hx

namespace Lowering.State.Passes

variable {s s' s'' : State} {R R' : List Problem → Prop}

theorem mono (h : s.Passes t sites R s') (le : ∀ ps, R ps → R' ps) : s.Passes t sites R' s' where
  outline := h.outline
  spares := h.spares
  reports := by
    obtain ⟨ps, hp, hr⟩ := h.reports
    exact ⟨ps, hp, le ps hr⟩

theorem append {R R' : Reporting} {scope : Nat} (h : s.Passes t sites (R scope) s')
    (k : s'.Passes t sites' (R' scope) s'') :
    s.Passes t (sites ++ sites') (R.andThen R' scope) s'' where
  outline := k.outline.trans h.outline
  spares := h.spares.trans k.spares
  reports := by
    obtain ⟨ps, hp, hr⟩ := h.reports
    obtain ⟨qs, hq, hr'⟩ := k.reports
    exact ⟨ps ++ qs, by rw [hq, hp, List.append_assoc], ps, qs, rfl, hr, hr'⟩

theorem of_eq {R : List Problem → Prop} (ht : s'.table = s.table) (hp : s'.problems = s.problems)
    (hr : R []) : s.Passes t sites R s' :=
  ⟨by rw [ht], fun _ _ => by rw [ht], [], by simp [hp], hr⟩

theorem before (ht : s'.table = s.table) (hp : s'.problems = s.problems)
    (h : s'.Passes t sites R s'') : s.Passes t sites R s'' where
  outline := by rw [h.outline, ht]
  spares := by
    have := h.spares
    rwa [ht] at this
  reports := by
    rw [← hp]
    exact h.reports

theorem after (h : s.Passes t sites R s') (ht : s''.table = s'.table)
    (hp : s''.problems = s'.problems) : s.Passes t sites R s'' where
  outline := by rw [ht, h.outline]
  spares := by rw [ht]; exact h.spares
  reports := by rw [hp]; exact h.reports

end Lowering.State.Passes

theorem Stands.of_outline {c : Context} {s s' : State} (h : Stands t key c s)
    (ho : s'.table.outline = s.table.outline) : Stands t key c s' :=
  ⟨ho.trans h.outline, h.scope⟩

namespace Lower

variable {act : Lower α} {f : α → Lower β}

namespace KeepsRecords

theorem pure (a : α) : KeepsRecords (Pure.pure a) := ⟨fun _ _ => .pure ⟨rfl, rfl⟩⟩

theorem bind (h : KeepsRecords act) (k : ∀ a, KeepsRecords (f a)) : KeepsRecords (act >>= f) :=
  ⟨fun c s => (h.ensures c s).bind fun a s₁ ⟨ht, hp⟩ =>
    ((k a).ensures c s₁).mono fun _ _ ⟨ht', hp'⟩ => ⟨ht'.trans ht, hp'.trans hp⟩⟩

theorem read : KeepsRecords MonadReader.read := ⟨fun _ _ => .read ⟨rfl, rfl⟩⟩

theorem lift {x : Checked α} (h : x.NoRebind) : KeepsRecords (liftM x) :=
  ⟨fun _ _ => .lift h fun _ _ => ⟨rfl, rfl⟩⟩

theorem account {act : Account α} (h : Ledger.NoRebind act) : KeepsRecords (account act) :=
  ⟨fun _ _ => .account h fun _ _ _ => ⟨rfl, rfl⟩⟩

theorem lookup (name : String) : KeepsRecords (lookup name) := ⟨fun _ _ => .lookup fun _ _ => ⟨rfl, rfl⟩⟩

theorem symbol (id : SymbolId) : KeepsRecords (symbol id) := ⟨fun _ _ => .symbol fun _ _ => ⟨rfl, rfl⟩⟩

theorem valueSize (id : SymbolId) : KeepsRecords (valueSize id) :=
  (symbol id).bind fun _ => read.bind fun _ => .pure _

theorem freshTemp : KeepsRecords freshTemp := .account Ledger.freshTemp_noRebind

theorem freshLabel : KeepsRecords freshLabel := .account Ledger.freshLabel_noRebind

theorem copyToTemp (v : Operand) : KeepsRecords (copyToTemp v) := freshTemp.bind fun _ => .pure _

theorem ensureTemp (v : Operand) : KeepsRecords (ensureTemp v) := by
  unfold Lower.ensureTemp
  split
  · exact .pure _
  · exact copyToTemp v

theorem gotoBreak : KeepsRecords gotoBreak := (account Ledger.breakLabel_noRebind).bind fun _ => .pure _

end KeepsRecords

namespace Sound

theorem mono (h : Sound t key items R act) (le : ∀ scope ps, R scope ps → R' scope ps) :
    Sound t key items R' act := fun _ _ hs ha =>
  (h hs ha).mono fun _ _ hp => hp.mono (le _)

theorem of_keepsRecords (h : KeepsRecords act) (hr : ∀ scope, R scope []) :
    Sound t key items R act := fun c s _ _ =>
  (h.ensures c s).mono fun _ _ ⟨ht, hp⟩ => .of_eq ht hp (hr _)

theorem bind_of_disjoint (h : Sound t key items R act)
    (k : ∀ a, (∃ c s s', Runs act c s a s') → Sound t key items' R' (f a))
    (hd : ∀ s ∈ slotsAll items', s ∉ slotsAll items) :
    Sound t key (items ++ items') (R.andThen R') (act >>= f) := by
  intro c s hs ha
  rw [slotsAll_append] at ha ⊢
  refine (h hs (ha.mono fun s hs => List.mem_append_left _ hs)).runs.bind fun a s₁ ⟨hp, hr⟩ => ?_
  have ha' : t.Awaits (slotsAll items') s₁.table :=
    (ha.mono fun s hs => List.mem_append_right _ hs).after hp.spares hd
  exact (k a ⟨_, _, _, hr⟩ (hs.of_outline hp.outline) ha').mono fun _ _ hp' => hp.append hp'

theorem bind (h : Sound t key items R act) (k : ∀ a, Sound t key items' R' (f a))
    (hn : (sitesAll (items ++ items')).Nodup) :
    Sound t key (items ++ items') (R.andThen R') (act >>= f) := by
  rw [sitesAll_append, List.nodup_append] at hn
  exact h.bind_of_disjoint (fun a _ => k a) fun s hs' hs =>
    hn.2.2 s (mem_sitesAll_of_slots hs) s (mem_sitesAll_of_slots hs') rfl

theorem before (h : Sound t key [] R act) (k : ∀ a, Sound t key items R' (f a)) :
    Sound t key items (R.andThen R') (act >>= f) :=
  h.bind_of_disjoint (fun a _ => k a) nofun

theorem before_of_runs (h : Sound t key [] R act)
    (k : ∀ a, (∃ c s s', Runs act c s a s') → Sound t key items R' (f a)) :
    Sound t key items (R.andThen R') (act >>= f) :=
  h.bind_of_disjoint k nofun

theorem behind (h : Sound t key items R act) (k : ∀ a, Sound t key [] R' (f a)) :
    Sound t key items (R.andThen R') (act >>= f) := by
  have hb := h.bind_of_disjoint (fun a _ => k a) nofun
  rwa [List.append_nil] at hb

theorem last (h : KeepsRecords act) (k : ∀ a, Sound t key items R (f a)) :
    Sound t key items R (act >>= f) := fun c s hs ha =>
  (h.ensures c s).bind fun a _ ⟨ht, hp⟩ =>
    (k a (hs.of_outline (by rw [ht])) (by rwa [ht])).mono fun _ _ hp' => .before ht hp hp'

theorem first (h : Sound t key items R act) (k : ∀ a, KeepsRecords (f a)) :
    Sound t key items R (act >>= f) := fun c _ hs ha =>
  (h hs ha).bind fun a s₁ hp => ((k a).ensures c s₁).mono fun _ _ ⟨ht, hp'⟩ => hp.after ht hp'

theorem also {uses : List Use} (h : Sound t key [] (.concerning t uses) act)
    (k : ∀ a, Sound t key items (.concerning t uses) (f a)) :
    Sound t key items (.concerning t uses) (act >>= f) := by
  simpa using h.before k

theorem mapM {uses : List Use} {f : α → Lower β} {xs : List α}
    (h : ∀ a ∈ xs, Sound t key [] (.concerning t uses) (f a)) :
    Sound t key [] (.concerning t uses) (xs.mapM f) := by
  induction xs with
  | nil => exact .of_keepsRecords (.pure _) fun _ => nofun
  | cons a rest ih =>
    rw [List.mapM_cons]
    exact (h a (by simp)).also fun _ => (ih fun b hb => h b (by simp [hb])).first fun _ => .pure _

theorem declaring {names : List String} (h : Sound t key items R act)
    (hn : ∀ name ∈ names, ∃ id, t.find? ⟨key, name⟩ = some id) :
    Sound t key items (R.declaring t names) act := fun _ _ hs ha =>
  (h hs ha).mono fun _ _ hp => hp.mono fun _ hr =>
    ⟨fun name hm => (hn name hm).imp fun _ hf => Table.lookupLocal_of_find? rfl hf hs.scope, hr⟩

theorem inBlock {span : Span} (h : Sound t span.toPosition items R act) :
    Sound t key items (R.within t span.toPosition) (inBlock span act) := by
  intro c s hs ha
  have hb : blockScope c s span = (t.scopeFor span.toPosition).getD c.scope := by
    rw [blockScope, ← Table.scopeFor_outline, hs.outline, Table.scopeFor_outline]
  have hin := h (hs.inBlock span) ha
  rw [hb] at hin
  refine ⟨?_, fun a s' hr => ?_⟩
  · have he : Lower.inBlock span act c s = act { c with scope := blockScope c s span } s := rfl
    rw [he, hb]
    exact hin.noRebind
  · rw [runs_inBlock, hb] at hr
    exact hin.post hr

end Sound

end Lower

end ThreeAddress
