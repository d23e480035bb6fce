import ThreeAddress.Proofs.Headers.Holes

namespace ThreeAddress

open Collect

/-- `t'` is `t` with more scopes, and with more symbols in its own. -/
def Table.Continues (t t' : Table) : Prop :=
  ∀ ⦃i : Nat⦄ ⦃r : Scope⦄, t.scopes[i]? = some r →
    ∃ r' : Scope, t'.scopes[i]? = some r' ∧ r'.key = r.key ∧ r'.parent = r.parent ∧ r.symbols <+: r'.symbols

theorem Table.Continues.trans {t t' t'' : Table} (h : t.Continues t') (k : t'.Continues t'') :
    t.Continues t'' := by
  intro i r hr
  obtain ⟨r', hr', hk, hp, hs⟩ := h hr
  obtain ⟨r'', hr'', hk', hp', hs'⟩ := k hr'
  exact ⟨r'', hr'', hk'.trans hk, hp'.trans hp, hs.trans hs'⟩

instance : Collecting fun s s' => s.table.Continues s'.table where
  refl _ _ r h := ⟨r, h, rfl, rfl, List.prefix_refl _⟩
  trans _ _ _ h k := h.trans k
  addScope s key kind parent hk i r hr := by
    refine ⟨_, by rw [Table.scopes_addScope hk, List.getElem?_append_left (Table.lt_size hr), hr]; rfl, ?_⟩
    dsimp only
    split <;> exact ⟨rfl, rfl, List.prefix_refl _⟩
  declare s scope d params i r hr := by
    rw [Table.declare]
    split
    · exact ⟨r, hr, rfl, rfl, List.prefix_refl _⟩
    · refine ⟨_, by rw [Table.modifyScope, List.getElem?_modify, hr]; rfl, ?_⟩
      dsimp only
      split
      · exact ⟨rfl, rfl, List.prefix_append ..⟩
      · exact ⟨rfl, rfl, List.prefix_refl _⟩
  report _ _ _ r h := ⟨r, h, rfl, rfl, List.prefix_refl _⟩

namespace Table.Continues

variable {t t' : Table} {i fuel fuel' : Nat} {name : String} {found : Option SymbolId} {id : SymbolId}
  {x y : Symbol}

theorem symbol (h : t.Continues t') (hx : t.symbol id = .ok x) : t'.symbol id = .ok x := by
  obtain ⟨r, hr, hx⟩ := symbol_eq_ok.1 hx
  obtain ⟨r', hr', _, _, rest, hrest⟩ := h hr
  refine symbol_eq_ok.2 ⟨r', hr', ?_⟩
  rw [← hrest, List.getElem?_append_left (List.getElem?_eq_some_iff.1 hx).1, hx]

theorem climb (h : t.Continues t') (hl : t'.Linked) (hi : i < t.size) (hf : i < fuel)
    (hc : t'.climb name fuel' i = .ok found) (hid : ∀ id ∈ found, ∃ x, t.symbol id = .ok x) :
    t.climb name fuel i = .ok found := by
  induction fuel' generalizing i fuel with
  | zero => cases hc
  | succ fuel' ih =>
    obtain ⟨fuel, rfl⟩ := Nat.exists_eq_add_one_of_ne_zero (Nat.ne_zero_of_lt hf)
    obtain ⟨r, hr⟩ := exists_scope hi
    obtain ⟨r', hr', _, hp, rest, hrest⟩ := h hr
    rw [climb_scope hr'] at hc
    rw [climb_scope hr]
    -- a scope is searched from its first symbol on, so what was there is found in both tables
    have hslot : r'.slot? name = (r.slot? name).or
        ((rest.findIdx? (·.name == name)).map (· + r.symbols.length)) := by
      rw [Scope.slot?, Scope.slot?, ← hrest, List.findIdx?_append]
    cases hs' : r'.slot? name with
    | some slot =>
      rw [hs'] at hc
      cases hc
      obtain ⟨x, hx⟩ := hid _ rfl
      obtain ⟨q, hq, hx⟩ := symbol_eq_ok.1 hx
      cases hr.symm.trans hq
      have hlt : slot < r.symbols.length := (List.getElem?_eq_some_iff.1 hx).1
      cases hs : r.slot? name with
      | some slot' =>
        rw [hs, hs', Option.some_or] at hslot
        cases hslot
        rfl
      | none =>
        -- found among the later symbols only, so `t` has no such symbol
        rw [hs, hs', Option.none_or, eq_comm, Option.map_eq_some_iff] at hslot
        obtain ⟨_, _, rfl⟩ := hslot
        omega
    | none =>
      rw [hs', eq_comm, Option.or_eq_none_iff] at hslot
      rw [hslot.1]
      rw [hs', hp] at hc
      cases hparent : r.parent with
      | none =>
        rw [hparent] at hc
        exact hc
      | some p =>
        rw [hparent] at hc
        have hlt := hl.lt_of_parent hr' (hp.trans hparent)
        exact ih (by omega) (by omega) hc

/-- A name means the same by both tables just if the symbol that it means is in both. -/
theorem lookup_eq_iff (h : t.Continues t') (hl : t'.Linked) (hi : i < t.size) :
    t.lookup i name = t'.lookup i name ↔
      ∀ id, t'.lookup i name = .ok (some id) → ∃ x, t.symbol id = .ok x := by
  refine ⟨fun he id hid => ?_, fun hid => ?_⟩
  · obtain ⟨x, hx, _⟩ := exists_symbol_of_lookup (he.trans hid)
    exact ⟨x, hx⟩
  · obtain ⟨r, hr⟩ := exists_scope hi
    obtain ⟨r', hr', _⟩ := h hr
    obtain ⟨found, hf⟩ : ∃ found, t'.lookup i name = .ok found := hl.climb_total (lt_size hr') (lt_size hr')
    rw [hf]
    exact h.climb hl hi hi hf fun id hm => hid id (hf.trans (congrArg _ hm))

end Table.Continues

namespace Collect

/-- The whole comes to `k` at the scope that `act` answers, with all that `act` has collected. -/
def Reaches (act : Collect Nat) (whole : Collect Unit) (k : Nat → Collect Unit) : Prop :=
  ∀ s, ∃ rest : Collect Unit, (∀ R [Collecting R], Keeps R rest) ∧
    whole s = (k (act s).1 >>= fun _ => rest) (act s).2

namespace Reaches

variable {act : Collect Nat} {whole : Collect Unit} {k : Nat → Collect Unit} {i : Nat}

theorem here (i : Nat) : Reaches (pure i) (k i) k :=
  fun _ => ⟨pure (), fun _ _ => .pure _, congrFun (bind_pure_unit (x := k i)).symm _⟩

theorem after (first : Collect α) {f : α → Collect Nat} {g : α → Collect Unit}
    (h : ∀ a, Reaches (f a) (g a) k) : Reaches (first >>= f) (first >>= g) k :=
  fun s => h (first s).1 (first s).2

theorem before {g : Unit → Collect Unit} (h : Reaches act whole k)
    (hg : ∀ R [Collecting R], Keeps R (g ())) : Reaches act (whole >>= g) k := by
  intro s
  obtain ⟨rest, hr, he⟩ := h s
  refine ⟨rest >>= g, fun R _ => (hr R).bind fun _ => hg R, ?_⟩
  change g () (whole s).2 = _
  rw [he]
  rfl

theorem comp {f : Nat → Collect Nat} {k' : Nat → Collect Unit} (h : Reaches act whole k)
    (hk : ∀ i, Reaches (f i) (k i) k') : Reaches (act >>= f) whole k' := by
  intro s
  obtain ⟨rest, hr, he⟩ := h s
  obtain ⟨rest', hr', he'⟩ := hk (act s).1 (act s).2
  refine ⟨rest' >>= fun _ => rest, fun R _ => (hr' R).bind fun _ => hr R, ?_⟩
  rw [he]
  change rest (k (act s).1 (act s).2).2 = _
  rw [he']
  rfl

end Reaches

end Collect

def Gap.lead (g : Gap) (scope : Nat) : Collect Nat := do
  collectAll scope g.before
  return scope

namespace Layer

/-- The step of a `for` is passed over. -/
def IsCollected : Layer → Prop
  | .step .. => False
  | _ => True

def lead (scope : Nat) : Layer → Collect Nat
  | .block g at_ | .yes _ g at_ _ _ | .loop _ g at_ _ | .doWhile g at_ _ _ | .attempt g at_ _ _ _ => do
    g.lead (← openScope at_ .block scope)
  | .no _ body g at_ _ => do
    body.collect scope
    g.lead (← openScope at_ .block scope)
  | .first _ _ body _ => openScope body.span .block scope
  | .step .. => return scope
  | .pass lead _ _ g at_ _ => do
    let inner ← openScope at_ .block scope
    match lead with
    | none => pure ()
    | some s => s.collect inner
    g.lead inner
  | .foreach item e g at_ span => do
    let inner ← openScope at_ .block scope
    let type := (e.infer (← get).table scope).indexed
    declare inner { name := item, type, kind := .variable, span }
    g.lead inner
  | .case _ front _ g _ _ _ _ => do
    collectCases scope front
    g.lead scope
  | .default _ cases g _ => do
    collectCases scope cases
    g.lead scope
  | .handler body caught g at_ span => do
    body.collect scope
    let inner ← openScope at_ .block scope
    declare inner { name := caught, type := .object "Exception", kind := .variable, span }
    g.lead inner
  | .function name params result g at_ span => do
    let inner ← openScope at_ .functionBody scope
    let type := (result.map Ty.ofTypeExpr).getD .void
    declare scope { name, type, kind := .function, members := some inner, span } params.length
    params.forM (·.collect inner)
    g.lead inner
  | .method owner _ front name params result g at_ span _ whole => do
    let outer ← openScope whole .classBody scope
    declare scope
      { name := owner, type := .object owner, kind := .classType, members := some outer, span := whole }
    collectMembers outer owner front
    let inner ← openScope at_ .functionBody outer
    let type := (result.map Ty.ofTypeExpr).getD .void
    declare outer
      { name, type, kind := .function, owner := some owner, members := some inner, span } params.length
    params.forM (·.collect inner)
    g.lead inner

end Layer

namespace Hole

def leadInto : List Layer → Nat → Collect Nat
  | [], scope => return scope
  | layer :: rest, scope => do leadInto rest (← layer.lead scope)

def lead (h : Hole) : Collect Nat := do leadInto h.layers (← h.top.lead Table.global)

end Hole

section Reaching

variable {s : Stmt} {R : Collection → Collection → Prop} [Collecting R]

theorem collectCases_append (scope : Nat) (xs ys : List Case) :
    collectCases scope (xs ++ ys) = collectCases scope xs >>= fun _ => collectCases scope ys := by
  induction xs with
  | nil => rw [List.nil_append, collectCases, pure_bind]
  | cons k rest ih =>
    obtain ⟨value, body, span⟩ := k
    simp only [List.cons_append, collectCases, ih, bind_assoc]

theorem collectMembers_append (scope : Nat) (owner : String) (xs ys : List Member) :
    collectMembers scope owner (xs ++ ys) =
      collectMembers scope owner xs >>= fun _ => collectMembers scope owner ys := by
  induction xs with
  | nil => rw [List.nil_append, collectMembers, pure_bind]
  | cons m rest ih => simp only [List.cons_append, collectMembers, ih, bind_assoc]

theorem Gap.reaches (g : Gap) (s : Stmt) (scope : Nat) :
    Reaches (g.lead scope) (collectAll scope (g.fill s)) fun i => s.collect i := by
  rw [fill, collectAll_append, collectAll]
  exact .after _ fun _ => (Reaches.here (k := fun i => s.collect i) scope).before fun R _ =>
    collectAll_keeps_all ..

theorem Layer.reaches {layer : Layer} (hc : layer.IsCollected) (s : Stmt) (scope : Nat) :
    Reaches (layer.lead scope) ((layer.fill s).collect scope) fun i => s.collect i := by
  cases layer with
  | block g at_ | loop test g at_ span | doWhile g at_ test span =>
    rw [fill, lead, Stmt.collect, Block.collect]
    exact .after _ fun _ => g.reaches s _
  | yes test g at_ other span =>
    have hbody : Reaches (openScope at_ .block scope >>= g.lead)
        (openScope at_ .block scope >>= fun i => collectAll i (g.fill s)) fun i => s.collect i :=
      .after _ fun _ => g.reaches s _
    cases other with
    | none =>
      rw [fill, lead, Stmt.collect, Block.collect]
      exact hbody.before fun R _ => .pure _
    | some other =>
      rw [fill, lead, Stmt.collect, Block.collect]
      exact hbody.before fun R _ => Block.collect_keeps (fun s _ => s.collect_keeps) _
  | no test body g at_ span =>
    rw [fill, lead, Stmt.collect, Block.collect]
    exact .after _ fun _ => .after _ fun _ => g.reaches s _
  | first test next body span =>
    simp only [fill, lead, Stmt.collect, Block.collectBody_eq]
    rw [← bind_pure (openScope body.span .block scope)]
    exact .after _ fun i => (Reaches.here (k := fun i => s.collect i) i).before fun R _ =>
      collectAll_keeps_all ..
  -- a statement in the step is not collected at all
  | step => exact hc.elim
  | pass lead' test next g at_ span =>
    simp only [fill, lead, Stmt.collect, Block.collectBody_eq]
    refine .after _ fun i => ?_
    cases lead' with
    | none => exact g.reaches s i
    | some lead' => exact .after _ fun _ => g.reaches s i
  | foreach item e g at_ span =>
    simp only [fill, lead, Stmt.collect, Block.collectBody_eq]
    exact .after _ fun i => .after _ fun _ => .after _ fun _ => g.reaches s i
  | case subject front value g at_ back last span =>
    have hcases : Reaches (collectCases scope front >>= fun _ => g.lead scope)
        (collectCases scope (front ++ ⟨value, g.fill s, at_⟩ :: back)) fun i => s.collect i := by
      rw [collectCases_append, collectCases]
      exact .after _ fun _ => (g.reaches s scope).before fun R _ => collectCases_keeps_all ..
    cases last with
    | none =>
      rw [fill, lead, Stmt.collect]
      exact hcases.before fun R _ => .pure _
    | some last =>
      rw [fill, lead, Stmt.collect]
      exact hcases.before fun R _ => collectAll_keeps_all ..
  | default subject cases g span =>
    rw [fill, lead, Stmt.collect]
    exact .after _ fun _ => g.reaches s scope
  | attempt g at_ caught rescue span =>
    simp only [fill, lead, Stmt.collect, Block.collectBody_eq, Block.collect_eq]
    have hbody : Reaches (openScope at_ .block scope >>= g.lead)
        (openScope at_ .block scope >>= fun i => collectAll i (g.fill s)) fun i => s.collect i :=
      .after _ fun _ => g.reaches s _
    exact hbody.before fun R _ => (openScope_keeps ..).bind fun _ => (declare_keeps ..).bind fun _ =>
      collectAll_keeps_all ..
  | handler body caught g at_ span =>
    simp only [fill, lead, Stmt.collect, Block.collectBody_eq]
    exact .after _ fun _ => .after _ fun i => .after _ fun _ => g.reaches s i
  | function name params result g at_ span =>
    rw [fill, lead, Stmt.collect, Function.collect_eq]
    exact .after _ fun i => .after _ fun _ => .after _ fun _ => g.reaches s i
  | method owner parent front name params result g at_ span back whole =>
    rw [fill, lead, Stmt.collect, Class.collect_eq]
    refine .after _ fun outer => .after _ fun _ => ?_
    rw [collectMembers_append, collectMembers, Member.collect, Function.collect_eq]
    refine .after _ fun _ => Reaches.before ?_ fun R _ => collectMembers_keeps_all ..
    exact .after _ fun i => .after _ fun _ => .after _ fun _ => g.reaches s i

theorem Hole.reaches_inside {layers : List Layer} (hc : ∀ layer ∈ layers, layer.IsCollected) (s : Stmt)
    (scope : Nat) : Reaches (leadInto layers scope) ((inside layers s).collect scope) fun i => s.collect i := by
  induction layers generalizing scope with
  | nil => exact Reaches.here (k := fun i => s.collect i) scope
  | cons layer rest ih =>
    exact (layer.reaches (hc layer (by simp)) (inside rest s) scope).comp fun i =>
      ih (fun layer hl => hc layer (by simp [hl])) i

theorem Hole.reaches {h : Hole} (hc : ∀ layer ∈ h.layers, layer.IsCollected) (s : Stmt) :
    Reaches h.lead (collectAll Table.global (h.fill s).statements) fun i => s.collect i :=
  (h.top.reaches (inside h.layers s) Table.global).comp (reaches_inside hc s)

end Reaching

section Scopes

namespace Collect

variable {outer key : Position} {scope : Nat} {c c' : Collection}

def HasKey (key : Position) (scope : Nat) (c : Collection) : Prop :=
  ∃ r : Scope, c.table.scopes[scope]? = some r ∧ r.key = key

theorem HasKey.continues (h : HasKey key scope c) (hc : c.table.Continues c'.table) : HasKey key scope c' := by
  obtain ⟨r, hr, hk⟩ := h
  obtain ⟨r', hr', hk', _⟩ := hc hr
  exact ⟨r', hr', hk'.trans hk⟩

/-- From the scope with the key `outer` the action comes to that with the key `key`, unless there is a
conflict. -/
structure Finds (outer key : Position) (scope : Nat) (act : Collect Nat) : Prop where
  keeps : ∀ R [Collecting R], Keeps R act
  hasKey : ∀ ⦃c⦄, HasKey outer scope c → (act c).2.conflicts = [] → HasKey key (act c).1 (act c).2

namespace Finds

variable {mid : Position} {act : Collect Nat} {f : α → Collect Nat}

theorem here : Finds outer outer scope (pure scope) := ⟨fun _ _ => .pure _, fun _ h _ => h⟩

theorem after {first : Collect α} (h : ∀ R [Collecting R], Keeps R first)
    (k : ∀ a, Finds outer key scope (f a)) : Finds outer key scope (first >>= f) where
  keeps R _ := (h R).bind fun a => (k a).keeps R
  hasKey c hk hq := by
    have hc : Keeps (fun s s' => s.table.Continues s'.table) first := h _
    exact (k (first c).1).hasKey (hk.continues (@hc c)) hq

theorem comp {f : Nat → Collect Nat} (h : Finds outer mid scope act) (k : ∀ i, Finds mid key i (f i)) :
    Finds outer key scope (act >>= f) where
  keeps R _ := (h.keeps R).bind fun i => (k i).keeps R
  hasKey c hk hq := by
    have hf : Keeps Collection.Quiets (f (act c).1) := (k _).keeps _
    exact (k (act c).1).hasKey (h.hasKey hk (hf hq)) hq

theorem openScope {span : Span} {kind : ScopeKind} {parent : Nat} :
    Finds outer span.toPosition scope (openScope span kind parent) where
  keeps _ _ := openScope_keeps ..
  hasKey c _ hq := by
    rw [openScope_eq] at hq ⊢
    cases hn : c.table.scopeFor span.toPosition with
    | some taken => simp [hn] at hq
    | none =>
      refine ⟨_, by rw [Table.scopes_addScope hn, Table.size, List.getElem?_concat_length]; rfl, ?_⟩
      dsimp only
      split <;> rfl

end Finds

end Collect

variable {outer : Position} {scope : Nat}

theorem Gap.finds (g : Gap) (scope : Nat) : Finds outer outer scope (g.lead scope) :=
  .after (fun _ _ => collectAll_keeps_all ..) fun _ => .here

theorem Layer.finds {layer : Layer} (hc : layer.IsCollected) (scope : Nat) :
    Finds outer (layer.around outer) scope (layer.lead scope) := by
  have params (ps : List Param) (i : Nat) (R : Collection → Collection → Prop) [Collecting R] :
    Keeps R (ps.forM (·.collect i)) := .forM fun p _ => declare_keeps ..
  have block (b : Block) (R : Collection → Collection → Prop) [Collecting R] : Keeps R (b.collect scope) :=
    Block.collect_keeps (fun s _ => s.collect_keeps) _
  cases layer with
  | block g | yes _ g | loop _ g | doWhile g | attempt g => exact .comp .openScope fun i => g.finds i
  | no test body g => exact .after (block body) fun _ => .comp .openScope fun i => g.finds i
  | first test next body span => exact .openScope
  | step => exact hc.elim
  | pass lead' test next g at_ span =>
    refine .comp .openScope fun i => ?_
    cases lead' with
    | none => exact g.finds i
    | some s => exact .after (fun _ _ => s.collect_keeps i) fun _ => g.finds i
  | foreach item e g at_ span =>
    exact .comp .openScope fun i => .after (fun _ _ => .get) fun _ => .after (fun _ _ => declare_keeps ..)
      fun _ => g.finds i
  | case subject front value g => exact .after (fun _ _ => collectCases_keeps_all ..) fun _ => g.finds scope
  | default subject cases g => exact .after (fun _ _ => collectCases_keeps_all ..) fun _ => g.finds scope
  | handler body caught g at_ span =>
    exact .after (block body) fun _ => .comp .openScope fun i => .after (fun _ _ => declare_keeps ..)
      fun _ => g.finds i
  | function name ps result g at_ span =>
    exact .comp .openScope fun i => .after (fun _ _ => declare_keeps ..) fun _ => .after (params ps i)
      fun _ => g.finds i
  | method owner parent front name ps result g at_ span back whole =>
    exact .comp .openScope fun _ => .after (fun _ _ => declare_keeps ..) fun _ =>
      .after (fun _ _ => collectMembers_keeps_all ..) fun _ => .comp .openScope fun i =>
      .after (fun _ _ => declare_keeps ..) fun _ => .after (params ps i) fun _ => g.finds i

theorem Hole.finds_inside {layers : List Layer} (hc : ∀ layer ∈ layers, layer.IsCollected) (scope : Nat) :
    Finds outer (layers.foldl Layer.around outer) scope (leadInto layers scope) := by
  induction layers generalizing outer scope with
  | nil => exact .here
  | cons layer rest ih =>
    exact .comp (layer.finds (hc layer (by simp)) scope) fun i => ih (fun layer hl => hc layer (by simp [hl])) i

theorem Hole.finds {h : Hole} (hc : ∀ layer ∈ h.layers, layer.IsCollected) :
    Finds .origin h.around Table.global h.lead :=
  .comp (h.top.finds Table.global) fun i => finds_inside hc i

theorem Stmt.foreach_collects {item : String} {e : Expr} {body : List Stmt} {at_ span : Span} {i : Nat}
    {c : Collection} (hi : i < c.table.size)
    (hc : ((Stmt.foreach item e ⟨body, at_⟩ span).collect i c).2.conflicts = []) :
    ∃ k u x, openScope at_ .block i c = (k, u) ∧ c.table.Continues u.table ∧
      u.table.Continues ((Stmt.foreach item e ⟨body, at_⟩ span).collect i c).2.table ∧
      HasKey at_.toPosition k u ∧
      ((Stmt.foreach item e ⟨body, at_⟩ span).collect i c).2.table.symbol ⟨k, 0⟩ = .ok x ∧
      x.name = item ∧ x.type = (e.infer u.table i).indexed := by
  simp only [Stmt.collect, Block.collectBody_eq] at hc ⊢
  obtain ⟨hn, ho⟩ := openScope_bind_quiet hc fun k => .bind .get fun _ => (declare_keeps ..).bind fun _ =>
    collectAll_keeps_all ..
  have hopen : openScope at_ .block i c =
      (c.table.size, { c with table := c.table.grow at_.toPosition .block i }) := by
    rw [openScope_eq, hn]
    rfl
  generalize hu : ({ c with table := c.table.grow at_.toPosition .block i } : Collection) = u at ho hopen
  rw [ho] at hc ⊢
  have hscope : u.table.scopes[c.table.size]? = some ⟨at_.toPosition, .block, some i, [], []⟩ :=
    hu ▸ Table.scopes_grow_size hn hi
  let d : Declaration := ⟨item, (e.infer u.table i).indexed, .variable, false, none, none, span⟩
  have hlater : Keeps Collection.Quiets (collectAll c.table.size body) := collectAll_keeps_all ..
  have hlast : Keeps (fun s s' => s.table.Continues s'.table) (collectAll c.table.size body) :=
    collectAll_keeps_all ..
  have hdeclare : Keeps (fun s s' => s.table.Continues s'.table) (Collect.declare c.table.size d) :=
    declare_keeps ..
  have hwhole : Keeps (fun s s' => s.table.Continues s'.table) (openScope at_ .block i) := openScope_keeps ..
  obtain ⟨_, ht⟩ := declare_quiet (d := d) hscope (@hlater _ hc)
  have hx : (Collect.declare c.table.size d 0 u).2.table.symbol ⟨c.table.size, 0⟩ =
      .ok (Symbol.ofDeclaration d) := by
    rw [ht]
    exact Table.push_symbol hscope
  refine ⟨_, u, Symbol.ofDeclaration d, hopen, ?_, Table.Continues.trans (@hdeclare u) (@hlast _),
    ⟨_, hscope, rfl⟩,
    (@hlast _ : Table.Continues _ _).symbol hx, rfl, rfl⟩
  have h : c.table.Continues (openScope at_ .block i c).2.table := @hwhole c
  rwa [hopen] at h

end Scopes

end ThreeAddress
