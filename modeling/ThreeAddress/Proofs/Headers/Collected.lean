import ThreeAddress.Proofs.Headers.Tables
import ThreeAddress.Proofs.Lockstep.Appending

namespace ThreeAddress

open Collect

section Keys

theorem keysAll_eq (body : List Stmt) : keysAll body = body.flatMap (·.keys) := by
  induction body with
  | nil => rw [keysAll, List.flatMap_nil]
  | cons s rest ih => rw [keysAll, ih, List.flatMap_cons]

theorem keysCases_eq (cases : List Case) : keysCases cases = cases.flatMap fun k => keysAll k.body := by
  induction cases with
  | nil => rw [keysCases, List.flatMap_nil]
  | cons k rest ih =>
    obtain ⟨value, body, span⟩ := k
    rw [keysCases, ih, List.flatMap_cons, Case.keys]

theorem Function.forall_keys {P : Position → Prop} (f : Function) :
    (∀ key ∈ f.keys, P key) ↔ P f.body.span.toPosition ∧ ∀ key ∈ keysAll f.body.body, P key := by
  cases f
  rw [keys, Block.keys_eq, List.forall_mem_cons]

theorem keysMembers_eq (members : List Member) : keysMembers members = members.flatMap (·.keys) := by
  induction members with
  | nil => rw [keysMembers, List.flatMap_nil]
  | cons m rest ih => rw [keysMembers, ih, List.flatMap_cons]

end Keys

variable {hidden : Position → Prop} {within within' : Prop}

theorem Expr.infer_congr {t t' : Table} {i : Nat} (h : ∀ name, t.visible? i name = t'.visible? i name) :
    (e : Expr) → e.infer t i = e.infer t' i
  | .ident .. => by rw [infer, infer, h]
  | .array es _ => by
    rw [infer, infer]
    cases es with
    | nil => rw [inferHead, inferHead]
    | cons e rest => rw [inferHead, inferHead, e.infer_congr h]
  | .binary l _ r _ => by rw [infer, infer, l.infer_congr h, r.infer_congr h]
  | .unary op _ _ => by cases op <;> simp only [infer]
  | .ternary _ a _ _ => by rw [infer, infer, a.infer_congr h]
  | .call callee _ _ => by cases callee <;> simp only [infer, h]
  | .index base _ _ => by rw [infer, infer, base.infer_congr h]
  | .int .. | .str .. | .bool .. | .null .. | .this .. | .logical .. | .new .. | .property .. => by
    simp only [infer]

namespace Collect

/-- There is a scope, and it tells whether it is hidden. -/
def Stands (hidden : Position → Prop) (within : Prop) (t : Table) (i : Nat) : Prop :=
  ∃ r : Scope, t.scopes[i]? = some r ∧ (hidden r.key ↔ within)

/-- Without a conflict, the actions lead from tables that differ in hidden scopes alone to others that do.
They are carried out for the scope `i`, which is hidden if `within` holds. -/
structure Same (hidden : Position → Prop) (within : Prop) (i : Nat) (act act' : Collect Unit) : Prop where
  retains : Keeps Collection.Retains act
  quiets : Keeps Collection.Quiets act
  quiets' : Keeps Collection.Quiets act'
  beside : ∀ {s s' : Collection}, s.table.Beside hidden s'.table → Stands hidden within s.table i →
    (act s).2.conflicts = [] → (act' s').2.conflicts = [] →
    (act s).2.table.Beside hidden (act' s').2.table

variable {i here : Nat} {act act' : Collect Unit} {f f' : Unit → Collect Unit}

theorem Stands.retains {s s' : Collection} (h : Stands hidden within s.table i) (hr : s.Retains s') :
    Stands hidden within s'.table i := by
  obtain ⟨r, hr₁, hk⟩ := h
  obtain ⟨r', hr', hkey, _⟩ := hr hr₁
  exact ⟨r', hr', by rwa [hkey]⟩

theorem Stands.shows {t : Table} (h : Stands hidden within t i) (hw : ¬within) : t.Shows hidden i := by
  obtain ⟨r, hr, hk⟩ := h
  exact ⟨r, hr, fun h => hw (hk.1 h)⟩

namespace Same

theorem pure (i : Nat) : Same hidden within i (Pure.pure ()) (Pure.pure ()) where
  retains := .pure _
  quiets := .pure _
  quiets' := .pure _
  beside h _ _ _ := h

theorem bind (h : Same hidden within i act act') (k : Same hidden within i (f ()) (f' ())) :
    Same hidden within i (act >>= f) (act' >>= f') where
  retains := h.retains.bind fun _ => k.retains
  quiets := h.quiets.bind fun _ => k.quiets
  quiets' := h.quiets'.bind fun _ => k.quiets'
  beside {s s'} hb hi hc hc' := by
    have hq : (act s).2.conflicts = [] := k.quiets hc
    have hq' : (act' s').2.conflicts = [] := k.quiets' hc'
    have hr : s.Retains (act s).2 := @h.retains s
    exact k.beside (h.beside hb hi hq hq') (hi.retains hr) hc hc'

end Same

theorem declare_beside {d d' : Declaration} {params : Nat} {s s' : Collection}
    (hb : s.table.Beside hidden s'.table) (hi : Stands hidden within s.table here)
    (hd : ¬within → d = d' ∧ ∀ m ∈ d.members, s.table.Shows hidden m)
    (hc : (declare here d params s).2.conflicts = []) (hc' : (declare here d' params s').2.conflicts = []) :
    (declare here d params s).2.table.Beside hidden (declare here d' params s').2.table := by
  obtain ⟨r, hr, hk⟩ := hi
  obtain ⟨r', hr', _⟩ := hb.exists_scope hr
  rw [(declare_quiet hr hc).2, (declare_quiet hr' hc').2]
  refine hb.push hr fun hn => ?_
  obtain ⟨rfl, hm⟩ := hd fun hw => hn (hk.2 hw)
  exact ⟨rfl, hm⟩

theorem declare_same {d d' : Declaration} {params : Nat} (hd : ¬within → d = d')
    (hm : d.members = none) : Same hidden within here (declare here d params) (declare here d' params) where
  retains := declare_keeps ..
  quiets := declare_keeps ..
  quiets' := declare_keeps ..
  beside hb hi := declare_beside hb hi fun hw => ⟨hd hw, by simp [hm]⟩

theorem declare_apart {d : Declaration} {params : Nat} (hw : within) :
    Same hidden within here (Pure.pure ()) (declare here d params) where
  retains := .pure _
  quiets := .pure _
  quiets' := declare_keeps ..
  beside hb hi _ hc' := by
    obtain ⟨r, hr, hk⟩ := hi
    obtain ⟨r', hr', hrr⟩ := hb.exists_scope hr
    rw [(declare_quiet hr' hc').2]
    exact hb.push_apart hr' (hrr.key_eq ▸ hk.2 hw)

theorem openScope_beside {span : Span} {kind : ScopeKind} {s s' : Collection}
    (hb : s.table.Beside hidden s'.table) (hi : Stands hidden within s.table here)
    (hk : hidden span.toPosition ↔ within') (hw : within → within')
    (hc : (openScope span kind here s).2.conflicts = [])
    (hc' : (openScope span kind here s').2.conflicts = []) :
    ∃ inner u u', openScope span kind here s = (inner, u) ∧ openScope span kind here s' = (inner, u') ∧
      u.table.Beside hidden u'.table ∧ Stands hidden within' u.table inner ∧
      Stands hidden within u.table here := by
  have hr : s.Retains (openScope span kind here s).2 := @openScope_keeps _ _ span kind here s
  have hi' := hi.retains hr
  obtain ⟨r, hr, hrk⟩ := hi
  obtain ⟨hn, he⟩ := openScope_quiet hc
  obtain ⟨hn', he'⟩ := openScope_quiet hc'
  rw [he] at hi'
  rw [← hb.size] at he'
  exact ⟨_, _, _, he, he', hb.grow hn hn' hr fun hv hr => hv (hk.2 (hw (hrk.1 hr))),
    ⟨_, Table.scopes_grow_size hn (Table.lt_size hr), hk⟩, hi'⟩

theorem bind_eq_of_eq {act : Collect α} {f : α → Collect β} {s u : Collection} {a : α}
    (h : act s = (a, u)) : (act >>= f) s = f a u := by
  change f (act s).1 (act s).2 = _
  rw [h]

section Opened

variable {span : Span} {kind : ScopeKind} {k k' : Nat → Collect Unit}

theorem openScope_same (hk : hidden span.toPosition ↔ within') (hw : within → within')
    (h : ∀ i, Same hidden within' i (k i) (k' i)) :
    Same hidden within here (openScope span kind here >>= k) (openScope span kind here >>= k') where
  retains := (openScope_keeps ..).bind fun i => (h i).retains
  quiets := (openScope_keeps ..).bind fun i => (h i).quiets
  quiets' := (openScope_keeps ..).bind fun i => (h i).quiets'
  beside {s s'} hb hi hc hc' := by
    obtain ⟨inner, u, u', he, he', hb, hi, _⟩ :=
      openScope_beside hb hi hk hw ((h _).quiets hc) ((h _).quiets' hc')
    rw [bind_eq_of_eq he] at hc ⊢
    rw [bind_eq_of_eq he'] at hc' ⊢
    exact (h inner).beside hb hi hc hc'

theorem frame_same {d : Nat → Declaration} {params : Nat} (hk : hidden span.toPosition ↔ within)
    (hm : ∀ i, (d i).members = some i) (h : ∀ i, Same hidden within i (k i) (k' i)) :
    Same hidden within here
      (openScope span kind here >>= fun i => declare here (d i) params >>= fun _ => k i)
      (openScope span kind here >>= fun i => declare here (d i) params >>= fun _ => k' i) where
  retains := (openScope_keeps ..).bind fun i => (declare_keeps ..).bind fun _ => (h i).retains
  quiets := (openScope_keeps ..).bind fun i => (declare_keeps ..).bind fun _ => (h i).quiets
  quiets' := (openScope_keeps ..).bind fun i => (declare_keeps ..).bind fun _ => (h i).quiets'
  beside {s s'} hb hi hc hc' := by
    have hq (i : Nat) : Keeps Collection.Quiets (declare here (d i) params) := declare_keeps ..
    obtain ⟨inner, u, u', he, he', hb, hin, hi⟩ := openScope_beside hb hi hk (fun hw => hw)
      (@hq _ _ ((h _).quiets hc)) (@hq _ _ ((h _).quiets' hc'))
    rw [bind_eq_of_eq he] at hc ⊢
    rw [bind_eq_of_eq he'] at hc' ⊢
    have hr : u.Retains (declare here (d inner) params u).2 := @declare_keeps _ _ here (d inner) params u
    refine (h inner).beside (declare_beside hb hi (fun hw => ⟨rfl, fun m hm' => ?_⟩)
      ((h inner).quiets hc) ((h inner).quiets' hc')) (hin.retains hr) hc hc'
    rw [hm, Option.mem_some_iff] at hm'
    exact hm' ▸ hin.shows hw

/-- The loop over a collection: the type of its item is read off outside. -/
theorem item_same {d e : Table → Declaration} (hk : hidden span.toPosition ↔ within') (hw : within → within')
    (hm : ∀ t, (d t).members = none)
    (hd : ¬within' → ∀ {t t' : Table}, t.Beside hidden t' → t.Shows hidden here → d t = e t')
    (h : ∀ i, Same hidden within' i (k i) (k' i)) :
    Same hidden within here
      (openScope span kind here >>= fun i => MonadState.get >>= fun s : Collection =>
        declare i (d s.table) >>= fun _ => k i)
      (openScope span kind here >>= fun i => MonadState.get >>= fun s : Collection =>
        declare i (e s.table) >>= fun _ => k' i) where
  retains := (openScope_keeps ..).bind fun i => Keeps.get.bind fun _ => (declare_keeps ..).bind fun _ =>
    (h i).retains
  quiets := (openScope_keeps ..).bind fun i => Keeps.get.bind fun _ => (declare_keeps ..).bind fun _ =>
    (h i).quiets
  quiets' := (openScope_keeps ..).bind fun i => Keeps.get.bind fun _ => (declare_keeps ..).bind fun _ =>
    (h i).quiets'
  beside {s s'} hb hi hc hc' := by
    have hq (i : Nat) (d : Declaration) : Keeps Collection.Quiets (declare i d) := declare_keeps ..
    obtain ⟨inner, u, u', he, he', hb, hin, hi⟩ := openScope_beside hb hi hk hw
      (@hq _ _ _ ((h _).quiets hc)) (@hq _ _ _ ((h _).quiets' hc'))
    rw [bind_eq_of_eq he] at hc ⊢
    rw [bind_eq_of_eq he'] at hc' ⊢
    have hr : u.Retains (declare inner (d u.table) 0 u).2 := @declare_keeps _ _ inner (d u.table) 0 u
    -- if the item is hidden it may have another type; if not, all that it is typed by is in both tables
    refine (h inner).beside (declare_beside hb hin (fun hn => ⟨hd hn hb ?_, by simp [hm]⟩)
      ((h inner).quiets hc) ((h inner).quiets' hc')) (hin.retains hr) hc hc'
    exact hi.shows fun hi => hn (hw hi)

end Opened

end Collect

section Statements

abbrev Stmt.Same (hidden : Position → Prop) (within : Prop) (s s' : Stmt) : Prop :=
  ∀ i, Collect.Same hidden within i (s.collect i) (s'.collect i)

abbrev Member.Same (hidden : Position → Prop) (within : Prop) (m m' : Member) : Prop :=
  ∀ i owner, Collect.Same hidden within i (m.collect i owner) (m'.collect i owner)

variable {body body' : List Stmt}

theorem Binding.collect_same (b : Binding) (i : Nat) (kind : SymbolKind) (owner : Option String) :
    Collect.Same hidden within i (b.collect i kind owner) (b.collect i kind owner) where
  retains := b.collect_keeps ..
  quiets := b.collect_keeps ..
  quiets' := b.collect_keeps ..
  beside {s s'} hb hi hc hc' := by
    refine declare_beside hb hi (fun hw => ?_) hc hc'
    have hinfer (e : Expr) : e.infer s.table i = e.infer s'.table i :=
      e.infer_congr (hb.visible? (hi.shows hw))
    obtain ⟨name, written, value, isConst, span⟩ := b
    cases written <;> cases value <;> simp [hinfer]

theorem params_same (params : List Param) (i : Nat) :
    Collect.Same hidden within i (params.forM (·.collect i)) (params.forM (·.collect i)) := by
  induction params with
  | nil => exact .pure _
  | cons p rest ih => exact (declare_same (fun _ => rfl) rfl).bind ih

theorem collectAll_same (h : List.Forall₂ (Stmt.Same hidden within) body body') (i : Nat) :
    Collect.Same hidden within i (collectAll i body) (collectAll i body') := by
  induction h with
  | nil =>
    rw [collectAll]
    exact .pure _
  | cons hs _ ih =>
    rw [collectAll, collectAll]
    exact (hs i).bind ih

theorem block_same {span : Span} (hk : hidden span.toPosition ↔ within)
    (h : List.Forall₂ (Stmt.Same hidden within) body body') (i : Nat) :
    Collect.Same hidden within i ((⟨body, span⟩ : Block).collect i) ((⟨body', span⟩ : Block).collect i) := by
  rw [Block.collect, Block.collect]
  exact openScope_same hk (fun hw => hw) (collectAll_same h)

theorem collectCases_same {cases cases' : List Case}
    (h : List.Forall₂ (fun k k' => List.Forall₂ (Stmt.Same hidden within) k.body k'.body) cases cases')
    (i : Nat) : Collect.Same hidden within i (collectCases i cases) (collectCases i cases') := by
  induction h with
  | nil =>
    rw [collectCases]
    exact .pure _
  | @cons k k' _ _ hs _ ih =>
    obtain ⟨value, body, span⟩ := k
    obtain ⟨value', body', span'⟩ := k'
    rw [collectCases, collectCases]
    exact (collectAll_same hs i).bind ih

theorem function_same {name : String} {params : List Param} {result : Option TypeExpr} {at_ span : Span}
    (hk : hidden at_.toPosition ↔ within) (h : List.Forall₂ (Stmt.Same hidden within) body body') (i : Nat)
    (owner : Option String) :
    Collect.Same hidden within i ((⟨name, params, result, ⟨body, at_⟩, span⟩ : Function).collect i owner)
      ((⟨name, params, result, ⟨body', at_⟩, span⟩ : Function).collect i owner) := by
  rw [Function.collect_eq, Function.collect_eq]
  exact frame_same hk (fun _ => rfl) fun inner => (params_same params inner).bind (collectAll_same h inner)

theorem collectMembers_same {members members' : List Member}
    (h : List.Forall₂ (Member.Same hidden within) members members') (i : Nat) (owner : String) :
    Collect.Same hidden within i (collectMembers i owner members) (collectMembers i owner members') := by
  induction h with
  | nil =>
    rw [collectMembers]
    exact .pure _
  | cons hm _ ih =>
    rw [collectMembers, collectMembers]
    exact (hm i owner).bind ih

theorem class_same {name : String} {parent : Option String} {members members' : List Member} {span : Span}
    (hk : hidden span.toPosition ↔ within) (h : List.Forall₂ (Member.Same hidden within) members members')
    (i : Nat) : Collect.Same hidden within i ((⟨name, parent, members, span⟩ : Class).collect i)
      ((⟨name, parent, members', span⟩ : Class).collect i) := by
  rw [Class.collect_eq, Class.collect_eq]
  exact frame_same hk (fun _ => rfl) fun inner => collectMembers_same h inner name

theorem foreach_same {item : String} {e : Expr} {at_ span : Span} (hk : hidden at_.toPosition ↔ within')
    (hw : within → within') (h : ∀ i, Collect.Same hidden within' i (collectAll i body) (collectAll i body')) :
    (Stmt.foreach item e ⟨body, at_⟩ span).Same hidden within (.foreach item e ⟨body', at_⟩ span) := by
  intro i
  simp only [Stmt.collect, Block.collectBody_eq]
  refine item_same (d := fun t => ⟨item, (e.infer t i).indexed, .variable, false, none, none, span⟩)
    (e := fun t => ⟨item, (e.infer t i).indexed, .variable, false, none, none, span⟩) hk hw (fun _ => rfl)
    (fun _ _ _ hb hs => ?_) h
  rw [e.infer_congr (hb.visible? hs)]

theorem Member.collect_same {m : Member}
    (h : ∀ f, m = .method f → (hidden f.body.span.toPosition ↔ within) ∧
      List.Forall₂ (Stmt.Same hidden within) f.body.body f.body.body) : m.Same hidden within m := by
  intro i owner
  cases m with
  | field b =>
    rw [Member.collect]
    exact b.collect_same ..
  | method f =>
    obtain ⟨hk, hs⟩ := h f rfl
    obtain ⟨name, params, result, ⟨body, at_⟩, span⟩ := f
    rw [Member.collect]
    exact function_same hk hs i _

theorem Stmt.collect_same (s : Stmt) (hk : ∀ key ∈ s.keys, (hidden key ↔ within)) :
    s.Same hidden within s := by
  have all {body : List Stmt}
      (ih : ∀ s ∈ body, (∀ key ∈ s.keys, (hidden key ↔ within)) → s.Same hidden within s)
      (hk : ∀ key ∈ keysAll body, (hidden key ↔ within)) :
      List.Forall₂ (Stmt.Same hidden within) body body := by
    rw [keysAll_eq, List.forall_mem_flatMap] at hk
    exact List.forall₂_same.2 fun s hm => ih s hm (hk s hm)
  induction s with
  | declare b =>
    intro i
    rw [collect]
    exact b.collect_same ..
  | assign | print | eval | ret | exit | next =>
    intro i
    simp only [collect]
    exact .pure i
  | block b ih =>
    obtain ⟨body, at_⟩ := b
    rw [keys, Block.keys_eq, List.forall_mem_cons] at hk
    intro i
    rw [collect]
    exact block_same hk.1 (all ih hk.2) i
  | ite c yes no span ihy ihn =>
    rw [keys, List.forall_mem_append, Block.keys_eq, List.forall_mem_cons] at hk
    obtain ⟨body, at_⟩ := yes
    intro i
    have hy := block_same hk.1.1 (all ihy hk.1.2) i
    cases no with
    | none =>
      rw [collect]
      exact hy.bind (.pure i)
    | some no =>
      rw [keysElse, Block.keys_eq, List.forall_mem_cons] at hk
      obtain ⟨other, other_at⟩ := no
      rw [collect]
      exact hy.bind (block_same hk.2.1 (all (ihn _ rfl) hk.2.2) i)
  | loop c body span ih =>
    rw [keys, Block.keys_eq, List.forall_mem_cons] at hk
    obtain ⟨body, at_⟩ := body
    intro i
    rw [collect]
    exact block_same hk.1 (all ih hk.2) i
  | doWhile body c span ih =>
    rw [keys, Block.keys_eq, List.forall_mem_cons] at hk
    obtain ⟨body, at_⟩ := body
    intro i
    rw [collect]
    exact block_same hk.1 (all ih hk.2) i
  | forLoop first test step body span ihf _ ih =>
    rw [keys, List.forall_mem_append, List.forall_mem_append, Block.keys_eq, List.forall_mem_cons] at hk
    obtain ⟨⟨hf, _⟩, hk, hs⟩ := hk
    have hbody := collectAll_same (all ih hs)
    intro i
    simp only [collect, Block.collectBody_eq]
    refine openScope_same hk (fun hw => hw) fun inner => ?_
    cases first with
    | none => exact hbody inner
    | some s => exact (ihf s rfl hf inner).bind (hbody inner)
  | foreach item e body span ih =>
    rw [keys, Block.keys_eq, List.forall_mem_cons] at hk
    obtain ⟨body, at_⟩ := body
    exact foreach_same hk.1 (fun hw => hw) (collectAll_same (all ih hk.2))
  | switch subject cases default span ihc ihd =>
    rw [keys, List.forall_mem_append, keysCases_eq, List.forall_mem_flatMap] at hk
    intro i
    have hcases := collectCases_same (List.forall₂_same.2 fun k hm => all (ihc k hm) (hk.1 k hm)) i
    cases default with
    | none =>
      rw [collect]
      exact hcases.bind (.pure i)
    | some body =>
      rw [collect]
      exact hcases.bind (collectAll_same (all (ihd body rfl) hk.2) i)
  | tryCatch body caught handler span ihb ihh =>
    rw [keys, List.forall_mem_append, Block.keys_eq, List.forall_mem_cons, Block.keys_eq,
      List.forall_mem_cons] at hk
    obtain ⟨⟨hb, hbs⟩, hh, hhs⟩ := hk
    obtain ⟨body, at_⟩ := body
    intro i
    simp only [collect, Block.collectBody_eq]
    exact (block_same hb (all ihb hbs) i).bind <| openScope_same hh (fun hw => hw) fun inner =>
      (declare_same (fun _ => rfl) rfl).bind (collectAll_same (all ihh hhs) inner)
  | function f ih =>
    obtain ⟨name, params, result, ⟨body, at_⟩, span⟩ := f
    rw [keys, Function.keys, Block.keys_eq, List.forall_mem_cons] at hk
    intro i
    rw [collect]
    exact function_same hk.1 (all ih hk.2) i none
  | classDef c ih =>
    obtain ⟨name, parent, members, span⟩ := c
    rw [keys, Class.keys, List.forall_mem_cons, keysMembers_eq, List.forall_mem_flatMap] at hk
    intro i
    rw [collect]
    refine class_same hk.1 (List.forall₂_same.2 fun m hm => Member.collect_same fun f hf => ?_) i
    subst hf
    have hf := hk.2 _ hm
    rw [Member.keys, Function.forall_keys] at hf
    exact ⟨hf.1, all (ih f hm) hf.2⟩

theorem stmts_same (hk : ∀ key ∈ keysAll body, (hidden key ↔ within)) :
    List.Forall₂ (Stmt.Same hidden within) body body := by
  rw [keysAll_eq, List.forall_mem_flatMap] at hk
  exact List.forall₂_same.2 fun s hm => s.collect_same (hk s hm)

theorem cases_same {cases : List Case} (hk : ∀ key ∈ keysCases cases, (hidden key ↔ within)) :
    List.Forall₂ (fun k k' => List.Forall₂ (Stmt.Same hidden within) k.body k'.body) cases cases := by
  rw [keysCases_eq, List.forall_mem_flatMap] at hk
  exact List.forall₂_same.2 fun k hm => stmts_same (hk k hm)

theorem members_same {members : List Member} (hk : ∀ key ∈ keysMembers members, (hidden key ↔ within)) :
    List.Forall₂ (Member.Same hidden within) members members := by
  rw [keysMembers_eq, List.forall_mem_flatMap] at hk
  refine List.forall₂_same.2 fun m hm => Member.collect_same fun f hf => ?_
  subst hf
  have hf := hk _ hm
  rw [Member.keys, Function.forall_keys] at hf
  exact ⟨hf.1, stmts_same hf.2⟩

end Statements

end ThreeAddress
