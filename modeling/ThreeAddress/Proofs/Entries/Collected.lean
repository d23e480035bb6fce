import ThreeAddress.Proofs.Entries.Declared

namespace ThreeAddress

/-- The function or class is declared, under its label and with its members in their scope. -/
def Table.Holds (t : Table) (e : Entry) : Prop :=
  ∃ id x i, t.find? e.site = some id ∧ t.symbol id = .ok x ∧ x.qualifiedName = e.label ∧
    x.members = some i ∧ t.scopeFor e.scope = some i

/-- From `t` to `t'` the functions and classes were declared, those in the scope with the given key
itself as members of `owner`, and the others in scopes that are new. -/
structure Enters (key : Position) (here : Nat) (owner : Option String) (entries : List Entry)
    (t t' : Table) : Prop where
  widens : t.Widens here t'
  holds : ∀ e ∈ entries, t'.Holds e
  place : ∀ e ∈ entries, e.site.key = key ∧ e.owner = owner ∧ t.find? e.site = none ∨
    t.scopeFor e.site.key = none
  apart : entries.Pairwise fun e e' => e.site.key = e'.site.key → e.label ≠ e'.label

section Tables

variable {t t' t'' : Table} {here inner : Nat} {key key' : Position} {owner : Option String}
  {entries entries' : List Entry} {e : Entry} {s : Scope} {y : Symbol} {kind : ScopeKind}

theorem Table.Widens.holds (h : t.Widens here t') (he : t.Holds e) : t'.Holds e := by
  obtain ⟨id, x, i, hf, hx, hl, hm, hk⟩ := he
  exact ⟨id, x, i, h.find? hf, h.symbol hx, hl, hm, h.scopeFor hk⟩

theorem Table.Widens.scopeFor_none (h : t.Widens here t') (hk : t'.scopeFor key = none) :
    t.scopeFor key = none := by
  cases hs : t.scopeFor key with
  | none => rfl
  | some i =>
    rw [h.scopeFor hs] at hk
    cases hk

theorem Table.Holds.scopeFor (h : t.Holds e) : ∃ i, t.scopeFor e.site.key = some i := by
  obtain ⟨_, _, _, hf, _⟩ := h
  obtain ⟨_, hk, _⟩ := Table.find?_eq_some.1 hf
  exact ⟨_, hk⟩

namespace Enters

theorem nil (h : t.Widens here t') : Enters key here owner [] t t' := ⟨h, nofun, nofun, .nil⟩

theorem append (h : Enters key here owner entries t t') (k : Enters key here owner entries' t' t'')
    (hk : t.scopeFor key = some here) : Enters key here owner (entries ++ entries') t t'' where
  widens := h.widens.trans k.widens
  holds e he := by
    obtain he | he := List.mem_append.1 he
    · exact k.widens.holds (h.holds e he)
    · exact k.holds e he
  place e he := by
    obtain he | he := List.mem_append.1 he
    · exact h.place e he
    · refine (k.place e he).imp (fun ⟨hk, ho, hf⟩ => ⟨hk, ho, h.widens.find?_none hf⟩) ?_
      exact h.widens.scopeFor_none
  apart := by
    refine List.pairwise_append.2 ⟨h.apart, k.apart, fun e he e' he' hkey hl => ?_⟩
    obtain ⟨id, _, _, hf, _⟩ := h.holds e he
    obtain ⟨i, hi⟩ := (h.holds e he).scopeFor
    obtain ⟨hk', ho', hf'⟩ | hn' := k.place e' he'
    · obtain ⟨_, ho, _⟩ | hn := h.place e he
      · -- both stand in the scope itself, where the second name was free when the first was taken
        have hsite : e.site = e'.site := by
          have := Entry.name_eq_of_label_eq (ho.trans ho'.symm) hl
          cases hs : e.site
          cases hs' : e'.site
          simp_all
        rw [← hsite, hf] at hf'
        cases hf'
      · rw [hkey, hk', hk] at hn
        cases hn
    · rw [← hkey, hi] at hn'
      cases hn'

theorem block (hk : t.scopeFor key' = none)
    (h : Enters key' t.size none entries (t.grow key' kind here) t') :
    Enters key here owner entries t t' where
  widens := (Table.grow_widens hk).inner h.widens (Nat.le_refl _)
  holds := h.holds
  place e he := by
    obtain ⟨rfl, _⟩ | hn := h.place e he
    · exact .inr hk
    · exact .inr ((Table.grow_widens hk).scopeFor_none hn)
  apart := h.apart

theorem frame {member : Option String} {e : Entry} (hkey : e.site = ⟨key, y.name⟩)
    (ho : e.owner = owner) (hl : y.qualifiedName = e.label) (hm : y.members = some t.size)
    (hk : t.scopeFor key = some here) (hk' : t.scopeFor e.scope = none)
    (hs : (t.grow e.scope kind here).scopes[here]? = some s) (hn : s.slot? y.name = none)
    (h : Enters e.scope t.size member entries ((t.grow e.scope kind here).push here y) t') :
    Enters key here owner (e :: entries) t t' := by
  have hh : here < t.size := by
    obtain ⟨_, hs, _⟩ := Table.scopeFor_eq_some.1 hk
    exact Table.lt_size hs
  have hg : t.Widens here (t.grow e.scope kind here) := Table.grow_widens hk'
  have hw : t.Widens here ((t.grow e.scope kind here).push here y) := hg.trans Table.push_widens
  refine ⟨hw.inner h.widens (Nat.le_refl _), ?_, ?_, ?_⟩
  · refine List.forall_mem_cons.2 ⟨⟨⟨here, s.symbols.length⟩, y, t.size, ?_, ?_, hl, hm, ?_⟩, h.holds⟩
    · rw [hkey]
      exact h.widens.find? (Table.push_find? hs (hg.scopeFor hk) hn)
    · exact h.widens.symbol (Table.push_symbol hs)
    · exact h.widens.scopeFor (Table.push_widens.scopeFor (Table.grow_scopeFor hk' hh))
  · refine List.forall_mem_cons.2 ⟨.inl ⟨by rw [hkey], ho, ?_⟩, fun e' he' => .inr ?_⟩
    · rw [hkey]
      exact hg.find?_none (Table.find?_eq_none hs (hg.scopeFor hk) hn)
    · obtain ⟨hkey', _⟩ | hn' := h.place e' he'
      · rw [hkey', hk']
      · exact hw.scopeFor_none hn'
  · refine List.pairwise_cons.2 ⟨fun e' he' hkeys => ?_, h.apart⟩
    -- the scope around is older than the scope of the members
    have hkeys : key = e'.site.key := (congrArg Site.key hkey).symm.trans hkeys
    obtain ⟨hkey', _⟩ | hn' := h.place e' he'
    · rw [hkeys, hkey', hk'] at hk
      cases hk
    · rw [← hkeys, hw.scopeFor hk] at hn'
      cases hn'

end Enters

end Tables

namespace Collect

variable {key : Position} {here : Nat} {owner : Option String} {items : List Item}
  {entries entries' : List Entry} {act : Collect α} {f : α → Collect β}

def Enters (key : Position) (here : Nat) (owner : Option String) (entries : List Entry)
    (act : Collect α) : Prop :=
  ∀ ⦃s⦄, (act s).2.conflicts = [] → s.table.scopeFor key = some here →
    ThreeAddress.Enters key here owner entries s.table (act s).2.table

theorem Declares.enters (h : Declares key here items act) : Enters key here owner [] act :=
  fun _ hc hk => .nil (h hc hk).widens

theorem Enters.bind (h : Enters key here owner entries act)
    (k : ∀ a, Enters key here owner entries' (f a)) (hq : ∀ a, Keeps Collection.Quiets (f a)) :
    Enters key here owner (entries ++ entries') (act >>= f) := by
  intro s hc hk
  have ha := h (@hq _ _ hc) hk
  exact ha.append (@k _ _ hc (ha.widens.scopeFor hk)) hk

theorem openScope_enters {span : Span} {kind : ScopeKind} {f : Nat → Collect α}
    (h : ∀ inner, Enters span.toPosition inner none entries (f inner))
    (hq : ∀ inner, Keeps Collection.Quiets (f inner)) :
    Enters key here owner entries (openScope span kind here >>= f) := by
  intro s hc hk
  obtain ⟨_, hs, _⟩ := Table.scopeFor_eq_some.1 hk
  obtain ⟨hn, he⟩ := openScope_bind_quiet hc hq
  rw [he] at hc ⊢
  exact .block hn (@h _ _ hc (Table.grow_scopeFor hn (Table.lt_size hs)))

theorem frame_enters {span : Span} {kind : ScopeKind} {d : Nat → Declaration} {params : Nat}
    {name : String} {member : Option String} {f : Nat → Collect α}
    (hd : ∀ inner, (d inner).name = name) (hm : ∀ inner, (d inner).members = some inner)
    (hl : ∀ inner, (Symbol.ofDeclaration (d inner)).qualifiedName =
      (Entry.mk ⟨key, name⟩ owner span.toPosition).label)
    (h : ∀ inner, Enters span.toPosition inner member entries (f inner))
    (hq : ∀ inner, Keeps Collection.Quiets (f inner)) :
    Enters key here owner (⟨⟨key, name⟩, owner, span.toPosition⟩ :: entries)
      (openScope span kind here >>= fun inner => declare here (d inner) params >>= fun _ => f inner) := by
  intro s hc hk
  obtain ⟨_, hs, _⟩ := Table.scopeFor_eq_some.1 hk
  obtain ⟨hn, r', s', hr', hslot, ht, he⟩ := frame_quiet hs hc hq
  rw [he] at hc ⊢
  have hin := @h _ _ hc (by
    rw [ht]
    exact Table.push_widens.scopeFor (Table.grow_scopeFor hn (Table.lt_size hs)))
  rw [ht] at hin
  exact .frame (y := { Symbol.ofDeclaration (d s.table.size) with params })
    (congrArg (Site.mk key) (hd _).symm) rfl (hl _) (hm _) hk hn hr' hslot hin

end Collect

open Collect

variable {key : Position} {here : Nat} {owner : Option String}

theorem collectAll_enters {body : List Stmt}
    (h : ∀ s ∈ body, ∀ key here, Collect.Enters key here none (s.entries key) (s.collect here)) :
    Collect.Enters key here none (entriesAll key body) (collectAll here body) := by
  induction body with
  | nil =>
    rw [entriesAll, collectAll]
    exact (Declares.pure _).enters
  | cons s rest ih =>
    rw [entriesAll, collectAll]
    exact (h s (by simp) key here).bind (fun _ => ih fun s hs => h s (by simp [hs]))
      fun _ => collectAll_keeps_all ..

theorem Block.collect_enters {b : Block}
    (h : ∀ s ∈ b.body, ∀ key here, Collect.Enters key here none (s.entries key) (s.collect here)) :
    Collect.Enters key here owner b.entries (b.collect here) := by
  rw [collect_eq, entries_eq]
  exact openScope_enters (fun _ => collectAll_enters h) fun _ => collectAll_keeps_all ..

theorem collectCases_enters {cases : List Case}
    (h : ∀ k ∈ cases, ∀ s ∈ k.body, ∀ key here,
      Collect.Enters key here none (s.entries key) (s.collect here)) :
    Collect.Enters key here none (entriesCases key cases) (collectCases here cases) := by
  induction cases with
  | nil =>
    rw [entriesCases, collectCases]
    exact (Declares.pure _).enters
  | cons k rest ih =>
    obtain ⟨value, body, span⟩ := k
    rw [entriesCases, collectCases]
    exact (collectAll_enters (h ⟨value, body, span⟩ (by simp))).bind
      (fun _ => ih fun k hk => h k (by simp [hk]))
      fun _ => collectCases_keeps_all ..

theorem Function.collect_enters {f : Function}
    (h : ∀ s ∈ f.body.body, ∀ key here,
      Collect.Enters key here none (s.entries key) (s.collect here)) :
    Collect.Enters key here owner (f.entries owner key) (f.collect here owner) := by
  rw [collect_eq, entries_eq]
  have hin (inner : Nat) : Collect.Enters f.body.span.toPosition inner none
      (entriesAll f.body.span.toPosition f.body.body)
      (f.params.forM (·.collect inner) >>= fun _ => collectAll inner f.body.body) :=
    (params_declares f.params).enters.bind (fun _ => collectAll_enters h) fun _ => collectAll_keeps_all ..
  refine frame_enters (fun _ => rfl) (fun _ => rfl) (fun _ => ?_) hin fun _ => ?_
  · cases owner <;> rfl
  · exact Keeps.bind (.forM fun p _ => declare_keeps ..) fun _ => collectAll_keeps_all ..

theorem collectMembers_enters {members : List Member} (owner : String)
    (h : ∀ f, .method f ∈ members → ∀ s ∈ f.body.body, ∀ key here,
      Collect.Enters key here none (s.entries key) (s.collect here)) :
    Collect.Enters key here (some owner) (entriesMembers owner key members)
      (collectMembers here owner members) := by
  induction members with
  | nil =>
    rw [entriesMembers, collectMembers]
    exact (Declares.pure _).enters
  | cons m rest ih =>
    have hrest := ih fun f hf => h f (by simp [hf])
    have hq : Keeps Collection.Quiets (collectMembers here owner rest) :=
      collectMembers_keeps_all ..
    cases m with
    | field b =>
      rw [entriesMembers, collectMembers, Member.collect]
      exact (b.collect_declares ..).enters.bind (fun _ => hrest) fun _ => hq
    | method f =>
      rw [entriesMembers, collectMembers, Member.collect]
      exact (Function.collect_enters (h f (by simp))).bind (fun _ => hrest) fun _ => hq

theorem Class.collect_enters {c : Class}
    (h : ∀ f, .method f ∈ c.members → ∀ s ∈ f.body.body, ∀ key here,
      Collect.Enters key here none (s.entries key) (s.collect here)) :
    Collect.Enters key here none (c.entries key) (c.collect here) := by
  rw [collect_eq, entries_eq]
  exact frame_enters (fun _ => rfl) (fun _ => rfl) (fun _ => rfl)
    (fun _ => collectMembers_enters _ h)
    fun _ => collectMembers_keeps_all ..

theorem Stmt.collect_enters (s : Stmt) (key : Position) (here : Nat) :
    Collect.Enters key here none (s.entries key) (s.collect here) := by
  induction s generalizing key here with
  | declare b =>
    rw [Stmt.entries, Stmt.collect]
    exact (b.collect_declares ..).enters
  | assign | print | eval | ret | exit | next =>
    simp only [Stmt.entries, Stmt.collect]
    exact (Declares.pure _).enters
  | block b ih =>
    rw [Stmt.entries, Stmt.collect]
    exact Block.collect_enters ih
  | ite c yes no span ihy ihn =>
    cases no with
    | none =>
      rw [Stmt.entries, Stmt.collect]
      exact (Block.collect_enters ihy).bind (fun _ => (Declares.pure _).enters) fun _ => .pure _
    | some no =>
      rw [Stmt.entries, Stmt.collect]
      exact (Block.collect_enters ihy).bind (fun _ => Block.collect_enters (ihn no rfl))
        fun _ => Block.collect_keeps (fun s _ => s.collect_keeps) _
  | loop c body span ih =>
    rw [Stmt.entries, Stmt.collect]
    exact Block.collect_enters ih
  | doWhile body c span ih =>
    rw [Stmt.entries, Stmt.collect]
    exact Block.collect_enters ih
  | forLoop first test step body span ihf ihs ih =>
    cases first with
    | none =>
      simp only [Stmt.entries, Stmt.collect, Block.collectBody_eq, Block.entries_eq]
      exact openScope_enters (fun _ => collectAll_enters ih) fun _ => collectAll_keeps_all ..
    | some s =>
      simp only [Stmt.entries, Stmt.collect, Block.collectBody_eq, Block.entries_eq]
      exact openScope_enters
        (fun inner => (ihf s rfl _ inner).bind (fun _ => collectAll_enters ih)
          fun _ => collectAll_keeps_all ..)
        fun _ => (s.collect_keeps _).bind fun _ => collectAll_keeps_all ..
  | foreach item collection body span ih =>
    simp only [Stmt.entries, Stmt.collect, Block.collectBody_eq, Block.entries_eq]
    have hb (d : Declaration) (inner : Nat) :
        Collect.Enters body.span.toPosition inner none (entriesAll body.span.toPosition body.body)
          (Collect.declare inner d >>= fun _ => collectAll inner body.body) :=
      (declare_declares d 0).enters.bind (fun _ => collectAll_enters ih) fun _ => collectAll_keeps_all ..
    refine openScope_enters (fun inner => Declares.get.enters.bind (fun _ => hb _ inner) fun _ => ?_)
      fun inner => Keeps.get.bind fun _ => ?_
    · exact (declare_keeps ..).bind fun _ => collectAll_keeps_all ..
    · exact (declare_keeps ..).bind fun _ => collectAll_keeps_all ..
  | switch subject cases default span ihc ihd =>
    cases default with
    | none =>
      rw [Stmt.entries, Stmt.collect]
      exact (collectCases_enters ihc).bind (fun _ => (Declares.pure _).enters) fun _ => .pure _
    | some body =>
      rw [Stmt.entries, Stmt.collect]
      exact (collectCases_enters ihc).bind (fun _ => collectAll_enters (ihd body rfl))
        fun _ => collectAll_keeps_all ..
  | tryCatch body caught handler span ihb ihh =>
    simp only [Stmt.entries, Stmt.collect, Block.collectBody_eq, Block.entries_eq handler]
    have hq (d : Nat → Declaration) (inner : Nat) : Keeps Collection.Quiets
        (Collect.declare inner (d inner) >>= fun _ => collectAll inner handler.body) :=
      (declare_keeps ..).bind fun _ => collectAll_keeps_all ..
    refine (Block.collect_enters ihb).bind (fun _ => openScope_enters (fun inner => ?_) (hq _))
      fun _ => (openScope_keeps ..).bind (hq _)
    exact (declare_declares _ 0).enters.bind (fun _ => collectAll_enters ihh)
      fun _ => collectAll_keeps_all ..
  | function f ih =>
    rw [Stmt.entries, Stmt.collect]
    exact Function.collect_enters ih
  | classDef c ih =>
    rw [Stmt.entries, Stmt.collect]
    exact Class.collect_enters ih

theorem Program.collect_enters {p : Program} (h : p.collect.conflicts = []) :
    Enters .origin Table.global none p.entries .empty p.collect.table :=
  @collectAll_enters .origin Table.global p.statements (fun s _ => s.collect_enters) {} h rfl

end ThreeAddress
