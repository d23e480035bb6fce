import ThreeAddress.Proofs.Frames.Program
import ThreeAddress.Proofs.Lockstep.Erasure
import ThreeAddress.Proofs.Lockstep.Statements
import ThreeAddress.Proofs.Lowering.Writes

namespace ThreeAddress

open Lowering Lower Collect

def Collection.Retains (s s' : Collection) : Prop :=
  ∀ ⦃i : Nat⦄ ⦃r : Scope⦄, s.table.scopes[i]? = some r →
    ∃ r' : Scope, s'.table.scopes[i]? = some r' ∧ r'.key = r.key ∧ r'.parent = r.parent

instance : Collecting Collection.Retains where
  refl _ _ r h := ⟨r, h, rfl, rfl⟩
  trans _ _ _ h k _ _ hr := by
    obtain ⟨r', hr', hk, hp⟩ := h hr
    obtain ⟨r'', hr'', hk', hp'⟩ := k hr'
    exact ⟨r'', hr'', hk'.trans hk, hp'.trans hp⟩
  addScope s key kind parent hk i r hr := by
    refine ⟨_, by rw [Table.scopes_addScope hk, List.getElem?_append_left (Table.lt_size hr), hr]; rfl, ?_⟩
    dsimp only
    split <;> exact ⟨rfl, rfl⟩
  declare s scope d params i r hr := by
    rw [Table.declare]
    split
    · exact ⟨r, hr, rfl, rfl⟩
    · refine ⟨_, by rw [Table.modifyScope, List.getElem?_modify, hr]; rfl, ?_⟩
      dsimp only
      split <;> exact ⟨rfl, rfl⟩
  report _ _ _ r h := ⟨r, h, rfl, rfl⟩

theorem Table.exists_scopeFor {t : Table} {key : Position} :
    (∃ i, t.scopeFor key = some i) ↔ ∃ (i : Nat) (r : Scope), t.scopes[i]? = some r ∧ r.key = key := by
  constructor
  · rintro ⟨i, hi⟩
    obtain ⟨r, hr, hk, _⟩ := scopeFor_eq_some.1 hi
    exact ⟨i, r, hr, hk⟩
  · rintro ⟨i, r, hr, rfl⟩
    rw [← Option.isSome_iff_exists, scopeFor, List.findIdx?_isSome, List.any_eq_true]
    exact ⟨r, List.mem_of_getElem? hr, by simp⟩

theorem Collection.Retains.scopeFor {s s' : Collection} {key : Position} (h : s.Retains s')
    (hk : ∃ i, s.table.scopeFor key = some i) : ∃ i, s'.table.scopeFor key = some i := by
  obtain ⟨i, r, hr, rfl⟩ := Table.exists_scopeFor.1 hk
  obtain ⟨r', hr', hk, _⟩ := h hr
  exact Table.exists_scopeFor.2 ⟨i, r', hr', hk⟩

section Opens

namespace Collect

variable {keys keys' : List Position} {act : Collect α} {f : α → Collect β}

/-- After the action, every one of the keys names a scope. -/
def Opens (keys : List Position) (act : Collect α) : Prop :=
  ∀ ⦃s⦄, ∀ key ∈ keys, ∃ i, (act s).2.table.scopeFor key = some i

theorem Opens.nil (act : Collect α) : Opens [] act := nofun

theorem Opens.mono (h : Opens keys act) (hk : ∀ key ∈ keys', key ∈ keys) : Opens keys' act :=
  fun _ key hkey => h key (hk key hkey)

theorem Opens.bind (h : Opens keys act) (k : ∀ a, Opens keys' (f a))
    (hr : ∀ a, Keeps Collection.Retains (f a)) : Opens (keys ++ keys') (act >>= f) := by
  intro s key hkey
  obtain hkey | hkey := List.mem_append.1 hkey
  · exact (@hr (act s).1 (act s).2).scopeFor (@h s key hkey)
  · exact @k (act s).1 (act s).2 key hkey

theorem Opens.last (k : ∀ a, Opens keys (f a)) : Opens keys (act >>= f) :=
  fun s => @k (act s).1 (act s).2

theorem openScope_opens {span : Span} {kind : ScopeKind} {parent : Nat} {f : Nat → Collect α}
    (k : ∀ inner, Opens keys (f inner)) (hr : ∀ inner, Keeps Collection.Retains (f inner)) :
    Opens (span.toPosition :: keys) (openScope span kind parent >>= f) := by
  suffices ho : Opens [span.toPosition] (openScope span kind parent) from ho.bind k hr
  intro s key hkey
  obtain rfl := List.mem_singleton.1 hkey
  rw [openScope_eq]
  cases hn : s.table.scopeFor span.toPosition with
  | some taken => exact ⟨taken, hn⟩
  | none =>
    have hnew : (s.table.addScope span.toPosition kind parent).2.scopes[s.table.scopes.length]? = _ :=
      Table.scopes_addScope hn _
    rw [List.getElem?_concat_length, Option.map_some] at hnew
    exact Table.exists_scopeFor.2 ⟨_, _, hnew, by split <;> rfl⟩

end Collect

variable {body : List Stmt}

theorem collectAll_opens (h : ∀ s ∈ body, ∀ scope, Opens s.keys (s.collect scope)) (scope : Nat) :
    Opens (keysAll body) (collectAll scope body) := by
  induction body with
  | nil =>
    rw [keysAll]
    exact .nil _
  | cons s rest ih =>
    rw [keysAll, collectAll]
    exact (h s (by simp) scope).bind (fun _ => ih fun s hs => h s (by simp [hs]))
      fun _ => collectAll_keeps_all ..

theorem Block.keys_eq (b : Block) : b.keys = b.span.toPosition :: keysAll b.body := by
  cases b
  rw [keys]

theorem Block.collect_opens {b : Block} (h : ∀ s ∈ b.body, ∀ scope, Opens s.keys (s.collect scope))
    (scope : Nat) : Opens b.keys (b.collect scope) := by
  rw [keys_eq, collect_eq]
  exact openScope_opens (fun inner => collectAll_opens h inner) fun _ => collectAll_keeps_all ..

theorem collectCases_opens {cases : List Case}
    (h : ∀ k ∈ cases, ∀ s ∈ k.body, ∀ scope, Opens s.keys (s.collect scope)) (scope : Nat) :
    Opens (keysCases cases) (collectCases scope cases) := by
  induction cases with
  | nil =>
    rw [keysCases]
    exact .nil _
  | cons k rest ih =>
    obtain ⟨value, body, span⟩ := k
    rw [keysCases, collectCases, Case.keys]
    exact (collectAll_opens (h ⟨value, body, span⟩ (by simp)) scope).bind
      (fun _ => ih fun k hk => h k (by simp [hk]))
      fun _ => collectCases_keeps_all ..

theorem Function.collect_opens {f : Function}
    (h : ∀ s ∈ f.body.body, ∀ scope, Opens s.keys (s.collect scope)) (scope : Nat)
    (owner : Option String) : Opens f.keys (f.collect scope owner) := by
  obtain ⟨name, params, result, body, span⟩ := f
  rw [Function.keys, Block.keys_eq, collect_eq]
  refine openScope_opens (fun inner => .last fun _ => .last fun _ => collectAll_opens h inner) fun _ => ?_
  exact (declare_keeps ..).bind fun _ => Keeps.bind (.forM fun p _ => declare_keeps ..) fun _ =>
    collectAll_keeps_all ..

theorem collectMembers_opens {members : List Member}
    (h : ∀ f, .method f ∈ members → ∀ s ∈ f.body.body, ∀ scope, Opens s.keys (s.collect scope))
    (scope : Nat) (owner : String) : Opens (keysMembers members) (collectMembers scope owner members) := by
  induction members with
  | nil =>
    rw [keysMembers]
    exact .nil _
  | cons m rest ih =>
    rw [keysMembers, collectMembers]
    refine Opens.bind ?_ (fun _ => ih fun f hf => h f (by simp [hf]))
      fun _ => collectMembers_keeps_all ..
    cases m with
    | field b =>
      rw [Member.keys]
      exact .nil _
    | method f =>
      rw [Member.keys, Member.collect]
      exact Function.collect_opens (h f (by simp)) ..

theorem Stmt.Steady.keys_step {first step : Option Stmt} {test : Option Expr} {body : Block} {span : Span}
    (h : (Stmt.for first test step body span).Steady) : keysOption step = [] := by
  cases step with
  | none => rfl
  | some step =>
    cases h with
    | mk h _ =>
      obtain ⟨target, value, at_, rfl⟩ | ⟨e, at_, rfl⟩ := h _ _ _ _ _ rfl
      · rfl
      · rfl

theorem Stmt.collect_opens {s : Stmt} (hs : s.Steady) (scope : Nat) : Opens s.keys (s.collect scope) := by
  induction s generalizing scope with
  | declare | assign | print | eval | ret | exit | next =>
    rw [Stmt.keys]
    exact .nil _
  | block b ih =>
    rw [Stmt.keys, Stmt.collect]
    exact Block.collect_opens (fun s hm => ih s hm (hs.part s hm)) scope
  | ite c yes no span ihy ihn =>
    have hy := Block.collect_opens fun s hm => ihy s hm (hs.part s (List.mem_append_left _ hm))
    cases no with
    | none =>
      rw [Stmt.keys, Stmt.collect, keysElse]
      exact (hy scope).bind (fun _ => .nil _) fun _ => .pure _
    | some no =>
      rw [Stmt.keys, Stmt.collect, keysElse]
      exact (hy scope).bind (fun _ => Block.collect_opens (fun s hm =>
        ihn no rfl s hm (hs.part s (List.mem_append_right _ hm))) scope)
        fun _ => Block.collect_keeps (fun s _ => s.collect_keeps) _
  | loop c body span ih =>
    rw [Stmt.keys, Stmt.collect]
    exact Block.collect_opens (fun s hm => ih s hm (hs.part s hm)) scope
  | doWhile body c span ih =>
    rw [Stmt.keys, Stmt.collect]
    exact Block.collect_opens (fun s hm => ih s hm (hs.part s hm)) scope
  | forLoop first test step body span ihf ihs ih =>
    have hbody := collectAll_opens fun s hm => ih s hm (hs.part s (List.mem_append_right _ hm))
    rw [Stmt.keys, hs.keys_step, Block.keys_eq]
    cases first with
    | none =>
      simp only [Stmt.collect, Block.collectBody_eq, keysOption, List.nil_append]
      exact openScope_opens hbody fun _ => collectAll_keeps_all ..
    | some s =>
      simp only [Stmt.collect, Block.collectBody_eq, keysOption]
      -- The scope of the body is opened before the first step is collected.
      have hfirst := ihf s rfl (hs.part s (by simp [Stmt.parts]))
      refine Opens.mono (openScope_opens (fun inner => (hfirst inner).bind (fun _ => hbody inner)
        fun _ => collectAll_keeps_all ..) fun inner => ?_) fun key hkey => ?_
      · exact (s.collect_keeps inner).bind fun _ => collectAll_keeps_all ..
      · simp only [List.append_nil, List.mem_append, List.mem_cons] at hkey ⊢
        tauto
  | foreach item collection body span ih =>
    simp only [Stmt.keys, Stmt.collect, Block.collectBody_eq, Block.keys_eq]
    refine openScope_opens (fun inner => .last fun _ => .last fun _ =>
      collectAll_opens (fun s hm => ih s hm (hs.part s hm)) inner) fun _ => ?_
    exact Keeps.get.bind fun _ => (declare_keeps ..).bind fun _ => collectAll_keeps_all ..
  | switch subject cases default span ihc ihd =>
    have hc := collectCases_opens (fun k hk s hm => ihc k hk s hm
      (hs.part s (List.mem_append_left _ (List.mem_flatMap.2 ⟨k, hk, hm⟩)))) scope
    cases default with
    | none =>
      rw [Stmt.keys, Stmt.collect, keysDefault]
      exact hc.bind (fun _ => .nil _) fun _ => .pure _
    | some body =>
      rw [Stmt.keys, Stmt.collect, keysDefault]
      exact hc.bind (fun _ => collectAll_opens (fun s hm =>
        ihd body rfl s hm (hs.part s (List.mem_append_right _ hm))) scope) fun _ => collectAll_keeps_all ..
  | tryCatch body caught handler span ihb ihh =>
    simp only [Stmt.keys, Stmt.collect, Block.collectBody_eq, Block.keys_eq handler]
    refine (Block.collect_opens (fun s hm => ihb s hm (hs.part s (List.mem_append_left _ hm))) scope).bind
      (fun _ => openScope_opens (fun inner => .last fun _ => collectAll_opens
        (fun s hm => ihh s hm (hs.part s (List.mem_append_right _ hm))) inner) fun _ => ?_) fun _ => ?_
    · exact (declare_keeps ..).bind fun _ => collectAll_keeps_all ..
    · exact (openScope_keeps ..).bind fun _ => (declare_keeps ..).bind fun _ => collectAll_keeps_all ..
  | function f ih =>
    rw [Stmt.keys, Stmt.collect]
    exact Function.collect_opens (fun s hm => ih s hm (hs.part s hm)) ..
  | classDef c ih =>
    obtain ⟨name, parent, members, span⟩ := c
    rw [Stmt.keys, Class.keys, Stmt.collect, Class.collect_eq]
    refine openScope_opens (fun inner => .last fun _ => collectMembers_opens (fun f hf s hm =>
      ih f hf s hm (hs.part s (List.mem_flatMap.2 ⟨_, hf, hm⟩))) inner name) fun _ => ?_
    exact (declare_keeps ..).bind fun _ => collectMembers_keeps_all ..

end Opens

section Lookups

theorem Scope.Widens.slot?_of_slot {r r' : Scope} {name : String} {slot : Nat} {x : Symbol}
    (h : r.Widens r') (hs : r'.slot? name = some slot) (hx : r.symbols[slot]? = some x) :
    r.slot? name = some slot := by
  obtain ⟨rest, hrest⟩ := h.symbols
  rw [Scope.slot?, ← hrest, List.findIdx?_append] at hs
  cases hn : r.symbols.findIdx? (·.name == name) with
  | some i =>
    rw [hn, Option.some_or] at hs
    exact hn.trans hs
  | none =>
    rw [hn, Option.none_or, Option.map_eq_some_iff] at hs
    obtain ⟨i, _, rfl⟩ := hs
    have := (List.getElem?_eq_some_iff.1 hx).1
    omega

theorem Table.Widens.find?_of_symbol {t t' : Table} {here : Nat} {s : Site} {id : SymbolId} {x : Symbol}
    (h : t.Widens here t') (hf : t'.find? s = some id) (hx : t.symbol id = .ok x) :
    t.find? s = some id := by
  obtain ⟨r', hk, hr', hs⟩ := find?_eq_some.1 hf
  obtain ⟨r, hr, hx⟩ := symbol_eq_ok.1 hx
  obtain ⟨r₁, hr₁, hw⟩ := h.scopes hr
  cases hr'.symm.trans hr₁
  obtain ⟨_, hr₂, hkey, hfirst⟩ := scopeFor_eq_some.1 hk
  cases hr'.symm.trans hr₂
  refine find?_eq_some.2 ⟨r, scopeFor_eq_some.2 ⟨r, hr, hw.key.symm.trans hkey, fun j hj q hq => ?_⟩, hr,
    hw.slot?_of_slot hs hx⟩
  obtain ⟨q', hq', hwq⟩ := h.scopes hq
  rw [← hwq.key]
  exact hfirst j hj q' hq'

/-- `t'` is `t` with more symbols in the global scope, and with more scopes. -/
structure Table.GoesOn (t t' : Table) : Prop where
  widens : t.Widens Table.global t'
  parent : ∀ {i : Nat} {r r' : Scope}, t.scopes[i]? = some r → t'.scopes[i]? = some r' →
    r'.parent = r.parent
  root : ∀ {r : Scope}, t.scopes[Table.global]? = some r → r.parent = none

namespace Table.GoesOn

variable {t t' : Table} {scope fuel fuel' : Nat} {name : String} {found found' : Option SymbolId}

theorem climb_succ (h : t.climb name (fuel + 1) scope = .ok found) :
    ∃ r : Scope, t.scopes[scope]? = some r ∧
      (∀ slot, r.slot? name = some slot → found = some ⟨scope, slot⟩) ∧
      (r.slot? name = none → r.parent = none → found = none) ∧
      (r.slot? name = none → ∀ parent, r.parent = some parent →
        t.climb name fuel parent = .ok found) := by
  rw [Table.climb] at h
  cases hr : t.scope scope with
  | error e =>
    rw [hr] at h
    cases h
  | ok r =>
    refine ⟨r, nth_eq_ok.1 hr, ?_⟩
    rw [hr] at h
    simp only [bind, Except.bind] at h
    split at h
    · cases h
      simp_all
    · simp_all
    · cases h
      simp_all

/-- A name that means something keeps its meaning. One that means nothing may come to mean something that
is declared later. -/
theorem climb (h : t.GoesOn t') (hf : fuel ≤ fuel') (hl : t.climb name fuel scope = .ok found)
    (hl' : t'.climb name fuel' scope = .ok found') :
    found = found' ∨ (found = none ∧ ∀ id ∈ found', ∀ x, t.symbol id ≠ .ok x) := by
  -- both ways up visit the same scopes, since parents do not change
  induction fuel generalizing fuel' scope with
  | zero => cases hl
  | succ fuel ih =>
    obtain ⟨fuel', rfl⟩ : ∃ n, fuel' = n + 1 := ⟨fuel' - 1, by omega⟩
    obtain ⟨r, hr, hhere, htop, hup⟩ := climb_succ hl
    obtain ⟨r', hr', hhere', htop', hup'⟩ := climb_succ hl'
    obtain ⟨r₁, hr₁, hw⟩ := h.widens.scopes hr
    cases hr'.symm.trans hr₁
    have hp := h.parent hr hr'
    cases hs : r.slot? name with
    | some slot =>
      rw [hhere slot hs, hhere' slot (hw.slot? hs)]
      exact .inl rfl
    | none =>
      cases hs' : r'.slot? name with
      | some slot =>
        -- Only the global scope has more symbols than before, and it is the last one on the way up.
        by_cases hg : scope = Table.global
        · subst hg
          rw [htop hs (h.root hr), hhere' slot hs']
          refine .inr ⟨rfl, fun id hid x hx => ?_⟩
          cases hid
          obtain ⟨_, hr₂, hx⟩ := symbol_eq_ok.1 hx
          cases hr.symm.trans hr₂
          rw [hw.slot?_of_slot hs' hx] at hs
          cases hs
        · rw [h.widens.others (Table.lt_size hr) hg, hr] at hr'
          cases hr'
          rw [hs] at hs'
          cases hs'
      | none =>
        cases hq : r.parent with
        | none =>
          rw [htop hs hq, htop' hs' (hp.trans hq)]
          exact .inl rfl
        | some parent => exact ih (by omega) (hup hs parent hq) (hup' hs' parent (hp.trans hq))

theorem lookup (h : t.GoesOn t') (hl : t.lookup scope name = .ok found)
    (hl' : t'.lookup scope name = .ok found') :
    found = found' ∨ (found = none ∧ ∀ id ∈ found', ∀ x, t.symbol id ≠ .ok x) :=
  h.climb h.widens.size hl hl'

theorem lookupLocal_eq_ok : t.lookupLocal scope name = .ok found ↔
    ∃ r : Scope, t.scopes[scope]? = some r ∧ found = (r.slot? name).map (⟨scope, ·⟩) := by
  rw [Table.lookupLocal, Table.scope]
  cases hr : t.scopes[scope]? with
  | none => simp [nth, hr, bind, Except.bind]
  | some r =>
    have hn : nth t.scopes scope = .ok r := nth_eq_ok.2 hr
    simp [hn, bind, Except.bind, pure, Except.pure, eq_comm]

theorem lookupLocal (h : t.GoesOn t') (hl : t.lookupLocal scope name = .ok found)
    (hl' : t'.lookupLocal scope name = .ok found') : found = found' ∨ found = none := by
  obtain ⟨r, hr, rfl⟩ := lookupLocal_eq_ok.1 hl
  obtain ⟨r', hr', rfl⟩ := lookupLocal_eq_ok.1 hl'
  obtain ⟨r₁, hr₁, hw⟩ := h.widens.scopes hr
  cases hr'.symm.trans hr₁
  cases hs : r.slot? name with
  | some slot =>
    rw [hw.slot? hs]
    exact .inl rfl
  | none => exact .inr rfl

end Table.GoesOn

/-- Runs that go by a table and by one that goes on, as long as the first of them reports nothing. -/
def Comparison.onward {t t' : Table} (h : t.GoesOn t') : Comparison where
  labels := True
  bytes := True
  lines := False
  quiet := True
  left := t
  right := t'
  lookup hl hl' := (h.lookup hl hl').imp_right fun hn => ⟨trivial, hn⟩
  lookupLocal hl hl' := (h.lookupLocal hl hl').imp_right fun hn => ⟨trivial, hn⟩

theorem Lowering.State.Like.onward {t t' : Table} (h : t.GoesOn t') (hf : t'.Fresh) (options : Options) :
    State.Like (.onward h) (.start t options) (.start t' options) where
  ledger := ⟨rfl, .refl _, ⟨.nil, .nil⟩, .refl _, .refl _, .nil⟩
  left := rfl
  right := rfl
  symbol hx hx' := by
    cases Except.ok.inj ((h.widens.symbol hx).symm.trans hx')
    exact .refl _
  beyond hx' _ := by
    obtain ⟨d, params, rfl⟩ := hf hx'
    exact ⟨rfl, rfl⟩
  problems := .nil

end Lookups

section Storage

def Symbol.room (x : Symbol) : Option Nat × Nat × List Nat × Option String :=
  (x.offset, x.size, x.dimensions, x.address)

theorem Symbol.Like.room_eq {κ : Comparison} {x x' : Symbol} (h : x.Like κ x') (hb : κ.bytes) :
    x.room = x'.room :=
  congrArg (fun z : Storage => (z.offset, z.size, z.dimensions, z.address)) (h.storage hb)

/-- A symbol has the room that it had before, or it has been given a place. -/
def Table.Furnishes (t t' : Table) : Prop :=
  ∀ ⦃id x'⦄, t'.symbol id = .ok x' → ∃ x, t.symbol id = .ok x ∧
    (x'.room = x.room ∨ x.offset = none ∧ x'.offset.isSome)

namespace Table.Furnishes

variable {t : Table} {id : SymbolId} {f : Symbol → Symbol}

theorem modifySymbol (h : ∀ x, t.symbol id = .ok x →
    (f x).room = x.room ∨ x.offset = none ∧ (f x).offset.isSome) :
    t.Furnishes (t.modifySymbol id f) := by
  intro id' y hy
  obtain ⟨_, hy⟩ | ⟨rfl, x, hx, rfl⟩ := symbol_of_modifySymbol hy
  · exact ⟨y, hy, .inl rfl⟩
  · exact ⟨x, hx, h x hx⟩

end Table.Furnishes

instance : Writing Table.Furnishes where
  refl _ _ x h := ⟨x, h, .inl rfl⟩
  trans t t' t'' h k id z hz := by
    obtain ⟨y, hy, hyz⟩ := k hz
    obtain ⟨x, hx, hxy⟩ := h hy
    refine ⟨x, hx, ?_⟩
    obtain hyz | ⟨hn, hb⟩ := hyz
    · obtain hxy | ⟨hn, hb⟩ := hxy
      · exact .inl (hyz.trans hxy)
      · exact .inr ⟨hn, by rwa [show z.offset = y.offset from congrArg Prod.fst hyz]⟩
    · obtain hxy | ⟨_, hb'⟩ := hxy
      · exact .inr ⟨by rwa [← show y.offset = x.offset from congrArg Prod.fst hxy], hb⟩
      · rw [hn] at hb'
        cases hb'
  storage t id x offset size hx ho := by
    refine .modifySymbol fun y hy => .inr ⟨?_, rfl⟩
    cases hx.symm.trans hy
    exact ho
  array t id x dimensions offset size hx ho := by
    intro id' z hz
    obtain ⟨hne, hz⟩ | ⟨rfl, y, hy, rfl⟩ := Table.symbol_of_modifySymbol hz
    · exact ⟨z, (Table.symbol_modifySymbol_ne hne).1 hz, .inl rfl⟩
    · exact ⟨x, hx, .inr ⟨ho, rfl⟩⟩
  frame _ _ _ := .modifySymbol fun _ _ => .inl rfl
  function _ _ _ _ := .modifySymbol fun _ _ => .inl rfl

end Storage

section Lists

variable {xs ys : List Stmt}

theorem collectAll_append (scope : Nat) (xs ys : List Stmt) :
    collectAll scope (xs ++ ys) = collectAll scope xs >>= fun _ => collectAll scope ys := by
  induction xs with
  | nil =>
    rw [List.nil_append, collectAll]
    rfl
  | cons x xs ih =>
    rw [List.cons_append, collectAll, collectAll, ih, bind_assoc]

theorem itemsAll_append (key : Position) (xs ys : List Stmt) :
    itemsAll key (xs ++ ys) = itemsAll key xs ++ itemsAll key ys := by
  induction xs with
  | nil => rfl
  | cons x xs ih => rw [List.cons_append, itemsAll, itemsAll, ih, List.append_assoc]

theorem runs_lowerAll_append {c : Context} {s s' : State} {code : Code} :
    Runs (lowerAll (xs ++ ys)) c s code s' ↔ ∃ front s₁ back, Runs (lowerAll xs) c s front s₁ ∧
      Runs (lowerAll ys) c s₁ back s' ∧ code = front ++ back := by
  induction xs generalizing s s' code with
  | nil => simp [lowerAll, runs_pure]
  | cons x xs ih =>
    simp only [List.cons_append, lowerAll, runs_bind, runs_pure, ih]
    constructor
    · rintro ⟨a, s₁, ha, _, s₂, ⟨front, s₃, back, hf, hb, rfl⟩, rfl, rfl⟩
      exact ⟨a ++ front, s₃, back, ⟨a, s₁, ha, front, s₃, hf, rfl, rfl⟩, hb, by simp⟩
    · rintro ⟨_, s₃, back, ⟨a, s₁, ha, front, _, hf, rfl, rfl⟩, hb, rfl⟩
      exact ⟨a, s₁, ha, front ++ back, s', ⟨front, s₃, back, hf, hb, rfl⟩, by simp, rfl⟩

end Lists

namespace Program

variable {p p' : Program} {rest : List Stmt} {options : Options} {out out' : Compiled}

theorem collect_append (h : p'.statements = p.statements ++ rest) :
    p'.collect = (collectAll Table.global rest p.collect).2 := by
  rw [collect, h, collectAll_append]
  rfl

section Conflicts

variable (h : p'.statements = p.statements ++ rest) (hc : p'.collect.conflicts = [])

include h hc

theorem front_conflicts : p.collect.conflicts = [] := by
  rw [collect_append h] at hc
  exact collectAll_keeps_all (R := Collection.Quiets) Table.global rest hc

theorem collect_onward :
    Collects Table.global (itemsAll .origin rest) p.collect.table p'.collect.table := by
  have hk : p.collect.table.scopeFor .origin = some Table.global :=
    (collect_declares (front_conflicts h hc)).widens.scopeFor rfl
  rw [collect_append h] at hc ⊢
  exact collectAll_declares (fun s _ => s.collect_declares) hc hk

theorem collect_goesOn : p.collect.table.GoesOn p'.collect.table where
  widens := (collect_onward h hc).widens
  parent hr hr' := by
    rw [collect_append h] at hr'
    obtain ⟨r₁, hr₁, _, hp⟩ := collectAll_keeps_all (R := Collection.Retains) Table.global rest hr
    cases hr'.symm.trans hr₁
    exact hp
  root hr := by
    obtain ⟨r₁, hr₁, _, hp⟩ := p.collect_keeps (R := Collection.Retains) (i := Table.global) rfl
    cases hr.symm.trans hr₁
    exact hp

/-- Nothing that follows means a symbol of the code in front. -/
theorem rest_apart {s : Site} {id : SymbolId} {x : Symbol} (hs : s ∈ slotsAll (itemsAll .origin rest))
    (hx : p.collect.table.symbol id = .ok x) : p'.collect.table.find? s ≠ some id := by
  intro hf
  have hn := (collect_onward h hc).fresh s (mem_sitesAll_of_slots hs)
  rw [(collect_onward h hc).widens.find?_of_symbol hf hx] at hn
  cases hn

theorem rest_room {s s' : State} {code : Code} {id : SymbolId} {x x' y : Symbol}
    (hs : ∀ s ∈ rest, s.Steady) (hr : Runs (lowerAll rest) { options } s code s')
    (ho : s.table.outline = p'.collect.table.outline) (hp : s'.problems = [])
    (hy : p.collect.table.symbol id = .ok y) (hx : s.table.symbol id = .ok x)
    (hx' : s'.table.symbol id = .ok x') : x'.room = x.room := by
  have ha := arranged_collect hc
  rw [items, h, itemsAll_append] at ha
  have hlays : LaysOut p'.collect.table .origin (itemsAll .origin rest) (lowerAll rest) :=
    lowerAll_laysOut ha.right fun s hm => s.lower_laysOut (hs s hm) _
  have hbytes := ((hlays hr ⟨ho, (stands_start hc options).scope⟩).lays hp).bytes id
    fun site hsite => rest_apart h hc hsite hy
  rw [Table.fact_eq_some.2 ⟨x', hx', rfl⟩, eq_comm, Table.fact_eq_some] at hbytes
  obtain ⟨_, hx₁, hbytes⟩ := hbytes
  cases hx.symm.trans hx₁
  have hwrites : State.Writes Table.Furnishes s s' := lowerAll_keeps (fun s _ => s.lower_writes) hr
  obtain ⟨_, hx₁, hroom⟩ := hwrites hx'
  cases hx.symm.trans hx₁
  obtain hroom | ⟨hnone, hsome⟩ := hroom
  · exact hroom
  · rw [← show x.offset = x'.offset from congrArg Prod.fst hbytes, hnone] at hsome
    cases hsome

end Conflicts

theorem front_sameScope (hs : ∀ s ∈ p.statements, s.Steady)
    (h : p.collect.table.GoesOn p'.collect.table) {key : Position} (hk : key ∈ p.keys) :
    (Comparison.onward h).SameScope key key := by
  obtain ⟨i, hi⟩ := collectAll_opens (fun s hm => s.collect_opens (hs s hm)) Table.global key hk
  exact Eq.trans (b := some i) hi (h.widens.scopeFor hi).symm

/-- What a program is lowered to does not depend on what follows. If both compile, the code of the
program is the front of the longer code, and every symbol stands where it stood, as it was declared and
with the room that it had. -/
theorem compile_append (h : p'.statements = p.statements ++ rest)
    (hs : ∀ s ∈ p'.statements, s.Steady) (ho : p.compile options = .ok out)
    (ho' : p'.compile options = .ok out') :
    out.code <+: out'.code ∧ ∀ id x, out.table.symbol id = .ok x → ∃ x',
      out'.table.symbol id = .ok x' ∧ x'.toDeclaration = x.toDeclaration ∧ x'.offset = x.offset ∧
        x'.size = x.size ∧ x'.dimensions = x.dimensions ∧ x'.address = x.address := by
  obtain ⟨_, hl⟩ := compile_eq_ok.1 ho
  obtain ⟨hc, hl'⟩ := compile_eq_ok.1 ho'
  obtain ⟨s, hr, _, _, ht, hp⟩ := runs_program.1 hl
  obtain ⟨s', hr', _, _, ht', hp'⟩ := runs_program.1 hl'
  dsimp only at hr hr' ht ht' hp hp'
  rw [h] at hr' hs
  obtain ⟨front, s₁, back, hf, hb, hcode⟩ := runs_lowerAll_append.1 hr'
  have hgo := collect_goesOn h hc
  have hkeys : List.Forall₂ (Comparison.onward hgo).SameScope p.keys p.keys :=
    List.forall₂_same.2 fun key hk => front_sameScope (fun s hm => hs s (List.mem_append_left _ hm)) hgo hk
  -- The code in front is lowered in lockstep. What follows then leaves its symbols as they are.
  obtain ⟨hlike, hstate⟩ :=
    (lowerAll_lockstep ((alike_of_unplaced rfl hkeys).imp fun _ _ h => h.lockstep)).agree
    (.refl _) (.onward hgo p'.collect_fresh options) hr hf fun _ => hp.symm
  rw [ht, ht']
  refine ⟨⟨back, by rw [hcode, hlike.whole trivial]⟩, fun id x hx => ?_⟩
  obtain ⟨y, hy⟩ := hstate.declared hx
  obtain ⟨x₁, hx₁, hgrows⟩ := (lowerBody_grows _ hf).table.exists_symbol (hgo.widens.symbol hy)
  obtain ⟨x', hx', hgrows'⟩ := (lowerBody_grows _ hb).table.exists_symbol hx₁
  have hdeclared : x'.toDeclaration = x.toDeclaration := by
    rw [hgrows'.toDeclaration, hgrows.toDeclaration]
    exact (congrArg (·.toDeclaration) (Table.symbol_congr hstate.left hx hy)).symm
  have hroom : x'.room = x.room :=
    (rest_room h hc (fun s hm => hs s (List.mem_append_right _ hm)) hb hstate.right hp'.symm hy hx₁ hx').trans
      ((hstate.symbol hx hx₁).room_eq trivial).symm
  simp only [Symbol.room, Prod.mk.injEq] at hroom
  exact ⟨x', hx', hdeclared, hroom⟩

def beginning (rest : List Stmt) : Program :=
  ⟨[.class ⟨"A", none, [.field ⟨"a", none, some (.int 1 .unplaced), false, .atLine 1⟩], .atLine 1⟩,
    .declare ⟨"xs", none, some (.array [.array [.int 1 .unplaced, .int 2 .unplaced] .unplaced] .unplaced),
      false, .atLine 2⟩,
    .block ⟨[.declare ⟨"y", none, some (.int 3 .unplaced), false, .atLine 3⟩,
      .print (.ident "y" .unplaced) (.atLine 4)], .atLine 3⟩] ++ rest, .unplaced⟩

def ending : List Stmt :=
  [.declare ⟨"y", none, some (.ident "xs" .unplaced), false, .atLine 5⟩,
    .class ⟨"B", some "A", [.field ⟨"b", none, some (.str "b" .unplaced), false, .atLine 6⟩], .atLine 6⟩]

theorem beginning_steady : ∀ s ∈ (beginning ending).statements, s.Steady := by
  simp only [beginning, ending, List.cons_append, List.nil_append, List.mem_cons, List.not_mem_nil, or_false,
    forall_eq_or_imp, forall_eq]
  refine ⟨.mk (by simp) (by simp [Stmt.parts]), .mk (by simp) (by simp [Stmt.parts]), .mk (by simp) ?_,
    .mk (by simp) (by simp [Stmt.parts]), .mk (by simp) (by simp [Stmt.parts])⟩
  simp only [Stmt.parts, List.mem_cons, List.not_mem_nil, or_false, forall_eq_or_imp, forall_eq]
  exact ⟨.mk (by simp) (by simp [Stmt.parts]), .mk (by simp) (by simp [Stmt.parts])⟩

theorem beginning_append : ∃ out out',
    (beginning []).compile {} = .ok out ∧ (beginning ending).compile {} = .ok out' ∧
    out.table.symbols.map (·.size) = [0, 16, 4, 4] ∧
    out'.table.symbols.map (·.size) = [0, 16, 8, 0, 4, 4, 8] ∧
    out.code <+: out'.code ∧ ∀ id x, out.table.symbol id = .ok x → ∃ x',
      out'.table.symbol id = .ok x' ∧ x'.toDeclaration = x.toDeclaration ∧ x'.offset = x.offset ∧
        x'.size = x.size ∧ x'.dimensions = x.dimensions ∧ x'.address = x.address := by
  have h : (·.table.symbols.map (·.size)) <$> ((beginning []).compile {}).toOption = some [0, 16, 4, 4] := by
    decide +kernel
  have h' : (·.table.symbols.map (·.size)) <$> ((beginning ending).compile {}).toOption =
      some [0, 16, 8, 0, 4, 4, 8] := by
    decide +kernel
  obtain ⟨out, ho, hs⟩ := exists_of_check h
  obtain ⟨out', ho', hs'⟩ := exists_of_check h'
  exact ⟨out, out', ho, ho', hs, hs', compile_append rfl beginning_steady ho ho'⟩

end Program

end ThreeAddress
