import ThreeAddress.Proofs.Headers.Layers
import ThreeAddress.Proofs.Headers.Leads
import ThreeAddress.Proofs.Headers.Views
import ThreeAddress.Proofs.Lockstep.Positions
import ThreeAddress.Proofs.Regions.Collected

namespace ThreeAddress

open Collect

section Views

variable {hidden : Position → Prop} {T T' : Table} {id : SymbolId} {x : Symbol} {i : Nat}

namespace Table.Beside

theorem members (h : T.Beside hidden T') (hi : T.Shows hidden id.scope) (hx : T.symbol id = .ok x) :
    ∀ m ∈ x.members, T.Shows hidden m := by
  intro m hm
  obtain ⟨r, hr, hk⟩ := hi
  obtain ⟨r', hr', hx⟩ := Table.symbol_eq_ok.1 hx
  cases hr.symm.trans hr'
  refine h.leads hr hk m ?_
  rw [Scope.leads, List.mem_append, List.mem_flatMap]
  exact .inr ⟨x, List.mem_of_getElem? hx, by simpa using hm⟩

/-- All that is not hidden. -/
def plain (h : T.Beside hidden T') : View T T' where
  scopes := T.Shows hidden
  keys key := ¬hidden key
  names _ := True
  locals _ := True
  ids id := T.Shows hidden id.scope
  lookup hi _ hl := ⟨h.lookup hi _ ▸ hl, fun _ hid => h.shows_of_lookup hi (hl.trans (congrArg _ hid))⟩
  lookupLocal {i name found} hi _ hl := by
    obtain ⟨r, hr, hk⟩ := hi
    have hs : T.scope i = .ok r := nth_eq_ok.2 hr
    have hs' : T'.scope i = .ok r := nth_eq_ok.2 (h.scope_eq hr hk)
    rw [Table.lookupLocal, hs] at hl
    refine ⟨by rw [Table.lookupLocal, hs']; exact hl, fun id hid => ?_⟩
    cases hl
    obtain ⟨slot, -, rfl⟩ := Option.map_eq_some_iff.1 hid
    exact ⟨r, hr, hk⟩
  symbol hi hx := ⟨h.symbol hi ▸ hx, h.members hi hx⟩
  scopeFor {key} hk := ⟨h.scopeFor key, fun i hi => by
    obtain ⟨r, hr, rfl, _⟩ := Table.scopeFor_eq_some.1 hi
    exact ⟨r, hr, hk⟩⟩

/-- Names that mean nothing that is hidden. A scope that does not declare them passes them on to the one
around. -/
def names (h : T.Beside hidden T') (names : String → Prop) : View T T' where
  scopes i := ∀ name, names name → ∃ j, T.Shows hidden j ∧ T.lookup i name = T.lookup j name ∧
    T'.lookup i name = T'.lookup j name
  keys _ := False
  names := names
  locals _ := False
  ids id := T.Shows hidden id.scope
  lookup {i name found} hi hn hl := by
    obtain ⟨j, hj, he, he'⟩ := hi name hn
    rw [he] at hl
    rw [he', ← h.lookup hj]
    exact ⟨hl, fun id hid => h.shows_of_lookup hj (hl.trans (congrArg _ hid))⟩
  lookupLocal _ hn := hn.elim
  symbol hi hx := ⟨h.symbol hi ▸ hx, fun i hm name _ => ⟨i, h.members hi hx i hm, rfl, rfl⟩⟩
  scopeFor hk := hk.elim

end Table.Beside

end Views

section Collected

variable {hidden : Position → Prop} {within : Prop} {p p' : Program} {h : Hole} {s s' : Stmt}

theorem Binding.collect_apart (b : Binding) (hw : within) (i : Nat) (kind : SymbolKind)
    (owner : Option String) : Collect.Same hidden within i (pure ()) (b.collect i kind owner) where
  retains := .pure _
  quiets := .pure _
  quiets' := b.collect_keeps ..
  beside hb hi hc hc' := (Collect.declare_apart hw).beside hb hi hc hc'

namespace Program

theorem stands_empty (h : ¬hidden .origin) : Collect.Stands hidden False Table.empty Table.global :=
  ⟨_, rfl, iff_false_intro h⟩

theorem collect_beside (ho : ¬hidden .origin)
    (hs : List.Forall₂ (Stmt.Same hidden False) p.statements p'.statements)
    (hc : p.collect.conflicts = []) (hc' : p'.collect.conflicts = []) :
    p.collect.table.Beside hidden p'.collect.table :=
  (collectAll_same hs Table.global).beside (.empty ho) (stands_empty ho) hc hc'

theorem collect_linked (hc : p.collect.conflicts = []) : p.collect.table.Linked := by
  have hb : p.collect.table.Beside (fun _ => False) p.collect.table :=
    collect_beside (fun h => h) (stmts_same fun _ _ => .rfl) hc hc
  exact hb.linked

theorem collect_shows (ho : ¬hidden .origin) : p.collect.table.Shows hidden Table.global := by
  have hs : ({} : Collection).Retains p.collect := p.collect_keeps
  exact ((stands_empty ho).retains hs).shows (fun h => h)

end Program

theorem Hole.same {layers : List Layer} (hs : s.Same hidden within s')
    (hk : ∀ key ∈ layers.flatMap Layer.keys, (hidden key ↔ within)) :
    (inside layers s).Same hidden within (inside layers s') := by
  induction layers with
  | nil => exact hs
  | cons layer rest ih =>
    rw [List.flatMap_cons, List.forall_mem_append] at hk
    exact Layer.same (ih hk.2) hk.1

end Collected

/-- A loop over a collection, at any depth of a program, with a hole for the statements of its body. -/
structure Loop where
  hole : Hole
  item : String
  collection : Expr
  at_ : Span
  span : Span

namespace Loop

def stmt (l : Loop) (body : List Stmt) : Stmt := .foreach l.item l.collection ⟨body, l.at_⟩ l.span

def fill (l : Loop) (body : List Stmt) : Program := l.hole.fill (l.stmt body)

/-- The name is that of the loop's variable, or it is declared in the body. -/
def Hides (l : Loop) (body : List Stmt) (name : String) : Prop :=
  name = l.item ∨ ∃ n ∈ namesAll body, n.name = name

end Loop

theorem namesAll_append (xs ys : List Stmt) : namesAll (xs ++ ys) = namesAll xs ++ namesAll ys := by
  induction xs with
  | nil => rfl
  | cons s rest ih => rw [List.cons_append, namesAll, namesAll, ih, List.append_assoc]

namespace Loop

variable {l : Loop} {body before after : List Stmt} {b : Binding}

theorem keys_fill (l : Loop) (body : List Stmt) :
    (l.fill body).keys.Perm (l.hole.keys ++ l.at_.toPosition :: keysAll body) := by
  have hp : (l.fill body).keys.Perm (l.hole.keys ++ (l.stmt body).keys) := l.hole.keys_fill _
  rwa [stmt, Stmt.keys, Block.keys] at hp

theorem wellKeyed (hk : (l.fill body).WellKeyed) :
    l.at_.toPosition ∉ keysAll body ∧ .origin ∉ l.at_.toPosition :: keysAll body ∧
      ∀ key ∈ l.hole.keys, key ∉ l.at_.toPosition :: keysAll body := by
  obtain ⟨hn, ho⟩ := hk
  have hp := l.keys_fill body
  rw [hp.nodup_iff, List.nodup_append, List.nodup_cons] at hn
  rw [hp.mem_iff, List.mem_append, not_or] at ho
  exact ⟨hn.2.1.1, ho.2, fun key hk hs => hn.2.2 key hk key hs rfl⟩

/-- The scope of the body has the loop's variable and what is declared in the body, and stands in the one
around the loop. -/
theorem scope_of_body (hk : (l.fill body).WellKeyed) (hc : (l.fill body).collect.conflicts = []) {k : Nat}
    (hs : (l.fill body).collect.table.scopeFor l.at_.toPosition = some k) :
    ∃ r j, (l.fill body).collect.table.scopes[k]? = some r ∧
      (l.fill body).collect.table.scopeFor l.hole.around = some j ∧ r.parent = some j ∧
      ∀ name, ¬l.Hides body name → r.slot? name = none := by
  obtain ⟨hn, ho, hd⟩ := wellKeyed hk
  have hhas := (l.fill body).collect_fits.has hc
  obtain ⟨r, hr, hkey, _⟩ := Table.scopeFor_eq_some.1 hs
  have hlt := Table.lt_size hr
  rw [hhas.size] at hlt
  obtain ⟨q, hq⟩ : ∃ q, (l.fill body).regions[k]? = some q := ⟨_, List.getElem?_eq_getElem hlt⟩
  obtain ⟨r', hr', hh⟩ := hhas.scopes hq
  cases hr.symm.trans hr'
  have hqk : q.key = l.at_.toPosition := hh.key.symm.trans hkey
  -- no other region has the key of the body
  obtain rfl : q = ⟨l.at_.toPosition, .block, some l.hole.around, none,
      .item l.item l.span :: namesAll body⟩ := by
    obtain hm | hm | hm := Hole.mem_regions (List.mem_of_getElem? hq)
    · rw [stmt, Stmt.regions, Block.regions, List.mem_cons, List.nil_append] at hm
      exact hm.resolve_right fun hm => hn (hqk ▸ body_keyed hm)
    · exact absurd (by simp [← hqk, hm]) ho
    · exact absurd (by simp [hqk]) (hd q.key hm)
  obtain ⟨j, hj, hp⟩ : ∃ j, (l.fill body).collect.table.scopeFor l.hole.around = some j ∧
      r.parent = some j := by
    have hparent := hh.parent
    cases hp : r.parent with
    | none =>
      rw [hp] at hparent
      cases hparent
    | some j =>
      rw [hp, Option.rel_some_some] at hparent
      exact ⟨j, hparent, rfl⟩
  refine ⟨r, j, hr, hj, hp, fun name hides => (hh.slot? name).2 fun hm => hides ?_⟩
  rw [List.map_cons, List.mem_cons, List.mem_map] at hm
  exact hm

theorem beside {hidden : Position → Prop} (hk : (l.fill (before ++ after)).WellKeyed)
    (hh : ∀ key, hidden key ↔ key ∈ l.at_.toPosition :: keysAll (before ++ after))
    (hc : (l.fill (before ++ after)).collect.conflicts = [])
    (hc' : (l.fill (before ++ .declare b :: after)).collect.conflicts = []) :
    (l.fill (before ++ after)).collect.table.Beside hidden
      (l.fill (before ++ .declare b :: after)).collect.table := by
  obtain ⟨hn, ho, hd⟩ := wellKeyed hk
  have hbody : ∀ key ∈ keysAll (before ++ after), (hidden key ↔ True) := fun key hm =>
    iff_true_intro ((hh key).2 (List.mem_cons_of_mem _ hm))
  rw [keysAll_append, List.forall_mem_append] at hbody
  have hloop : (l.stmt (before ++ after)).Same hidden False (l.stmt (before ++ .declare b :: after)) := by
    refine foreach_same (iff_true_intro ((hh _).2 (.head _))) (fun _ => trivial) fun i => ?_
    -- the new declaration is in the hidden scope of the body, so it may stand there on one side alone
    have hadd : Collect.Same hidden True i (pure () >>= fun _ => collectAll i after)
        (b.collect i .variable none >>= fun _ => collectAll i after) :=
      (b.collect_apart trivial ..).bind (collectAll_same (stmts_same hbody.2) i)
    rw [collectAll_append, collectAll_append, collectAll, Stmt.collect]
    exact (collectAll_same (stmts_same hbody.1) i).bind hadd
  have hkeys : ∀ key ∈ l.hole.keys, (hidden key ↔ False) := fun key hm =>
    iff_false_intro fun hv => hd key hm ((hh key).1 hv)
  rw [Hole.keys, List.forall_mem_append] at hkeys
  exact Program.collect_beside (fun hv => ho ((hh _).1 hv)) (Gap.same (Hole.same hloop hkeys.2) hkeys.1) hc hc'

theorem wellKeyed_declare (hk : (l.fill (before ++ after)).WellKeyed) :
    (l.fill (before ++ .declare b :: after)).WellKeyed := by
  have hkeys : keysAll (before ++ .declare b :: after) = keysAll (before ++ after) := by
    rw [keysAll_append, keysAll_append, keysAll, Stmt.keys, List.nil_append]
  have hp : (l.fill (before ++ .declare b :: after)).keys.Perm (l.fill (before ++ after)).keys :=
    ((l.keys_fill _).trans (by rw [hkeys])).trans (l.keys_fill _).symm
  exact ⟨hp.nodup_iff.2 hk.1, fun hm => hk.2 (hp.mem_iff.1 hm)⟩

theorem around_mem (hk : (l.fill body).WellKeyed) : l.hole.around ∉ l.at_.toPosition :: keysAll body := by
  obtain ⟨_, ho, hd⟩ := wellKeyed hk
  obtain he | hm := l.hole.around_mem
  · rwa [he]
  · exact hd _ hm

theorem Hides.declare {name : String} (h : l.Hides (before ++ after) name) :
    l.Hides (before ++ .declare b :: after) name := by
  refine h.imp_right fun hn => ?_
  obtain ⟨n, hm, he⟩ := hn
  refine ⟨n, ?_, he⟩
  rw [namesAll_append, List.mem_append] at hm ⊢
  exact hm.imp_right (List.mem_append_right _)

theorem shows_header {hidden : Position → Prop} {names : String → Prop}
    (hk : (l.fill (before ++ after)).WellKeyed)
    (hh : ∀ key, hidden key ↔ key ∈ l.at_.toPosition :: keysAll (before ++ after))
    (hc : (l.fill (before ++ after)).collect.conflicts = [])
    (hc' : (l.fill (before ++ .declare b :: after)).collect.conflicts = [])
    (hb : (l.fill (before ++ after)).collect.table.Beside hidden
      (l.fill (before ++ .declare b :: after)).collect.table)
    (hn : ∀ name, names name → ¬l.Hides (before ++ .declare b :: after) name) {k : Nat}
    (hs : (l.fill (before ++ after)).collect.table.scopeFor l.at_.toPosition = some k) :
    (hb.names names).scopes k := by
  intro name hname
  obtain ⟨r, j, hr, hj, hp, hslot⟩ := scope_of_body hk hc hs
  obtain ⟨r', j', hr', hj', hp', hslot'⟩ := scope_of_body (wellKeyed_declare hk) hc' (hb.scopeFor _ ▸ hs)
  cases hj'.symm.trans (hb.scopeFor _ ▸ hj)
  obtain ⟨q, hq, hqk, _⟩ := Table.scopeFor_eq_some.1 hj
  refine ⟨j, ⟨q, hq, fun hv => around_mem hk ((hh _).1 (hqk ▸ hv))⟩, ?_, ?_⟩
  · exact hb.linked.lookup_parent hr (hslot name fun hd => hn name hname hd.declare) hp
  · exact hb.linked'.lookup_parent hr' (hslot' name (hn name hname)) hp'

/-- Collects what there is by the time the item gets its type, and tells the scopes around the loop and of
its body. -/
def typing (l : Loop) : Collect (Nat × Nat) := do
  let outer ← l.hole.lead
  let inner ← openScope l.at_ .block outer
  return (outer, inner)

/-- In the table `t` of all declarations, the loop stands in the scope `i` and its body in the scope `k`. The
item has its type by what had been collected as `u`. -/
structure Typed (l : Loop) (t : Table) (i k : Nat) (u : Collection) : Prop where
  typing : l.typing {} = ((i, k), u)
  around : t.scopeFor l.hole.around = some i
  body : t.scopeFor l.at_.toPosition = some k
  item : ∃ x, t.symbol ⟨k, 0⟩ = .ok x ∧ x.name = l.item ∧ x.type = (l.collection.infer u.table i).indexed

theorem exists_typed (hl : ∀ layer ∈ l.hole.layers, layer.IsCollected)
    (hc : (l.fill body).collect.conflicts = []) :
    ∃ i k u, l.Typed (l.fill body).collect.table i k u ∧ u.table.Continues (l.fill body).collect.table ∧
      i < u.table.size := by
  obtain ⟨rest, hrest, he⟩ := Hole.reaches hl (l.stmt body) {}
  have hcollect : (l.fill body).collect =
      (rest ((l.stmt body).collect (l.hole.lead {}).1 (l.hole.lead {}).2).2).2 :=
    congrArg Prod.snd he
  have hfinds := Hole.finds hl
  obtain ⟨i, c, hlead⟩ : ∃ i c, l.hole.lead {} = (i, c) := ⟨_, _, rfl⟩
  have hlinked := Program.collect_linked hc
  rw [hlead] at hcollect
  rw [hcollect] at hc hlinked ⊢
  have hquiets : Keeps Collection.Quiets rest := hrest _
  have hcontinues : Keeps (fun s s' => s.table.Continues s'.table) rest := hrest _
  have hloop : Keeps Collection.Quiets ((l.stmt body).collect i) := (l.stmt body).collect_keeps i
  have hq : ((l.stmt body).collect i c).2.conflicts = [] := @hquiets _ hc
  obtain ⟨r, hr, hkey⟩ : HasKey l.hole.around i c := by
    have h := hfinds.hasKey (c := {}) ⟨_, rfl, rfl⟩ (by rw [hlead]; exact @hloop _ hq)
    rwa [hlead] at h
  obtain ⟨k, u, x, hopen, hcu, hlast, ⟨s, hs, hskey⟩, hx, hname, htype⟩ :=
    Stmt.foreach_collects (Table.lt_size hr) hq
  -- what the item was typed by is kept by all that is collected later
  have hend : u.table.Continues (rest ((l.stmt body).collect i c).2).2.table := hlast.trans (@hcontinues _)
  have at_key {j : Nat} {q : Scope} (hq : u.table.scopes[j]? = some q) :
      (rest ((l.stmt body).collect i c).2).2.table.scopeFor q.key = some j := by
    obtain ⟨q', hq', hk, _⟩ := hend hq
    exact hk ▸ hlinked.key hq'
  obtain ⟨r', hr', hkey', _⟩ := hcu hr
  refine ⟨i, k, u, ⟨?_, ?_, hskey ▸ at_key hs, x, ?_, hname, htype⟩, hend, Table.lt_size hr'⟩
  · have h : l.typing {} = (((l.hole.lead {}).1,
        (openScope l.at_ .block (l.hole.lead {}).1 (l.hole.lead {}).2).1),
        (openScope l.at_ .block (l.hole.lead {}).1 (l.hole.lead {}).2).2) := rfl
    rw [h, hlead, hopen]
  · rw [← hkey, ← hkey']
    exact at_key hr'
  · exact (@hcontinues _ : Table.Continues _ _).symbol hx

end Loop

end ThreeAddress
