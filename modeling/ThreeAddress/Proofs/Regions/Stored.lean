import ThreeAddress.Proofs.Frames.Lowered
import ThreeAddress.Proofs.Regions.Elements
import ThreeAddress.Proofs.Regions.Table

namespace ThreeAddress

open Lowering Lower

def SymbolKind.isStored : SymbolKind → Bool
  | .variable | .parameter | .field => true
  | .function | .classType => false

/-- The symbol has the size of its type; or, if its name is declared with an array literal, the extents of
the literal, and the size of a header and all elements. -/
def Naming.Sized (options : Options) (n : Naming) (x : Symbol) : Prop :=
  match n.literal with
  | none => x.size = x.type.size options.pointerSize
  | some es => (Nest.row (lowerCells es)).shape? options.raggedArrays = some x.dimensions ∧
      x.size = options.pointerSize +
        x.dimensions.prod * leafSize options.pointerSize x.type.element es

def Naming.Placed (t : Table) (key : Position) (n : Naming) : Prop :=
  ∃ id x, t.find? ⟨key, n.name⟩ = some id ∧ t.symbol id = .ok x ∧ x.kind = n.kind ∧
    Option.Rel (fun key i => t.scopeFor key = some i) n.members x.members

theorem Naming.Placed.kind_eq {t t' : Table} {key : Position} {n : Naming} {id : SymbolId} {x : Symbol}
    (hp : n.Placed t key) (hf : t.find? ⟨key, n.name⟩ = some id) (ho : t'.outline = t.outline)
    (hx : t'.symbol id = .ok x) : x.kind = n.kind := by
  obtain ⟨id', y, hf', hy, hk, _⟩ := hp
  cases hf.symm.trans hf'
  have hxy := congrArg (fun z : Symbol => z.kind) (Table.symbol_congr ho hx hy)
  exact Eq.trans hxy hk

/-- What the name is declared as in `t` has its storage in `t'`, if it is there for a value. -/
def Naming.Furnished (options : Options) (t t' : Table) (key : Position) (n : Naming) : Prop :=
  n.kind.isStored → ∃ id x, t.find? ⟨key, n.name⟩ = some id ∧ t'.symbol id = .ok x ∧
    x.offset.isSome ∧ x.address = some x.name ∧ n.Sized options x

/-- The names at the key, and those of the regions, are such. -/
def Throughout (P : Position → Naming → Prop) (key : Position) (names : List Naming)
    (inner : List Region) : Prop :=
  (∀ n ∈ names, P key n) ∧ ∀ r ∈ inner, ∀ n ∈ r.names, P r.key n

namespace Throughout

variable {P Q : Position → Naming → Prop} {key : Position} {names names' : List Naming}
  {inner inner' : List Region} {r : Region}

theorem nil : Throughout P key [] [] := ⟨by simp, by simp⟩

theorem mono (h : Throughout P key names inner) (hpq : ∀ key n, P key n → Q key n) :
    Throughout Q key names inner :=
  ⟨fun n hn => hpq _ n (h.1 n hn), fun r hr n hn => hpq _ n (h.2 r hr n hn)⟩

theorem append : Throughout P key (names ++ names') (inner ++ inner') ↔
    Throughout P key names inner ∧ Throughout P key names' inner' := by
  simp only [Throughout, List.forall_mem_append]
  exact and_and_and_comm

theorem within : Throughout P key names (r :: inner) ↔
    (∀ n ∈ names, P key n) ∧ Throughout P r.key r.names inner := by
  simp only [Throughout, List.forall_mem_cons]

end Throughout

def Symbol.Settled (x : Symbol) : Prop := x.offset.isSome ∨ ¬x.kind.isStored

/-- `y` has the storage of `x`. -/
structure Symbol.Stays (x y : Symbol) : Prop where
  toDeclaration : y.toDeclaration = x.toDeclaration
  offset : y.offset = x.offset
  size : y.size = x.size
  address : y.address = x.address
  dimensions : y.dimensions = x.dimensions

def Table.Lasts (t t' : Table) : Prop :=
  ∀ ⦃id x⦄, t.symbol id = .ok x → x.Settled → ∃ y, t'.symbol id = .ok y ∧ x.Stays y

theorem Symbol.Stays.settled {x y : Symbol} (h : x.Stays y) (hx : x.Settled) : y.Settled := by
  rwa [Settled, h.offset, h.toDeclaration]

namespace Table.Lasts

variable {t t' t'' : Table} {id : SymbolId} {x : Symbol} {f : Symbol → Symbol}

theorem refl (t : Table) : t.Lasts t := fun _ x hx _ => ⟨x, hx, rfl, rfl, rfl, rfl, rfl⟩

theorem trans (h : t.Lasts t') (k : t'.Lasts t'') : t.Lasts t'' := by
  intro id x hx hs
  obtain ⟨y, hy, hxy⟩ := h hx hs
  obtain ⟨z, hz, hyz⟩ := k hy (hxy.settled hs)
  exact ⟨z, hz, hyz.toDeclaration.trans hxy.toDeclaration, hyz.offset.trans hxy.offset,
    hyz.size.trans hxy.size, hyz.address.trans hxy.address, hyz.dimensions.trans hxy.dimensions⟩

theorem modifySymbol (h : ∀ x, t.symbol id = .ok x → x.Settled → x.Stays (f x)) :
    t.Lasts (t.modifySymbol id f) := by
  intro id' x hx hs
  by_cases hi : id' = id
  · subst hi
    exact ⟨f x, symbol_modifySymbol_self hx, h x hx hs⟩
  · exact ⟨x, (symbol_modifySymbol_ne hi).2 hx, rfl, rfl, rfl, rfl, rfl⟩

theorem write (hx : t.symbol id = .ok x) (ho : x.offset = none) (hk : x.kind.isStored) :
    t.Lasts (t.modifySymbol id f) :=
  .modifySymbol fun y hy hs => by
    cases hx.symm.trans hy
    simp [Symbol.Settled, ho, hk] at hs

end Table.Lasts

theorem Naming.Furnished.lasts {options : Options} {t t' t'' : Table} {key : Position} {n : Naming}
    (h : n.Furnished options t t' key) (k : t'.Lasts t'') : n.Furnished options t t'' key := by
  intro hk
  obtain ⟨id, x, hf, hx, ho, ha, hs⟩ := h hk
  obtain ⟨y, hy, hxy⟩ := k hx (.inl ho)
  refine ⟨id, y, hf, hy, by rwa [hxy.offset], ?_, ?_⟩
  · rw [hxy.address, ha, hxy.toDeclaration]
  · rwa [Sized, hxy.size, hxy.dimensions, hxy.toDeclaration]

namespace Lowering.State

def Idles (s s' : State) : Prop := s'.table = s.table ∧ (s'.problems = [] → s.problems = [])

/-- Unless there was a problem, the names have got their storage from `s` to `s'`. -/
structure Furnishes (options : Options) (t : Table) (key : Position) (names : List Naming)
    (inner : List Region) (s s' : State) : Prop where
  outline : s'.table.outline = s.table.outline
  quiet : s'.problems = [] → s.problems = []
  lasts : s'.problems = [] → s.table.Lasts s'.table
  furnished : s'.problems = [] → Throughout (Naming.Furnished options t s'.table) key names inner

variable {options : Options} {t : Table} {key : Position} {names names' : List Naming}
  {inner inner' : List Region} {s s' s'' : State}

theorem Rests.idles (h : s.Rests s') : s.Idles s' := ⟨h.table, h.quiet⟩

theorem Advances.idles (h : s.Advances s') : s.Idles s' := h.rests.idles

theorem Idles.trans (h : s.Idles s') (k : s'.Idles s'') : s.Idles s'' :=
  ⟨k.1.trans h.1, h.2 ∘ k.2⟩

theorem Idles.furnishes (h : s.Idles s') : Furnishes options t key [] [] s s' where
  outline := by rw [h.1]
  quiet := h.2
  lasts _ := by
    rw [h.1]
    exact .refl _
  furnished _ := .nil

namespace Furnishes

theorem before (h : s.Idles s') (k : Furnishes options t key names inner s' s'') :
    Furnishes options t key names inner s s'' where
  outline := k.outline.trans (by rw [h.1])
  quiet := h.2 ∘ k.quiet
  lasts hp := by
    rw [← h.1]
    exact k.lasts hp
  furnished := k.furnished

theorem after (h : Furnishes options t key names inner s s') (k : s'.Idles s'') :
    Furnishes options t key names inner s s'' where
  outline := .trans (by rw [k.1]) h.outline
  quiet := h.quiet ∘ k.2
  lasts hp := by
    rw [k.1]
    exact h.lasts (k.2 hp)
  furnished hp := by
    rw [k.1]
    exact h.furnished (k.2 hp)

theorem append (h : Furnishes options t key names inner s s')
    (k : Furnishes options t key names' inner' s' s'') :
    Furnishes options t key (names ++ names') (inner ++ inner') s s'' where
  outline := k.outline.trans h.outline
  quiet := h.quiet ∘ k.quiet
  lasts hp := (h.lasts (k.quiet hp)).trans (k.lasts hp)
  furnished hp := Throughout.append.2
    ⟨(h.furnished (k.quiet hp)).mono fun _ _ hn => hn.lasts (k.lasts hp), k.furnished hp⟩

theorem of_grows (h : s.Grows s')
    (k : s'.problems = [] → Furnishes options t key names inner s s') :
    Furnishes options t key names inner s s' :=
  ⟨h.table.outline, h.quiet, fun hp => (k hp).lasts hp, fun hp => (k hp).furnished hp⟩

theorem within {r : Region} (h : Furnishes options t r.key r.names inner s s')
    (hn : ∀ n ∈ names, ¬n.kind.isStored) : Furnishes options t key names (r :: inner) s s' :=
  { h with
    furnished := fun hp => Throughout.within.2 ⟨fun n hm hk => absurd hk (hn n hm), h.furnished hp⟩ }

end Furnishes

end Lowering.State

theorem Stands.idles {t : Table} {key : Position} {c : Context} {s s' : State}
    (h : Stands t key c s) (k : s.Idles s') : Stands t key c s' :=
  ⟨by rw [k.1, h.outline], h.scope⟩

theorem Stands.furnishes {options : Options} {t : Table} {key : Position} {names : List Naming}
    {inner : List Region} {c : Context} {s s' : State} (h : Stands t key c s)
    (k : State.Furnishes options t key names inner s s') : Stands t key c s' :=
  ⟨k.outline.trans h.outline, h.scope⟩

/-- Every run of the action in the scope with the given key gives the names their storage, if they are
declared. -/
def Lower.Furnishes (t : Table) (key : Position) (names : List Naming) (inner : List Region)
    (act : Lower α) : Prop :=
  Throughout (Naming.Placed t) key names inner → ∀ ⦃c s a s'⦄, Runs act c s a s' → Stands t key c s →
    State.Furnishes c.options t key names inner s s'

namespace Lower

variable {t : Table} {key : Position} {names names' : List Naming} {inner inner' : List Region}
  {act : Lower α} {f : α → Lower β}

theorem Keeps.furnishes (h : Keeps State.Advances act) : Furnishes t key [] [] act :=
  fun _ _ _ _ _ hr _ => (h hr).idles.furnishes

namespace Furnishes

theorem bind (h : Furnishes t key names inner act) (k : ∀ a, Furnishes t key names' inner' (f a)) :
    Furnishes t key (names ++ names') (inner ++ inner') (act >>= f) := by
  intro hp c s b s' hr hs
  obtain ⟨hp, hp'⟩ := Throughout.append.1 hp
  obtain ⟨a, s₁, ha, hf⟩ := runs_bind.1 hr
  have h₁ := h hp ha hs
  exact h₁.append (k a hp' hf (hs.furnishes h₁))

theorem behind {c : Context} {s s₁ s' : State} {a : α} (h : Furnishes t key names inner act)
    (hp : Throughout (Naming.Placed t) key names inner) (hr : Runs act c s₁ a s')
    (hs : Stands t key c s) (k : s.Idles s₁) :
    State.Furnishes c.options t key names inner s s' :=
  (h hp hr (hs.idles k)).before k

theorem first (h : Furnishes t key names inner act) (k : ∀ a, Keeps State.Advances (f a)) :
    Furnishes t key names inner (act >>= f) := by
  intro hp c s b s' hr hs
  obtain ⟨a, s₁, ha, hf⟩ := runs_bind.1 hr
  exact (h hp ha hs).after (k a hf).idles

theorem last (h : Keeps State.Advances act) (k : ∀ a, Furnishes t key names inner (f a)) :
    Furnishes t key names inner (act >>= f) := by
  intro hp c s b s' hr hs
  obtain ⟨a, s₁, ha, hf⟩ := runs_bind.1 hr
  exact (k a).behind hp hf hs (h ha).idles

theorem inBlock {span : Span} {kind : ScopeKind} {outer : Option Position} {owner : Option String}
    (h : Furnishes t span.toPosition names inner act) :
    Furnishes t key [] (⟨span.toPosition, kind, outer, owner, names⟩ :: inner) (inBlock span act) := by
  intro hp c s a s' hr hs
  exact (h (Throughout.within.1 hp).2 (runs_inBlock.1 hr) (hs.inBlock span)).within (by simp)

end Furnishes

section Storage

variable {c : Context} {s s' : State} {u : Unit} {id : SymbolId} {x : Symbol} {n : Naming}

theorem bindStorage_furnishes (hp : n.Placed t key) (hk : n.kind.isStored) (hl : n.literal = none)
    (hf : t.find? ⟨key, n.name⟩ = some id) (hs : Stands t key c s) (hx : s.table.symbol id = .ok x)
    (hr : Runs (bindStorage id (x.type.size c.options.pointerSize)) c s u s') :
    State.Furnishes c.options t key [n] [] s s' := by
  have ho := (bindStorage_binds _ _ hr).table.outline
  have hkx : x.kind.isStored := by rwa [hp.kind_eq hf hs.outline hx]
  obtain ⟨_, y, hy, hn, rfl⟩ := runs_bindStorage.1 hr
  cases hx.symm.trans hy
  refine ⟨ho, fun h => h, fun _ => .write hx hn hkx, fun _ => ⟨?_, by simp⟩⟩
  rw [List.forall_mem_singleton]
  refine fun _ => ⟨id, _, hf, Table.symbol_modifySymbol_self hx, rfl, rfl, ?_⟩
  rw [Naming.Sized, hl]

theorem declareArray_furnishes {es : List Expr} {span : Span} {code : Code} (hp : n.Placed t key)
    (hk : n.kind.isStored) (hl : n.literal = some es) (hf : t.find? ⟨key, n.name⟩ = some id)
    (hs : Stands t key c s) (hr : Runs (declareArray id es span) c s code s') :
    State.Furnishes c.options t key [n] [] s s' := by
  refine .of_grows (declareArray_stores _ _ _ hr).toGrows fun hq => ?_
  have ho := (declareArray_stores _ _ _ hr).table.outline
  obtain ⟨x, dims, offset, hx, hn, hd, ht⟩ := declareArray_table hr hq
  have hkx : x.kind.isStored := by rwa [hp.kind_eq hf hs.outline hx]
  have hx₁ := Table.symbol_modifySymbol_self (f := ({ · with dimensions := dims })) hx
  refine ⟨ho, (declareArray_stores _ _ _ hr).toGrows.quiet, fun _ => ?_, fun _ => ⟨?_, by simp⟩⟩
  · rw [ht]
    exact .trans (.write hx hn hkx) (.write hx₁ hn hkx)
  · rw [List.forall_mem_singleton, ht]
    refine fun _ => ⟨id, _, hf, Table.symbol_modifySymbol_self hx₁, rfl, rfl, ?_⟩
    rw [Naming.Sized, hl]
    exact ⟨hd, rfl⟩

theorem bindLocal_furnishes (n : Naming) (hk : n.kind.isStored) (hl : n.literal = none) (span : Span) :
    Furnishes t key [n] [] (bindLocal n.name span) := by
  intro hp c s u s' hr hs
  have hn : n.Placed t key := hp.1 n (by simp)
  obtain ⟨id, _, hf, _⟩ := id hn
  have hlook := Table.lookup_of_find? hs.outline hf hs.scope
  obtain ⟨hnone, _⟩ | ⟨id', x, hlook', hx, hr⟩ := runs_bindLocal.1 hr
  · cases hlook.symm.trans hnone
  · cases hlook.symm.trans hlook'
    exact bindStorage_furnishes hn hk hl hf hs hx hr

theorem bindParams_furnishes (params : List Param) :
    Furnishes t key (params.map Param.naming) [] (bindParams params) := by
  intro hp c s u s' hr hs
  induction params generalizing s with
  | nil =>
    obtain ⟨_, rfl⟩ := runs_pure.1 hr
    exact (State.Advances.refl s').idles.furnishes
  | cons p rest ih =>
    have hn : p.naming.Placed t key := hp.1 _ (by simp)
    obtain ⟨id, _, hf, _⟩ := id hn
    have hlook := Table.lookupLocal_of_find? hs.outline hf hs.scope
    obtain ⟨s₁, ⟨hnone, _⟩ | ⟨id', x, v, hlook', hx, hb⟩, hr⟩ := runs_bindParams_cons hr
    · cases hlook.symm.trans hnone
    · cases hlook.symm.trans hlook'
      have hb := bindStorage_furnishes hn rfl rfl hf hs hx hb
      have hrest : Throughout (Naming.Placed t) key (rest.map Param.naming) [] :=
        ⟨fun n hm => hp.1 n (List.mem_cons_of_mem _ hm), by simp⟩
      exact hb.append (ih hrest hr (hs.furnishes hb))

theorem guarding_furnishes {uses : List Use} {whole : Span} {act : Lower Code}
    (h : Furnishes t key names inner act) (hg : Keeps State.Stores act) :
    Furnishes t key names inner (guarding uses whole act) :=
  fun hp _ _ _ _ hr hs => .of_grows (guarding_stores _ _ hg hr).toGrows fun hq =>
    h hp (runs_of_guarding hr hq) hs

end Storage

end Lower

theorem Binding.lower_furnishes {t : Table} {key : Position} (b : Binding) {kind : SymbolKind}
    (hk : kind.isStored) : Furnishes t key [b.naming kind] [] b.lower := by
  intro hp c s code s' hr hs
  have hn : (b.naming kind).Placed t key := hp.1 _ (by simp)
  obtain ⟨id, _, hf, _⟩ := id hn
  have hlook := Table.lookup_of_find? hs.outline hf hs.scope
  obtain ⟨hnone, _⟩ | ⟨id', es, span, hlook', hv, hr⟩ | ⟨id', x, u, s₁, hlook', hx, hb, hr⟩ :=
    b.runs_lower hr
  · cases hlook.symm.trans hnone
  · cases hlook.symm.trans hlook'
    have hl : (b.naming kind).literal = some es := by simp [naming, hv, Expr.literal?]
    exact declareArray_furnishes hn hk hl hf hs hr
  · cases hlook.symm.trans hlook'
    obtain ⟨hv, _, rfl⟩ | ⟨e, y, hv, he, hy, _⟩ := hr
    · have hl : (b.naming kind).literal = none := by simp [naming, hv]
      exact bindStorage_furnishes hn hk hl hf hs hx hb
    · have hl : (b.naming kind).literal = none := by
        cases e with
        | array es span => exact absurd rfl (he es span)
        | _ => simp [naming, hv, Expr.literal?]
      have hb := bindStorage_furnishes hn hk hl hf hs hx hb
      exact hb.after (storable_keeps (R := State.Advances) (e.lower_advances _) hy).idles

end ThreeAddress
