import Mathlib.Data.List.Chain
import ThreeAddress.Proofs.Frames.Program

namespace ThreeAddress

def Item.slot? : Item → Option Site
  | .slot s => some s
  | .frame .. => none

def Frame.fields (f : Frame) : List Site := f.inside.filterMap Item.slot?

namespace Table

def parent? (t : Table) (f : Frame) : Option SymbolId := do
  let scope ← t.scopeFor f.site.key
  let found ← (t.lookup scope (← f.parent)).toOption
  found

/-- The class `g` has `f` for its parent, and is declared behind the end of `f`. -/
def Extends (t : Table) (f g : Frame) : Prop :=
  f.site ∈ g.closed ∧ (t.find? f.site).isSome ∧ t.parent? g = t.find? f.site

instance (t : Table) : DecidableRel t.Extends := fun _ _ => inferInstanceAs (Decidable (_ ∧ _ ∧ _))

def Occupies (t : Table) (s : Site) (a b : Nat) : Prop :=
  ∃ x, t.get? s = some x ∧ x.offset = some a ∧ a + x.size = b

/-- The bytes of the first variable end before those of the second begin. -/
def Precedes (t : Table) (r s : Site) : Prop :=
  ∃ a b c d, t.Occupies r a b ∧ t.Occupies s c d ∧ b ≤ c

/-- What the second frame begins with has room for the first one, and the second one for that. -/
def Follows (t : Table) (f g : Frame) : Prop :=
  ∃ x y, t.get? f.site = some x ∧ t.get? g.site = some y ∧ x.frame ≤ t.inherited g ∧
    t.inherited g ≤ y.frame

variable {t : Table} {f g : Frame} {x : Symbol}

theorem Extends.inherited (h : t.Extends f g) (hx : t.get? f.site = some x) :
    t.inherited g = x.frame := by
  obtain ⟨hclosed, -, hparent⟩ := h
  obtain ⟨id, hid, hx⟩ := get?_eq_some.1 hx
  simp only [parent?, hid, Option.bind_eq_bind, Option.bind_eq_some_iff] at hparent
  obtain ⟨scope, hscope, name, hname, found, hfound, rfl⟩ := hparent
  have hlookup : t.lookup scope name = .ok (some id) := by
    cases hl : t.lookup scope name with
    | error e => simp [hl, Except.toOption] at hfound
    | ok found => simpa [hl, Except.toOption] using hfound
  simp only [Table.inherited, hscope, hname, hlookup, hx]
  rw [if_pos ⟨f.site, hclosed, hid⟩]
  rfl

instance : Trans t.Follows t.Follows t.Follows where
  trans := by
    rintro f g h ⟨x, y, hx, hy, hxg, hgy⟩ ⟨y', z, hy', hz, hyh, hhz⟩
    cases hy.symm.trans hy'
    exact ⟨x, z, hx, hz, by omega, hhz⟩

end Table

theorem NestedFrames.le_resume (layout : NestedFrames) (cursor size : Nat) :
    cursor ≤ layout.resume cursor size := by
  cases layout with
  | independent => exact Nat.le_refl _
  | folded => exact Nat.le_add_right _ _

namespace Tiles

variable {layout : NestedFrames} {t : Table} {items : List Item} {a b : Nat}

theorem le (h : Tiles layout t a items b) : a ≤ b := by
  induction items generalizing a with
  | nil => exact Nat.le_of_eq h
  | cons i rest ih =>
    cases i with
    | slot s =>
      obtain ⟨x, _, _, h⟩ := h
      exact Nat.le_trans (Nat.le_add_right _ _) (ih h)
    | frame =>
      obtain ⟨x, _, h⟩ := h
      exact Nat.le_trans (layout.le_resume _ _) (ih h)

theorem between (h : Tiles layout t a items b) :
    ∀ s ∈ items.filterMap Item.slot?, ∃ c d, t.Occupies s c d ∧ a ≤ c ∧ d ≤ b := by
  induction items generalizing a with
  | nil => nofun
  | cons i rest ih =>
    cases i with
    | slot s =>
      obtain ⟨x, hx, ho, h⟩ := h
      refine List.forall_mem_cons.2 ⟨⟨a, _, ⟨x, hx, ho, rfl⟩, Nat.le_refl _, h.le⟩, fun s hs => ?_⟩
      obtain ⟨c, d, hocc, hc, hd⟩ := ih h s hs
      exact ⟨c, d, hocc, by omega, hd⟩
    | frame =>
      obtain ⟨x, hx, h⟩ := h
      intro s hs
      obtain ⟨c, d, hocc, hc, hd⟩ := ih h s hs
      exact ⟨c, d, hocc, Nat.le_trans (layout.le_resume _ _) hc, hd⟩

theorem precedes (h : Tiles layout t a items b) :
    (items.filterMap Item.slot?).Pairwise t.Precedes := by
  induction items generalizing a with
  | nil => exact .nil
  | cons i rest ih =>
    cases i with
    | slot s =>
      obtain ⟨x, hx, ho, h⟩ := h
      refine .cons (fun s hs => ?_) (ih h)
      obtain ⟨c, d, hocc, hc, -⟩ := h.between s hs
      exact ⟨a, _, c, d, ⟨x, hx, ho, rfl⟩, hocc, hc⟩
    | frame =>
      obtain ⟨x, hx, h⟩ := h
      exact ih h

end Tiles

theorem Frame.LaidOut.fields {layout : NestedFrames} {t : Table} {f : Frame} (h : f.LaidOut layout t) :
    ∃ x, t.get? f.site = some x ∧ t.inherited f ≤ x.frame ∧
      ∀ s ∈ f.fields, ∃ a b, t.Occupies s a b ∧ t.inherited f ≤ a ∧ b ≤ x.frame := by
  obtain ⟨x, hx, ht⟩ := h
  exact ⟨x, hx, ht.le, ht.between⟩

section Follows

variable {layout : NestedFrames} {t : Table} {f g : Frame}

theorem Frame.LaidOut.behind (hg : g.LaidOut layout t) (h : t.Follows f g) :
    ∃ x, t.get? f.site = some x ∧ ∀ s ∈ g.fields, ∃ a b, t.Occupies s a b ∧ x.frame ≤ a := by
  obtain ⟨x, _, hx, _, hle, _⟩ := h
  obtain ⟨_, _, _, hfields⟩ := hg.fields
  refine ⟨x, hx, fun s hs => ?_⟩
  obtain ⟨a, b, hocc, ha, -⟩ := hfields s hs
  exact ⟨a, b, hocc, Nat.le_trans hle ha⟩

theorem Frame.LaidOut.precedes (hf : f.LaidOut layout t) (hg : g.LaidOut layout t)
    (h : t.Follows f g) : ∀ r ∈ f.fields, ∀ s ∈ g.fields, t.Precedes r s := by
  intro r hr s hs
  obtain ⟨x, hx, _, hbefore⟩ := hf.fields
  obtain ⟨x', hx', hbehind⟩ := hg.behind h
  cases hx.symm.trans hx'
  obtain ⟨a, b, hocc, -, hb⟩ := hbefore r hr
  obtain ⟨c, d, hocc', hc⟩ := hbehind s hs
  exact ⟨a, b, c, d, hocc, hocc', Nat.le_trans hb hc⟩

end Follows

theorem Table.follows_of_chain {layout : NestedFrames} {t : Table} {chain : List Frame}
    (hf : ∀ f ∈ chain, f.LaidOut layout t) (hc : chain.IsChain t.Extends) :
    chain.Pairwise t.Follows := by
  refine List.isChain_iff_pairwise.1 (hc.imp_of_mem_imp fun f g hfm hgm he => ?_)
  obtain ⟨x, hx, -⟩ := hf f hfm
  obtain ⟨y, hy, hle, -⟩ := (hf g hgm).fields
  exact ⟨x, y, hx, hy, (he.inherited hx).ge, hle⟩

namespace Program

variable {p : Program} {options : Options} {out : Compiled}

/-- Along a line of classes that extend one another, every field of every class has bytes of its own,
and those of a class lie behind the frames of all classes before it. -/
theorem compile_inherits (h : p.compile options = .ok out) (hs : ∀ s ∈ p.statements, s.Steady)
    {chain : List Frame} (hf : ∀ f ∈ chain, f ∈ p.frames) (hc : chain.IsChain out.table.Extends) :
    (∀ s ∈ chain.flatMap Frame.fields, ∃ a b, out.table.Occupies s a b) ∧
    (chain.flatMap Frame.fields).Pairwise out.table.Precedes ∧
    chain.Pairwise fun f g => ∃ x, out.table.get? f.site = some x ∧
      ∀ s ∈ g.fields, ∃ a b, out.table.Occupies s a b ∧ x.frame ≤ a := by
  have hlaid : ∀ f ∈ chain, f.LaidOut options.nestedFrames out.table :=
    fun f hm => compile_laidOut h hs f (hf f hm)
  have hfollows := Table.follows_of_chain hlaid hc
  refine ⟨fun s hs => ?_, List.pairwise_flatMap.2 ⟨fun f hm => ?_, ?_⟩, ?_⟩
  · obtain ⟨f, hm, hs⟩ := List.mem_flatMap.1 hs
    obtain ⟨_, _, _, hfields⟩ := (hlaid f hm).fields
    obtain ⟨a, b, hocc, -⟩ := hfields s hs
    exact ⟨a, b, hocc⟩
  · obtain ⟨_, _, ht⟩ := hlaid f hm
    exact ht.precedes
  · exact hfollows.imp_of_mem fun hfm hgm hfg => (hlaid _ hfm).precedes (hlaid _ hgm) hfg
  · exact hfollows.imp_of_mem fun _ hgm hfg => (hlaid _ hgm).behind hfg

def lineage : Program :=
  ⟨[.class ⟨"A", none, [.field ⟨"a", none, some (.int 1 .unplaced), false, .atLine 1⟩], .atLine 2⟩,
    .class ⟨"B", some "A", [.field ⟨"b", none, some (.str "b" .unplaced), false, .atLine 3⟩,
      .method ⟨"m", [⟨"n", none, .atLine 4⟩], none, ⟨[], .atLine 5⟩, .atLine 6⟩], .atLine 7⟩,
    .class ⟨"C", some "B", [.field ⟨"c", none, some (.int 1 .unplaced), false, .atLine 8⟩], .atLine 9⟩],
    .unplaced⟩

def lineageClasses : List Frame := lineage.frames.filter (·.site.name ≠ "m")

theorem lineage_steady : ∀ s ∈ lineage.statements, s.Steady := by
  simp only [lineage, List.mem_cons, List.not_mem_nil, or_false, forall_eq_or_imp, forall_eq]
  exact ⟨.mk (by simp) (by simp [Stmt.parts]), .mk (by simp) (by simp [Stmt.parts]),
    .mk (by simp) (by simp [Stmt.parts])⟩

theorem lineage_inherits : ∃ out, lineage.compile { nestedFrames := .folded } = .ok out ∧
    out.table.symbols.map (·.frame) = [4, 16, 20, 0, 0, 4, 0, 0] ∧
    lineageClasses.IsChain out.table.Extends ∧
    (∀ s ∈ lineageClasses.flatMap Frame.fields, ∃ a b, out.table.Occupies s a b) ∧
    (lineageClasses.flatMap Frame.fields).Pairwise out.table.Precedes ∧
    lineageClasses.Pairwise fun f g => ∃ x, out.table.get? f.site = some x ∧
      ∀ s ∈ g.fields, ∃ a b, out.table.Occupies s a b ∧ x.frame ≤ a := by
  have h : (fun out => (out.table.symbols.map (·.frame),
      decide (lineageClasses.IsChain out.table.Extends))) <$>
      (lineage.compile { nestedFrames := .folded }).toOption =
      some ([4, 16, 20, 0, 0, 4, 0, 0], true) := by
    decide +kernel
  obtain ⟨out, ho, hout⟩ := exists_of_check h
  obtain ⟨hframes, hchain⟩ := Prod.mk.inj hout
  have hchain := of_decide_eq_true hchain
  exact ⟨out, ho, hframes, hchain,
    compile_inherits ho lineage_steady (fun f hf => (List.mem_filter.1 hf).1) hchain⟩

end Program

end ThreeAddress
