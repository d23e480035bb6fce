import ThreeAddress.Proofs.Frames.Program
import ThreeAddress.Proofs.Lowering.Writes
import ThreeAddress.Proofs.Scope.Collect

namespace ThreeAddress

namespace Table

/-- No scope declares a name twice. -/
def Distinct (t : Table) : Prop :=
  ∀ ⦃i : Nat⦄ ⦃s : Scope⦄, t.scopes[i]? = some s → (s.symbols.map (·.name)).Nodup

/-- A symbol has an address once it has storage, and the address is its name. -/
def Addressed (t : Table) : Prop :=
  ∀ ⦃id x⦄, t.symbol id = .ok x → x.address = x.offset.map fun _ => x.name

variable {t t' : Table} {id id' : SymbolId} {x y : Symbol} {f : Symbol → Symbol}

theorem Distinct.empty : Distinct .empty := by
  intro i s hs
  obtain rfl := List.mem_singleton.1 (List.mem_of_getElem? hs)
  exact List.nodup_nil

theorem Distinct.addScope {key : Position} (h : t.Distinct) (kind : ScopeKind) (parent : Nat)
    (hk : t.scopeFor key = none) : (t.addScope key kind parent).2.Distinct := by
  intro i s hs
  rw [scopes_addScope hk, Option.map_eq_some_iff] at hs
  obtain ⟨s, hs, rfl⟩ := hs
  have hn : (s.symbols.map (·.name)).Nodup := by
    rw [List.getElem?_append] at hs
    split at hs
    · exact h hs
    · obtain rfl := List.mem_singleton.1 (List.mem_of_getElem? hs)
      exact List.nodup_nil
  split <;> exact hn

theorem Distinct.push {here : Nat} {s : Scope} (h : t.Distinct) (hs : t.scopes[here]? = some s)
    (hn : s.slot? y.name = none) : (t.push here y).Distinct := by
  intro i s' hs'
  rw [scopes_push, Option.map_eq_some_iff] at hs'
  obtain ⟨r, hr, rfl⟩ := hs'
  split
  next hi =>
    subst hi
    cases hs.symm.trans hr
    have hnew : ∀ x ∈ s.symbols, x.name ≠ y.name := by
      simpa [Scope.slot?, List.findIdx?_eq_none_iff] using hn
    rw [List.map_append, List.nodup_append]
    refine ⟨h hs, by simp, ?_⟩
    simpa using hnew
  next => exact h hr

theorem Distinct.declare (h : t.Distinct) (here : Nat) (y : Symbol) :
    (t.declare here y).2.Distinct := by
  cases hs : t.scopes[here]? with
  | none =>
    have hp : (t.declare here y).2 = t := by
      simp [Table.declare, hs, modifyScope, List.modify_eq_self (List.getElem?_eq_none_iff.1 hs)]
    rwa [hp]
  | some s =>
    rw [declare_eq hs]
    split
    · exact h
    · exact h.push hs ‹_›

theorem Distinct.outline (h : t.Distinct) (ho : t'.outline = t.outline) : t'.Distinct := by
  intro i s hs
  obtain ⟨r, hr, hso⟩ := scope_of_outline ho.symm hs
  have hnames : r.symbols.map (·.name) = s.symbols.map (·.name) := by
    have := congrArg (fun s => s.symbols.map (·.name)) hso
    simpa [Scope.outline, Symbol.outline, Symbol.ofDeclaration, Function.comp_def] using this
  rw [← hnames]
  exact h hr

theorem Distinct.inj (h : t.Distinct) (hx : t.symbol id = .ok x) (hy : t.symbol id' = .ok y)
    (hs : id.scope = id'.scope) (hn : x.name = y.name) : id = id' := by
  obtain ⟨scope, slot⟩ := id
  obtain ⟨scope', slot'⟩ := id'
  cases hs
  obtain ⟨s, hs, hx⟩ := symbol_eq_ok.1 hx
  obtain ⟨s', hs', hy⟩ := symbol_eq_ok.1 hy
  cases hs.symm.trans hs'
  have hslot : slot < (s.symbols.map (·.name)).length := by
    simpa using (List.getElem?_eq_some_iff.1 hx).1
  have hi : slot = slot' := (List.getElem?_inj hslot (h hs)).1 (by simp [hx, hy, hn])
  rw [hi]

theorem Addressed.modifySymbol (h : t.Addressed)
    (hf : ∀ x, t.symbol id = .ok x → x.address = x.offset.map (fun _ => x.name) →
      (f x).address = (f x).offset.map fun _ => (f x).name) : (t.modifySymbol id f).Addressed := by
  intro id' y hy
  obtain ⟨_, hy⟩ | ⟨rfl, x, hx, rfl⟩ := symbol_of_modifySymbol hy
  · exact h hy
  · exact hf x hx (h hx)

end Table

instance : Collecting fun s s' => s.table.Distinct → s'.table.Distinct where
  refl _ h := h
  trans _ _ _ h k hs := k (h hs)
  addScope _ _ kind parent hk h := h.addScope kind parent hk
  declare _ here d params h := h.declare here { Symbol.ofDeclaration d with params }
  report _ _ h := h

instance : Writing fun t t' => t.Addressed → t'.Addressed where
  refl _ h := h
  trans _ _ _ h k ht := k (h ht)
  storage _ _ _ _ _ _ _ h := h.modifySymbol fun _ _ _ => rfl
  array t id _ dimensions _ _ _ _ h := by
    have hd : (t.modifySymbol id ({ · with dimensions })).Addressed := h.modifySymbol fun _ _ hx => hx
    exact hd.modifySymbol fun _ _ _ => rfl
  frame _ _ _ h := h.modifySymbol fun _ _ hx => hx
  function _ _ _ _ h := h.modifySymbol fun _ _ hx => hx

namespace Program

variable {p : Program} {options : Options} {out : Compiled}

theorem collect_distinct (p : Program) : p.collect.table.Distinct :=
  p.collect_keeps (R := fun s s' => s.table.Distinct → s'.table.Distinct) .empty

theorem collect_addressed (p : Program) : p.collect.table.Addressed := by
  intro id x hx
  obtain ⟨d, params, rfl⟩ := p.collect_fresh hx
  rfl

theorem compile_outline (h : p.compile options = .ok out) :
    out.table.outline = p.collect.table.outline := by
  obtain ⟨_, hl⟩ := compile_eq_ok.1 h
  obtain ⟨s, hr, _, _, ht, _⟩ := runs_program.1 hl
  rw [show out.table = s.table from ht]
  exact (lowerBody_grows _ hr).table.outline

/-- A symbol with storage is written as it was declared. Two symbols are written alike only if they
were declared under one name, which takes two scopes; and one that is written like a temporary was
declared under that name. -/
theorem compile_addresses (h : p.compile options = .ok out) :
    (∀ id x, out.table.symbol id = .ok x → x.address = x.offset.map fun _ => x.name) ∧
    (∀ id x id' y, out.table.symbol id = .ok x → out.table.symbol id' = .ok y → id ≠ id' →
      x.offset.isSome → x.address = y.address → x.name = y.name ∧ id.scope ≠ id'.scope) ∧
    ∀ id x (t : Temp), out.table.symbol id = .ok x → x.address = some t.render →
      x.name = t.render := by
  obtain ⟨_, hl⟩ := compile_eq_ok.1 h
  have ha : out.table.Addressed :=
    lower_writes (R := fun t t' => t.Addressed → t'.Addressed) hl p.collect_addressed
  have hd : out.table.Distinct := p.collect_distinct.outline (compile_outline h)
  refine ⟨fun id x hx => ha hx, fun id x id' y hx hy hne hb he => ?_, fun id x t hx ht => ?_⟩
  · rw [ha hx, ha hy] at he
    obtain ⟨o, ho⟩ := Option.isSome_iff_exists.1 hb
    have hn : x.name = y.name := by
      cases hy' : y.offset <;> simp_all
    exact ⟨hn, fun hs => hne (hd.inj hx hy hs hn)⟩
  · rw [ha hx] at ht
    cases ho : x.offset <;> simp_all

def shadowed : Program :=
  ⟨[.declare ⟨"t1", none, some (.int 1 .unplaced), false, .atLine 1⟩,
    .block ⟨[.declare ⟨"t1", none, some (.int 2 .unplaced), false, .atLine 2⟩], .atLine 3⟩], .unplaced⟩

theorem shadowed_addresses :
    ∃ out, shadowed.compile {} = .ok out ∧ out.table.symbols.map (·.address) = [some "t1", some "t1"] ∧
    (∀ id x, out.table.symbol id = .ok x → x.address = x.offset.map fun _ => x.name) ∧
    (∀ id x id' y, out.table.symbol id = .ok x → out.table.symbol id' = .ok y → id ≠ id' →
      x.offset.isSome → x.address = y.address → x.name = y.name ∧ id.scope ≠ id'.scope) ∧
    ∀ id x (t : Temp), out.table.symbol id = .ok x → x.address = some t.render →
      x.name = t.render := by
  have h : (·.table.symbols.map (·.address)) <$> (shadowed.compile {}).toOption =
      some [some "t1", some "t1"] := by
    decide +kernel
  obtain ⟨out, ho, hs⟩ := exists_of_check h
  exact ⟨out, ho, hs, compile_addresses ho⟩

/-- Two variables of the global frame are written alike, and so is a temporary of the code. -/
theorem shadowed_alike : ∃ out x y, shadowed.compile {} = .ok out ∧
    shadowed.items = [.slot ⟨.origin, "t1"⟩, .slot ⟨⟨3, 1⟩, "t1"⟩] ∧
    out.table.get? ⟨.origin, "t1"⟩ = some x ∧ out.table.get? ⟨⟨3, 1⟩, "t1"⟩ = some y ∧
    x.offset = some 0 ∧ y.offset = some 4 ∧ x.address = y.address ∧
    ∃ t ∈ out.code.flatMap Instruction.temps, x.address = some t.render := by
  have h : (fun out : Compiled => (out.table.get? ⟨.origin, "t1"⟩, out.table.get? ⟨⟨3, 1⟩, "t1"⟩,
      out.code.flatMap Instruction.temps)) <$> (shadowed.compile {}).toOption =
      some (some { Symbol.ofDeclaration ⟨"t1", .integer, .variable, false, none, none, .atLine 1⟩ with
          offset := some 0, size := 4, address := some "t1" },
        some { Symbol.ofDeclaration ⟨"t1", .integer, .variable, false, none, none, .atLine 2⟩ with
          offset := some 4, size := 4, address := some "t1" }, [⟨1⟩, ⟨1⟩, ⟨2⟩, ⟨2⟩]) := by
    decide +kernel
  obtain ⟨out, ho, hs⟩ := exists_of_check h
  simp only [Prod.mk.injEq] at hs
  obtain ⟨hx, hy, ht⟩ := hs
  exact ⟨out, _, _, ho, rfl, hx, hy, rfl, rfl, rfl, ⟨1⟩, by simp [ht], by decide⟩

end Program

end ThreeAddress
