import ThreeAddress.Proofs.Plans.Runs
import ThreeAddress.Proofs.Lowering.Growth
import ThreeAddress.Proofs.Scope.Collect

namespace ThreeAddress

open Lowering Lower

def Symbol.Whole (x : Symbol) : Prop :=
  (x.offset = none ∧ x.size = 0 ∧ x.address = none) ∨ (x.offset.isSome ∧ x.address = some x.name)

/-- What is recorded of `x` is recorded of `y`. -/
structure Symbol.Persists (x y : Symbol) : Prop where
  declaration : y.toDeclaration = x.toDeclaration
  offset : ∀ offset ∈ x.offset, y.offset = some offset
  size : x.offset.isSome ∨ x.size ≠ 0 → y.size = x.size
  address : ∀ address ∈ x.address, y.address = some address

theorem Symbol.Grows.persists {x y : Symbol} (h : x.Grows y) (hx : x.Whole) : x.Persists y where
  declaration := h.toDeclaration
  offset o ho := by
    rw [h.offset (by simp [Option.mem_def.1 ho])]
    exact ho
  size hs := by
    obtain ⟨_, hz, _⟩ | ⟨ho, _⟩ := hx
    · exact h.size (hs.resolve_right (· hz))
    · exact h.size ho
  address a ha := by
    obtain ⟨_, _, hn⟩ | ⟨ho, _⟩ := hx
    · simp [hn] at ha
    · rw [h.address ho]
      exact ha

namespace Table

variable {t t' : Table}

def Whole (t : Table) : Prop := ∀ ⦃id x⦄, t.symbol id = .ok x → x.Whole

/-- `t'` has the scopes and the declarations of `t`, each in its place, and all that is recorded of them. -/
structure Persists (t t' : Table) : Prop where
  outline : t'.outline = t.outline
  index : ∀ scope name, t'.lookupLocal scope name = t.lookupLocal scope name
  symbol : ∀ ⦃id x⦄, t.symbol id = .ok x → ∃ y, t'.symbol id = .ok y ∧ x.Persists y

theorem Grows.persists (h : t.Grows t') (ht : t.Whole) : t.Persists t' where
  outline := h.outline
  index scope name := by rw [← lookupLocal_outline, h.outline, lookupLocal_outline]
  symbol id x hx := by
    obtain ⟨y, hy, hxy⟩ := h.exists_symbol hx
    exact ⟨y, hy, hxy.persists (ht hx)⟩

theorem Fresh.whole (h : t.Fresh) : t.Whole := by
  intro id x hx
  obtain ⟨d, params, rfl⟩ := h hx
  exact .inl ⟨rfl, rfl, rfl⟩

theorem Whole.modifySymbol {id : SymbolId} {f : Symbol → Symbol} (h : t.Whole)
    (hf : ∀ x, t.symbol id = .ok x → x.Whole → (f x).Whole) : (t.modifySymbol id f).Whole := by
  intro id' y hy
  obtain ⟨_, hy⟩ | ⟨rfl, x, hx, rfl⟩ := symbol_of_modifySymbol hy
  · exact h hy
  · exact hf x hx (h hx)

end Table

namespace FullState

variable {d d' : FullState} {s : Step} {b : s.Answer}

theorem step_table (h : d.step s = .ok (b, d')) :
    d'.table = d.table ∨ ∃ id f, d'.table = d.table.modifySymbol id f ∧
      ∀ x, d.table.symbol id = .ok x → x.Grows (f x) ∧ (x.Whole → (f x).Whole) := by
  cases s with
  | freshTemp | freshLabel | enterLoop | exitLoop | enterSwitch | exitSwitch | breakLabel
  | continueLabel | allocate | enterFrame | exitFrame =>
    obtain ⟨_, _, rfl⟩ := keep_eq_ok h
    exact .inl rfl
  | endsInJump | className | isWanted | scope | scopeFor | lookup | lookupLocal | symbol | arraySize =>
    exact .inl (congrArg (·.table) (ask_eq_ok h))
  | begin | evaluate | emit | enterFunction | exitFunction | enterClass | exitClass | want | moveTo
  | report =>
    cases h
    exact .inl rfl
  | place id offset size =>
    obtain ⟨x, hx, ho, rfl⟩ := step_place_eq_ok.1 h
    refine .inr ⟨id, _, rfl, fun y hy => ?_⟩
    cases hx.symm.trans hy
    exact ⟨⟨rfl, by simp [ho], by simp [ho], by simp [ho]⟩, fun _ => .inr ⟨rfl, rfl⟩⟩
  | extend id | closeFunction id | closeClass id =>
    cases h
    exact .inr ⟨id, _, rfl, fun x _ => ⟨⟨rfl, fun _ => rfl, fun _ => rfl, fun _ => rfl⟩, fun h => h⟩⟩

/-- Later on, the table has grown out of what it was. -/
def Extends (d d' : FullState) : Prop := d.table.Grows d'.table ∧ (d.table.Whole → d'.table.Whole)

instance : IsTrans FullState Extends := ⟨fun _ _ _ h k => ⟨h.1.trans k.1, k.2 ∘ h.2⟩⟩

theorem step_extends (h : d.step s = .ok (b, d')) : d.Extends d' := by
  obtain ht | ⟨id, f, ht, hf⟩ := step_table h
  · rw [Extends, ht]
    exact ⟨.refl _, fun h => h⟩
  · rw [Extends, ht]
    exact ⟨.modifySymbol fun x hx => (hf x hx).1, fun h => h.modifySymbol fun x hx => (hf x hx).2⟩

end FullState

theorem Plan.visits_extends (plan : Plan α) (d : FullState) : (plan.visits d).Pairwise FullState.Extends :=
  List.isChain_iff_pairwise.1 (plan.visits_chain FullState.step_extends d)

/-- What was put aside is back, and the rest has grown. -/
structure FullState.GivesBack (d d' : FullState) : Prop where
  setting : d'.toSetting = d.toSetting
  saved : d'.ledger.saved = d.ledger.saved
  breaks : Fills d.ledger.targets.breaks d'.ledger.targets.breaks
  continues : Fills d.ledger.targets.continues d'.ledger.targets.continues
  temps : d.ledger.temps ≤ d'.ledger.temps
  labels : d.ledger.labels ≤ d'.ledger.labels
  cursor : d.ledger.cursor ≤ d'.ledger.cursor
  code : d.code <+: d'.code
  problems : d.problems <+: d'.problems

theorem Stmt.plan_givesBack {options : Options} {s : Stmt} {d d' : FullState}
    (h : (s.plan options).run d = .ok ((), d')) : d.GivesBack d' := by
  rw [s.plan_does.run] at h
  cases hs : s.lower (d.context options) d.toState with
  | error e => simp [hs, Functor.map, Except.map] at h
  | ok x =>
    rw [hs] at h
    cases h
    have hg := s.lower_grows hs
    exact ⟨rfl, hg.saved, hg.breaks, hg.continues, hg.temps, hg.labels, hg.cursor, ⟨x.1, rfl⟩,
      hg.problems⟩

namespace Program

/-- A statement that is lowered by hand puts back what it took away. So there is nothing left open at the
end of a program, whatever the program is. -/
theorem lower_balanced (options : Options) :
    (∀ (s : Stmt) (d : FullState),
      (s.plan options).run d = (fun x => ((), { d with toState := x.2, code := d.code ++ x.1 })) <$>
        s.lower (d.context options) d.toState ∧
      ∀ d', (s.plan options).run d = .ok ((), d') → d.GivesBack d') ∧
    ∀ (p : Program) (table : Table),
      (∀ code s, Runs (lowerAll p.statements) { options } (.start table options) code s →
        s.ledger.frameDepth = 0 ∧ s.ledger.loopDepth = 0) ∧
      p.lower table options = (fun x => ⟨x.1, x.2.table, x.2.problems⟩) <$>
        lowerAll p.statements { options } (.start table options) := by
  refine ⟨fun s d => ⟨s.plan_does.run d, fun d' h => Stmt.plan_givesBack h⟩, fun p table => ?_⟩
  -- the account at the end is that of the start, but for what is numbered on
  have hbalanced : ∀ code s, Runs (lowerAll p.statements) { options } (.start table options) code s →
      s.ledger.frameDepth = 0 ∧ s.ledger.loopDepth = 0 := by
    intro code s h
    have hg := lowerBody_grows _ h
    rw [Ledger.frameDepth, Ledger.loopDepth, hg.saved, hg.continues.nil_left]
    exact ⟨rfl, rfl⟩
  refine ⟨hbalanced, ?_⟩
  cases hr : lowerAll p.statements { options } (.start table options) with
  | error e =>
    change (lowerAll p.statements { options } (.start table options) >>= _) = _
    rw [hr]
    rfl
  | ok x =>
    obtain ⟨hf, hl⟩ := hbalanced x.1 x.2 hr
    exact runs_program.2 ⟨x.2, hr, hf, hl, rfl, rfl⟩

/-- A choice to leave a loop gives the loop's end its label. -/
theorem leaving_balanced :
    let s : Stmt := .ite (.bool true .unplaced) ⟨[.break .unplaced], .unplaced⟩ none .unplaced
    let d : FullState :=
      { FullState.start .empty {} with ledger := { layout := .folded, targets := ⟨[none], [none]⟩ } }
    ∃ d', (s.plan {}).run d = .ok ((), d') ∧ d'.ledger.targets = ⟨[some ⟨2⟩], [none]⟩ ∧
      d.GivesBack d' := by
  intro s d
  have h : (fun x : Unit × FullState => x.2.ledger.targets) <$> ((s.plan {}).run d).toOption =
      some ⟨[some ⟨2⟩], [none]⟩ := by
    decide +kernel
  obtain ⟨⟨_, d'⟩, hr, ht⟩ := exists_of_check h
  exact ⟨d', hr, ht, ((lower_balanced {}).1 s d).2 d' hr⟩

theorem lower_run {p : Program} {table : Table} {options : Options} {out : Lowered}
    (h : p.lower table options = .ok out) :
    ∃ d, (planAll options p.statements).run (.start table options) = .ok ((), d) ∧
      out = ⟨d.code, d.table, d.problems⟩ := by
  obtain ⟨s, hr, _, _, ht, hp⟩ := runs_program.1 h
  exact ⟨_, (planBody_does p.statements _).run_of_runs (d := .start table options) hr, by
    cases out
    simp_all [FullState.start]⟩

theorem compile_run {p : Program} {options : Options} {out : Compiled} (h : p.compile options = .ok out) :
    ∃ d, (planAll options p.statements).run (.start p.collect.table options) = .ok ((), d) ∧
      d.code = out.code ∧ d.problems = [] := by
  obtain ⟨_, hl⟩ := compile_eq_ok.1 h
  obtain ⟨d, hr, hd⟩ := lower_run hl
  obtain ⟨hc, _, hp⟩ := Lowered.mk.inj hd
  exact ⟨d, hr, hc.symm, hp.symm⟩

/-- Lowering touches nothing of what is declared, and nothing of what is recorded already. -/
theorem lower_persists {p : Program} {options : Options} {out : Lowered}
    (h : p.lower p.collect.table options = .ok out) :
    let states := (planAll options p.statements).visits (.start p.collect.table options)
    p.collect.table.Persists out.table ∧
    states.head?.map (·.table) = some p.collect.table ∧
    states.getLast?.map (fun d => (d.table, d.code, d.problems)) =
      some (out.table, out.code, out.problems) ∧
    states.Pairwise fun d d' => d.table.Persists d'.table := by
  intro states
  have hwhole : p.collect.table.Whole := p.collect_fresh.whole
  obtain ⟨s, hr, _, _, ht, _⟩ := runs_program.1 h
  obtain ⟨d, hrun, hout⟩ := lower_run h
  -- every state is extended by all later ones, so it is enough that the first table is whole
  have hall : states.Pairwise FullState.Extends := Plan.visits_extends _ _
  obtain ⟨rest, hd⟩ : ∃ rest, states = .start p.collect.table options :: rest :=
    Plan.visits_eq_cons _ _
  refine ⟨?_, ?_, ?_, hall.imp_of_mem fun {d d'} hm _ hext => hext.1.persists ?_⟩
  · rw [show out.table = s.table from ht]
    exact (lowerBody_grows _ hr).table.persists hwhole
  · rw [hd]
    rfl
  · rw [show states.getLast? = _ from Plan.getLast_visits hrun, hout]
    rfl
  · rw [hd] at hall hm
    obtain rfl | hm := List.mem_cons.1 hm
    · exact hwhole
    · exact ((List.pairwise_cons.1 hall).1 d hm).2 hwhole

def storing : Program :=
  ⟨[.declare ⟨"xs", none, some (.array [.int 1 .unplaced, .int 2 .unplaced] .unplaced), false,
      .atLine 1⟩,
    .foreach "x" (.ident "xs" .unplaced) ⟨[.print (.ident "x" .unplaced) .unplaced], .atLine 2⟩
      .unplaced,
    .class ⟨"C", none, [.field ⟨"a", none, some (.int 1 .unplaced), false, .atLine 3⟩,
      .method ⟨"m", [⟨"n", none, .atLine 4⟩], none, ⟨[.return (some (.ident "n" .unplaced)) .unplaced],
        .atLine 5⟩, .atLine 5⟩], .atLine 6⟩], .unplaced⟩

theorem storing_persists :
    ∃ out, storing.lower storing.collect.table {} = .ok out ∧
      out.table.symbols.map (fun x => (x.name, x.offset, x.size)) =
        [("xs", some 0, 16), ("C", none, 0), ("x", some 16, 4), ("a", some 0, 4), ("m", none, 0),
          ("n", some 0, 4)] ∧
      storing.collect.table.Persists out.table ∧
      ((planAll {} storing.statements).visits (.start storing.collect.table {})).Pairwise
        fun d d' => d.table.Persists d'.table := by
  have h : (fun out : Lowered => out.table.symbols.map fun x => (x.name, x.offset, x.size)) <$>
      (storing.lower storing.collect.table {}).toOption =
      some [("xs", some 0, 16), ("C", none, 0), ("x", some 16, 4), ("a", some 0, 4), ("m", none, 0),
        ("n", some 0, 4)] := by
    decide +kernel
  obtain ⟨out, ho, hs⟩ := exists_of_check h
  obtain ⟨ht, _, _, hd⟩ := lower_persists ho
  exact ⟨out, ho, hs, ht, hd⟩

end Program

end ThreeAddress
