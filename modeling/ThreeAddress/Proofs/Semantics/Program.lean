import ThreeAddress.Proofs.Labels.Program
import ThreeAddress.Proofs.Scope.Collect
import ThreeAddress.Proofs.Semantics.Statements

namespace ThreeAddress

open Lowering Lower Config

variable [DecidableEq V] {M : Model V} {code : Code} {mode : CaseExit} {fuel : Nat}

theorem Block.lower_realizes {b : Block}
    (h : ∀ s ∈ b.body, Realizes M code mode fuel s.lower (s.exec M mode fuel)) :
    Realizes M code mode fuel b.lower (b.exec M mode fuel) := by
  rw [Block.lower_eq, Block.exec_eq]
  exact lowerAll_realizes h

theorem Block.lower_grows (b : Block) : Keeps State.Grows b.lower := by
  rw [Block.lower_eq]
  exact lowerBody_grows _

theorem lowerOption_realizes (M : Model V) (mode : CaseExit) (fuel : Nat) {s : Option Stmt}
    (h : ∀ s' ∈ s, s'.Simple) (hn : code.placed.Nodup) :
    ∃ f, (match s with
        | none => Action.skip
        | some s => s.exec M mode fuel) = .update f ∧
      Realizes M code mode fuel (lowerOption s) (.update f) ∧
      (¬s.isSome → lowerOption s = pure [] ∧ f = id) := by
  cases s with
  | none =>
    refine ⟨id, rfl, ?_, fun _ => ⟨by rw [lowerOption], rfl⟩⟩
    rw [lowerOption]
    exact pure_realizes
  | some s =>
    obtain ⟨f, he, hr⟩ := (h s rfl).realizes M mode fuel hn
    refine ⟨f, he, ?_, by simp⟩
    rw [lowerOption]
    exact hr

theorem foreach_realizes {item collection : String} {pos span : Span} {body : Block}
    (hn : code.placed.Nodup) (hb : Realizes M code mode fuel body.lower (body.exec M mode fuel)) :
    Realizes M code mode fuel (Stmt.foreach item (.ident collection pos) body span).lower
      ((Stmt.foreach item (.ident collection pos) body span).exec M mode fuel) := by
  rw [Stmt.lower, Stmt.exec]
  refine Realizes.inBlock (fun c σ seg σ' hr hm hp ht => ?_) _
  simp only [runs_bind, runs_pure] at hr
  obtain ⟨y, s₁, h₁, bound, _, h₂, inner, _, h₃, rfl, rfl⟩ := hr
  have hs₁ := Expr.lower_advances _ _ h₁
  obtain ⟨v, hv, rfl⟩ := Expr.runs_ident.1 h₁
  obtain rfl := nameOperand_plain hv ht
  have ht₁ : s₁.table.Plain := hs₁.table ▸ ht
  obtain ⟨rfl, rfl | ⟨_, _, id, x, n, _, _, hx, hd, _⟩⟩ := runs_loopBound h₂
  · obtain ⟨ht', hf⟩ := indexLoop_realizes hn hb body.lower_grows h₃ hm hp ht₁
    exact ⟨ht', fun ex hex k ha ts w =>
      ⟨(hf hex ha ts w).1.mono hs₁.temps, (hf hex ha ts w).2⟩⟩
  -- in this fragment no array has recorded extents, so the bound is read off the value
  · rw [(ht₁ hx).2] at hd
    cases hd

theorem Stmt.Structured.realizes {s : Stmt} (hs : s.Structured) (hn : code.placed.Nodup) :
    Realizes M code mode fuel s.lower (s.exec M mode fuel) := by
  induction hs with
  | simple h =>
    obtain ⟨f, he, hr⟩ := h.realizes M mode fuel hn
    rw [he]
    exact hr
  | print he =>
    rw [Stmt.exec]
    exact print_realizes he hn
  | block _ ih =>
    rw [Stmt.lower, Stmt.exec]
    exact (Block.lower_realizes ih).inBlock _
  | @ite no c yes _ hc _ _ ihy ihn =>
    have hy := (Block.lower_realizes ihy).inBlock yes.span
    cases no with
    | none =>
      rw [Stmt.lower, Stmt.exec]
      exact ifThen_realizes hn hc hy
    | some no =>
      rw [Stmt.lower, Stmt.exec]
      exact ifThenElse_realizes hn hc hy ((Block.lower_realizes (ihn no rfl)).inBlock _)
        (yes.lower_grows.inBlock _) (no.lower_grows.inBlock _)
  | @whileLoop c body _ hc _ ih =>
    rw [Stmt.lower, Stmt.exec]
    exact whileLoop_realizes hn hc ((Block.lower_realizes ih).inBlock _)
      (body.lower_grows.inBlock _)
  | @doWhile body c _ _ hc ih =>
    rw [Stmt.lower, Stmt.exec]
    exact doWhile_realizes hn hc ((Block.lower_realizes ih).inBlock _) (body.lower_grows.inBlock _)
  | @forLoop first test step body _ hf ht hs _ ih =>
    rw [Stmt.lower, Stmt.exec_for]
    obtain ⟨f, hfe, hfr, _⟩ := lowerOption_realizes M mode fuel hf hn
    obtain ⟨g, hge, hgr, hg⟩ := lowerOption_realizes M mode fuel hs hn
    have := (forLoop_realizes hn ht hfr hgr (Block.lower_realizes ih) hg
      (lowerOption_grows _) body.lower_grows
      (lowerOption_grows _)).inBlock body.span
    rw [← hfe, ← hge] at this
    exact this
  | foreach _ ih => exact foreach_realizes hn (Block.lower_realizes ih)
  | @switch cases other subject _ hs hv _ _ ihc ihd =>
    rw [Stmt.lower_switch]
    have hc := fun k hk => lowerAll_realizes (ihc k hk)
    cases other with
    | none =>
      rw [Stmt.exec]
      exact switch_realizes hn hs hv hc
    | some body =>
      rw [Stmt.exec]
      exact switchDefault_realizes hn hs hv hc (lowerAll_realizes (ihd body rfl))
  | exit =>
    rw [Stmt.exec]
    exact break_realizes _
  | next => exact continue_realizes _

theorem Table.Fresh.plain {t : Table} (h : t.Fresh) : t.Plain := by
  intro id x hx
  obtain ⟨d, params, rfl⟩ := h hx
  exact ⟨rfl, rfl⟩

theorem Program.compile_follows {p : Program} {options : Options} {out : Compiled}
    (hp : ∀ s ∈ p.statements, s.Structured) (h : p.compile options = .ok out) (fuel : Nat)
    (ts : Temp → V) (w : World V) :
    Follows M out.code fuel 0 {} ⟨0, ts, w⟩ out.code.length
      (execAll M options.caseExit fuel p.statements w) := by
  obtain ⟨_, h⟩ := compile_eq_ok.1 h
  obtain ⟨s, hr, _, _, _, hq⟩ := runs_program.1 h
  have hn : out.code.placed.Nodup := (lowerAll_numbers hr).1.nodup_iff.2 (Label.nodup_upTo _)
  have ht : (State.start p.collect.table options).table.Plain := p.collect_fresh.plain
  obtain ⟨_, hf⟩ := lowerAll_realizes (fun s hs => (hp s hs).realizes (M := M) hn) hr rfl hq.symm ht
  have := hf (Exits.settles_outside (lowerBody_grows _ hr) rfl) out.code.at_self ts w
  simpa using this.1

theorem Program.ends_of_halts {p : Program} {options : Options} {out : Compiled} {ts : Temp → V}
    {w : World V} {b : Config V} (hp : ∀ s ∈ p.statements, s.Structured)
    (h : p.compile options = .ok out) (hb : Halts M out.code ⟨0, ts, w⟩ b) :
    b.pc = out.code.length ∧ p.Ends M options.caseExit w b.world := by
  obtain ⟨fuel, hs⟩ := hb.not_survives
  have hf := compile_follows (M := M) hp h fuel ts w
  match he : execAll M options.caseExit fuel p.statements w with
  | none =>
    rw [he] at hf
    exact absurd hf hs
  | some (.normal, w') =>
    rw [he] at hf
    obtain ⟨ts', hr⟩ := hf
    rw [hb.unique hr.halts]
    exact ⟨rfl, fuel, he⟩
  | some (.break, w') =>
    rw [he] at hf
    obtain ⟨_, _, _, ho, _⟩ := hf
    cases ho
  | some (.continue, w') =>
    rw [he] at hf
    obtain ⟨_, _, _, ho, _⟩ := hf
    cases ho

/-- The machine stands still at last if and only if the program ends; it then stands behind the last
instruction, has printed the same, and every variable has the same value. -/
theorem Program.compile_preserves {p : Program} {options : Options} {out : Compiled}
    (hp : ∀ s ∈ p.statements, s.Structured) (h : p.compile options = .ok out) (M : Model V)
    (ts : Temp → V) (w : World V) :
    (∀ b, Halts M out.code ⟨0, ts, w⟩ b → b.pc = out.code.length) ∧
      ∀ w', (∃ b, Halts M out.code ⟨0, ts, w⟩ b ∧ b.world = w') ↔
        p.Ends M options.caseExit w w' := by
  refine ⟨fun b hb => (ends_of_halts hp h hb).1, fun w' => ⟨?_, ?_⟩⟩
  · rintro ⟨b, hb, rfl⟩
    exact (ends_of_halts hp h hb).2
  · rintro ⟨fuel, he⟩
    have hf := compile_follows (M := M) hp h fuel ts w
    rw [he] at hf
    obtain ⟨ts', hr⟩ := hf
    exact ⟨_, hr.halts, rfl⟩

def Model.numbers : Model Int where
  int n := n
  str _ := 0
  null := 0
  binary op a b := match op with
    | .add => a + b
    | .lt => if a < b then 1 else 0
    | _ => 0
  unary _ a := a
  element _ _ := 0
  field _ _ := 0

def Program.counting : Program :=
  let at_ : Span := .atLine 1
  let x : Expr := .ident "x" at_
  ⟨[.declare ⟨"x", none, some (.int 0 at_), false, at_⟩,
    .while (.binary x .lt (.int 3 at_) at_)
      ⟨[.print x at_, .assign (.ident "x") (.binary x .add (.int 1 at_) at_) at_,
        .switch x [⟨.int 2 at_, [.break at_], at_⟩] (some [.continue at_]) at_], .atLine 2⟩ at_], at_⟩

theorem Program.counting_preserved :
    ∃ out, counting.compile {} = .ok out ∧
      ∃ w', counting.Ends .numbers .implicitBreak ⟨fun _ => 0, []⟩ w' ∧ w'.printed = [0, 1, 2] ∧
        ∀ ts, ∃ b, Halts .numbers out.code ⟨0, ts, ⟨fun _ => 0, []⟩⟩ b ∧ b.world = w' := by
  have hc : (·.code.length) <$> (counting.compile {}).toOption = some 22 := by decide +kernel
  obtain ⟨out, ho, _⟩ := exists_of_check hc
  have hs : ∀ s ∈ counting.statements, s.Structured := by
    have hx : Expr.Scalar (.ident "x" (.atLine 1)) := .ident
    simp only [counting, List.forall_mem_cons, List.not_mem_nil, false_imp_iff, implies_true, and_true]
    refine ⟨.simple (.declare (by rintro _ ⟨⟩; exact .int)), .whileLoop (.binary hx .int) ?_⟩
    simp only [List.forall_mem_cons, List.not_mem_nil, false_imp_iff, implies_true, and_true]
    refine ⟨.print hx, .simple (.assign (.binary hx .int)), .switch hx ?_ ?_ ?_⟩
    · simpa using .int
    · simpa using .exit
    · simpa using .next
  have he : (execAll .numbers .implicitBreak 4 counting.statements ⟨fun _ => 0, []⟩).map
      (fun r => (r.1, r.2.printed)) = some (.normal, [0, 1, 2]) := by decide +kernel
  obtain ⟨⟨ex, w'⟩, he, hw⟩ := Option.map_eq_some_iff.1 he
  obtain ⟨rfl, hw⟩ := Prod.mk.inj hw
  have hw' : counting.Ends .numbers .implicitBreak ⟨fun _ => 0, []⟩ w' := ⟨4, he⟩
  exact ⟨out, ho, w', hw', hw, fun ts => ((compile_preserves hs ho .numbers ts _).2 w').2 hw'⟩

end ThreeAddress
