import ThreeAddress.Proofs.Semantics.Flow
import ThreeAddress.Proofs.Semantics.Values

namespace ThreeAddress

open Lowering Lower Config

variable [DecidableEq V] {M : Model V} {code : Code} {mode : CaseExit} {fuel : Nat}

/-- Wherever the code of the action stands, the machine follows `run` on it. -/
def Lower.Realizes (M : Model V) (code : Code) (mode : CaseExit) (fuel : Nat) (act : Lower Code)
    (run : Action V) : Prop :=
  ∀ ⦃c σ seg σ'⦄, Runs act c σ seg σ' → c.options.caseExit = mode → σ'.problems = [] →
    σ.table.Plain → σ'.table.Plain ∧ ∀ ⦃ex⦄, Exits.Settles ex σ'.targets → ∀ ⦃k⦄, code.At k seg →
      ∀ ts w, Follows M code fuel σ.ledger.temps ex ⟨k, ts, w⟩ (k + seg.length) (run w) ∧
        ∀ w', run w = some (.normal, w') → ¬seg.endsInJump

theorem Table.Plain.modifySymbol {t : Table} {id : SymbolId} {f : Symbol → Symbol} (h : t.Plain)
    (hf : ∀ x, (f x).name = x.name ∧ (f x).place = x.name ∧ (f x).dimensions = x.dimensions) :
    (t.modifySymbol id f).Plain := by
  intro id' y hy
  obtain ⟨_, hy⟩ | ⟨_, x, hx, rfl⟩ := symbol_of_modifySymbol hy
  · exact h hy
  · rw [(hf x).2.1, (hf x).1, (hf x).2.2]
    exact ⟨rfl, (h hx).2⟩

namespace Lower

variable {c : Context} {s s' : State}

theorem bindStorage_plain {id : SymbolId} {size : Nat} {u : Unit}
    (h : Runs (bindStorage id size) c s u s') (hp : s.table.Plain) : s'.table.Plain := by
  obtain ⟨_, x, _, _, rfl⟩ := runs_bindStorage.1 h
  exact hp.modifySymbol fun _ => ⟨rfl, rfl, rfl⟩

theorem bindLocal_plain {name : String} {span : Span} {u : Unit}
    (h : Runs (bindLocal name span) c s u s') (hp : s.table.Plain) : s'.table.Plain := by
  obtain ⟨_, rfl⟩ | ⟨id, x, _, _, h⟩ := runs_bindLocal.1 h
  · exact hp
  · exact bindStorage_plain h hp

theorem account_table {act : Account α} {a : α} (h : Runs (account act) c s a s') :
    s'.table = s.table := by
  obtain ⟨_, _, rfl⟩ := runs_account.1 h
  rfl

theorem guarding_realizes {uses : List Use} {whole : Span} {act : Lower Code} {run : Action V}
    (h : Realizes M code mode fuel act run) :
    Realizes M code mode fuel (guarding uses whole act) run :=
  fun _ _ _ _ hr hm hp ht => h (runs_of_guarding hr hp) hm hp ht

theorem realizes_update {act : Lower Code} {f : World V → World V}
    (h : ∀ ⦃c σ seg σ'⦄, Runs act c σ seg σ' → σ'.problems = [] → σ.table.Plain →
      σ'.table.Plain ∧ ¬seg.endsInJump ∧ ∀ ⦃k⦄, code.At k seg → ∀ ts w,
        ∃ ts', Reaches M code σ.ledger.temps ⟨k, ts, w⟩ ⟨k + seg.length, ts', f w⟩) :
    Realizes M code mode fuel act (.update f) := by
  intro c σ seg σ' hr _ hp ht
  obtain ⟨ht, he, h⟩ := h hr hp ht
  exact ⟨ht, fun ex _ k ha ts w => ⟨h ha ts w, fun _ _ => he⟩⟩

theorem pure_realizes : Realizes M code mode fuel (pure []) .skip := by
  refine realizes_update fun c σ seg σ' hr _ ht => ?_
  obtain ⟨rfl, rfl⟩ := runs_pure.1 hr
  exact ⟨ht, by simp, fun k _ ts w => ⟨ts, .refl _ _⟩⟩

end Lower

theorem Valued.Computes.stored {m n k : Nat} {y : Valued} {f : (String → V) → V} {name : String}
    (h : Valued.Computes M code m n y f) (ha : code.At k (y.1 ++ [.assign (.var name) y.2]))
    (ts : Temp → V) (w : World V) :
    ∃ ts', Reaches M code m ⟨k, ts, w⟩
      ⟨k + (y.1 ++ [Instruction.assign (.var name) y.2]).length, ts', w.set name (f w.store)⟩ := by
  obtain ⟨ha, hb, _⟩ := Code.at_append.1 ha
  obtain ⟨ts₁, hr, hv⟩ := h.runs ha ts w
  have := hr.trans (reaches_assign_var hb)
  rw [hv] at this
  exact ⟨ts₁, this.cast (by simp; omega)⟩

theorem Stmt.Simple.realizes {s : Stmt} (hs : s.Simple) (M : Model V) (mode : CaseExit) (fuel : Nat)
    (hn : code.placed.Nodup) :
    ∃ f, s.exec M mode fuel = .update f ∧ Realizes M code mode fuel s.lower (.update f) := by
  cases hs with
  | @declare b hb =>
    refine ⟨fun w => (b.value.map fun e => w.set b.name (e.eval M w.store)).getD w, ?_, ?_⟩
    · rw [Stmt.exec]
      cases b.value <;> rfl
    rw [Stmt.lower]
    refine guarding_realizes (realizes_update fun c σ seg σ' hr hp ht => ?_)
    obtain ⟨_, _, rfl⟩ | ⟨_, es, at_, _, hv, _⟩ | ⟨id, x, u, s₁, _, _, hb', hr⟩ := b.runs_lower hr
    · simp at hp
    · cases hb _ hv
    have ht := bindStorage_plain hb' ht
    have hs₁ := bindStorage_binds _ _ hb'
    obtain ⟨hv, rfl, rfl⟩ | ⟨e, y, hv, _, hy, rfl⟩ := hr
    · refine ⟨ht, by simp, fun k _ ts w => ⟨ts, ?_⟩⟩
      rw [hv]
      exact .refl _ _
    · have hc : Valued.Computes M code _ _ y (e.eval M) :=
        storable_computes ((hb e hv).lower_computes hn _) (e.lower_advances _) hy ht
      have ha : s₁.Advances σ' := storable_keeps (e.lower_advances _) hy
      refine ⟨ha.table ▸ ht, by simp [Instruction.isJump], fun k ha ts w => ?_⟩
      rw [hv, ← hs₁.sameTemps]
      exact hc.stored ha ts w
  | @assign name e at_ he =>
    refine ⟨fun w => w.set name (e.eval M w.store), by rw [Stmt.exec], ?_⟩
    rw [Stmt.lower]
    refine guarding_realizes (realizes_update fun c σ seg σ' hr hp ht => ?_)
    obtain ⟨_, _, rfl⟩ | ⟨_, es, at_, _, rfl, _⟩ | ⟨id, x, y, hl, hx, _, hy, rfl⟩ :=
      Target.runs_assign_ident hr
    · simp at hp
    · cases he
    have hc : Valued.Computes M code _ _ y (e.eval M) :=
      storable_computes (he.lower_computes hn _) (e.lower_advances _) hy ht
    have ha : σ.Advances σ' := storable_keeps (e.lower_advances _) hy
    have hname : x.address.getD name = name := by
      rw [← Table.lookup_name hl hx]
      exact (ht hx).1
    rw [hname]
    exact ⟨ha.table ▸ ht, by simp [Instruction.isJump], fun k ha ts w => hc.stored ha ts w⟩
  | @eval e at_ he =>
    refine ⟨id, by rw [Stmt.exec, Action.skip], ?_⟩
    rw [Stmt.lower]
    refine guarding_realizes (realizes_update fun c σ seg σ' hr hp ht => ?_)
    simp only [runs_bind, runs_pure] at hr
    obtain ⟨y, _, hy, rfl, rfl⟩ := hr
    have hc : Valued.Computes M code _ _ y (e.eval M) := he.lower_computes hn _ hy ht
    refine ⟨(e.lower_advances _ hy).table ▸ ht, hc.falls, fun k ha ts w => ?_⟩
    obtain ⟨ts', hr, _⟩ := hc.runs ha ts w
    exact ⟨ts', hr⟩

theorem print_realizes {e : Expr} {span : Span} (he : e.Scalar) (hn : code.placed.Nodup) :
    Realizes M code mode fuel (Stmt.lower (.print e span))
      (.update fun w => w.print (e.eval M w.store)) := by
  rw [Stmt.lower]
  refine guarding_realizes (realizes_update fun c σ seg σ' hr hp ht => ?_)
  simp only [runs_bind, runs_pure] at hr
  obtain ⟨y, _, hy, rfl, rfl⟩ := hr
  have hc : Valued.Computes M code _ _ y (e.eval M) :=
    argument_computes (he.lower_computes hn _) (e.lower_advances _) hy ht
  have ha : σ.Advances _ := argument_keeps (e.lower_advances _) hy
  refine ⟨ha.table ▸ ht, by simp [Instruction.isJump], fun k ha ts w => ?_⟩
  obtain ⟨ha, hb, _⟩ := Code.at_append.1 ha
  obtain ⟨ts₁, hr, hv⟩ := hc.runs ha ts w
  have := hr.trans (reaches_print hb)
  rw [hv] at this
  exact ⟨ts₁, this.cast (by simp; omega)⟩

theorem lowerAll_realizes {body : List Stmt}
    (h : ∀ s ∈ body, Realizes M code mode fuel s.lower (s.exec M mode fuel)) :
    Realizes M code mode fuel (lowerAll body) (execAll M mode fuel body) := by
  induction body with
  | nil =>
    rw [lowerAll, execAll]
    exact pure_realizes
  | cons s rest ih =>
    rw [lowerAll, execAll]
    intro c σ seg σ' hr hm hp ht
    simp only [runs_bind, runs_pure] at hr
    obtain ⟨first, σ₁, h₁, second, _, h₂, rfl, rfl⟩ := hr
    have hg₁ := s.lower_grows h₁
    have hg₂ := lowerBody_grows rest h₂
    obtain ⟨ht₁, hf⟩ := h s (by simp) h₁ hm (hg₂.quiet hp) ht
    obtain ⟨ht₂, hs⟩ := ih (fun s hs => h s (by simp [hs])) h₂ hm hp ht₁
    refine ⟨ht₂, fun ex hex k ha ts w => ?_⟩
    obtain ⟨ha, hb⟩ := Code.at_append.1 ha
    have hex₁ := hex.before hg₂
    constructor
    · refine (hf hex₁ ha ts w).1.seq fun ts w => ?_
      exact ((hs hex hb ts w).1.mono hg₁.temps).cast (by simp; omega)
    · intro w' hw
      obtain ⟨w₁, hx, hy⟩ := seq_eq_normal hw
      by_cases hn : second = []
      · simpa [hn] using (hf hex₁ ha ts w).2 w₁ hx
      · simpa [hn] using (hs hex hb ts w₁).2 w' hy

namespace Lower

variable {act body other : Lower Code} {run run' : Action V}

theorem Realizes.inBlock (h : Realizes M code mode fuel act run) (span : Span) :
    Realizes M code mode fuel (inBlock span act) run :=
  fun _ _ _ _ hr hm => h (runs_inBlock.1 hr) hm

section Test

variable {e : Expr} {c : Context} {σ σ' : State} {head : Code} {v : Operand} {l : Label} {j k : Nat}

theorem reaches_unless (he : e.Scalar) (hn : code.placed.Nodup)
    (hr : Runs (e.lower .value) c σ (head, v) σ') (ht : σ.table.Plain) (ha : code.At k head)
    (hb : code[k + head.length]? = some (.branch v .eq (.int 0) l))
    (hl : code[j]? = some (.label l)) (ts : Temp → V) (w : World V) :
    ∃ ts', Reaches M code σ.ledger.temps ⟨k, ts, w⟩
      ⟨if e.holds M w then k + head.length + 1 else j, ts', w⟩ := by
  obtain ⟨ts₁, r₁, v₁⟩ := (he.lower_computes (M := M) hn _ hr ht).runs ha ts w
  refine ⟨ts₁, (r₁.trans (reaches_branch hn hb hl)).cast ?_⟩
  rw [v₁]
  by_cases hd : e.eval M w.store = M.int 0 <;> simp [hd, Expr.holds_iff, Operand.read]

theorem reaches_if (he : e.Scalar) (hn : code.placed.Nodup)
    (hr : Runs (e.lower .value) c σ (head, v) σ') (ht : σ.table.Plain) (ha : code.At k head)
    (hb : code[k + head.length]? = some (.branch v .ne (.int 0) l))
    (hl : code[j]? = some (.label l)) (ts : Temp → V) (w : World V) :
    ∃ ts', Reaches M code σ.ledger.temps ⟨k, ts, w⟩
      ⟨if e.holds M w then j else k + head.length + 1, ts', w⟩ := by
  obtain ⟨ts₁, r₁, v₁⟩ := (he.lower_computes (M := M) hn _ hr ht).runs ha ts w
  refine ⟨ts₁, (r₁.trans (reaches_branch hn hb hl)).cast ?_⟩
  rw [v₁]
  by_cases hd : e.eval M w.store = M.int 0 <;> simp [hd, Expr.holds_iff, Operand.read]

end Test

section Forms

variable {e : Expr}

theorem ifThen_realizes (hn : code.placed.Nodup) (he : e.Scalar)
    (hb : Realizes M code mode fuel body run) :
    Realizes M code mode fuel (ifThen (e.lower .value) body) (.ite (e.holds M) run .skip) := by
  intro c σ seg σ' hr hm hp ht
  obtain ⟨head, v, s₁, h₁, _, inner, h₂, rfl⟩ := runs_ifThen.1 hr
  have hs₁ := e.lower_advances _ h₁
  obtain ⟨ht', hf⟩ := hb h₂ hm hp (hs₁.table ▸ ht)
  refine ⟨ht', fun ex hex k ha ts w => ⟨?_, fun _ _ => by simp [Instruction.isJump]⟩⟩
  simp only [List.append_assoc, List.cons_append, Code.at_append, Code.at_cons] at ha
  obtain ⟨c₁, c₂, c₃, c₄, _⟩ := ha
  obtain ⟨ts₁, r₁⟩ := reaches_unless (M := M) he hn h₁ ht c₁ c₂ c₄ ts w
  by_cases hd : e.holds M w
  · rw [Action.ite, if_pos hd]
    rw [if_pos hd] at r₁
    have := ((hf hex c₃ ts₁ w).1.mono hs₁.temps).after r₁
    exact (this.extend fun ts w => reaches_label c₄).cast (by simp; omega)
  · rw [Action.ite, if_neg hd]
    rw [if_neg hd] at r₁
    exact ⟨ts₁, (r₁.trans (reaches_label c₄)).cast (by simp; omega)⟩

theorem ifThenElse_realizes (hn : code.placed.Nodup) (he : e.Scalar)
    (hb : Realizes M code mode fuel body run) (ho : Realizes M code mode fuel other run')
    (hg : Keeps State.Grows body) (hg' : Keeps State.Grows other) :
    Realizes M code mode fuel (ifThenElse (e.lower .value) body other)
      (.ite (e.holds M) run run') := by
  intro c σ seg σ' hr hm hp ht
  obtain ⟨head, v, s₁, h₁, _, first, s₂, h₂, _, second, h₃, rfl⟩ := runs_ifThenElse.1 hr
  have hs₁ := e.lower_advances _ h₁
  have hs₂ := (State.Grows.nextLabel s₁).trans (hg h₂)
  have hs₃ := (State.Grows.nextLabel s₂).trans (hg' h₃)
  obtain ⟨ht₂, hf⟩ := hb h₂ hm (hs₃.quiet hp) (hs₁.table ▸ ht)
  obtain ⟨ht₃, hs⟩ := ho h₃ hm hp ht₂
  refine ⟨ht₃, fun ex hex k ha ts w => ⟨?_, fun _ _ => by simp [Instruction.isJump]⟩⟩
  simp only [List.append_assoc, List.cons_append, Code.at_append, Code.at_cons] at ha
  obtain ⟨c₁, c₂, c₃, c₄, c₅, c₆, c₇, _⟩ := ha
  obtain ⟨ts₁, r₁⟩ := reaches_unless (M := M) he hn h₁ ht c₁ c₂ c₅ ts w
  by_cases hd : e.holds M w
  · rw [Action.ite, if_pos hd]
    rw [if_pos hd] at r₁
    have := ((hf (hex.before hs₃) c₃ ts₁ w).1.mono hs₁.temps).after r₁
    have := this.extend fun ts w => (reaches_goto hn c₄ c₇).trans (reaches_label c₇)
    exact this.cast (by simp; omega)
  · rw [Action.ite, if_neg hd]
    rw [if_neg hd] at r₁
    have := ((hs hex c₆ ts₁ w).1.mono (Nat.le_trans hs₁.temps hs₂.temps)).after
      (r₁.trans (reaches_label c₅))
    exact (this.extend fun ts w => reaches_label c₇).cast (by simp; omega)

theorem whileLoop_realizes (hn : code.placed.Nodup) (he : e.Scalar)
    (hb : Realizes M code mode fuel body run) (hg : Keeps State.Grows body) :
    Realizes M code mode fuel (whileLoop (e.lower .value) body)
      (.loop (e.holds M) run .skip fuel) := by
  intro c σ seg σ' hr hm hp ht
  obtain ⟨_, head, v, s₁, h₁, _, inner, s₂, h₂, rfl, rfl⟩ := runs_whileLoop.1 hr
  have hs₁ := e.lower_advances _ h₁
  have hs₂ := hg h₂
  obtain ⟨ht₂, hf⟩ := hb h₂ hm hp (hs₁.table ▸ ht)
  refine ⟨ht₂, fun ex _ k ha ts w => ⟨?_, fun _ _ => by simp [Instruction.isJump]⟩⟩
  have hex := Exits.settles_loop hs₂
  rw [hs₂.breakLabel?_eq, hs₂.continueLabel?_eq] at hex
  simp only [List.append_assoc, List.cons_append, Code.at_append, Code.at_cons] at ha
  obtain ⟨c₁, c₂, c₃, c₄, c₅, c₆, _⟩ := ha
  have hnext (l : Label) (hl : some σ.label = some l) : code[k + 1 + head.length + 1 + inner.length]?
      = some (.label l) ∨ code[k]? = some (.label l) ∧ (id : World V → World V) = id := by
    cases hl
    exact .inr ⟨c₁, rfl⟩
  have hloop := follows_loop hn c₁ (reaches_unless he hn h₁ ht c₂ c₃ c₆) (by simp)
    (fun ts w => (hf hex c₄ ts w).1.mono hs₁.temps) (fun ts w => ⟨ts, reaches_goto hn c₅ c₁⟩)
    ⟨c₆, trivial⟩ hnext ex ts w
  exact hloop.1.cast (by simp [place]; omega)

theorem doWhile_realizes (hn : code.placed.Nodup) (he : e.Scalar)
    (hb : Realizes M code mode fuel body run) (hg : Keeps State.Grows body) :
    Realizes M code mode fuel (doWhile body (e.lower .value))
      (.doWhile run (e.holds M) fuel) := by
  intro c σ seg σ' hr hm hp ht
  obtain ⟨_, inner, s₁, h₁, tail, v, s₂, h₂, rfl, rfl⟩ := runs_doWhile.1 hr
  have hs₁ := hg h₁
  have hs₂ := e.lower_advances _ h₂
  obtain ⟨ht₁, hf⟩ := hb h₁ hm (hs₂.grows.quiet hp) ht
  have hex := Exits.settles_loop hs₁
  rw [hs₁.continueLabel?_eq, show s₁.breakLabel? = s₂.breakLabel? by
    rw [State.breakLabel?, State.breakLabel?, State.targets, State.targets, hs₂.targets]] at hex
  refine ⟨hs₂.table ▸ ht₁, fun ex _ k ha ts w => ⟨?_, fun _ _ => ?_⟩⟩
  · simp only [List.append_assoc, List.cons_append, Code.at_append, Code.at_cons] at ha
    obtain ⟨c₁, c₂, c₃, c₄, c₅⟩ := ha
    have htest (ts : Temp → V) (w : World V) := reaches_if (M := M) he hn h₂ ht₁ c₃ c₄ c₁ ts w
    have hloop := follows_doWhile hn c₁ (fun ts w => (hf hex c₂ ts w).1)
      (fun ts w => (htest ts w).imp fun _ h => h.mono hs₁.temps) c₅ ex ts w
    exact hloop.cast (by simp; omega)
  · cases s₂.breakLabel? <;> simp [place, Instruction.isJump]

theorem reaches_loopTest {test : Option Expr} {c : Context} {σ σ' : State} {check : Code}
    {done : Option Label} {j k : Nat} (he : ∀ e ∈ test, e.Scalar) (hn : code.placed.Nodup)
    (hr : Runs (loopTest (test.map (·.lower .value))) c σ (check, done) σ') (ht : σ.table.Plain)
    (ha : code.At k check) (hd : ∀ l, done = some l → code[j]? = some (.label l))
    (ts : Temp → V) (w : World V) :
    (¬test.all (·.holds M w) → done.isSome) ∧
      ∃ ts', Reaches M code σ.ledger.temps ⟨k, ts, w⟩
        ⟨if test.all (·.holds M w) then k + check.length else j, ts', w⟩ := by
  obtain ⟨hx, hy, rfl⟩ | ⟨act, head, v, s₁, hx, h₁, _, rfl, hy⟩ := runs_loopTest.1 hr
  · cases hy
    obtain rfl := Option.map_eq_none_iff.1 hx
    exact ⟨by simp, ts, .refl _ _⟩
  · cases hy
    obtain ⟨e, rfl, rfl⟩ := Option.map_eq_some_iff.1 hx
    obtain ⟨ha, hb, _⟩ := Code.at_append.1 ha
    obtain ⟨ts₁, r₁⟩ := reaches_unless (M := M) (he e rfl) hn h₁ ht ha hb (hd _ rfl) ts w
    refine ⟨by simp, ts₁, r₁.cast ?_⟩
    simp [Nat.add_assoc]

theorem forLoop_realizes {test : Option Expr} {hasStep : Bool} {first step : Lower Code}
    {f g : World V → World V} (hn : code.placed.Nodup) (he : ∀ e ∈ test, e.Scalar)
    (hf : Realizes M code mode fuel first (.update f))
    (hs : Realizes M code mode fuel step (.update g)) (hb : Realizes M code mode fuel body run)
    (hstep : ¬hasStep → step = pure [] ∧ g = id) (hfirst : Keeps State.Grows first)
    (hg : Keeps State.Grows body) (hg' : Keeps State.Grows step) :
    Realizes M code mode fuel (forLoop first (test.map (·.lower .value)) hasStep step body)
      (Action.seq (.update f) (.loop (fun w => test.all (·.holds M w)) run (.update g) fuel)) := by
  intro c σ seg σ' hr hm hp ht
  obtain ⟨head, s₁, h₁, _, check, done, s₂, h₂, inner, s₃, h₃, tail, h₄, rfl⟩ := runs_forLoop.1 hr
  have hs₂ := loopTest_advances test h₂
  have hs₃ := hg h₃
  have hs₄ := hg' h₄
  have hle : s₁.ledger.temps ≤ s₃.ledger.temps := Nat.le_trans hs₂.temps hs₃.temps
  have hle' : σ.ledger.temps ≤ s₁.ledger.temps := (hfirst h₁).temps
  have hp₂ := (hs₃.exitLoop.trans hs₄).quiet hp
  have hp₁ := hs₂.grows.quiet hp₂
  obtain ⟨ht₁, hf⟩ := hf h₁ hm hp₁ ht
  obtain ⟨ht₃, hb⟩ := hb h₃ hm (hs₄.quiet hp) (hs₂.table ▸ ht₁)
  obtain ⟨ht₄, hs⟩ := hs h₄ hm hp ht₃
  refine ⟨ht₄, fun ex hex k ha ts w => ?_⟩
  simp only [List.append_assoc, List.cons_append, Code.at_append, Code.at_cons] at ha
  obtain ⟨c₁, c₂, c₃, c₄, c₅, c₆, c₇⟩ := ha
  -- without a step, a pass goes back to the test at once, and so does `continue`
  have hback : (∀ ts w, ∃ ts', Reaches M code s₁.ledger.temps
        ⟨k + head.length + 1 + check.length + inner.length, ts, w⟩
        ⟨k + head.length, ts', g w⟩) ∧
      ∀ l, s₃.continueLabel? = some l →
        code[k + head.length + 1 + check.length + inner.length]? = some (.label l) ∨
          code[k + head.length]? = some (.label l) ∧ g = id := by
    cases hasStep with
    | false =>
      obtain ⟨rfl, rfl⟩ := hstep (by simp)
      obtain ⟨rfl, _⟩ := runs_pure.1 h₄
      refine ⟨fun ts w => ⟨ts, reaches_goto hn c₆ c₂⟩, fun l hl => .inr ⟨?_, rfl⟩⟩
      cases hl.symm.trans (State.Grows.continueLabel?_eq hs₃)
      exact c₂
    | true =>
      obtain ⟨c₅, c₈⟩ := Code.at_append.1 c₅
      have c₆ : code[k + head.length + 1 + check.length + inner.length
          + (place s₃.continueLabel?).length + tail.length]? = some (.goto s₁.label) := by
        simpa [Nat.add_assoc] using c₆
      refine ⟨fun ts w => ?_, fun l hl => .inl ?_⟩
      · obtain ⟨ts₁, hr⟩ := (hs hex c₈ ts w).1
        exact ⟨ts₁, (reaches_place c₅).trans ((hr.mono hle).trans (reaches_goto hn c₆ c₂))⟩
      · rw [hl] at c₅
        exact c₅.1
  have hdone (l : Label) (hl : done = some l) : code[k + head.length + 1 + check.length
      + inner.length + (if hasStep then place s₃.continueLabel? ++ tail else tail).length + 1]?
      = some (.label l) := by
    subst hl
    rw [State.Grows.breakLabel?_eq hs₃] at c₇
    exact c₇.1
  -- the label of the end is that of the test if there is one, and else that of a `break`
  have hd (h : done.isSome) : s₃.breakLabel?.isSome := by
    obtain ⟨l, rfl⟩ := Option.isSome_iff_exists.1 h
    rw [State.Grows.breakLabel?_eq hs₃]
    rfl
  have htest := reaches_loopTest (M := M) he hn h₂ ht₁ c₃ hdone
  have hloop (ts : Temp → V) (w : World V) := follows_loop hn c₂ (fun ts w => (htest ts w).2)
    (fun w h => hd ((htest ts w).1 h))
    (fun ts w => (hb (Exits.settles_loop hs₃) c₄ ts w).1.mono hs₂.temps) hback.1 c₇ hback.2 ex ts w
  have hex₁ : ex.Settles s₁.targets := hex.before <| (State.Grows.nextLabel s₁).trans <|
    hs₂.grows.trans (hs₃.exitLoop.trans hs₄)
  refine ⟨(hf hex₁ c₁ ts w).1.seq fun ts w => ?_, fun w' hw => ?_⟩
  · exact ((hloop ts w).1.mono hle').cast (by simp; omega)
  · obtain ⟨w₁, _, hw⟩ := seq_eq_normal hw
    obtain ⟨l, hl⟩ := Option.isSome_iff_exists.1 ((hloop ts w₁).2 w' hw)
    simp [hl, place, Instruction.isJump]

theorem indexLoop_realizes {item collection : String} {span : Span} (hn : code.placed.Nodup)
    (hb : Realizes M code mode fuel body run) (hg : Keeps State.Grows body) :
    Realizes M code mode fuel
      (indexLoop (.var collection) (.field (.var collection) "length") item (bindLocal item span)
        body) (.foreach M item collection run fuel) := by
  intro c σ seg σ' hr hm hp ht
  obtain ⟨_, _, u, s₁, h₁, _, _, _, _, inner, s₂, h₂, rfl, rfl⟩ := runs_indexLoop.1 hr
  have hs₁ := (bindLocal_binds item span h₁).sameTemps
  have hs₂ := hg h₂
  have ht₁ : s₁.table.Plain := bindLocal_plain h₁ ht
  obtain ⟨ht₂, hf⟩ := hb h₂ hm hp ht₁
  have hex := Exits.settles_loop hs₂
  rw [hs₂.breakLabel?_eq] at hex
  refine ⟨ht₂, fun ex _ k ha ts w => ⟨?_, fun _ _ => by simp [Instruction.isJump]⟩⟩
  simp only [List.append_assoc, List.cons_append, List.nil_append, Code.at_append, Code.at_cons] at ha
  obtain ⟨c₁, c₂, c₃, c₄, c₅, c₆, c₇, c₈, c₉, c₁₀, c₁₁, c₁₂, _⟩ := ha
  have hq : s₁.ledger.temps = σ.ledger.temps + 1 + 1 := hs₁
  have hloop (ts : Temp → V) := comes_foreach hn (n := σ.ledger.temps) (i := σ.temp)
    (Nat.lt_succ_self _) (Nat.lt_succ_self _) (by simp [hq]) (by simp [hq]) c₃ c₄ c₅ c₆ c₇
    (fun ts w => (hf hex c₈ ts w).1.mono (by simp [hq])) c₉ c₁₀ c₁₁ c₁₂ ts w
  have r₁ : Reaches M code σ.ledger.temps ⟨k, ts, w⟩ ⟨k + 1, _, w⟩ :=
    reaches_assign_temp c₁ (Nat.lt_succ_self _)
  have r₂ := r₁.trans (reaches_assign_temp c₂ (Nat.lt_succ_of_lt (Nat.lt_succ_self _)))
  have hlast := (hloop _).after r₂
  rw [Function.update_self, Function.update_of_ne (by simp), Function.update_self] at hlast
  simp only [Operand.read] at hlast
  rw [Action.foreach]
  cases hi : iterate (Action.elementPass M item collection (M.field (w.store collection) "length") run)
    fuel (M.int 0, w) with
  | none =>
    rw [hi] at hlast
    exact hlast
  | some pass =>
    rw [hi] at hlast
    obtain ⟨_, hr, ts', rfl⟩ := hlast
    exact ⟨ts', hr.cast (by simp; omega)⟩

theorem break_realizes (span : Span) :
    Realizes M code mode fuel (Stmt.lower (.break span)) .leave := by
  rw [Stmt.lower]
  intro c σ seg σ' hr _ hp ht
  obtain ⟨l, hb, rfl⟩ | ⟨σ₁, _, rfl, _⟩ := runs_jump.1 hr
  · refine ⟨account_table hb ▸ ht, fun ex hex k ha ts w => ⟨?_, by simp [Action.leave]⟩⟩
    exact ⟨l, k, ts, (settled_break hb hex).2, ha.1, .refl _ _⟩
  · simp at hp

theorem continue_realizes (span : Span) : Realizes M code mode fuel (Stmt.lower (.continue span))
    (Stmt.exec M mode fuel (.continue span)) := by
  rw [Stmt.lower, Stmt.exec]
  intro c σ seg σ' hr _ hp ht
  obtain ⟨l, hb, rfl⟩ | ⟨σ₁, _, rfl, _⟩ := runs_jump.1 hr
  · refine ⟨account_table hb ▸ ht, fun ex hex k ha ts w => ⟨?_, by simp⟩⟩
    exact ⟨l, k, ts, (settled_continue hb hex).2, ha.1, .refl _ _⟩
  · simp at hp

end Forms

end Lower

section Switch

variable {v : V} {other : Action V} {found : Bool}

theorem execCases_eq_normal {cases : List Case} {w w' : World V}
    (h : execCases M mode fuel v other cases found w = some (.normal, w')) :
    ∃ w₁, other w₁ = some (.normal, w') := by
  induction cases generalizing found w with
  | nil =>
    rw [execCases_nil] at h
    exact ⟨w, h⟩
  | cons k rest ih =>
    rw [execCases_cons] at h
    split at h
    · obtain ⟨w₁, _, h⟩ := seq_eq_normal h
      split at h
      · cases h
      · exact ih h
    · exact ih h

theorem caseBody_follows {c : Context} {σ σ' : State} {seg : Code} {l : Label} {k : Case}
    (hb : Realizes M code mode fuel (lowerAll k.body) (execAll M mode fuel k.body))
    (hr : Runs (caseBody l k.body.isEmpty (lowerAll k.body)) c σ seg σ')
    (hm : c.options.caseExit = mode) (hp : σ'.problems = []) (ht : σ.table.Plain) :
    σ'.table.Plain ∧ ∀ ⦃ex i e n⦄ ⦃next : Action V⦄, Exits.Settles ex σ'.targets →
      ex.breaks.isSome → code.At i seg → n ≤ σ.ledger.temps →
      (∀ ts w, Follows M code fuel n ex ⟨i + seg.length, ts, w⟩ e (next w)) → ∀ ts w,
        Follows M code fuel n ex ⟨i, ts, w⟩ e (((execAll M mode fuel k.body).seq
          (if mode = .implicitBreak ∧ ¬k.body.isEmpty then .leave else next)) w) := by
  obtain ⟨inner, s₁, h₁, hr⟩ := runs_caseBody.1 hr
  rw [hm] at hr
  split at hr
  -- the body is left by an implicit jump, which has the target of a `break`
  next hi =>
    obtain ⟨exit, h₂, rfl⟩ := hr
    have hg := gotoBreak_grows h₂
    obtain ⟨ht₁, hf⟩ := hb h₁ hm (hg.quiet hp) ht
    obtain ⟨l?, h₃, rfl⟩ := runs_gotoBreak.1 h₂
    refine ⟨account_table h₃ ▸ ht₁, fun ex i e n next hex hs ha hn _ ts w => ?_⟩
    have hl := (settled_break h₃ hex).2
    cases l? with
    | none => simp [hl] at hs
    | some l' =>
      simp only [List.cons_append, Code.at_cons, Code.at_append] at ha
      obtain ⟨c₁, c₂, c₃, _⟩ := ha
      rw [if_pos ⟨hi.1, hi.2.1⟩]
      refine (Follows.seq ((hf (hex.before hg) c₂ ts w).1.mono hn) ?_).after (reaches_label c₁)
      exact fun ts w => ⟨l', _, ts, hl, c₃, .refl _ _⟩
  next hi =>
    obtain ⟨rfl, rfl⟩ := hr
    obtain ⟨ht₁, hf⟩ := hb h₁ hm hp ht
    refine ⟨ht₁, fun ex i e n next hex _ ha hn hnext ts w => ?_⟩
    obtain ⟨c₁, c₂⟩ := Code.at_cons.1 ha
    have hbody := (hf hex c₂ ts w).1.mono hn
    -- no jump was added: the body falls through, or it ends with a jump of its own
    by_cases hj : mode = .implicitBreak ∧ ¬k.body.isEmpty
    · refine Follows.after ?_ (reaches_label c₁)
      refine hbody.seq_of_jump fun w' hw => hi ⟨hj.1, hj.2, ?_⟩
      exact (hf hex c₂ ts w).2 w' hw
    · rw [if_neg hj]
      refine (hbody.seq fun ts w => ?_).after (reaches_label c₁)
      have hk : i + 1 + inner.length = i + (Instruction.label l :: inner).length := by
        simp
        omega
      rw [hk]
      exact hnext ts w

theorem caseBody_label {c : Context} {σ σ' : State} {seg : Code} {l : Label} {isEmpty : Bool}
    {body : Lower Code} {i : Nat} (hr : Runs (caseBody l isEmpty body) c σ seg σ')
    (ha : code.At i seg) : code[i]? = some (.label l) := by
  obtain ⟨inner, s₁, _, hr⟩ := runs_caseBody.1 hr
  split at hr
  · obtain ⟨exit, _, rfl⟩ := hr
    exact ha.1
  · obtain ⟨rfl, _⟩ := hr
    exact ha.1

theorem lowerCases_follows {c : Context} {cases : List Case} {labels : List Label} {σ σ' : State}
    {seg : Code}
    (h : ∀ k ∈ cases, Realizes M code mode fuel (lowerAll k.body) (execAll M mode fuel k.body))
    (hl : labels.length = cases.length) (hr : Runs (lowerCases cases labels) c σ seg σ')
    (hm : c.options.caseExit = mode) (hp : σ'.problems = []) (ht : σ.table.Plain) :
    σ'.table.Plain ∧ ∀ ⦃ex i e n⦄ (v : V) (other : Action V), Exits.Settles ex σ'.targets →
      ex.breaks.isSome → code.At i seg → n ≤ σ.ledger.temps →
      (∀ ts w, Follows M code fuel n ex ⟨i + seg.length, ts, w⟩ e (other w)) →
      (∀ ts w, Follows M code fuel n ex ⟨i, ts, w⟩ e
        (execCases M mode fuel v other cases true w)) ∧
      ∀ q l, labels[q]? = some l → ∃ j, code[j]? = some (.label l) ∧ ∀ ts w,
        Follows M code fuel n ex ⟨j, ts, w⟩ e
          (execCases M mode fuel v other (cases.drop q) true w) := by
  induction cases generalizing labels σ seg with
  | nil =>
    obtain rfl := List.length_eq_zero_iff.1 hl
    rw [lowerCases_nil] at hr
    obtain ⟨rfl, rfl⟩ := runs_pure.1 hr
    refine ⟨ht, fun ex i e n v other _ _ _ _ ho => ⟨?_, by simp⟩⟩
    rw [execCases_nil]
    exact ho
  | cons k rest ih =>
    cases labels with
    | nil => simp at hl
    | cons l labels =>
      rw [lowerCases_cons] at hr
      simp only [runs_bind, runs_pure] at hr
      obtain ⟨first, σ₁, h₁, second, _, h₂, rfl, rfl⟩ := hr
      have hg : σ₁.Grows σ' := lowerCases_grows _ labels h₂
      have hg₁ : σ.Grows σ₁ := caseBody_grows l _ (lowerBody_grows _) h₁
      obtain ⟨ht₁, hf⟩ := caseBody_follows (h k (by simp)) h₁ hm (hg.quiet hp) ht
      obtain ⟨ht₂, hs⟩ := ih (fun k hk => h k (by simp [hk])) (by simpa using hl) h₂ ht₁
      refine ⟨ht₂, fun ex i e n v other hex hb ha hn ho => ?_⟩
      obtain ⟨ha, ha'⟩ := Code.at_append.1 ha
      have ho' (ts : Temp → V) (w : World V) :
          Follows M code fuel n ex ⟨i + first.length + second.length, ts, w⟩ e (other w) := by
        have := ho ts w
        rwa [List.length_append, ← Nat.add_assoc] at this
      obtain ⟨hr, hq⟩ := hs v other hex hb ha' (Nat.le_trans hn hg₁.temps) ho'
      have hk (ts : Temp → V) (w : World V) : Follows M code fuel n ex ⟨i, ts, w⟩ e
          (execCases M mode fuel v other (k :: rest) true w) := by
        rw [execCases_cons, if_pos (.inl rfl)]
        exact hf (hex.before hg) hb ha hn hr ts w
      refine ⟨hk, fun q l' hq' => ?_⟩
      cases q with
      | zero =>
        cases hq'
        exact ⟨i, caseBody_label h₁ ha, hk⟩
      | succ q => exact hq q l' (by simpa using hq')

theorem caseTests_follows {c : Context} {cases : List Case} {subject : Operand}
    {labels : List Label} {σ σ' : State} {tests : Code} {ex : Exits} {i e n : Nat}
    (hn : code.placed.Nodup) (hv : ∀ k ∈ cases, k.value.Scalar)
    (hr : Runs (caseTests subject cases) c σ (tests, labels) σ') (ht : σ.table.Plain)
    (hk : subject.Kept σ.ledger.temps) (ha : code.At i tests) (hle : n ≤ σ.ledger.temps)
    (hcase : ∀ q l, labels[q]? = some l → ∃ j, code[j]? = some (.label l) ∧ ∀ ts w,
      Follows M code fuel n ex ⟨j, ts, w⟩ e
        (execCases M mode fuel v other (cases.drop q) true w))
    (ho : ∀ ts w, Follows M code fuel n ex ⟨i + tests.length, ts, w⟩ e (other w))
    (ts : Temp → V) (w : World V) (hs : subject.read M ts w.store = v) :
    Follows M code fuel n ex ⟨i, ts, w⟩ e (execCases M mode fuel v other cases false w) := by
  induction cases generalizing σ tests labels i ts with
  | nil =>
    obtain ⟨hx, rfl⟩ := runs_pure.1 hr
    cases hx
    rw [execCases_nil]
    exact ho ts w
  | cons k rest ih =>
    obtain ⟨head, x, s₁, h₁, _, tests, labels, h₂, hx⟩ := runs_caseTests_cons.1 hr
    cases hx
    have hs₁ := k.value.lower_advances _ h₁
    have hc := (hv k (by simp)).lower_computes (M := M) hn _ h₁ ht
    simp only [Code.at_append, Code.at_cons] at ha
    obtain ⟨c₁, c₂, c₃⟩ := ha
    obtain ⟨j, hj, hf⟩ := hcase 0 s₁.label rfl
    obtain ⟨ts₁, r₁, v₁⟩ := hc.runs c₁ ts w
    have r₂ := (r₁.mono hle).trans (reaches_branch hn c₂ hj)
    have hs' : subject.read M ts₁ w.store = v := (hk.read_eq r₁).trans hs
    rw [hs', v₁] at r₂
    rw [execCases_cons]
    by_cases hd : v = k.value.eval M w.store
    · rw [if_pos (Relation.holds_eq.2 hd)] at r₂
      have := (hf ts₁ w).after r₂
      rw [List.drop_zero, execCases_cons, if_pos (.inl rfl)] at this
      rwa [if_pos (.inr hd)]
    · rw [if_neg (mt Relation.holds_eq.1 hd)] at r₂
      rw [if_neg (by simpa using hd)]
      refine Follows.after ?_ r₂
      -- the test fails, and control goes on to the next one with the subject unchanged
      refine ih (fun k hk => hv k (by simp [hk])) h₂ (hs₁.table ▸ ht) (hk.mono hs₁.temps) c₃
        (Nat.le_trans hle hs₁.temps) (fun q l hq => hcase (q + 1) l (by simpa using hq)) ?_ ts₁ hs'
      have hlen : i + head.length + 1 + tests.length =
          i + (head ++ .branch subject .eq x s₁.label :: tests : Code).length := by
        simp
        omega
      rw [hlen]
      exact ho

theorem switchTests_advances {subject : Expr} {cases : List Case} {c : Context} {σ s₁ s₂ s₃ : State}
    {head copy tests : Code} {x u : Operand} {labels : List Label}
    (h₁ : Runs (subject.lower .value) c σ (head, x) s₁) (h₂ : Runs (ensureTemp x) c s₁ (copy, u) s₂)
    (h₃ : Runs (caseTests u cases) c s₂ (tests, labels) s₃) : σ.Advances s₃ := by
  have hcopy : s₁.Advances s₂ := ensureTemp_keeps x h₂
  exact (subject.lower_advances _ h₁).trans (hcopy.trans (caseTests_advances u cases h₃))

/-- The subject of a switch and its tests lead where the cases say, given that the labels of the cases and the
end of the tests do. -/
theorem switchTests_follows (mode : CaseExit) (fuel : Nat) {subject : Expr} {cases : List Case} {c : Context}
    {σ s₁ s₂ s₃ : State} {head copy tests : Code} {x u : Operand} {labels : List Label} (hn : code.placed.Nodup)
    (hs : subject.Scalar) (hv : ∀ k ∈ cases, k.value.Scalar)
    (h₁ : Runs (subject.lower .value) c σ (head, x) s₁) (h₂ : Runs (ensureTemp x) c s₁ (copy, u) s₂)
    (h₃ : Runs (caseTests u cases) c s₂ (tests, labels) s₃) (ht : σ.table.Plain) :
    ∀ ⦃ex i e w⦄ ⦃other : Action V⦄, code.At i (head ++ copy ++ tests) →
      (∀ q l, labels[q]? = some l → ∃ j, code[j]? = some (.label l) ∧ ∀ ts w',
        Follows M code fuel σ.ledger.temps ex ⟨j, ts, w'⟩ e
          (execCases M mode fuel (subject.eval M w.store) other (cases.drop q) true w')) →
      (∀ ts w', Follows M code fuel σ.ledger.temps ex ⟨i + (head ++ copy ++ tests).length, ts, w'⟩ e
        (other w')) →
      ∀ ts, Follows M code fuel σ.ledger.temps ex ⟨i, ts, w⟩ e
        (execCases M mode fuel (subject.eval M w.store) other cases false w) := by
  intro ex i e w other ha hcase ho ts
  have hs₁ := subject.lower_advances _ h₁
  have hs₂ : s₁.Advances s₂ := ensureTemp_keeps _ h₂
  have ht₂ : s₂.table.Plain := by rwa [hs₂.table, hs₁.table]
  have hcomp := computes_ensured (hs.lower_computes (M := M) hn _ h₁ ht) hs₁.temps h₂
  obtain ⟨c₁, c₂⟩ := Code.at_append.1 ha
  obtain ⟨ts₁, r₁, v₁⟩ := hcomp.runs c₁ ts w
  refine Follows.after ?_ r₁
  refine caseTests_follows hn hv h₃ ht₂ hcomp.kept c₂ (Nat.le_trans hs₁.temps hs₂.temps) hcase
    (fun ts w => ?_) ts₁ w v₁
  rw [Nat.add_assoc, ← List.length_append]
  exact ho ts w

theorem switch_realizes {subject : Expr} {cases : List Case} (hn : code.placed.Nodup)
    (hs : subject.Scalar) (hv : ∀ k ∈ cases, k.value.Scalar)
    (hc : ∀ k ∈ cases, Realizes M code mode fuel (lowerAll k.body) (execAll M mode fuel k.body)) :
    Realizes M code mode fuel (switch (subject.lower .value) cases (lowerCases cases) none)
      (.untilBreak fun w =>
        execCases M mode fuel (subject.eval M w.store) .skip cases false w) := by
  intro c σ seg σ' hr hm hp ht
  obtain ⟨head, v, s₁, h₁, copy, u, s₂, h₂, tests, labels, s₃, h₃, h⟩ := runs_switch.1 hr
  obtain ⟨_, skip, s₄, h₄, inner, s₅, h₅, rfl, rfl⟩ | ⟨_, hd, _⟩ := h
  · have hs₃ : σ.Advances s₃ := switchTests_advances h₁ h₂ h₃
    have hs₄ := gotoBreak_grows h₄
    have hs₅ := lowerCases_grows _ labels h₅
    obtain ⟨l?, h₆, rfl⟩ := runs_gotoBreak.1 h₄
    have ht₄ : s₄.table.Plain := by rwa [account_table h₆, hs₃.table]
    obtain ⟨ht₅, hf⟩ := lowerCases_follows hc (length_caseTests h₃) h₅ hm hp ht₄
    refine ⟨ht₅, fun ex hex k ha ts w => ?_⟩
    have hex' := hex.switch (hs₄.trans hs₅)
    have hl := (settled_break h₆ (hex'.before hs₅)).2
    cases l? with
    | none => cases hl
    | some l =>
      have hl : s₅.breakLabel? = some l := Option.some.inj hl
      have htests := switchTests_follows (M := M) mode fuel hn hs hv h₁ h₂ h₃ ht
      generalize head ++ copy ++ tests = front at htests ha ⊢
      simp only [List.append_assoc, Code.at_append, Code.at_cons, Option.toList, List.map,
        List.cons_append, List.nil_append] at ha
      obtain ⟨c₁, c₂, c₃, c₄⟩ := ha
      refine ⟨?_, fun _ _ => by simp [hl, place, Instruction.isJump]⟩
      have hle : σ.ledger.temps ≤ s₄.ledger.temps := Nat.le_trans hs₃.temps hs₄.temps
      have hcase := hf (subject.eval M w.store) .skip hex' rfl c₃ hle fun ts w => ⟨ts, .refl _ _⟩
      refine (follows_untilBreak hn (htests c₁ hcase.2 (fun ts w => ⟨ts, ?_⟩) ts) c₄).cast (by simp; omega)
      rw [hl] at c₄
      exact reaches_goto hn c₂ c₄.1
  · cases hd

theorem switchDefault_realizes {subject : Expr} {cases : List Case} {body : List Stmt}
    (hn : code.placed.Nodup) (hs : subject.Scalar) (hv : ∀ k ∈ cases, k.value.Scalar)
    (hc : ∀ k ∈ cases, Realizes M code mode fuel (lowerAll k.body) (execAll M mode fuel k.body))
    (hb : Realizes M code mode fuel (lowerAll body) (execAll M mode fuel body)) :
    Realizes M code mode fuel
      (switch (subject.lower .value) cases (lowerCases cases) (some (lowerAll body)))
      (.untilBreak fun w => execCases M mode fuel (subject.eval M w.store)
        (execAll M mode fuel body) cases false w) := by
  intro c σ seg σ' hr hm hp ht
  obtain ⟨head, v, s₁, h₁, copy, u, s₂, h₂, tests, labels, s₃, h₃, h⟩ := runs_switch.1 hr
  obtain ⟨hd, _⟩ | ⟨_, hd, _, inner, s₄, h₄, last, s₅, h₅, rfl, rfl⟩ := h
  · cases hd
  · cases hd
    have hs₃ : σ.Advances s₃ := switchTests_advances h₁ h₂ h₃
    have hs₄ : s₃.enterSwitch.Grows s₄ := (State.Grows.nextLabel _).trans
      (lowerCases_grows _ labels h₄)
    have hs₅ := lowerBody_grows body h₅
    have ht₃ : s₃.table.Plain := by rwa [hs₃.table]
    obtain ⟨ht₄, hf⟩ := lowerCases_follows hc (length_caseTests h₃) h₄ hm (hs₅.quiet hp) ht₃
    obtain ⟨ht₅, hl⟩ := hb h₅ hm hp ht₄
    refine ⟨ht₅, fun ex hex k ha ts w => ?_⟩
    have hex' := hex.switch (hs₄.trans hs₅)
    have htests := switchTests_follows (M := M) mode fuel hn hs hv h₁ h₂ h₃ ht
    generalize head ++ copy ++ tests = front at htests ha ⊢
    simp only [List.append_assoc, Code.at_append, Code.at_cons, List.cons_append] at ha
    obtain ⟨c₁, c₂, c₃, c₄, c₅, c₆⟩ := ha
    -- Both the comparisons and the last case lead into the default.
    have hlast (ts : Temp → V) (w : World V) := ((hl hex' c₅ ts w).1.mono
      (Nat.le_trans hs₃.temps hs₄.temps)).after (reaches_label c₄)
    have hcase := hf (subject.eval M w.store) (execAll M mode fuel body) (hex'.before hs₅) rfl c₃ hs₃.temps
      hlast
    have htests := htests c₁ hcase.2 (fun ts w => (hlast ts w).after (reaches_goto hn c₂ c₄)) ts
    refine ⟨(follows_untilBreak hn htests c₆).cast (by simp; omega), fun w' hw => ?_⟩
    cases hd : s₅.breakLabel? with
    | some l => simp [place, Instruction.isJump]
    | none =>
      rw [hd] at htests
      have hx := (untilBreak_eq_normal htests hw).resolve_left (by simp)
      obtain ⟨w₁, hw₁⟩ := execCases_eq_normal hx
      by_cases he : last = []
      · simp [he, place, Instruction.isJump]
      · simpa [he, place] using (hl hex' c₅ ts w₁).2 w' hw₁

end Switch

end ThreeAddress
