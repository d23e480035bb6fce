import Mathlib.Data.List.Nodup
import ThreeAddress.Proofs.Effects.Outcome
import ThreeAddress.Proofs.Labels.Values

namespace ThreeAddress

open Lowering Lower Memory

theorem Labelled.nodup {n n' : Nat} {code : Code} (h : Labelled n [] code n' []) :
    code.placed.Nodup := by
  refine List.nodup_iff_count_le_one.2 fun l => ?_
  have hc := h.counts l
  have hn := List.nodup_iff_count_le_one.1 (Label.nodup_upTo n') l
  simp only [List.count_nil] at hc
  omega

variable {V : Type u} [DecidableEq V] {M : Meaning V} {code : Code} {c : Context} {s s' : State}

def Expr.Evaluated (M : Meaning V) (code : Code) (e : Expr) : Prop :=
  ∀ ⦃c s x s'⦄, Runs (e.lower .value) c s x s' →
    Evaluates M code s.ledger.temps s'.ledger.temps x.1 (value M · x.2)
      (e.outcome M (.of c s.table))

namespace Lower

theorem nameOperand_var {name : String} {span : Span} {v : Operand}
    (h : Runs (nameOperand name span) c s v s') : v = .var ((Viewpoint.of c s.table).place name) := by
  obtain ⟨hl, rfl, _⟩ | ⟨_, x, hl, hx, rfl, _⟩ := runs_nameOperand h
  · simp [Viewpoint.place, Viewpoint.symbol?_eq_none hl]
  · simp [Viewpoint.place, Viewpoint.symbol?_eq_some hl hx]

theorem receiverClass_owner {e : Expr} {owner : Option String}
    (h : Runs (receiverClass e) c s owner s') : owner = (Viewpoint.of c s.table).owner e := by
  cases e with
  | this =>
    simp only [receiverClass, runs_bind, runs_read, runs_pure] at h
    obtain ⟨_, _, ⟨rfl, rfl⟩, rfl, rfl⟩ := h
    rfl
  | ident name span =>
    simp only [receiverClass, runs_bind, runs_lookup] at h
    obtain ⟨found, _, ⟨hl, rfl⟩, h⟩ := h
    cases found with
    | none =>
      obtain ⟨rfl, rfl⟩ := runs_pure.1 h
      simp [Viewpoint.owner, Viewpoint.symbol?_eq_none hl]
    | some id =>
      simp only [runs_bind, runs_symbol] at h
      obtain ⟨x, _, ⟨hx, rfl⟩, h⟩ := h
      rw [Viewpoint.owner, Viewpoint.symbol?_eq_some hl hx, Option.bind_some]
      cases hy : x.type with
      | object name =>
        simp only [hy] at h
        exact (runs_pure.1 h).1
      | _ =>
        simp only [hy] at h
        exact (runs_pure.1 h).1
  | _ =>
    obtain ⟨rfl, rfl⟩ := runs_pure.1 h
    rfl

theorem namedCallee_evaluates {name : String} {span at_ : Span} {x : Callee}
    (h : Runs (namedCallee name span) c s x s') :
    Evaluates M code s.ledger.temps s'.ledger.temps x.code (fun a => (x.name, a.values M x.receiver))
      fun store => calleeOutcome M (.of c s.table) store (.ident name at_) := by
  obtain ⟨hl, rfl, rfl⟩ | ⟨_, y, hl, hy, h⟩ := runs_namedCallee h
  · have hv := Viewpoint.symbol?_eq_none hl
    refine .nil (fun _ _ _ _ => rfl) fun a => ?_
    rw [calleeOutcome, Viewpoint.label, Viewpoint.isMethod, hv]
    rfl
  · have hv := Viewpoint.symbol?_eq_some hl hy
    simp only [calleeOutcome_ident _ hv]
    obtain ⟨hm, z, hz, rfl⟩ | ⟨hm, rfl, rfl⟩ := h
    · obtain ⟨_, rfl, rfl⟩ := runs_copyToTemp.1 hz
      simp only [if_pos hm]
      exact ((Evaluates.var "this").copy (Nat.le_refl _)).map fun v => (y.qualifiedName, [v])
    · simp only [if_neg hm]
      exact .nil (fun _ _ _ _ => rfl) fun _ => rfl

theorem methodCallee_evaluates {object : Expr} {method : String} {span at_ : Span} {x : Callee}
    (ho : object.Evaluated M code)
    (h : Runs (lowerCallee span (.property object method at_)) c s x s') :
    Evaluates M code s.ledger.temps s'.ledger.temps x.code (fun a => (x.name, a.values M x.receiver))
      fun store => calleeOutcome M (.of c s.table) store (.property object method at_) := by
  simp only [lowerCallee, runs_bind, runs_argument, runs_pure] at h
  obtain ⟨owner, _, hw, _, _, ⟨y, s₁, h₁, _, rfl, rfl⟩, rfl, rfl⟩ := h
  obtain rfl := receiverClass_keeps (R := Eq) _ hw
  rw [receiverClass_owner hw]
  exact ((ho h₁).copy (object.lower_advances _ h₁).temps).map fun v => (methodName _ method, [v])

theorem lowerArgs_evaluates {es : List Expr} (he : ∀ e ∈ es, e.Evaluated M code)
    {x : Code × List Operand} (h : Runs (lowerArgs es) c s x s') :
    Evaluates M code s.ledger.temps s'.ledger.temps x.1 (values M · x.2)
      fun store => outcomes M (.of c s.table) store es := by
  induction es generalizing s x with
  | nil =>
    rw [lowerArgs] at h
    obtain ⟨rfl, rfl⟩ := runs_pure.1 h
    exact .nil (fun _ _ _ _ => rfl) fun _ => rfl
  | cons e rest ih =>
    rw [lowerArgs] at h
    simp only [runs_bind, runs_pure, runs_argument] at h
    obtain ⟨_, _, ⟨y, s₁, h₁, _, rfl, rfl⟩, z, _, h₂, rfl, rfl⟩ := h
    have hs := e.lower_advances _ h₁
    have hz := lowerArgs_advances (fun e _ => e.lower_advances _) h₂
    have hr := ih (fun e he' => he e (by simp [he'])) h₂
    rw [show s₁.nextTemp.table = s.table from hs.table] at hr
    exact (((he e (by simp) h₁).copy hs.temps).append hr (Nat.le_succ_of_le hs.temps) hz.temps).map
      fun v => v.1 :: v.2

theorem call_evaluates {callee : Expr} {args : List Expr} {span : Span} (hM : M.Steady)
    (hc : ∀ ⦃c s x s'⦄, Runs (lowerCallee span callee) c s x s' →
      Evaluates M code s.ledger.temps s'.ledger.temps x.code (fun a => (x.name, a.values M x.receiver))
        fun store => calleeOutcome M (.of c s.table) store callee)
    (ha : ∀ e ∈ args, e.Evaluated M code) : (Expr.call callee args span).Evaluated M code := by
  intro c s x s' h
  obtain ⟨k, s₁, h₁, ⟨second, params⟩, s₂, h₂, z, h₃, rfl⟩ := Expr.runs_call.1 h
  simp only [finishCall, runs_bind, runs_freshTemp, runs_pure] at h₃
  obtain ⟨_, _, ⟨_, rfl, rfl⟩, rfl, rfl⟩ := h₃
  have hs₁ := lowerCallee_advances span callee h₁
  have hs₂ := lowerArgs_advances (fun e _ => e.lower_advances _) h₂
  have hr := lowerArgs_evaluates ha h₂
  rw [hs₁.table] at hr
  refine ((hc h₁).append hr hs₁.temps hs₂.temps).perform
    (e := fun v => .call v.1.1 (v.1.2 ++ v.2)) hM (Nat.le_trans hs₁.temps hs₂.temps) fun a => ?_
  simp [Instruction.effect]

theorem ensureTemp_evaluates {m : Nat} {seg : Code} {v : Operand} {f : (String → V) → Outcome V V}
    {x : Valued} (hv : Evaluates M code m s.ledger.temps seg (value M · v) f)
    (hm : m ≤ s.ledger.temps) (h : Runs (ensureTemp v) c s x s') :
    Evaluates M code m s'.ledger.temps (seg ++ x.1) (value M · x.2) f := by
  obtain ⟨_, rfl, rfl⟩ | ⟨_, h⟩ := runs_ensureTemp.1 h
  · rwa [List.append_nil]
  · obtain ⟨_, rfl, rfl⟩ := runs_copyToTemp.1 h
    exact hv.copy hm

end Lower

theorem Expr.Direct.evaluated {e : Expr} (he : e.Direct) (hM : M.Steady) (hn : code.placed.Nodup) :
    e.Evaluated M code := by
  induction he with
  | int | str | bool | null =>
    intro c s x s' h
    rw [Expr.lower] at h
    obtain ⟨_, rfl, rfl⟩ := runs_copyToTemp.1 h
    exact .constant fun _ => rfl
  | ident =>
    intro c s x s' h
    obtain ⟨v, hv, rfl⟩ := Expr.runs_ident.1 h
    rw [nameOperand_var hv]
    exact .var _
  | this =>
    intro c s x s' h
    obtain ⟨rfl, rfl⟩ := Expr.runs_this.1 h
    exact .var "this"
  | @binary l r op _ _ _ ihl ihr =>
    intro c s x s' h
    obtain ⟨⟨first, left⟩, s₁, h₁, ⟨second, right⟩, s₂, h₂, _, rfl, rfl⟩ := Expr.runs_binary.1 h
    have hs₁ := l.lower_advances _ h₁
    have hs₂ := r.lower_advances _ h₂
    -- the right operand is lowered in a later state, which resolves names by the same table
    have hr := ihr h₂
    rw [hs₁.table] at hr
    refine ((ihl h₁).append hr hs₁.temps hs₂.temps).compute (k := fun _ v => M.binary op v.1 v.2)
      (Nat.le_trans hs₁.temps hs₂.temps) fun _ => ?_
    rfl
  | @unary e op _ _ ih =>
    intro c s x s' h
    obtain ⟨⟨first, arg⟩, s₁, h₁, _, rfl, rfl⟩ := Expr.runs_unary.1 h
    exact (ih h₁).compute (k := fun _ v => M.unary op v) (e.lower_advances _ h₁).temps fun _ => rfl
  | @logical l r op _ _ _ ihl ihr =>
    intro c s x s' h
    rw [Expr.lower] at h
    obtain ⟨first, left, s₁, second, right, h₁, _, _, h₂, rfl⟩ := runs_shortCircuit.1 h
    have hs₁ := l.lower_advances _ h₁
    have hr := ihr h₂
    rw [show s₁.nextTemp.nextLabel.table = s.table from hs₁.table] at hr
    exact .shortCircuit op hn (ihl h₁) hr hs₁.temps (r.lower_advances _ h₂).temps
  | @ternary t a b _ _ _ _ iht iha ihb =>
    intro c s x s' h
    rw [Expr.lower] at h
    obtain ⟨head, v, s₁, h₁, _, _, first, left, s₂, h₂, _, _, second, right, h₃, rfl⟩ :=
      runs_choose.1 h
    have hs₁ := t.lower_advances _ h₁
    have hs₂ := a.lower_advances _ h₂
    have ha := iha h₂
    have hb := ihb h₃
    rw [show s₁.nextLabel.nextLabel.table = s.table from hs₁.table] at ha
    rw [show s₂.nextTemp.nextLabel.table = s.table from hs₂.table.trans hs₁.table] at hb
    exact .choose hn (iht h₁) ha hb hs₁.temps hs₂.temps (b.lower_advances _ h₃).temps
  | call _ ih => exact call_evaluates hM (fun _ _ _ _ h => namedCallee_evaluates h) ih
  | method _ _ ih iha => exact call_evaluates hM (fun _ _ _ _ h => methodCallee_evaluates ih h) iha
  | @new args name _ _ ih =>
    intro c s x s' h
    obtain ⟨y, s₁, h₁, _, rfl, rfl⟩ := Expr.runs_new.1 h
    exact (lowerArgs_evaluates ih h₁).perform (e := fun vs => .new name vs) hM
      (lowerArgs_advances (fun e _ => e.lower_advances _) h₁).temps fun _ => rfl
  | @index base i _ _ _ ihb ihi =>
    intro c s x s' h
    obtain ⟨⟨first, base'⟩, s₁, h₁, ⟨second, v⟩, s₂, h₂, ⟨copy, w⟩, s₃, h₃, _, rfl, rfl⟩ := Expr.runs_index.1 h
    have hs₁ := base.lower_advances _ h₁
    have hs₂ := i.lower_advances _ h₂
    have hs₃ : s₂.Advances s₃ := ensureTemp_keeps _ h₃
    have hi := ihi h₂
    rw [hs₁.table] at hi
    have hw := ensureTemp_evaluates hi hs₂.temps h₃
    have hb := (ihb h₁).append hw hs₁.temps (Nat.le_trans hs₂.temps hs₃.temps)
    rw [← List.append_assoc] at hb
    refine hb.compute (k := fun past v => M.element past v.1 [v.2])
      (Nat.le_trans hs₁.temps (Nat.le_trans hs₂.temps hs₃.temps)) fun _ => ?_
    rfl
  | @property object field _ _ ih =>
    intro c s x s' h
    obtain ⟨⟨first, base⟩, s₁, h₁, _, rfl, rfl⟩ := Expr.runs_property.1 h
    exact (ih h₁).compute (k := fun past v => M.field past v field)
      (object.lower_advances _ h₁).temps fun _ => rfl

/-- From its first instruction, the code of an expression runs to its end, and does there and on the
way what evaluation from left to right does. -/
theorem Expr.Direct.lower_performs {e : Expr} (he : e.Direct) (hM : M.Steady) {v : Operand}
    (h : Runs (e.lower .value) c s (code, v) s') (a : Memory V) :
    ∃ b, Code.RunsIn M code 0 code.length (0, a) (code.length, b) ∧
      code.step M (code.length, b) = none ∧
      e.outcome M (.of c s.table) a.store a.past = (b.value M v, b.past) ∧
      b.store = a.store ∧ ∀ t : Temp, t.number ≤ s.ledger.temps → b.temps t = a.temps t := by
  have hn : code.placed.Nodup := (e.lower_places .value h).nodup
  obtain ⟨b, hb, hy⟩ := (he.evaluated hM hn h).carries code.at_self a
  rw [Code.Crosses, Nat.zero_add] at hb
  exact ⟨b, hb, Code.step_end b, hy.outcome, hy.store, hy.agrees⟩

def Meaning.tally : Meaning Int where
  int := id
  str _ := 0
  null := 0
  binary _ x y := x + y
  unary _ x := -x
  element past base indices := indices.foldl (· + ·) base + past.length
  field past base _ := base + past.length
  answer past store _ := (past.length + 1, store)

/-- `ready && count(x) ? list[this.next()] : new Box(x)` -/
def Expr.guardedPick : Expr :=
  .ternary (.logical (.ident "ready" .unplaced) .and
      (.call (.ident "count" .unplaced) [.ident "x" .unplaced] .unplaced) .unplaced)
    (.index (.ident "list" .unplaced)
      (.call (.property (.this .unplaced) "next" .unplaced) [] .unplaced) .unplaced)
    (.new "Box" [.ident "x" .unplaced] .unplaced) .unplaced

def Lowering.State.picking : State where
  ledger := { layout := .independent, temps := 3, labels := 2 }
  table := ⟨[⟨.origin, .global, none, [],
    [("ready", .variable), ("count", .function), ("x", .variable), ("list", .variable)].map
      fun (name, kind) => .ofDeclaration { name, type := .unknown, kind, span := .unplaced }⟩]⟩

theorem Expr.guardedPick_performs :
    let c : Context := { options := {}, className := some "Cell" }
    let a : Memory Int := ⟨fun _ => 0, fun name => if name = "ready" then 1 else 7, []⟩
    guardedPick.Direct ∧ Meaning.tally.Steady ∧
      ∃ code v s', Runs (guardedPick.lower .value) c .picking (code, v) s' ∧
      ∃ b, Code.RunsIn .tally code 0 code.length (0, a) (code.length, b) ∧
        code.step .tally (code.length, b) = none ∧
        b.past = [.call "count" [7], .call "Cell.next" [7]] ∧ b.value .tally v = 11 ∧
        b.store = a.store ∧ ∀ t : Temp, t.number ≤ 3 → b.temps t = a.temps t := by
  intro c a
  have he : guardedPick.Direct :=
    .ternary (.logical .ident (.call (by simp [Direct.ident]))) (.index .ident (.method .this nofun))
      (.new (by simp [Direct.ident]))
  have hM : Meaning.tally.Steady := fun _ _ _ => rfl
  have hf : (fun _ => ()) <$> (guardedPick.lower .value c .picking).toOption = some () := by
    decide +kernel
  obtain ⟨⟨⟨code, v⟩, s'⟩, h, _⟩ := exists_of_check hf
  obtain ⟨b, hb, hs, ho, hst, ht⟩ := he.lower_performs hM h a
  have hv : guardedPick.outcome .tally (.of c State.picking.table) a.store a.past =
      (11, [.call "count" [7], .call "Cell.next" [7]]) := by rfl
  obtain ⟨hv, hp⟩ := Prod.ext_iff.1 (ho.symm.trans hv)
  exact ⟨he, hM, code, v, s', h, b, hb, hs, hp, hv, hst, ht⟩

end ThreeAddress
