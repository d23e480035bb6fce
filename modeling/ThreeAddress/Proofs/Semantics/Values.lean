import ThreeAddress.Proofs.Lowering.Advance
import ThreeAddress.Proofs.Scope.Growth
import ThreeAddress.Proofs.Semantics.Machine

namespace ThreeAddress

open Lowering Lower Config

/-- Instructions use every name as it is written, and nothing is known about extents. -/
def Table.Plain (t : Table) : Prop :=
  ∀ ⦃id x⦄, t.symbol id = .ok x → x.place = x.name ∧ x.dimensions = []

/-- What holds the value of an expression: a name, or a temporary up to `n`. -/
inductive Operand.Kept (n : Nat) : Operand → Prop
  | temp : t.number ≤ n → Kept n (.temp t)
  | var : Kept n (.var name)

theorem Operand.Kept.mono {m n : Nat} {o : Operand} (h : o.Kept m) (hn : m ≤ n) : o.Kept n := by
  cases h with
  | temp h => exact .temp (Nat.le_trans h hn)
  | var => exact .var

variable [DecidableEq V] {M : Model V} {code : Code} {c : Context} {s s' : State}

theorem Operand.Kept.read_eq {n k k' : Nat} {o : Operand} {ts ts' : Temp → V} {w : World V}
    (h : o.Kept n) (hr : Reaches M code n ⟨k, ts, w⟩ ⟨k', ts', w⟩) :
    o.read M ts' w.store = o.read M ts w.store := by
  cases h with
  | temp h => exact hr.2 _ h
  | var => rfl

theorem Config.Reaches.cast {n k k' : Nat} {a : Config V} {ts : Temp → V} {w : World V}
    (h : Reaches M code n a ⟨k, ts, w⟩) (hk : k = k') : Reaches M code n a ⟨k', ts, w⟩ := by
  rwa [← hk]

/-- The code of `x` runs through, leaves temporaries up to `m` and the world alone, and its operand
then has the value `f`. -/
structure Valued.Computes (M : Model V) (code : Code) (m n : Nat) (x : Valued)
    (f : (String → V) → V) : Prop where
  kept : x.2.Kept n
  falls : ¬x.1.endsInJump
  runs : ∀ ⦃k⦄, code.At k x.1 → ∀ ts w, ∃ ts',
    Reaches M code m ⟨k, ts, w⟩ ⟨k + x.1.length, ts', w⟩ ∧ x.2.read M ts' w.store = f w.store

def Lower.Computes (M : Model V) (code : Code) (act : Lower Valued) (f : (String → V) → V) : Prop :=
  ∀ ⦃c s x s'⦄, Runs act c s x s' → s.table.Plain →
    Valued.Computes M code s.ledger.temps s'.ledger.temps x f

namespace Lower

variable {act l r : Lower Valued} {f g h : (String → V) → V}

theorem copyToTemp_computes {v : Operand} (hv : ∀ ts (w : World V), v.read M ts w.store = f w.store) :
    Computes M code (copyToTemp v) f := by
  intro c s x s' hr _
  obtain ⟨_, rfl, rfl⟩ := runs_copyToTemp.1 hr
  refine ⟨.temp (Nat.le_refl _), by simp [Instruction.isJump], fun k ha ts w => ?_⟩
  refine ⟨_, reaches_assign_temp (Code.at_cons.1 ha).1 (Nat.lt_succ_self _), ?_⟩
  simp [Operand.read, hv ts w]

theorem nameOperand_plain {name : String} {span : Span} {v : Operand}
    (hr : Runs (nameOperand name span) c s v s') (hp : s.table.Plain) : v = .var name := by
  obtain ⟨_, rfl, _⟩ | ⟨_, y, hl, hy, rfl, _⟩ := runs_nameOperand hr
  · rfl
  · rw [(hp hy).1, Table.lookup_name hl hy]

theorem ident_computes (name : String) (span : Span) :
    Computes M code ((Expr.ident name span).lower .value) (· name) := by
  intro c s x s' hr hp
  obtain ⟨v, hv, rfl⟩ := Expr.runs_ident.1 hr
  obtain rfl := nameOperand_plain hv hp
  exact ⟨.var, by simp, fun k _ ts w => ⟨ts, .refl _ _, rfl⟩⟩

theorem computes_pair {m n n' : Nat} {first second : Code} {left right : Operand} {k : Nat}
    (hl : Valued.Computes M code m n (first, left) f)
    (hr : Valued.Computes M code n n' (second, right) g) (hm : m ≤ n)
    (ha : code.At k (first ++ second)) (ts : Temp → V) (w : World V) :
    ∃ ts', Reaches M code m ⟨k, ts, w⟩ ⟨k + first.length + second.length, ts', w⟩ ∧
      left.read M ts' w.store = f w.store ∧ right.read M ts' w.store = g w.store := by
  obtain ⟨h₁, h₂⟩ := Code.at_append.1 ha
  obtain ⟨ts₁, hr₁, hv₁⟩ := hl.runs h₁ ts w
  obtain ⟨ts₂, hr₂, hv₂⟩ := hr.runs h₂ ts₁ w
  exact ⟨ts₂, hr₁.trans (hr₂.mono hm), (hl.kept.read_eq hr₂).trans hv₁, hv₂⟩

theorem shortCircuit_computes (op : LogicalOp) (hn : code.placed.Nodup)
    (hl : Computes M code l f) (hr : Computes M code r g) (ha : Keeps State.Advances l)
    (hb : Keeps State.Advances r) :
    Computes M code (shortCircuit op l r) fun store => match op with
      | .and => if f store = M.int 0 then M.int 0 else g store
      | .or => if f store = M.int 0 then g store else M.int 1 := by
  intro c s x s' h hp
  obtain ⟨first, left, s₁, second, right, h₁, _, _, h₂, rfl⟩ := runs_shortCircuit.1 h
  have hs := ha h₁
  have hp₁ : s₁.table.Plain := by rwa [hs.table]
  refine ⟨.temp (hb h₂).temps, by simp [Instruction.isJump], fun k hc ts w => ?_⟩
  simp only [List.append_assoc, List.cons_append, List.nil_append, Code.at_append, Code.at_cons,
    Code.at_nil, and_true] at hc
  obtain ⟨c₁, c₂, c₃, c₄, c₅, c₆⟩ := hc
  obtain ⟨ts₁, r₁, v₁⟩ := (hl h₁ hp).runs c₁ ts w
  have ht : s₁.ledger.temps < s₁.temp.number := Nat.lt_succ_self _
  have r₂ : Reaches M code s₁.ledger.temps ⟨_, ts₁, w⟩ _ := reaches_assign_temp c₂ ht
  have v₂ := ((hl h₁ hp).kept.read_eq r₂).trans v₁
  have r₃ := r₁.trans ((r₂.trans (reaches_branch hn c₃ c₆)).mono hs.temps)
  by_cases hd : (if op = .and then Relation.eq else .ne).holds M (f w.store) (M.int 0)
  · rw [v₂, Operand.read, if_pos hd] at r₃
    refine ⟨_, (r₃.trans (reaches_label c₆)).cast (by simp; omega), ?_⟩
    cases op <;> simp_all [Operand.read, Relation.holds]
  · rw [v₂, Operand.read, if_neg hd] at r₃
    obtain ⟨ts₃, r₄, v₄⟩ := (hr h₂ hp₁).runs c₄ _ w
    have hw : s.ledger.temps ≤ s₁.ledger.temps + 1 := Nat.le_succ_of_le hs.temps
    have r₅ : Reaches M code _ ⟨_, ts₃, w⟩ _ :=
      reaches_assign_temp c₅ (Nat.lt_succ_of_le hs.temps)
    refine ⟨_, ((r₃.trans (r₄.mono hw)).trans (r₅.trans (reaches_label c₆))).cast
      (by simp; omega), ?_⟩
    cases op <;> simp_all [Operand.read, Relation.holds]

theorem choose_computes {test : Lower Valued} (hn : code.placed.Nodup)
    (ht : Computes M code test h) (hl : Computes M code l f) (hr : Computes M code r g)
    (ha : Keeps State.Advances test) (hb : Keeps State.Advances l)
    (hc : Keeps State.Advances r) :
    Computes M code (choose test l r) fun store =>
      if h store = M.int 1 then f store else g store := by
  intro c s x s' hx hp
  obtain ⟨head, v, s₁, h₁, _, _, first, left, s₂, h₂, _, _, second, right, h₃, rfl⟩ :=
    runs_choose.1 hx
  have hs₁ := ha h₁
  have hs₂ : s₁.Advances s₂ := (State.Advances.nextLabel s₁).trans <|
    (State.Advances.nextLabel _).trans (hb h₂)
  have hp₁ : s₁.table.Plain := by rwa [hs₁.table]
  have hp₂ : s₂.table.Plain := by rwa [hs₂.table]
  refine ⟨.temp (hc h₃).temps, by simp [Instruction.isJump], fun k ha ts w => ?_⟩
  simp only [List.append_assoc, List.cons_append, List.nil_append, Code.at_append, Code.at_cons,
    Code.at_nil, and_true] at ha
  obtain ⟨c₁, c₂, c₃, c₄, c₅, c₆, c₇, c₈, c₉, c₁₀, c₁₁⟩ := ha
  obtain ⟨ts₁, r₁, v₁⟩ := (ht h₁ hp).runs c₁ ts w
  have r₂ := r₁.trans (reaches_branch hn c₂ c₄)
  have ht : s.ledger.temps < s₂.temp.number := Nat.lt_succ_of_le (Nat.le_trans hs₁.temps hs₂.temps)
  rw [v₁, Operand.read] at r₂
  by_cases hd : h w.store = M.int 1
  · rw [if_pos (by simp [Relation.holds, Model.bool, hd])] at r₂
    obtain ⟨ts₂, r₃, v₂⟩ := (hl h₂ hp₁).runs c₅ ts₁ w
    have r₄ := (r₂.trans (reaches_label c₄)).trans (r₃.mono hs₁.temps)
    have r₅ := (r₄.trans (reaches_assign_temp c₆ ht)).trans (reaches_goto hn c₇ c₁₁)
    refine ⟨_, (r₅.trans (reaches_label c₁₁)).cast (by simp; omega), ?_⟩
    simpa [Operand.read, hd] using v₂
  · rw [if_neg (by simp [Relation.holds, Model.bool, hd])] at r₂
    obtain ⟨ts₂, r₃, v₂⟩ := (hr h₃ hp₂).runs c₉ ts₁ w
    have r₄ := ((r₂.trans (reaches_goto hn c₃ c₈)).trans (reaches_label c₈)).trans
      (r₃.mono (Nat.le_of_lt ht))
    have r₅ := (r₄.trans (reaches_assign_temp c₁₀ ht)).trans (reaches_label c₁₁)
    refine ⟨_, r₅.cast (by simp; omega), ?_⟩
    simpa [Operand.read, hd] using v₂

theorem computes_copy {m n : Nat} {y : Valued} (h : Valued.Computes M code m n y f)
    (hm : m ≤ n) : Valued.Computes M code m (n + 1)
      (y.1 ++ [.assign (.temp ⟨n + 1⟩) y.2], .temp ⟨n + 1⟩) f := by
  refine ⟨.temp (Nat.le_refl _), by simp [Instruction.isJump], fun k ha ts w => ?_⟩
  obtain ⟨ha, hb, _⟩ := Code.at_append.1 ha
  obtain ⟨ts₁, r₁, v⟩ := h.runs ha ts w
  have r₂ := r₁.trans (reaches_assign_temp hb (Nat.lt_succ_of_le hm))
  exact ⟨_, r₂.cast (by simp; omega), by simp [Operand.read, v]⟩

theorem computes_ensured {m : Nat} {head copy : Code} {v u : Operand}
    (h : Valued.Computes M code m s.ledger.temps (head, v) f) (hm : m ≤ s.ledger.temps)
    (hr : Runs (ensureTemp v) c s (copy, u) s') :
    Valued.Computes M code m s'.ledger.temps (head ++ copy, u) f := by
  obtain ⟨_, hx, rfl⟩ | ⟨_, hr⟩ := runs_ensureTemp.1 hr
  · cases hx
    simpa using h
  · obtain ⟨_, rfl, hx⟩ := runs_copyToTemp.1 hr
    cases hx
    exact computes_copy h hm

theorem storable_computes (h : Computes M code act f) (ha : Keeps State.Advances act) :
    Computes M code (storable act) f := by
  intro c s x s' hr hp
  obtain ⟨y, s₁, h₁, ⟨_, _, _, rfl, rfl⟩ | ⟨_, rfl, rfl⟩⟩ := runs_storable.1 hr
  · exact computes_copy (h h₁ hp) (ha h₁).temps
  · exact h h₁ hp

theorem argument_computes (h : Computes M code act f) (ha : Keeps State.Advances act) :
    Computes M code (argument act) f := by
  intro c s x s' hr hp
  obtain ⟨y, s₁, h₁, _, rfl, rfl⟩ := runs_argument.1 hr
  exact computes_copy (h h₁ hp) (ha h₁).temps

end Lower

open Lower

theorem Expr.Scalar.lower_computes {e : Expr} (he : e.Scalar) (hn : code.placed.Nodup)
    (demand : Demand) : Computes M code (e.lower demand) (e.eval M) := by
  induction he generalizing demand with
  | int => rw [Expr.lower]; exact copyToTemp_computes fun _ _ => rfl
  | str => rw [Expr.lower]; exact copyToTemp_computes fun _ _ => rfl
  | bool => rw [Expr.lower]; exact copyToTemp_computes fun _ _ => rfl
  | null => rw [Expr.lower]; exact copyToTemp_computes fun _ _ => rfl
  | ident => exact ident_computes _ _
  | @binary l r op _ _ _ ihl ihr =>
    rw [Expr.lower]
    intro c s x s' h hp
    simp only [runs_bind, runs_freshTemp, runs_pure] at h
    obtain ⟨⟨first, left⟩, s₁, h₁, ⟨second, right⟩, s₂, h₂, _, _, ⟨_, rfl, rfl⟩, rfl, rfl⟩ := h
    have hs₁ := l.lower_advances _ h₁
    have hs₂ := r.lower_advances _ h₂
    have hp₁ : s₁.table.Plain := by rwa [hs₁.table]
    refine ⟨.temp (Nat.le_refl _), by simp [Instruction.isJump], fun k ha ts w => ?_⟩
    obtain ⟨ha, hb, _⟩ := Code.at_append.1 ha
    obtain ⟨ts₁, r₁, vl, vr⟩ := computes_pair (ihl _ h₁ hp) (ihr _ h₂ hp₁) hs₁.temps ha ts w
    have ht : s.ledger.temps < s₂.temp.number :=
      Nat.lt_succ_of_le (Nat.le_trans hs₁.temps hs₂.temps)
    refine ⟨_, (r₁.cast (by simp; omega)).trans (reaches_binary hb ht) |>.cast (by simp; omega), ?_⟩
    simp [Operand.read, vl, vr, Expr.eval]
  | @unary e op _ _ ih =>
    rw [Expr.lower]
    intro c s x s' h hp
    simp only [runs_bind, runs_freshTemp, runs_pure] at h
    obtain ⟨⟨first, arg⟩, s₁, h₁, _, _, ⟨_, rfl, rfl⟩, rfl, rfl⟩ := h
    refine ⟨.temp (Nat.le_refl _), by simp [Instruction.isJump], fun k ha ts w => ?_⟩
    obtain ⟨ha, hb, _⟩ := Code.at_append.1 ha
    obtain ⟨ts₁, r₁, v⟩ := (ih _ h₁ hp).runs ha ts w
    have ht : s.ledger.temps < s₁.temp.number := Nat.lt_succ_of_le (e.lower_advances _ h₁).temps
    refine ⟨_, r₁.trans (reaches_unary hb ht) |>.cast (by simp; omega), ?_⟩
    simp [Operand.read, v, Expr.eval]
  | @logical l r op _ _ _ ihl ihr =>
    rw [Expr.lower]
    have := shortCircuit_computes op hn (ihl .value) (ihr .value) (l.lower_advances _)
      (r.lower_advances _)
    cases op <;> simpa only [Expr.eval] using this
  | @ternary c a b _ _ _ _ ihc iha ihb =>
    rw [Expr.lower]
    simpa only [Expr.eval] using choose_computes hn (ihc .value) (iha .value) (ihb .value)
      (c.lower_advances _) (a.lower_advances _) (b.lower_advances _)

end ThreeAddress
