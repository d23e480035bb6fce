import Mathlib.Order.Defs.Unbundled
import ThreeAddress.Proofs.Lowering.Forms

/-! What running a piece of lowering keeps. Expressions move the counters and report names, and
touch nothing else: neither targets, nor frames, nor the table. -/

namespace ThreeAddress

open Lowering

def Problem.isJump : Problem → Bool
  | .breakOutside _ | .continueOutside _ => true
  | _ => false

/-- Only counters went up, and only names and shapes were reported. -/
structure Lowering.State.Advances (s s' : State) : Prop where
  temps : s.ledger.temps ≤ s'.ledger.temps
  labels : s.ledger.labels ≤ s'.ledger.labels
  layout : s'.ledger.layout = s.ledger.layout
  targets : s'.ledger.targets = s.ledger.targets
  cursor : s'.ledger.cursor = s.ledger.cursor
  saved : s'.ledger.saved = s.ledger.saved
  table : s'.table = s.table
  problems : ∃ ps, s'.problems = s.problems ++ ps ∧ ∀ p ∈ ps, ¬p.isJump

namespace Lowering.State.Advances

theorem refl (s : State) : s.Advances s :=
  ⟨Nat.le_refl _, Nat.le_refl _, rfl, rfl, rfl, rfl, rfl, [], by simp, by simp⟩

theorem trans {s s' s'' : State} (h : s.Advances s') (k : s'.Advances s'') : s.Advances s'' where
  temps := Nat.le_trans h.temps k.temps
  labels := Nat.le_trans h.labels k.labels
  layout := k.layout.trans h.layout
  targets := k.targets.trans h.targets
  cursor := k.cursor.trans h.cursor
  saved := k.saved.trans h.saved
  table := k.table.trans h.table
  problems := by
    obtain ⟨ps, hp, hj⟩ := h.problems
    obtain ⟨qs, hq, hk⟩ := k.problems
    refine ⟨ps ++ qs, by simp [hp, hq], ?_⟩
    intro p hm
    exact (List.mem_append.1 hm).elim (hj p) (hk p)

instance : Std.Refl State.Advances := ⟨refl⟩

instance : IsTrans State State.Advances := ⟨fun _ _ _ => trans⟩

theorem nextTemp (s : State) : s.Advances s.nextTemp :=
  { refl s with temps := Nat.le_succ _ }

theorem nextLabel (s : State) : s.Advances s.nextLabel :=
  { refl s with labels := Nat.le_succ _ }

theorem report {s : State} {ps : List Problem} (h : ∀ p ∈ ps, ¬p.isJump) :
    s.Advances { s with problems := s.problems ++ ps } :=
  { refl s with problems := ⟨ps, rfl, h⟩ }

end Lowering.State.Advances

/-- A relation that holds across steps which neither take a label nor touch more than counters and
reports. -/
class Steady (R : State → State → Prop) : Prop extends Std.Refl R, IsTrans State R where
  nextTemp : ∀ s, R s s.nextTemp
  report : ∀ s {p}, ¬p.isJump → R s (s.report p)

instance : Steady State.Advances where
  nextTemp := .nextTemp
  report _ _ h := .report (by simpa using h)

namespace Lower

def Keeps (R : State → State → Prop) (act : Lower α) : Prop :=
  ∀ ⦃c s a s'⦄, Runs act c s a s' → R s s'

namespace Keeps

variable {R : State → State → Prop}

theorem mono {S : State → State → Prop} {act : Lower α} (h : Keeps R act)
    (le : ∀ {s s'}, R s s' → S s s') : Keeps S act :=
  fun _ _ _ _ hr => le (h hr)

theorem pure [Std.Refl R] (a : α) : Keeps R (Pure.pure a : Lower α) := by
  intro c s b s' h
  obtain ⟨_, rfl⟩ := runs_pure.1 h
  exact Std.Refl.refl s'

theorem bind [IsTrans State R] {act : Lower α} {f : α → Lower β} (h : Keeps R act)
    (k : ∀ a, Keeps R (f a)) : Keeps R (act >>= f) := by
  intro c s b s' hr
  obtain ⟨a, s₁, ha, hf⟩ := runs_bind.1 hr
  exact IsTrans.trans _ _ _ (h ha) (k a hf)

theorem withReader {f : Context → Context} {act : Lower α} (h : Keeps R act) :
    Keeps R (withReader f act) :=
  fun _ _ _ _ hr => h (runs_withReader.1 hr)

theorem mapM [Std.Refl R] [IsTrans State R] {f : α → Lower β} {xs : List α}
    (h : ∀ a ∈ xs, Keeps R (f a)) : Keeps R (xs.mapM f) := by
  induction xs with
  | nil => exact pure []
  | cons a rest ih =>
    rw [List.mapM_cons]
    exact (h a (by simp)).bind fun _ => (ih fun b hb => h b (by simp [hb])).bind fun _ => pure _

theorem forM [Std.Refl R] [IsTrans State R] {f : α → Lower PUnit} {xs : List α}
    (h : ∀ a ∈ xs, Keeps R (f a)) : Keeps R (xs.forM f) := by
  induction xs with
  | nil => exact pure _
  | cons a rest ih =>
    exact (h a (by simp)).bind fun _ => ih fun b hb => h b (by simp [hb])

end Keeps

section Reading

variable {R : State → State → Prop} [Std.Refl R]

theorem read_keeps : Keeps R read := by
  intro c s d s' h
  obtain ⟨_, rfl⟩ := runs_read.1 h
  exact Std.Refl.refl s'

theorem get_keeps : Keeps R get := by
  intro c s a s' h
  obtain ⟨_, rfl⟩ := runs_get.1 h
  exact Std.Refl.refl s'

theorem lookup_keeps (name : String) : Keeps R (lookup name) := by
  intro c s found s' h
  obtain ⟨_, rfl⟩ := runs_lookup.1 h
  exact Std.Refl.refl s'

theorem symbol_keeps (id : SymbolId) : Keeps R (symbol id) := by
  intro c s x s' h
  obtain ⟨_, rfl⟩ := runs_symbol.1 h
  exact Std.Refl.refl s'

theorem receiverClass_keeps [IsTrans State R] (e : Expr) : Keeps R (receiverClass e) := by
  cases e with
  | this => exact read_keeps.bind fun _ => .pure _
  | ident name span =>
    refine (lookup_keeps name).bind fun found => ?_
    cases found with
    | none => exact .pure _
    | some id =>
      refine (symbol_keeps id).bind fun x => ?_
      cases x.type <;> exact .pure _
  | _ => exact .pure _

end Reading

section Steady

variable {R : State → State → Prop} [Steady R]

theorem freshTemp_keeps : Keeps R freshTemp := by
  intro c s t s' h
  obtain ⟨_, rfl, _⟩ := runs_freshTemp.1 h
  exact Steady.nextTemp s

theorem report_keeps {p : Problem} (h : ¬p.isJump) : Keeps R (report p) := by
  intro c s u s' hr
  rw [runs_report.1 hr]
  exact Steady.report s h

theorem copyToTemp_keeps (v : Operand) : Keeps R (copyToTemp v) :=
  freshTemp_keeps.bind fun _ => .pure _

theorem ensureTemp_keeps (v : Operand) : Keeps R (ensureTemp v) := by
  unfold ensureTemp
  split
  · exact .pure _
  · exact copyToTemp_keeps v

theorem nameOperand_keeps (name : String) (span : Span) :
    Keeps R (nameOperand name span) := by
  refine (lookup_keeps name).bind fun found => ?_
  cases found with
  | some id => exact (symbol_keeps id).bind fun _ => .pure _
  | none => exact (report_keeps (by simp [Problem.isJump])).bind fun _ => .pure _

section Valued

variable {act : Lower Valued}

theorem storable_keeps (h : Keeps R act) : Keeps R (storable act) := by
  refine h.bind fun (code, value) => ?_
  cases value with
  | var name => exact (copyToTemp_keeps _).bind fun _ => .pure _
  | _ => exact .pure _

theorem argument_keeps (h : Keeps R act) : Keeps R (argument act) :=
  h.bind fun _ => (copyToTemp_keeps _).bind fun _ => .pure _

end Valued

theorem namedCallee_keeps (name : String) (span : Span) :
    Keeps R (namedCallee name span) := by
  refine (lookup_keeps name).bind fun found => ?_
  cases found with
  | none => exact (report_keeps (by simp [Problem.isJump])).bind fun _ => .pure _
  | some id =>
    refine (symbol_keeps id).bind fun x => ?_
    split
    · exact (copyToTemp_keeps _).bind fun _ => .pure _
    · exact .pure _

theorem finishCall_keeps (demand : Demand) (callee : String) (params : List Operand) :
    Keeps R (finishCall demand callee params) := by
  cases demand with
  | value => exact freshTemp_keeps.bind fun _ => .pure _
  | effect => exact .pure _

theorem literalShape_keeps (name : String) (span : Span) (literal : Nest α) :
    Keeps R (literalShape name span literal) := by
  refine read_keeps.bind fun c => ?_
  dsimp only
  split
  · exact (report_keeps (by simp [Problem.isJump])).bind fun _ => .pure _
  · exact .pure _

theorem leafAt_keeps {literal : Nest (Lower Valued)} {position : List Nat}
    (h : ∀ act ∈ literal.at? position, Keeps R act) (zero : Operand) :
    Keeps R (leafAt literal zero position) := by
  unfold leafAt
  cases ha : literal.at? position with
  | none => exact copyToTemp_keeps zero
  | some act => exact h act ha

end Steady

theorem freshLabel_advances : Keeps State.Advances freshLabel := by
  intro c s l s' h
  obtain ⟨_, rfl, _⟩ := runs_freshLabel.1 h
  exact .nextLabel s

section Valued

variable {act l r : Lower Valued}

theorem shortCircuit_advances (op : LogicalOp) (hl : Keeps State.Advances l)
    (hr : Keeps State.Advances r) : Keeps State.Advances (shortCircuit op l r) :=
  hl.bind fun _ => freshTemp_keeps.bind fun _ => freshLabel_advances.bind fun _ =>
    hr.bind fun _ => by cases op <;> exact .pure _

theorem choose_advances (h : Keeps State.Advances act) (hl : Keeps State.Advances l)
    (hr : Keeps State.Advances r) : Keeps State.Advances (choose act l r) :=
  h.bind fun _ => freshLabel_advances.bind fun _ => freshLabel_advances.bind fun _ =>
    hl.bind fun _ => freshTemp_keeps.bind fun _ => freshLabel_advances.bind fun _ =>
      hr.bind fun _ => .pure _

end Valued

end Lower

open Lower

theorem lowerArgs_advances {es : List Expr} (h : ∀ e ∈ es, Keeps State.Advances (e.lower .value)) :
    Keeps State.Advances (lowerArgs es) := by
  induction es with
  | nil =>
    rw [lowerArgs]
    exact .pure _
  | cons e rest ih =>
    rw [lowerArgs]
    exact (argument_keeps (h e (by simp))).bind fun _ =>
      (ih fun e he => h e (by simp [he])).bind fun _ => .pure _

theorem Lower.callee_advances {callee : Expr} (span : Span)
    (h : Keeps State.Advances (callee.lower .value))
    (ho : ∀ object method at_, callee = .property object method at_ →
      Keeps State.Advances (object.lower .value)) :
    Keeps State.Advances (lowerCallee span callee) := by
  unfold lowerCallee
  split
  · exact namedCallee_keeps ..
  · exact (receiverClass_keeps _).bind fun _ =>
      (argument_keeps (ho _ _ _ rfl)).bind fun _ => .pure _
  · exact h.bind fun _ => .pure _

theorem Expr.lower_advances (e : Expr) (demand : Demand) :
    Keeps State.Advances (e.lower demand) := by
  induction e generalizing demand with
  | int n => rw [Expr.lower]; exact copyToTemp_keeps _
  | str text => rw [Expr.lower]; exact copyToTemp_keeps _
  | bool b => rw [Expr.lower]; exact copyToTemp_keeps _
  | null => rw [Expr.lower]; exact copyToTemp_keeps _
  | ident name span => rw [Expr.lower]; exact (nameOperand_keeps name span).bind fun _ => .pure _
  | this => rw [Expr.lower]; exact .pure _
  | array es span ih =>
    rw [Expr.lower]
    refine (literalShape_keeps ..).bind fun shape => ?_
    refine (Keeps.mapM fun p _ => leafAt_keeps ?_ _).bind fun _ => ?_
    · intro act h
      obtain ⟨e, he, rfl⟩ := leaf_of_lowerCells h
      exact storable_keeps (ih e he _)
    · exact freshTemp_keeps.bind fun _ => .pure _
  | binary l op r span ihl ihr =>
    rw [Expr.lower]
    exact (ihl _).bind fun _ => (ihr _).bind fun _ => freshTemp_keeps.bind fun _ => .pure _
  | unary op e span ih =>
    rw [Expr.lower]
    exact (ih _).bind fun _ => freshTemp_keeps.bind fun _ => .pure _
  | logical l op r span ihl ihr => rw [Expr.lower]; exact shortCircuit_advances op (ihl _) (ihr _)
  | ternary c a b span ihc iha ihb => rw [Expr.lower]; exact choose_advances (ihc _) (iha _) (ihb _)
  | call callee args span ihc iho iha =>
    have hc := callee_advances span (ihc _) fun object method at_ he => iho object method at_ he _
    rw [Expr.lower_call]
    exact hc.bind fun _ => (lowerArgs_advances fun e he => iha e he _).bind fun _ =>
      (finishCall_keeps ..).bind fun _ => .pure _
  | new name args span ih =>
    rw [Expr.lower]
    exact (lowerArgs_advances fun e he => ih e he _).bind fun _ =>
      freshTemp_keeps.bind fun _ => .pure _
  | index base i span ihb ihi =>
    rw [Expr.lower]
    exact (ihb _).bind fun _ => (ihi _).bind fun _ => (ensureTemp_keeps _).bind fun _ =>
      freshTemp_keeps.bind fun _ => .pure _
  | property object field span ih =>
    rw [Expr.lower]
    exact (ih _).bind fun _ => freshTemp_keeps.bind fun _ => .pure _

theorem Lower.lowerCallee_advances (span : Span) (callee : Expr) :
    Keeps State.Advances (lowerCallee span callee) :=
  callee_advances span (callee.lower_advances _) fun object _ _ _ => object.lower_advances _

theorem Lower.caseTests_advances (subject : Operand) (cases : List Case) :
    Keeps State.Advances (caseTests subject cases) := by
  induction cases with
  | nil => exact .pure _
  | cons k rest ih =>
    exact (k.value.lower_advances .value).bind fun _ => freshLabel_advances.bind fun _ =>
      ih.bind fun _ => .pure _

theorem Lower.loopTest_advances (test : Option Expr) :
    Keeps State.Advances (loopTest (test.map (·.lower .value))) := by
  cases test with
  | none => exact .pure _
  | some e =>
    exact (e.lower_advances .value).bind fun _ => freshLabel_advances.bind fun _ => .pure _

end ThreeAddress
