import ThreeAddress.Proofs.Labels.Rules
import ThreeAddress.Proofs.Lowering.Advance

namespace ThreeAddress

open Lowering Lower

/-- Running the action takes labels for the code alone, and the code places them all. -/
def Lower.Places (f : α → Code) (act : Lower α) : Prop :=
  ∀ ⦃c s x s'⦄, Runs act c s x s' → Labelled s.ledger.labels [] (f x) s'.ledger.labels []

def Lowering.State.SameLabels (s s' : State) : Prop := s'.ledger.labels = s.ledger.labels

instance : Steady State.SameLabels where
  refl _ := rfl
  trans _ _ _ h k := k.trans h
  nextTemp _ := rfl
  report _ _ _ := rfl

namespace Lower

variable {f : α → Code} {act : Lower α}

theorem Places.plain (h : Keeps State.SameLabels act)
    (hp : ∀ ⦃c s x s'⦄, Runs act c s x s' → ∀ i ∈ f x, i.label? = none) : Places f act := by
  intro c s x s' hr
  rw [show s'.ledger.labels = s.ledger.labels from h hr]
  exact .plains (hp hr)

section Values

variable {act l r : Lower Valued}

theorem copyToTemp_places (v : Operand) : Places Prod.fst (copyToTemp v) := by
  refine .plain (copyToTemp_keeps v) fun c s x s' h => ?_
  obtain ⟨_, _, rfl⟩ := runs_copyToTemp.1 h
  simp [Instruction.label?]

theorem ensureTemp_places (v : Operand) : Places Prod.fst (ensureTemp v) := by
  intro c s x s' h
  obtain ⟨_, rfl, rfl⟩ | ⟨_, h⟩ := runs_ensureTemp.1 h
  · exact .nil
  · exact copyToTemp_places v h

theorem storable_places (h : Places Prod.fst act) : Places Prod.fst (storable act) := by
  intro c s x s' hr
  obtain ⟨y, s₁, h₁, ⟨_, _, _, rfl, rfl⟩ | ⟨_, rfl, rfl⟩⟩ := runs_storable.1 hr
  · exact (h h₁).append (.plain rfl .nil)
  · exact h h₁

theorem argument_places (h : Places Prod.fst act) : Places Prod.fst (argument act) := by
  intro c s x s' hr
  obtain ⟨y, s₁, h₁, _, rfl, rfl⟩ := runs_argument.1 hr
  exact (h h₁).append (.plain rfl .nil)

theorem shortCircuit_places (op : LogicalOp) (hl : Places Prod.fst l) (hr : Places Prod.fst r) :
    Places Prod.fst (shortCircuit op l r) := by
  intro c s x s' h
  obtain ⟨first, left, s₁, second, right, h₁, _, _, h₂, rfl⟩ := runs_shortCircuit.1 h
  simp only [List.append_assoc, List.cons_append, List.nil_append]
  apply (hl h₁).append
  apply Labelled.plain rfl
  apply Labelled.fork rfl
  apply ((hr h₂).inside [s₁.label]).append
  apply Labelled.plain rfl
  exact .place (.refl _) .nil

theorem choose_places (h : Places Prod.fst act) (hl : Places Prod.fst l) (hr : Places Prod.fst r) :
    Places Prod.fst (choose act l r) := by
  intro c s x s' h'
  obtain ⟨head, v, s₁, h₁, _, _, first, left, s₂, h₂, _, _, second, right, h₃, rfl⟩ :=
    runs_choose.1 h'
  simp only [List.append_assoc, List.cons_append, List.nil_append]
  apply (h h₁).append
  apply Labelled.fork rfl
  apply Labelled.fork rfl
  apply Labelled.place (.swap ..)
  apply ((hl h₂).inside [s₁.nextLabel.label]).append
  apply Labelled.plain rfl
  apply Labelled.fork rfl
  apply Labelled.place (.swap ..)
  apply ((hr h₃).inside [s₂.nextTemp.label]).append
  apply Labelled.plain rfl
  exact .place (.refl _) .nil

theorem namedCallee_places (name : String) (span : Span) : Places Callee.code (namedCallee name span) := by
  refine .plain (namedCallee_keeps name span) fun c s x s' h => ?_
  obtain ⟨_, rfl, _⟩ | ⟨_, _, _, _, ⟨_, z, hz, rfl⟩ | ⟨_, rfl, _⟩⟩ := runs_namedCallee h
  · simp
  · obtain ⟨_, rfl, rfl⟩ := runs_copyToTemp.1 hz
    simp [Instruction.label?]
  · simp

theorem finishCall_places (demand : Demand) (callee : String) (params : List Operand) :
    Places Prod.fst (finishCall demand callee params) := by
  refine .plain (finishCall_keeps demand callee params) fun c s x s' h => ?_
  cases demand with
  | value =>
    simp only [finishCall, runs_bind, runs_freshTemp, runs_pure] at h
    obtain ⟨_, _, _, rfl, rfl⟩ := h
    simp [Instruction.label?]
  | effect =>
    obtain ⟨rfl, _⟩ := runs_pure.1 h
    simp [Instruction.label?]

theorem leafAt_places {literal : Nest (Lower Valued)} {position : List Nat}
    (h : ∀ act ∈ literal.at? position, Places Prod.fst act) (zero : Operand) :
    Places Prod.fst (leafAt literal zero position) := by
  unfold leafAt
  cases ha : literal.at? position with
  | none => exact copyToTemp_places zero
  | some act => exact h act ha

end Values

theorem mapM_places {f : β → Code} {g : α → Lower β} {xs : List α} (h : ∀ a ∈ xs, Places f (g a)) :
    Places (List.flatMap f) (xs.mapM g) := by
  induction xs with
  | nil =>
    intro c s x s' hr
    obtain ⟨rfl, rfl⟩ := runs_pure.1 hr
    exact .nil
  | cons a rest ih =>
    intro c s x s' hr
    rw [List.mapM_cons] at hr
    simp only [runs_bind, runs_pure] at hr
    obtain ⟨b, s₁, h₁, bs, _, h₂, rfl, rfl⟩ := hr
    exact (h a (by simp) h₁).append (ih (fun a ha => h a (by simp [ha])) h₂)

end Lower

theorem lowerArgs_places {es : List Expr} (h : ∀ e ∈ es, Places Prod.fst (e.lower .value)) :
    Places Prod.fst (lowerArgs es) := by
  induction es with
  | nil =>
    intro c s x s' hr
    rw [lowerArgs] at hr
    obtain ⟨rfl, rfl⟩ := runs_pure.1 hr
    exact .nil
  | cons e rest ih =>
    intro c s x s' hr
    rw [lowerArgs] at hr
    simp only [runs_bind, runs_pure] at hr
    obtain ⟨y, s₁, h₁, z, _, h₂, rfl, rfl⟩ := hr
    exact (argument_places (h e (by simp)) h₁).append (ih (fun e he => h e (by simp [he])) h₂)

theorem lowerCallee_places {callee : Expr} (span : Span) (h : Places Prod.fst (callee.lower .value))
    (ho : ∀ object method at_, callee = .property object method at_ →
      Places Prod.fst (object.lower .value)) : Places Callee.code (lowerCallee span callee) := by
  unfold lowerCallee
  split
  · exact namedCallee_places ..
  · intro c s x s' hr
    simp only [runs_bind, runs_pure] at hr
    obtain ⟨_, s₁, h₁, y, _, h₂, rfl, rfl⟩ := hr
    have hs : s₁.ledger.labels = s.ledger.labels :=
      receiverClass_keeps (R := State.SameLabels) _ h₁
    rw [← hs]
    exact argument_places (ho _ _ _ rfl) h₂
  · intro c s x s' hr
    simp only [runs_bind, runs_pure] at hr
    obtain ⟨y, _, hr, rfl, rfl⟩ := hr
    exact h hr

theorem Expr.lower_places (e : Expr) (demand : Demand) : Places Prod.fst (e.lower demand) := by
  induction e generalizing demand with
  | int n => rw [Expr.lower]; exact copyToTemp_places _
  | str text => rw [Expr.lower]; exact copyToTemp_places _
  | bool b => rw [Expr.lower]; exact copyToTemp_places _
  | null => rw [Expr.lower]; exact copyToTemp_places _
  | ident name span =>
    refine .plain ?_ fun c s x s' h => ?_
    · rw [Expr.lower]
      exact (nameOperand_keeps name span).bind fun _ => .pure _
    · obtain ⟨_, _, rfl⟩ := Expr.runs_ident.1 h
      simp
  | this =>
    intro c s x s' h
    obtain ⟨rfl, rfl⟩ := Expr.runs_this.1 h
    exact .nil
  | array es span ih =>
    intro c s x s' h
    rw [Expr.lower, literalValue] at h
    simp only [runs_bind, runs_freshTemp, runs_pure] at h
    obtain ⟨shape, s₁, h₁, leaves, s₂, h₂, _, _, ⟨_, rfl, rfl⟩, rfl, rfl⟩ := h
    have hs : s₁.ledger.labels = s.ledger.labels :=
      literalShape_keeps (R := State.SameLabels) _ span _ h₁
    rw [← hs]
    refine (mapM_places (fun p _ => leafAt_places ?_ _) h₂).append (.plains ?_)
    · intro act h
      obtain ⟨e, he, rfl⟩ := leaf_of_lowerCells h
      exact storable_places (ih e he _)
    · intro i hi
      obtain ⟨k, hk, rfl⟩ := List.mem_iff_getElem.1 hi
      rw [List.getElem_zipWith]
      rfl
  | binary l op r span ihl ihr =>
    intro c s x s' h
    obtain ⟨y, s₁, h₁, z, s₂, h₂, _, rfl, rfl⟩ := Expr.runs_binary.1 h
    exact ((ihl _ h₁).append (ihr _ h₂)).append (.plain rfl .nil)
  | unary op e span ih =>
    intro c s x s' h
    obtain ⟨y, s₁, h₁, _, rfl, rfl⟩ := Expr.runs_unary.1 h
    exact (ih _ h₁).append (.plain rfl .nil)
  | logical l op r span ihl ihr => rw [Expr.lower]; exact shortCircuit_places op (ihl _) (ihr _)
  | ternary c a b span ihc iha ihb => rw [Expr.lower]; exact choose_places (ihc _) (iha _) (ihb _)
  | call callee args span ihc iho iha =>
    intro c s x s' h
    obtain ⟨k, s₁, h₁, y, s₂, h₂, z, h₃, rfl⟩ := Expr.runs_call.1 h
    have hc := lowerCallee_places span (ihc _) fun object method at_ he => iho object method at_ he _
    exact ((hc h₁).append (lowerArgs_places (fun e he => iha e he _) h₂)).append
      (finishCall_places demand _ _ h₃)
  | new name args span ih =>
    intro c s x s' h
    obtain ⟨y, s₁, h₁, _, rfl, rfl⟩ := Expr.runs_new.1 h
    exact (lowerArgs_places (fun e he => ih e he _) h₁).append (.plain rfl .nil)
  | index base i span ihb ihi =>
    intro c s x s' h
    obtain ⟨y, s₁, h₁, z, s₂, h₂, w, s₃, h₃, _, rfl, rfl⟩ := Expr.runs_index.1 h
    exact (((ihb _ h₁).append (ihi _ h₂)).append (ensureTemp_places _ h₃)).append (.plain rfl .nil)
  | property object field span ih =>
    intro c s x s' h
    obtain ⟨y, s₁, h₁, _, rfl, rfl⟩ := Expr.runs_property.1 h
    exact (ih _ h₁).append (.plain rfl .nil)

end ThreeAddress
