import ThreeAddress.Proofs.Lowering.Advance
import ThreeAddress.Proofs.Temps.Rules

namespace ThreeAddress

open Lowering Lower

def literalPlaces (policy : RaggedArrays) (es : List Expr) : List (List Nat) :=
  positions (((Nest.row (lowerCells es)).shape? policy).getD [])

mutual

/-- The array literals in an expression that are made into values of their own, each by its cells. -/
def Expr.literals : Expr → List (List Expr)
  | .array es _ => es :: cellLiterals es
  | .binary l _ r _ | .logical l _ r _ => l.literals ++ r.literals
  | .unary _ e _ | .property e _ _ => e.literals
  | .ternary c a b _ => c.literals ++ (a.literals ++ b.literals)
  | .call callee args _ => callee.literals ++ literalsAll args
  | .new _ args _ => literalsAll args
  | .index base i _ => base.literals ++ i.literals
  | .int .. | .str .. | .bool .. | .null _ | .ident .. | .this _ => []

def literalsAll : List Expr → List (List Expr)
  | [] => []
  | e :: rest => e.literals ++ literalsAll rest

/-- A literal among the cells of another one is no value of its own. -/
def cellLiterals : List Expr → List (List Expr)
  | [] => []
  | .array es _ :: rest => cellLiterals es ++ cellLiterals rest
  | e :: rest => e.literals ++ cellLiterals rest

end

theorem literalsAll_of_mem {es : List Expr} {e : Expr} (h : e ∈ es) : e.literals ⊆ literalsAll es := by
  induction es with
  | nil => simp at h
  | cons e' rest ih =>
    rw [literalsAll]
    cases h with
    | head => exact List.subset_append_left ..
    | tail _ h => exact List.Subset.trans (ih h) (List.subset_append_right ..)

theorem Expr.mem_leaves {e : Expr} (h : ∀ es span, e ≠ .array es span) : e ∈ e.leaves := by
  cases e with
  | array es span => exact absurd rfl (h es span)
  | _ => simp [leaves]

theorem cellLiterals_cons (e : Expr) (rest : List Expr) :
    cellLiterals (e :: rest) = cellLiterals [e] ++ cellLiterals rest := by
  cases e <;> simp [cellLiterals]

theorem cellLiterals_of_mem {es : List Expr} {e : Expr} (h : e ∈ leavesAll es) :
    e.literals ⊆ cellLiterals es := by
  match es with
  | [] => simp [leavesAll] at h
  | e' :: rest =>
    rw [leavesAll, List.mem_append] at h
    rw [cellLiterals_cons]
    rcases h with h | h
    · refine List.Subset.trans ?_ (List.subset_append_left ..)
      cases e' with
      | array es _ =>
        rw [Expr.leaves] at h
        simpa [cellLiterals] using cellLiterals_of_mem h
      | _ => simp_all [Expr.leaves, cellLiterals]
    · exact List.Subset.trans (cellLiterals_of_mem h) (List.subset_append_right ..)

/-- From `s` to `s'` the code mentions the temporaries that are taken in order, and those of the
values are mentioned by then. -/
structure Lowering.State.Counts (code : Code) (values : List Operand) (s s' : State) : Prop where
  counted : Counted s.ledger.temps code s'.ledger.temps
  known : ∀ o ∈ values, o.Known s'.ledger.temps

namespace Lowering.State.Counts

variable {s s' s'' : State} {code code' : Code} {values values' : List Operand}

theorem nil (h : s'.ledger.temps = s.ledger.temps) (hv : ∀ o ∈ values, ∀ n, o.Known n) :
    State.Counts [] values s s' where
  counted := by
    rw [h]
    exact .nil
  known o ho := hv o ho _

theorem empty (h : s'.ledger.temps = s.ledger.temps) : State.Counts [] [] s s' := nil h (by simp)

theorem of_counted (h : Counted s.ledger.temps code s'.ledger.temps) : State.Counts code [] s s' :=
  ⟨h, by simp⟩

theorem append (h : State.Counts code values s s') (k : State.Counts code' values' s' s'') :
    State.Counts (code ++ code') (values ++ values') s s'' where
  counted := h.counted.append k.counted
  known := by
    intro o ho
    obtain ho | ho := List.mem_append.1 ho
    · exact (h.known o ho).mono k.counted.le
    · exact k.known o ho

theorem before {s₁ : State} (h : s₁.ledger.temps = s.ledger.temps)
    (k : State.Counts code values s₁ s') : State.Counts code values s s' where
  counted := h ▸ k.counted
  known := k.known

theorem take {i : Instruction} (h : State.Counts code values s s')
    (hi : i.temps.head? = some s'.temp)
    (hk : (∀ o ∈ values, o.Known (s'.ledger.temps + 1)) →
      ∀ o ∈ i.operands, o.Known (s'.ledger.temps + 1)) :
    State.Counts (code ++ [i]) [.temp s'.temp] s s'.nextTemp where
  counted := h.counted.append <|
    .take hi (hk fun o ho => (h.known o ho).mono (Nat.le_succ _)) .nil
  known := by simp

theorem mention {i : Instruction} (h : State.Counts code values s s')
    (hk : (∀ o ∈ values, o.Known s'.ledger.temps) → ∀ o ∈ i.operands, o.Known s'.ledger.temps) :
    State.Counts (code ++ [i]) [] s s' where
  counted := h.counted.append (.mention (hk h.known) .nil)
  known := by simp

end Lowering.State.Counts

namespace Lower

/-- Every run of the action under the options counts the temporaries of the code and the values that
it yields. -/
def Counts (options : Options) (code : α → Code) (values : α → List Operand) (act : Lower α) : Prop :=
  ∀ ⦃c s x s'⦄, Runs act c s x s' → c.options = options → State.Counts (code x) (values x) s s'

abbrev CountsValue (options : Options) (act : Lower Valued) : Prop :=
  Counts options Prod.fst (fun x => [x.2]) act

abbrev CountsCode (options : Options) (act : Lower Code) : Prop :=
  Counts options (fun code => code) (fun _ => []) act

variable {options : Options}

section Values

variable {act l r : Lower Valued} {s s' : State} {x : Valued}

theorem copyToTemp_counts {v : Operand} {c : Context} (hv : v.Known s.ledger.temps)
    (h : Runs (copyToTemp v) c s x s') : State.Counts x.1 [x.2] s s' := by
  obtain ⟨_, rfl, rfl⟩ := runs_copyToTemp.1 h
  exact ⟨.take rfl (by simp [hv.mono (Nat.le_succ _)]) .nil, by simp⟩

theorem ensureTemp_counts {v : Operand} {c : Context} (hv : v.Known s.ledger.temps)
    (h : Runs (ensureTemp v) c s x s') : State.Counts x.1 [x.2] s s' := by
  obtain ⟨_, rfl, rfl⟩ | ⟨_, h⟩ := runs_ensureTemp.1 h
  · exact ⟨.nil, by simpa using hv⟩
  · exact copyToTemp_counts hv h

theorem storable_counts (h : CountsValue options act) : CountsValue options (storable act) := by
  intro c s x s' hr ho
  obtain ⟨y, s₁, h₁, ⟨name, hn, _, rfl, rfl⟩ | ⟨_, rfl, rfl⟩⟩ := runs_storable.1 hr
  · exact ⟨(h h₁ ho).counted.append (.take rfl (by simp [hn]) .nil), by simp⟩
  · exact h h₁ ho

theorem argument_counts (h : CountsValue options act) : CountsValue options (argument act) := by
  intro c s x s' hr ho
  obtain ⟨y, s₁, h₁, _, rfl, rfl⟩ := runs_argument.1 hr
  have hy : y.2.Known (s₁.ledger.temps + 1) := ((h h₁ ho).known _ (by simp)).mono (Nat.le_succ _)
  exact ⟨(h h₁ ho).counted.append (.take rfl (by simp [hy]) .nil), by simp⟩

theorem shortCircuit_counts (op : LogicalOp) (hl : CountsValue options l)
    (hr : CountsValue options r) : CountsValue options (shortCircuit op l r) := by
  intro c s x s' h ho
  obtain ⟨first, left, s₁, second, right, h₁, _, _, h₂, rfl⟩ := runs_shortCircuit.1 h
  obtain ⟨hfirst, hleft⟩ := hl h₁ ho
  obtain ⟨hsecond, hright⟩ := hr h₂ ho
  have ht : s₁.ledger.temps < s'.ledger.temps := hsecond.le
  have hleft := (hleft left (by simp)).mono (Nat.le_succ _)
  have hright := hright right (by simp)
  refine ⟨?_, by simpa using ht⟩
  simp only [List.append_assoc, List.cons_append, List.nil_append]
  apply hfirst.append
  apply Counted.take rfl (by simp)
  apply Counted.mention (by simpa using hleft)
  apply hsecond.append
  exact .mentions (by simp [ht, hright])

theorem choose_counts (h : CountsValue options act) (hl : CountsValue options l)
    (hr : CountsValue options r) : CountsValue options (choose act l r) := by
  intro c s x s' hc ho
  obtain ⟨head, v, s₁, h₁, _, _, first, left, s₂, h₂, _, _, second, right, h₃, rfl⟩ :=
    runs_choose.1 hc
  obtain ⟨hhead, hv⟩ := h h₁ ho
  obtain ⟨hfirst, hleft⟩ := hl h₂ ho
  obtain ⟨hsecond, hright⟩ := hr h₃ ho
  have ht : s₂.ledger.temps < s'.ledger.temps := hsecond.le
  have hv := hv v (by simp)
  have hleft := (hleft left (by simp)).mono (Nat.le_succ _)
  have hright := hright right (by simp)
  refine ⟨?_, by simpa using ht⟩
  simp only [List.append_assoc, List.cons_append, List.nil_append]
  apply hhead.append
  apply Counted.mention (by simpa using hv)
  apply Counted.mention (by simp)
  apply Counted.mention (by simp)
  apply hfirst.append
  apply Counted.take rfl (by simp [hleft])
  apply Counted.mention (by simp)
  apply Counted.mention (by simp)
  apply hsecond.append
  exact .mentions (by simp [ht, hright])

theorem nameOperand_counts (name : String) (span : Span) :
    Counts options (fun _ => []) (fun v => [v]) (nameOperand name span) := by
  intro c s v s' h _
  obtain ⟨_, rfl, rfl⟩ | ⟨_, _, _, _, rfl, rfl⟩ := runs_nameOperand h
  · exact .nil rfl (by simp)
  · exact .nil rfl (by simp [Symbol.place])

theorem namedCallee_counts (name : String) (span : Span) :
    Counts options Callee.code Callee.receiver (namedCallee name span) := by
  intro c s x s' h _
  obtain ⟨_, rfl, rfl⟩ | ⟨_, _, _, _, ⟨_, z, hz, rfl⟩ | ⟨_, rfl, rfl⟩⟩ := runs_namedCallee h
  · exact .nil rfl (by simp)
  · exact copyToTemp_counts (by simp) hz
  · exact .nil rfl (by simp)

theorem finishCall_counts {demand : Demand} {callee : String} {params : List Operand} {c : Context}
    (hp : ∀ o ∈ params, o.Known s.ledger.temps) (h : Runs (finishCall demand callee params) c s x s') :
    State.Counts x.1 [x.2] s s' := by
  cases demand with
  | value =>
    simp only [finishCall, runs_bind, runs_freshTemp, runs_pure] at h
    obtain ⟨_, _, ⟨_, rfl, rfl⟩, rfl, rfl⟩ := h
    refine ⟨.take rfl ?_ .nil, by simp⟩
    simpa using fun o ho => (hp o ho).mono (Nat.le_succ _)
  | effect =>
    obtain ⟨rfl, rfl⟩ := runs_pure.1 h
    exact ⟨.mention (by simpa using hp) .nil, by simp⟩

theorem leafAt_counts {literal : Nest (Lower Valued)} {position : List Nat}
    (h : ∀ act ∈ literal.at? position, CountsValue options act) {zero : Operand}
    (hz : ∀ n, zero.Known n) : CountsValue options (leafAt literal zero position) := by
  unfold leafAt
  cases ha : literal.at? position with
  | none => exact fun _ _ _ _ hr _ => copyToTemp_counts (hz _) hr
  | some act => exact h act ha

end Values

theorem mapM_counts {code : β → Code} {values : β → List Operand} {g : α → Lower β} {xs : List α}
    (h : ∀ a ∈ xs, Counts options code values (g a)) :
    Counts options (List.flatMap code) (List.flatMap values) (xs.mapM g) := by
  induction xs with
  | nil =>
    intro c s x s' hr _
    obtain ⟨rfl, rfl⟩ := runs_pure.1 hr
    exact .nil rfl (by simp)
  | cons a rest ih =>
    intro c s x s' hr ho
    rw [List.mapM_cons] at hr
    simp only [runs_bind, runs_pure] at hr
    obtain ⟨b, s₁, h₁, bs, _, h₂, rfl, rfl⟩ := hr
    exact (h a (by simp) h₁ ho).append (ih (fun a ha => h a (by simp [ha])) h₂ ho)

end Lower

theorem lowerArgs_counts {options : Options} {es : List Expr}
    (h : ∀ e ∈ es, CountsValue options (e.lower .value)) :
    Counts options Prod.fst Prod.snd (lowerArgs es) := by
  induction es with
  | nil =>
    intro c s x s' hr _
    rw [lowerArgs] at hr
    obtain ⟨rfl, rfl⟩ := runs_pure.1 hr
    exact .nil rfl (by simp)
  | cons e rest ih =>
    intro c s x s' hr ho
    rw [lowerArgs] at hr
    simp only [runs_bind, runs_pure] at hr
    obtain ⟨y, s₁, h₁, z, _, h₂, rfl, rfl⟩ := hr
    exact (argument_counts (h e (by simp)) h₁ ho).append (ih (fun e he => h e (by simp [he])) h₂ ho)

theorem Lower.literalShape_temps {name : String} {span : Span} {literal : Nest α} {c : Context}
    {s s' : State} {shape : Option (List Nat)} (h : Runs (literalShape name span literal) c s shape s') :
    s'.ledger.temps = s.ledger.temps := by
  obtain ⟨_, ⟨_, rfl⟩ | ⟨_, rfl⟩⟩ := runs_literalShape h <;> rfl

theorem Lower.leaf_counts {options : Options} {es : List Expr}
    (h : ∀ e ∈ leavesAll es, CountsValue options (e.lower .value)) (path : List Nat) :
    ∀ act ∈ (Nest.row (lowerCells es)).at? path, CountsValue options act := by
  intro act ha
  obtain ⟨e, he, rfl⟩ := leaf_of_lowerCells ha
  exact storable_counts (h e he)

theorem Ty.zero_known (type : Ty) (n : Nat) : type.zero.Known n := by
  cases type <;> simp [zero]

theorem Lower.elementStore_known {n : Nat} {base value : Operand} (position : List Nat)
    (hb : base.Known n) (hv : value.Known n) :
    ∀ o ∈ (elementStore base position value).operands, o.Known n := by
  simp only [elementStore, Instruction.operands, List.forall_mem_cons, Operand.known_element]
  exact ⟨⟨hb, by simp⟩, hv, by simp⟩

theorem literalValue_counts {options : Options} {es : List Expr} {span : Span}
    (hf : literalPlaces options.raggedArrays es ≠ [])
    (h : ∀ e ∈ leavesAll es, CountsValue options (e.lower .value)) :
    CountsValue options (literalValue (.row (lowerCells es)) span) := by
  intro c s x s' hr ho
  simp only [literalValue, runs_bind, runs_freshTemp, runs_pure] at hr
  obtain ⟨shape, s₁, hs, leaves, s₂, hl, _, _, ⟨_, rfl, rfl⟩, rfl, rfl⟩ := hr
  have ht := literalShape_temps hs
  obtain ⟨rfl, _⟩ := runs_literalShape hs
  obtain ⟨hcode, hvalues⟩ := mapM_counts (fun p _ => leafAt_counts (leaf_counts h p) (Ty.zero_known _)) hl ho
  have hvalues : ∀ y ∈ leaves, y.2.Known (s₂.ledger.temps + 1) := fun y hy =>
    (hvalues y.2 (List.mem_flatMap.2 ⟨y, hy, by simp⟩)).mono (Nat.le_succ _)
  obtain ⟨p, ps, hp⟩ := List.exists_cons_of_ne_nil hf
  rw [literalPlaces, ← ho] at hp
  rw [hp, List.mapM_cons] at hl
  simp only [runs_bind, runs_pure] at hl
  obtain ⟨y, _, _, ys, _, _, rfl, rfl⟩ := hl
  refine ⟨?_, by simp⟩
  rw [← ht]
  apply hcode.append
  rw [hp, List.zipWith_cons_cons]
  refine .take rfl (elementStore_known p (by simp) (hvalues y (by simp))) (.mentions ?_)
  intro i hi
  obtain ⟨k, hk, rfl⟩ := List.mem_iff_getElem.1 hi
  rw [List.getElem_zipWith]
  exact elementStore_known _ (by simp) (hvalues _ (by simp))

theorem lowerCallee_counts {options : Options} {callee : Expr} (span : Span)
    (h : CountsValue options (callee.lower .value))
    (ho : ∀ object method at_, callee = .property object method at_ →
      CountsValue options (object.lower .value)) :
    Counts options Callee.code Callee.receiver (lowerCallee span callee) := by
  unfold lowerCallee
  split
  · exact namedCallee_counts ..
  · intro c s x s' hr hp
    simp only [runs_bind, runs_pure] at hr
    obtain ⟨_, _, hc, y, _, h₂, rfl, rfl⟩ := hr
    obtain rfl := receiverClass_keeps (R := Eq) _ hc
    exact argument_counts (ho _ _ _ rfl) h₂ hp
  · intro c s x s' hr hp
    simp only [runs_bind, runs_pure] at hr
    obtain ⟨y, _, hr, rfl, rfl⟩ := hr
    exact .of_counted (h hr hp).counted

theorem Expr.lower_counts {options : Options} (e : Expr) (demand : Demand)
    (hf : ∀ es ∈ e.literals, literalPlaces options.raggedArrays es ≠ []) :
    CountsValue options (e.lower demand) := by
  induction e generalizing demand with
  | int n | str text | bool b | null =>
    intro c s x s' h _
    rw [Expr.lower] at h
    exact copyToTemp_counts (by simp) h
  | ident name span =>
    intro c s x s' h ho
    obtain ⟨v, hv, rfl⟩ := Expr.runs_ident.1 h
    exact nameOperand_counts name span hv ho
  | this =>
    intro c s x s' h _
    obtain ⟨rfl, rfl⟩ := Expr.runs_this.1 h
    exact .nil rfl (by simp)
  | array es span ih =>
    rw [Expr.lower]
    rw [literals] at hf
    refine literalValue_counts (hf es (by simp)) fun e he => ih e he _ fun es' h => ?_
    exact hf es' (List.mem_cons_of_mem _ (cellLiterals_of_mem he h))
  | binary l op r span ihl ihr =>
    intro c s x s' h ho
    rw [literals, List.forall_mem_append] at hf
    obtain ⟨y, s₁, h₁, z, s₂, h₂, _, rfl, rfl⟩ := Expr.runs_binary.1 h
    exact ((ihl _ hf.1 h₁ ho).append (ihr _ hf.2 h₂ ho)).take rfl (by simp +contextual)
  | unary op e span ih =>
    intro c s x s' h ho
    rw [literals] at hf
    obtain ⟨y, s₁, h₁, _, rfl, rfl⟩ := Expr.runs_unary.1 h
    exact (ih _ hf h₁ ho).take rfl (by simp +contextual)
  | logical l op r span ihl ihr =>
    rw [literals, List.forall_mem_append] at hf
    rw [Expr.lower]
    exact shortCircuit_counts op (ihl _ hf.1) (ihr _ hf.2)
  | ternary c a b span ihc iha ihb =>
    rw [literals, List.forall_mem_append, List.forall_mem_append] at hf
    rw [Expr.lower]
    exact choose_counts (ihc _ hf.1) (iha _ hf.2.1) (ihb _ hf.2.2)
  | call callee args span ihc iho iha =>
    intro c s x s' h ho
    rw [literals, List.forall_mem_append] at hf
    obtain ⟨k, s₁, h₁, y, s₂, h₂, z, h₃, rfl⟩ := Expr.runs_call.1 h
    have hc := lowerCallee_counts span (ihc .value hf.1) fun object method at_ he =>
      iho object method at_ he _ <| by simpa [he, literals] using hf.1
    have hargs := lowerArgs_counts (fun e he => iha e he _ fun es h =>
      hf.2 es (literalsAll_of_mem he h)) h₂ ho
    have hparams := (hc h₁ ho).append hargs
    have hcall := finishCall_counts hparams.known h₃
    exact ⟨hparams.counted.append hcall.counted, hcall.known⟩
  | new name args span ih =>
    intro c s x s' h ho
    rw [literals] at hf
    obtain ⟨y, s₁, h₁, _, rfl, rfl⟩ := Expr.runs_new.1 h
    have hargs := lowerArgs_counts (fun e he => ih e he _ fun es h =>
      hf es (literalsAll_of_mem he h)) h₁ ho
    exact hargs.take rfl (by simp +contextual)
  | index base i span ihb ihi =>
    intro c s x s' h ho
    rw [literals, List.forall_mem_append] at hf
    obtain ⟨y, s₁, h₁, z, s₂, h₂, w, s₃, h₃, _, rfl, rfl⟩ := Expr.runs_index.1 h
    have hi := ihi _ hf.2 h₂ ho
    have hcopy := ensureTemp_counts (hi.known _ (by simp)) h₃
    exact (((ihb _ hf.1 h₁ ho).append hi).append hcopy).take rfl (by simp +contextual)
  | property object field span ih =>
    intro c s x s' h ho
    rw [literals] at hf
    obtain ⟨y, s₁, h₁, _, rfl, rfl⟩ := Expr.runs_property.1 h
    exact (ih _ hf h₁ ho).take rfl (by simp +contextual)

end ThreeAddress
