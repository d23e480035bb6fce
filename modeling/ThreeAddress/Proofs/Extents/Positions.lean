import ThreeAddress.Proofs.Extents.Recorded
import ThreeAddress.Proofs.Temps.Program

namespace ThreeAddress

open Lowering Lower

theorem signed_of_lt {n : Nat} (h : n < word32) : signed n = n := by
  refine Int.bmod_eq_of_le ?_ ?_ <;> simp only [word32, word64] at * <;> omega

theorem lt_length_of_mem_grid {dims path : List Nat} (h : path ∈ grid dims) {n : Nat} (hn : n ∈ path) :
    n < (grid dims).length := by
  induction dims generalizing path with
  | nil => simp_all [grid]
  | cons d dims ih =>
    simp only [grid, List.mem_flatMap, List.mem_range, List.mem_map] at h
    obtain ⟨i, hi, rest, hr, rfl⟩ := h
    have hlen : (grid (d :: dims)).length = d * (grid dims).length := by
      simp [length_grid]
    have hpos : 0 < (grid dims).length := List.length_pos_of_mem hr
    rw [hlen]
    obtain rfl | hn := List.mem_cons.1 hn
    · exact Nat.lt_of_lt_of_le hi (Nat.le_mul_of_pos_right d hpos)
    · exact Nat.lt_of_lt_of_le (ih hr hn) (Nat.le_mul_of_pos_left _ (by omega))

theorem lt_length_of_mem_positions {dims path : List Nat} (h : path ∈ positions dims) {n : Nat}
    (hn : n ∈ path) : n < (positions dims).length := by
  unfold positions at *
  split at h
  · cases h
  · rw [if_neg ‹_›]
    exact lt_length_of_mem_grid h hn

/-- A store into an element is at indices that were evaluated, or at a position of one of the literals,
and then each index is the number that it was made from. -/
def Instruction.StoresAt (policy : RaggedArrays) (literals : List (List Expr)) : Instruction → Prop
  | .assign (.element base is) value => (∀ o ∈ is, o.isTemp) ∨
      ∃ es ∈ literals, ∃ path ∈ literalPlaces policy es,
        .assign (.element base is) value = elementStore base path value ∧ ∀ n ∈ path, signed n = n
  | _ => True

def Code.Exact (policy : RaggedArrays) (literals : List (List Expr)) (code : Code) : Prop :=
  ∀ i ∈ code, i.StoresAt policy literals

section

variable {policy : RaggedArrays} {literals : List (List Expr)} {a b : Code}

theorem Instruction.StoresAt.literal {es : List Expr} (he : es ∈ literals)
    (hw : (literalPlaces policy es).length < word32) {path : List Nat} (hp : path ∈ literalPlaces policy es)
    (base value : Operand) : (elementStore base path value).StoresAt policy literals :=
  .inr ⟨es, he, path, hp, rfl, fun _ hn =>
    signed_of_lt (Nat.lt_trans (lt_length_of_mem_positions hp hn) hw)⟩

namespace Code.Exact

theorem append (h : Exact policy literals a) (k : Exact policy literals b) :
    Exact policy literals (a ++ b) := List.forall_mem_append.2 ⟨h, k⟩

theorem of_isGlue (h : a.IsGlue) : Exact policy literals a := by
  intro i hi
  have hi := h i hi
  unfold Instruction.StoresAt
  split
  · simp at hi
  · trivial

theorem nil : Exact policy literals [] := .of_isGlue (by simp)

end Code.Exact

end

namespace Lower

/-- The code of every run of the action under the policy stores elements at evaluated indices and at exact
positions of the literals. -/
def Exact (policy : RaggedArrays) (literals : List (List Expr)) (code : α → Code) (act : Lower α) :
    Prop :=
  ∀ ⦃c s x s'⦄, Runs act c s x s' → c.options.raggedArrays = policy →
    Code.Exact policy literals (code x)

abbrev ExactValue (policy : RaggedArrays) (literals : List (List Expr)) (act : Lower Valued) : Prop :=
  Exact policy literals Prod.fst act

variable {policy : RaggedArrays} {literals : List (List Expr)} {act l r : Lower Valued}

theorem copyToTemp_glue {v : Operand} {c : Context} {s s' : State} {x : Valued}
    (h : Runs (copyToTemp v) c s x s') : x.1.IsGlue := by
  obtain ⟨_, _, rfl⟩ := runs_copyToTemp.1 h
  simp

theorem ensureTemp_glue {v : Operand} {c : Context} {s s' : State} {x : Valued}
    (h : Runs (ensureTemp v) c s x s') : x.1.IsGlue ∧ x.2.isTemp := by
  obtain ⟨ht, rfl, _⟩ | ⟨_, h⟩ := runs_ensureTemp.1 h
  · exact ⟨by simp, ht⟩
  · obtain ⟨_, _, rfl⟩ := runs_copyToTemp.1 h
    exact ⟨by simp, rfl⟩

theorem copyToTemp_exact (v : Operand) : ExactValue policy literals (copyToTemp v) :=
  fun _ _ _ _ hr _ => .of_isGlue (copyToTemp_glue hr)

theorem storable_exact (h : ExactValue policy literals act) :
    ExactValue policy literals (storable act) := by
  intro c s x s' hr ho
  obtain ⟨y, s₁, hy, ⟨_, _, _, _, rfl⟩ | ⟨_, _, rfl⟩⟩ := runs_storable.1 hr
  · exact (h hy ho).append (.of_isGlue (by simp))
  · exact h hy ho

theorem argument_exact (h : ExactValue policy literals act) :
    ExactValue policy literals (argument act) := by
  intro c s x s' hr ho
  obtain ⟨y, s₁, hy, _, _, rfl⟩ := runs_argument.1 hr
  exact (h hy ho).append (.of_isGlue (by simp))

theorem shortCircuit_exact (op : LogicalOp) (hl : ExactValue policy literals l)
    (hr : ExactValue policy literals r) : ExactValue policy literals (shortCircuit op l r) := by
  intro c s x s' h ho
  obtain ⟨first, left, s₁, second, right, h₁, _, _, h₂, rfl⟩ := runs_shortCircuit.1 h
  exact (((hl h₁ ho).append (.of_isGlue (by simp))).append (hr h₂ ho)).append (.of_isGlue (by simp))

theorem choose_exact (h : ExactValue policy literals act) (hl : ExactValue policy literals l)
    (hr : ExactValue policy literals r) : ExactValue policy literals (choose act l r) := by
  intro c s x s' hc ho
  obtain ⟨head, v, s₁, h₁, _, _, first, left, s₂, h₂, _, _, second, right, h₃, rfl⟩ :=
    runs_choose.1 hc
  exact (((((h h₁ ho).append (.of_isGlue (by simp))).append (hl h₂ ho)).append
    (.of_isGlue (by simp))).append (hr h₃ ho)).append (.of_isGlue (by simp))

theorem leafAt_exact {es : List Expr} {zero : Operand} (path : List Nat)
    (h : ∀ e ∈ leavesAll es, ExactValue policy literals (e.lower .value)) :
    ExactValue policy literals (leafAt (.row (lowerCells es)) zero path) := by
  unfold leafAt
  cases ha : (Nest.row (lowerCells es)).at? path with
  | none => exact copyToTemp_exact zero
  | some act =>
    obtain ⟨e, he, rfl⟩ := leaf_of_lowerCells ha
    exact storable_exact (h e he)

theorem mapM_exact {code : β → Code} {f : α → Lower β} {xs : List α}
    (h : ∀ x ∈ xs, Exact policy literals code (f x)) :
    Exact policy literals (List.flatMap code) (xs.mapM f) := by
  induction xs with
  | nil =>
    intro c s ys s' hr _
    obtain ⟨rfl, _⟩ := runs_pure.1 hr
    exact .nil
  | cons x rest ih =>
    intro c s ys s' hr ho
    rw [List.mapM_cons] at hr
    simp only [runs_bind, runs_pure] at hr
    obtain ⟨y, s₁, h₁, ys', _, h₂, rfl, _⟩ := hr
    exact (h x (by simp) h₁ ho).append (ih (fun x hx => h x (by simp [hx])) h₂ ho)

theorem lowerArgs_exact {es : List Expr}
    (h : ∀ e ∈ es, ExactValue policy literals (e.lower .value)) :
    Exact policy literals Prod.fst (lowerArgs es) := by
  induction es with
  | nil =>
    intro c s x s' hr _
    rw [lowerArgs] at hr
    obtain ⟨rfl, _⟩ := runs_pure.1 hr
    exact .nil
  | cons e rest ih =>
    intro c s x s' hr ho
    rw [lowerArgs] at hr
    simp only [runs_bind, runs_pure] at hr
    obtain ⟨y, s₁, h₁, z, _, h₂, rfl, _⟩ := hr
    exact (argument_exact (h e (by simp)) h₁ ho).append (ih (fun e he => h e (by simp [he])) h₂ ho)

theorem literalValue_exact {es : List Expr} (span : Span) (he : es ∈ literals)
    (h : ∀ e ∈ leavesAll es, ExactValue policy literals (e.lower .value)) :
    ExactValue policy literals (literalValue (.row (lowerCells es)) span) := by
  intro c s x s' hr ho
  simp only [literalValue, runs_bind, runs_freshTemp, runs_pure] at hr
  obtain ⟨shape, s₁, hs, xs, s₂, hx, _, _, ⟨hw, _, _⟩, rfl, _⟩ := hr
  have hp : positions (shape.getD []) = literalPlaces policy es := by
    rw [(runs_literalShape hs).1, ho, literalPlaces]
  rw [hp] at hx ⊢
  have hlen : (literalPlaces policy es).length < word32 := by
    have := mapM_takes _ (fun p _ => leafAt_takes es _ p) hx
    omega
  refine (mapM_exact (fun p _ => leafAt_exact p h) hx ho).append fun i hi => ?_
  obtain ⟨j, hj, rfl⟩ := List.mem_iff_getElem.1 hi
  rw [List.getElem_zipWith]
  exact .literal he hlen (List.getElem_mem _) _ _

theorem storeElements_exact {base zero : Operand} {es : List Expr} {dims : List Nat} {c : Context}
    {s s' : State} {code : Code} (he : es ∈ literals)
    (hd : (Nest.row (lowerCells es)).shape? policy = some dims)
    (h : ∀ e ∈ leavesAll es, ExactValue policy literals (e.lower .value))
    (hr : Runs (storeElements base (.row (lowerCells es)) dims zero) c s code s')
    (ho : c.options.raggedArrays = policy) : Code.Exact policy literals code := by
  have hp : positions dims = literalPlaces policy es := by rw [literalPlaces, hd, Option.getD_some]
  -- every place takes a temporary, and the numbers of temporaries are words
  have hlen : (literalPlaces policy es).length < word32 := by
    have hd := (DoesCode.draws (fun _ => storeElements_does base dims zero) hr).2
    have ht := storeElements_takes base es dims zero hr
    rw [hp] at ht
    by_cases hz : (literalPlaces policy es).length = 0
    · simp [hz, word32]
    · have := hd (by omega)
      omega
  simp only [storeElements, runs_bind, runs_pure] at hr
  obtain ⟨parts, _, hr, rfl, _⟩ := hr
  rw [hp] at hr
  suffices h : Code.Exact policy literals (parts.flatMap id) by simpa using h
  refine mapM_exact (fun p hm c s y s' hr ho => ?_) hr ho
  simp only [runs_bind, runs_pure] at hr
  obtain ⟨z, _, hz, rfl, _⟩ := hr
  refine (leafAt_exact p h hz ho).append fun i hi => ?_
  obtain rfl := List.mem_singleton.1 hi
  exact .literal he hlen hm _ _

theorem lowerCallee_exact {callee : Expr} (span : Span)
    (h : ExactValue policy literals (callee.lower .value))
    (ho : ∀ object method at_, callee = .property object method at_ →
      ExactValue policy literals (object.lower .value)) :
    Exact policy literals Callee.code (lowerCallee span callee) := by
  unfold lowerCallee
  split
  · intro c s x s' hr _
    obtain ⟨_, rfl, _⟩ | ⟨_, _, _, _, ⟨_, z, hz, rfl⟩ | ⟨_, rfl, _⟩⟩ := runs_namedCallee hr
    · exact .nil
    · exact .of_isGlue (copyToTemp_glue hz)
    · exact .nil
  · intro c s x s' hr hc
    simp only [runs_bind, runs_pure] at hr
    obtain ⟨_, _, _, y, _, h₂, rfl, _⟩ := hr
    exact argument_exact (ho _ _ _ rfl) h₂ hc
  · intro c s x s' hr hc
    simp only [runs_bind, runs_pure] at hr
    obtain ⟨y, _, hr, rfl, _⟩ := hr
    exact h hr hc

theorem finishCall_glue {demand : Demand} {callee : String} {params : List Operand} {c : Context}
    {s s' : State} {x : Valued} (h : Runs (finishCall demand callee params) c s x s') :
    x.1.IsGlue := by
  cases demand with
  | value =>
    simp only [finishCall, runs_bind, runs_freshTemp, runs_pure] at h
    obtain ⟨_, _, _, rfl, _⟩ := h
    simp
  | effect =>
    obtain ⟨rfl, _⟩ := runs_pure.1 h
    simp

end Lower

def Stage.literals : Stage → List (List Expr)
  | .header _ e => e.literals
  | .stmt _ (.declare b) => literalsAll b.value.toList
  | .stmt _ (.assign target value _) => target.literals ++ value.literals
  | .stmt _ (.print e _) | .stmt _ (.eval e _) => e.literals
  | .stmt _ (.return e _) => literalsAll e.toList
  | .stmt _ _ => []

section

variable {policy : RaggedArrays} {literals : List (List Expr)}

theorem Expr.lower_exact (e : Expr) (demand : Demand) (hl : e.literals ⊆ literals) :
    ExactValue policy literals (e.lower demand) := by
  induction e generalizing demand with
  | int | str | bool | null =>
    rw [Expr.lower]
    exact copyToTemp_exact _
  | ident name span =>
    intro c s x s' h _
    obtain ⟨_, _, rfl⟩ := Expr.runs_ident.1 h
    exact .nil
  | this =>
    intro c s x s' h _
    obtain ⟨rfl, _⟩ := Expr.runs_this.1 h
    exact .nil
  | array es span ih =>
    rw [Expr.lower]
    rw [Expr.literals, List.cons_subset] at hl
    exact literalValue_exact span hl.1 fun e he => ih e he _ (List.Subset.trans (cellLiterals_of_mem he) hl.2)
  | binary l op r span ihl ihr =>
    intro c s x s' h ho
    rw [Expr.literals, List.append_subset] at hl
    obtain ⟨y, s₁, h₁, z, s₂, h₂, _, _, rfl⟩ := Expr.runs_binary.1 h
    exact ((ihl _ hl.1 h₁ ho).append (ihr _ hl.2 h₂ ho)).append (.of_isGlue (by simp))
  | unary op e span ih =>
    intro c s x s' h ho
    rw [Expr.literals] at hl
    obtain ⟨y, s₁, h₁, _, _, rfl⟩ := Expr.runs_unary.1 h
    exact (ih _ hl h₁ ho).append (.of_isGlue (by simp))
  | logical l op r span ihl ihr =>
    rw [Expr.literals, List.append_subset] at hl
    rw [Expr.lower]
    exact shortCircuit_exact op (ihl _ hl.1) (ihr _ hl.2)
  | ternary c a b span ihc iha ihb =>
    rw [Expr.literals, List.append_subset, List.append_subset] at hl
    rw [Expr.lower]
    exact choose_exact (ihc _ hl.1) (iha _ hl.2.1) (ihb _ hl.2.2)
  | call callee args span ihc iho iha =>
    intro c s x s' h ho
    rw [Expr.literals, List.append_subset] at hl
    obtain ⟨k, s₁, h₁, y, s₂, h₂, z, h₃, rfl⟩ := Expr.runs_call.1 h
    have hc := lowerCallee_exact span (ihc _ hl.1) fun object method at_ he => iho _ _ _ he _ <| by
      rw [he, Expr.literals] at hl
      exact hl.1
    have hargs := lowerArgs_exact fun e he => iha e he _ (List.Subset.trans (literalsAll_of_mem he) hl.2)
    exact ((hc h₁ ho).append (hargs h₂ ho)).append (.of_isGlue (finishCall_glue h₃))
  | new name args span ih =>
    intro c s x s' h ho
    rw [Expr.literals] at hl
    obtain ⟨y, s₁, h₁, _, _, rfl⟩ := Expr.runs_new.1 h
    have hargs := lowerArgs_exact fun e he => ih e he _ (List.Subset.trans (literalsAll_of_mem he) hl)
    exact (hargs h₁ ho).append (.of_isGlue (by simp))
  | index base i span ihb ihi =>
    intro c s x s' h ho
    rw [Expr.literals, List.append_subset] at hl
    obtain ⟨y, s₁, h₁, z, s₂, h₂, w, s₃, h₃, _, _, rfl⟩ := Expr.runs_index.1 h
    exact (((ihb _ hl.1 h₁ ho).append (ihi _ hl.2 h₂ ho)).append
      (.of_isGlue (ensureTemp_glue h₃).1)).append (.of_isGlue (by simp))
  | property object field span ih =>
    intro c s x s' h ho
    rw [Expr.literals] at hl
    obtain ⟨y, s₁, h₁, _, _, rfl⟩ := Expr.runs_property.1 h
    exact (ih _ hl h₁ ho).append (.of_isGlue (by simp))

theorem Expr.leaves_exact {es : List Expr} (hl : cellLiterals es ⊆ literals) :
    ∀ e ∈ leavesAll es, ExactValue policy literals (e.lower .value) :=
  fun e he => e.lower_exact _ (List.Subset.trans (cellLiterals_of_mem he) hl)

theorem lowerIndices_exact {es : List Expr} (hl : literalsAll es ⊆ literals) {c : Context}
    {s s' : State} {x : Code × List Operand} (h : Runs (lowerIndices es) c s x s')
    (ho : c.options.raggedArrays = policy) :
    Code.Exact policy literals x.1 ∧ ∀ o ∈ x.2, o.isTemp := by
  induction es generalizing s s' x with
  | nil =>
    obtain ⟨rfl, _⟩ := runs_pure.1 h
    exact ⟨.nil, by simp⟩
  | cons e rest ih =>
    rw [literalsAll, List.append_subset] at hl
    simp only [lowerIndices, runs_bind, runs_pure] at h
    obtain ⟨y, s₁, h₁, z, s₂, h₂, w, _, h₃, rfl, _⟩ := h
    obtain ⟨hcopy, htemp⟩ := ensureTemp_glue h₂
    obtain ⟨hrest, htemps⟩ := ih hl.2 h₃
    refine ⟨((e.lower_exact _ hl.1 h₁ ho).append (.of_isGlue hcopy)).append hrest, ?_⟩
    exact List.forall_mem_cons.2 ⟨htemp, htemps⟩

theorem guarding_exact {uses : List Use} {whole : Span} {act : Lower Code}
    (h : Exact policy literals (fun code => code) act) :
    Exact policy literals (fun code => code) (guarding uses whole act) := by
  intro c s code s' hr ho
  obtain ⟨_, hr⟩ | ⟨_, rfl, _⟩ := runs_guarding hr
  · exact h hr ho
  · exact .nil

theorem Binding.lower_exact {b : Binding} (hl : literalsAll b.value.toList ⊆ literals) :
    Exact policy literals (fun code => code) b.lower := by
  intro c s code s' hr ho
  obtain ⟨_, rfl, _⟩ | ⟨id, es, at_, _, hv, hr⟩ | ⟨id, x, u, s₁, _, _, _, h⟩ := b.runs_lower hr
  · exact .nil
  · simp only [hv, Option.toList_some, literalsAll, Expr.literals, List.append_nil,
      List.cons_subset] at hl
    obtain ⟨x, s₁, _, ⟨_, _, rfl⟩ | ⟨dims, _, _, s₂, hs, _, _, he⟩⟩ := runs_declareArray hr
    · exact .nil
    · have hd := (runs_literalShape hs).1.symm
      exact storeElements_exact hl.1 (ho ▸ hd) (Expr.leaves_exact hl.2) he ho
  · obtain ⟨_, rfl, _⟩ | ⟨e, y, hv, _, hy, rfl⟩ := h
    · exact .nil
    · simp only [hv, Option.toList_some, literalsAll, List.append_nil] at hl
      exact (storable_exact (e.lower_exact _ hl) hy ho).append (.of_isGlue (by simp))

theorem Target.assign_exact {target : Target} {value : Expr} (span : Span)
    (hl : target.literals ++ value.literals ⊆ literals) :
    Exact policy literals (fun code => code) (target.assign value span) := by
  intro c s code s' hr ho
  rw [List.append_subset] at hl
  cases target with
  | ident name =>
    obtain ⟨_, rfl, _⟩ | ⟨id, es, at_, _, rfl, ha⟩ | ⟨id, x, y, _, _, _, hy, rfl⟩ :=
      Target.runs_assign_ident hr
    · exact .nil
    · rw [Expr.literals, List.cons_subset] at hl
      obtain ⟨x, shape, s₁, _, hs, ⟨_, rfl, _⟩ | ⟨dims, rfl, he⟩⟩ := runs_assignArray ha
      · exact .nil
      · have hd := (runs_literalShape hs).1.symm
        exact storeElements_exact hl.2.1 (ho ▸ hd) (Expr.leaves_exact hl.2.2) he ho
    · exact (storable_exact (value.lower_exact _ hl.2) hy ho).append (.of_isGlue (by simp))
  | index base indices =>
    rw [Target.literals, List.append_subset] at hl
    simp only [Target.assign, runs_bind, runs_pure] at hr
    obtain ⟨y, s₁, h₁, z, s₂, h₂, w, _, h₃, rfl, _⟩ := hr
    obtain ⟨hindices, htemps⟩ := lowerIndices_exact hl.1.2 h₂ ho
    refine (((base.lower_exact _ hl.1.1 h₁ ho).append hindices).append
      (storable_exact (value.lower_exact _ hl.2) h₃ ho)).append fun i hi => ?_
    obtain rfl := List.mem_singleton.1 hi
    exact .inl htemps
  | property object field =>
    rw [Target.literals] at hl
    simp only [Target.assign, runs_bind, runs_pure] at hr
    obtain ⟨y, s₁, h₁, z, _, h₂, rfl, _⟩ := hr
    exact ((object.lower_exact _ hl.1 h₁ ho).append
      (storable_exact (value.lower_exact _ hl.2) h₂ ho)).append (.of_isGlue (by simp))

theorem Stmt.lower_exact {r : Stmt} (hi : r.isPlain) {c : Context}
    (hl : (Stage.stmt c r).literals ⊆ literals) :
    Exact policy literals (fun code => code) r.lower := by
  cases r with
  | declare b =>
    rw [Stmt.lower]
    exact guarding_exact (Binding.lower_exact hl)
  | assign target value span =>
    rw [Stmt.lower]
    exact guarding_exact (Target.assign_exact span hl)
  | print e span =>
    rw [Stmt.lower]
    refine guarding_exact fun c s code s' hr ho => ?_
    simp only [runs_bind, runs_pure] at hr
    obtain ⟨y, _, hy, rfl, _⟩ := hr
    exact (argument_exact (e.lower_exact _ hl) hy ho).append (.of_isGlue (by simp))
  | eval e span =>
    rw [Stmt.lower]
    refine guarding_exact fun c s code s' hr ho => ?_
    simp only [runs_bind, runs_pure] at hr
    obtain ⟨y, _, hy, rfl, _⟩ := hr
    exact e.lower_exact _ hl hy ho
  | «return» e span =>
    cases e with
    | none =>
      intro c s code s' hr _
      rw [Stmt.lower] at hr
      obtain ⟨rfl, _⟩ := runs_pure.1 hr
      exact .of_isGlue (by simp)
    | some e =>
      rw [Stmt.lower]
      refine guarding_exact fun c s code s' hr ho => ?_
      simp only [runs_bind, runs_pure] at hr
      obtain ⟨y, _, hy, rfl, _⟩ := hr
      simp only [Stage.literals, Option.toList_some, literalsAll, List.append_nil] at hl
      exact (e.lower_exact _ hl hy ho).append (.of_isGlue (by simp))
  | _ => simp [isPlain] at hi

theorem Trail.exact {options : Options} {last d d' : FullState} {course : List (Part × FullState)}
    (h : Trail options last d course d')
    (hl : ∀ st ∈ course.map (Part.stage options), st.literals ⊆ literals) :
    ∃ code, d'.code = d.code ++ code ∧ Code.Exact options.raggedArrays literals code := by
  induction h with
  | rest h =>
    obtain ⟨glue, hg, hc⟩ := h.code
    exact ⟨glue, hc, .of_isGlue hg⟩
  | plain h hi hr _ _ ih =>
    obtain ⟨glue, hg, hc⟩ := h.code
    obtain ⟨hr', hrest⟩ := List.forall_mem_cons.1 hl
    obtain ⟨code, hr, _, hcode⟩ := Stmt.runs_of_plan hr
    obtain ⟨rest, hc', hexact⟩ := ih hrest
    refine ⟨glue ++ code ++ rest, ?_,
      ((Code.Exact.of_isGlue hg).append (Stmt.lower_exact hi hr' hr rfl)).append hexact⟩
    rw [hc', hcode, hc]
    simp only [List.append_assoc]
  -- a statement around others has no code of its own but what joins theirs
  | around h _ _ _ _ ih =>
    obtain ⟨glue, hg, hc⟩ := h.code
    obtain ⟨rest, hc', hexact⟩ := ih fun st hs => hl st (.tail _ hs)
    exact ⟨glue ++ rest, by rw [hc', hc, List.append_assoc], (Code.Exact.of_isGlue hg).append hexact⟩
  | header h _ hr _ _ ih =>
    obtain ⟨glue, hg, hc⟩ := h.code
    obtain ⟨he, hrest⟩ := List.forall_mem_cons.1 hl
    obtain ⟨code, hr, _, hcode⟩ := Expr.runs_of_plan hr
    obtain ⟨rest, hc', hexact⟩ := ih hrest
    refine ⟨glue ++ code ++ rest, ?_,
      ((Code.Exact.of_isGlue hg).append (Expr.lower_exact _ _ he hr rfl)).append hexact⟩
    rw [hc', hcode, hc]
    simp only [List.append_assoc]

end

namespace Program

variable {p : Program} {table : Table} {options : Options} {out : Lowered}

theorem lower_positions (h : p.lower table options = .ok out) :
    Code.Exact options.raggedArrays ((p.stages table options).flatMap Stage.literals) out.code := by
  obtain ⟨d, hw, hstages, rfl⟩ := p.walk h
  obtain ⟨code, hc, hexact⟩ := Trail.exact hw fun st hs es he =>
    List.mem_flatMap.2 ⟨st, hstages ▸ hs, he⟩
  rwa [show d.code = code from hc]

/-- Whatever is counted by words wraps nowhere in the layout of arrays: a declaration with an accepted literal
leaves the extents of the literal, and the size is that of a header and all elements, unless a name is
missing; and an element of a literal is stored at its very position. -/
theorem lower_layout (h : p.lower table options = .ok out) :
    (∀ c b es at_, .stmt c (.declare b) ∈ p.stages table options → b.value = some (.array es at_) →
      ((Nest.row (lowerCells es)).shape? options.raggedArrays).isSome →
      (out.problems ≠ [] ∧ ∃ u ∈ b.uses, table.lookup c.scope u.1 = .ok none) ∨
      ∃ id x, table.lookup c.scope b.name = .ok (some id) ∧ out.table.symbol id = .ok x ∧
        (Nest.row (lowerCells es)).shape? options.raggedArrays = some x.dimensions ∧
        x.size = options.pointerSize +
          x.dimensions.prod * leafSize options.pointerSize x.type.element es) ∧
    ∀ base is value, .assign (.element base is) value ∈ out.code → (∀ o ∈ is, o.isTemp) ∨
      ∃ st ∈ p.stages table options, ∃ es ∈ st.literals, ∃ path ∈ literalPlaces options.raggedArrays es,
        .assign (.element base is) value = elementStore base path value ∧ ∀ n ∈ path, signed n = n := by
  refine ⟨fun c b es at_ hs hb hd => lower_records h hs hb hd, fun base is value hi => ?_⟩
  obtain ht | ⟨es, he, hp⟩ := lower_positions h _ hi
  · exact .inl ht
  · obtain ⟨st, hs, he⟩ := List.mem_flatMap.1 he
    exact .inr ⟨st, hs, es, he, hp⟩

def shelves : List Expr :=
  [.array [.int 1 .unplaced] .unplaced, .array [.int 2 .unplaced, .int 3 .unplaced] .unplaced]

def shelving : Program :=
  ⟨[.declare ⟨"m", none, some (.array shelves .unplaced), false, .atLine 1⟩,
    .assign (.ident "m") (.array [.array [.int 4 .unplaced] .unplaced] .unplaced) (.atLine 2),
    .assign (.index (.ident "m" .unplaced) [.int 0 .unplaced, .int 1 .unplaced]) (.int 5 .unplaced)
      (.atLine 3)], .unplaced⟩

theorem shelving_layout : ∃ out,
    shelving.lower shelving.collect.table { raggedArrays := .zeroPad } = .ok out ∧
    (∃ id x, out.table.symbol id = .ok x ∧ x.dimensions = [2, 2] ∧
      x.size = 8 + 4 * leafSize 8 x.type.element shelves) ∧
    ∀ base is value, .assign (.element base is) value ∈ out.code → (∀ o ∈ is, o.isTemp) ∨
      ∃ path, .assign (.element base is) value = elementStore base path value ∧
        ∀ n ∈ path, signed n = n := by
  have h : (·.problems) <$>
      (shelving.lower shelving.collect.table { raggedArrays := .zeroPad }).toOption = some [] := by
    decide +kernel
  obtain ⟨out, ho, hq⟩ := exists_of_check h
  obtain ⟨hsizes, hstores⟩ := lower_layout ho
  refine ⟨out, ho, ?_, fun base is value hi => ?_⟩
  · obtain ⟨hp, _⟩ | ⟨id, x, _, hx, hd, hz⟩ := hsizes _ _ _ _ (.head _) rfl rfl
    · exact absurd hq hp
    · have hd : x.dimensions = [2, 2] := (Option.some.inj hd).symm
      rw [hd] at hz
      exact ⟨id, x, hx, hd, hz⟩
  · exact (hstores base is value hi).imp_right fun ⟨_, _, _, _, path, _, h⟩ => ⟨path, h⟩

end Program

end ThreeAddress
