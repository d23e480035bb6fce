import ThreeAddress.Proofs.Frames.Items
import ThreeAddress.Proofs.Lowering.Growth
import ThreeAddress.Proofs.Temps.Values

namespace ThreeAddress

open Lowering Lower

def Target.literals : Target → List (List Expr)
  | .ident _ => []
  | .index base indices => base.literals ++ literalsAll indices
  | .property object _ => object.literals

/-- A literal that is stored element by element is no value of its own. -/
def Target.stored (value : Expr) : Target → List (List Expr)
  | .ident _ => cellLiterals [value]
  | .index .. | .property .. => value.literals

def Stmt.literals : Stmt → List (List Expr)
  | .declare b => cellLiterals b.value.toList
  | .assign target value _ => target.literals ++ target.stored value
  | .print e _ | .eval e _ => e.literals
  | .return e _ => literalsAll e.toList
  | .ite c _ _ _ | .while c _ _ | .doWhile _ c _ => c.literals
  | .for _ test _ _ _ => literalsAll test.toList
  | .foreach _ collection _ _ => collection.literals
  | .switch subject cases _ _ => subject.literals ++ literalsAll (cases.map (·.value))
  | .class c => c.members.flatMap fun
    | .field b => cellLiterals b.value.toList
    | .method _ => []
  | .block _ | .break _ | .continue _ | .tryCatch .. | .function _ => []

/-- Every array literal that is made into a value, at any depth, has elements. -/
inductive Stmt.Filled (policy : RaggedArrays) : Stmt → Prop
  | mk : (∀ es ∈ s.literals, literalPlaces policy es ≠ []) → (∀ part ∈ s.parts, Filled policy part) →
    Filled policy s

namespace Stmt.Filled

variable {policy : RaggedArrays} {s : Stmt}

theorem own (h : s.Filled policy) : ∀ es ∈ s.literals, literalPlaces policy es ≠ [] := by
  cases h with
  | mk h _ => exact h

theorem part (h : s.Filled policy) : ∀ part ∈ s.parts, part.Filled policy := by
  cases h with
  | mk _ h => exact h

end Stmt.Filled

namespace Lower

variable {options : Options}

section Store

theorem leaves_counts {es : List Expr}
    (hf : ∀ ls ∈ cellLiterals es, literalPlaces options.raggedArrays ls ≠ []) :
    ∀ e ∈ leavesAll es, CountsValue options (e.lower .value) :=
  fun e he => e.lower_counts _ fun ls h => hf ls (cellLiterals_of_mem he h)

theorem storeElement_counts {name : String} {es : List Expr} {type : Ty}
    (h : ∀ e ∈ leavesAll es, CountsValue options (e.lower .value)) (p : List Nat) :
    CountsCode options do
      let (code, value) ← leafAt (.row (lowerCells es)) type.zero p
      return code ++ [elementStore (.var name) p value] := by
  intro c s code s' hr ho
  simp only [runs_bind, runs_pure] at hr
  obtain ⟨y, _, hl, rfl, rfl⟩ := hr
  have hy := leafAt_counts (leaf_counts h p) (Ty.zero_known _) hl ho
  exact hy.mention fun hv => elementStore_known p (by simp) (hv _ (by simp))

theorem storeElements_counts {name : String} {es : List Expr} {dims : List Nat} {type : Ty}
    (h : ∀ e ∈ leavesAll es, CountsValue options (e.lower .value)) :
    CountsCode options (storeElements (.var name) (.row (lowerCells es)) dims type.zero) := by
  intro c s code s' hr ho
  simp only [storeElements, runs_bind, runs_pure] at hr
  obtain ⟨stores, _, hm, rfl, rfl⟩ := hr
  have hs := mapM_counts (fun p _ => storeElement_counts h p) hm ho
  exact .of_counted (by simpa using hs.counted)

theorem declareArray_counts {id : SymbolId} {es : List Expr} {span : Span}
    (h : ∀ e ∈ leavesAll es, CountsValue options (e.lower .value)) :
    CountsCode options (declareArray id es span) := by
  intro c s code s' hr ho
  obtain ⟨x, s₁, _, ⟨hs, ⟨u, hb⟩, rfl⟩ | ⟨dims, size, u, s₂, hs, _, hb, he⟩⟩ := runs_declareArray hr
  · exact .empty ((bindStorage_binds _ _ hb).sameTemps.trans (literalShape_temps hs))
  · have hb : s₂.ledger.temps = s₁.ledger.temps := (bindStorage_binds _ _ hb).sameTemps
    exact .before (hb.trans (literalShape_temps hs)) (storeElements_counts h he ho)

theorem assignArray_counts {id : SymbolId} {es : List Expr} {span : Span}
    (h : ∀ e ∈ leavesAll es, CountsValue options (e.lower .value)) :
    CountsCode options (assignArray id es span) := by
  intro c s code s' hr ho
  obtain ⟨x, shape, s₁, _, hs, ⟨_, rfl, rfl⟩ | ⟨dims, _, he⟩⟩ := runs_assignArray hr
  · exact .empty (literalShape_temps hs)
  · exact .before (literalShape_temps hs) (storeElements_counts h he ho)

theorem lowerIndices_counts {es : List Expr}
    (hf : ∀ ls ∈ literalsAll es, literalPlaces options.raggedArrays ls ≠ []) :
    Counts options Prod.fst Prod.snd (lowerIndices es) := by
  induction es with
  | nil =>
    intro c s x s' h _
    obtain ⟨rfl, rfl⟩ := runs_pure.1 h
    exact .nil rfl (by simp)
  | cons e rest ih =>
    intro c s x s' h ho
    rw [literalsAll, List.forall_mem_append] at hf
    simp only [lowerIndices, runs_bind, runs_pure] at h
    obtain ⟨y, s₁, h₁, z, s₂, h₂, w, _, h₃, rfl, rfl⟩ := h
    have hy := e.lower_counts _ hf.1 h₁ ho
    have hz := ensureTemp_counts (hy.known _ (by simp)) h₂
    have hw := ih hf.2 h₃ ho
    exact ⟨(hy.counted.append hz.counted).append hw.counted, (hz.append hw).known⟩

theorem guarding_counts {uses : List Use} {whole : Span} {act : Lower Code}
    (h : CountsCode options act) : CountsCode options (guarding uses whole act) := by
  intro c s code s' hr ho
  obtain ⟨_, hr⟩ | ⟨_, rfl, rfl⟩ := runs_guarding hr
  · exact h hr ho
  · exact .empty rfl

end Store

end Lower

theorem Binding.lower_counts {options : Options} {b : Binding}
    (hf : ∀ ls ∈ cellLiterals b.value.toList, literalPlaces options.raggedArrays ls ≠ []) :
    CountsCode options b.lower := by
  intro c s code s' h ho
  have hl := leaves_counts hf
  obtain ⟨_, rfl, rfl⟩ | ⟨id, es, span, _, hv, h⟩ | ⟨id, x, u, s₁, _, _, hb, h⟩ := b.runs_lower h
  · exact .empty rfl
  · refine declareArray_counts (fun e he => hl e ?_) h ho
    simpa [hv, leavesAll, Expr.leaves] using he
  · have hb : s₁.ledger.temps = s.ledger.temps := (bindStorage_binds _ _ hb).sameTemps
    obtain ⟨_, rfl, rfl⟩ | ⟨e, y, hv, he, hy, rfl⟩ := h
    · exact .empty hb
    · have hs := storable_counts (hl e (by simp [hv, leavesAll, Expr.mem_leaves he])) hy ho
      exact .before hb (hs.mention (by simp +contextual))

theorem Target.assign_counts {options : Options} {target : Target} {value : Expr} {span : Span}
    (ht : ∀ ls ∈ target.literals, literalPlaces options.raggedArrays ls ≠ [])
    (hf : ∀ ls ∈ target.stored value, literalPlaces options.raggedArrays ls ≠ []) :
    CountsCode options (target.assign value span) := by
  intro c s code s' h ho
  cases target with
  | ident name =>
    have hl := leaves_counts hf
    obtain ⟨_, rfl, rfl⟩ | ⟨id, es, at_, _, rfl, ha⟩ | ⟨id, x, y, _, _, he, hy, rfl⟩ :=
      Target.runs_assign_ident h
    · exact .empty rfl
    · refine assignArray_counts (fun e he => hl e ?_) ha ho
      simpa [leavesAll, Expr.leaves] using he
    · have hs := storable_counts (hl value (by simp [leavesAll, Expr.mem_leaves he])) hy ho
      exact hs.mention (by simp +contextual)
  | index base indices =>
    rw [literals, List.forall_mem_append] at ht
    simp only [Target.assign, runs_bind, runs_pure] at h
    obtain ⟨y, s₁, h₁, z, s₂, h₂, w, _, h₃, rfl, rfl⟩ := h
    have hy := base.lower_counts _ ht.1 h₁ ho
    have hz := lowerIndices_counts ht.2 h₂ ho
    have hw := storable_counts (value.lower_counts _ hf) h₃ ho
    exact ((hy.append hz).append hw).mention (by simp +contextual)
  | property object field =>
    simp only [Target.assign, runs_bind, runs_pure] at h
    obtain ⟨y, s₁, h₁, z, _, h₂, rfl, rfl⟩ := h
    have hy := object.lower_counts _ ht h₁ ho
    have hz := storable_counts (value.lower_counts _ hf) h₂ ho
    exact (hy.append hz).mention (by simp +contextual)

namespace Lower

variable {options : Options}

section Forms

variable {test : Lower Valued} {first body other step : Lower Code}

theorem CountsCode.inBlock {act : Lower Code} (h : CountsCode options act) (span : Span) :
    CountsCode options (inBlock span act) :=
  fun _ _ _ _ hr ho => h (runs_inBlock.1 hr) ho

theorem ifThen_counts (ht : CountsValue options test) (hb : CountsCode options body) :
    CountsCode options (ifThen test body) := by
  intro c s code s' h ho
  obtain ⟨head, v, s₁, h₁, _, inner, h₂, rfl⟩ := runs_ifThen.1 h
  obtain ⟨hhead, hv⟩ := ht h₁ ho
  refine .of_counted ?_
  simp only [List.append_assoc, List.cons_append]
  apply hhead.append
  apply Counted.mention (by simpa using hv)
  apply (hb h₂ ho).counted.append
  exact .mentions (by simp)

theorem ifThenElse_counts (ht : CountsValue options test) (hb : CountsCode options body)
    (hn : CountsCode options other) : CountsCode options (ifThenElse test body other) := by
  intro c s code s' h ho
  obtain ⟨head, v, s₁, h₁, _, first, s₂, h₂, _, second, h₃, rfl⟩ := runs_ifThenElse.1 h
  obtain ⟨hhead, hv⟩ := ht h₁ ho
  refine .of_counted ?_
  simp only [List.append_assoc, List.cons_append]
  apply hhead.append
  apply Counted.mention (by simpa using hv)
  apply (hb h₂ ho).counted.append
  apply Counted.mention (by simp)
  apply Counted.mention (by simp)
  apply (hn h₃ ho).counted.append
  exact .mentions (by simp)

theorem whileLoop_counts (ht : CountsValue options test) (hb : CountsCode options body) :
    CountsCode options (whileLoop test body) := by
  intro c s code s' h ho
  obtain ⟨_, head, v, s₁, h₁, _, inner, s₂, h₂, rfl, rfl⟩ := runs_whileLoop.1 h
  obtain ⟨hhead, hv⟩ := ht h₁ ho
  refine .of_counted ?_
  simp only [List.append_assoc, List.cons_append]
  apply Counted.mention (by simp)
  apply hhead.append
  apply Counted.mention (by simpa using hv)
  apply (hb h₂ ho).counted.append
  exact .mentions (by simp)

theorem place_counted (l : Option Label) (n : Nat) : Counted n (place l) n :=
  .mentions (by cases l <;> simp [place])

theorem doWhile_counts (ht : CountsValue options test) (hb : CountsCode options body) :
    CountsCode options (doWhile body test) := by
  intro c s code s' h ho
  obtain ⟨_, inner, s₁, h₁, tail, v, s₂, h₂, rfl, rfl⟩ := runs_doWhile.1 h
  obtain ⟨htail, hv⟩ := ht h₂ ho
  refine .of_counted ?_
  simp only [List.append_assoc, List.cons_append]
  apply Counted.mention (by simp)
  apply (hb h₁ ho).counted.append
  apply htail.append
  exact .mention (by simpa using hv) (place_counted _ _)

theorem loopTest_counts {test : Option (Lower Valued)} (ht : ∀ act ∈ test, CountsValue options act) :
    Counts options Prod.fst (fun _ => []) (loopTest test) := by
  intro c s x s' hr ho
  obtain ⟨rfl, rfl, rfl⟩ | ⟨act, head, v, s₁, rfl, h₁, _, rfl, rfl⟩ := runs_loopTest.1 hr
  · exact .empty rfl
  · have h := (ht act rfl h₁ ho).mention (i := .branch v .eq (.int 0) s₁.label) (by simp)
    exact .of_counted h.counted

theorem forLoop_counts {test : Option (Lower Valued)} {hasStep : Bool}
    (hf : CountsCode options first) (ht : ∀ act ∈ test, CountsValue options act)
    (hb : CountsCode options body) (hs : CountsCode options step) :
    CountsCode options (forLoop first test hasStep step body) := by
  intro c s code s' h ho
  obtain ⟨head, s₁, h₁, _, check, done, s₂, h₂, inner, s₃, h₃, tail, h₄, rfl⟩ := runs_forLoop.1 h
  have htail : Counted s₃.ledger.temps
      (if hasStep then place s₃.continueLabel? ++ tail else tail) s'.ledger.temps := by
    split
    · exact (place_counted _ _).append (hs h₄ ho).counted
    · exact (hs h₄ ho).counted
  refine .of_counted ?_
  simp only [List.append_assoc, List.cons_append]
  apply (hf h₁ ho).counted.append
  apply Counted.mention (by simp)
  apply (loopTest_counts ht h₂ ho).counted.append
  apply (hb h₃ ho).counted.append
  apply htail.append
  exact .mention (by simp) (place_counted _ _)

theorem indexLoop_counts {base bound : Operand} {item : String} {bind : Lower Unit} {c : Context}
    {s s' : State} {code : Code} (hbase : base.Known s.ledger.temps)
    (hbound : bound.Known s.ledger.temps)
    (hi : ∀ {c s u s'}, Runs bind c s u s' → s'.ledger.temps = s.ledger.temps)
    (hb : CountsCode options body) (h : Runs (indexLoop base bound item bind body) c s code s')
    (ho : c.options = options) : Counted s.ledger.temps code s'.ledger.temps := by
  obtain ⟨_, _, _, s₁, h₁, _, _, _, _, inner, s₂, h₂, rfl, rfl⟩ := runs_indexLoop.1 h
  have hn : s₁.ledger.temps = s.ledger.temps + 1 + 1 := hi h₁
  have hinner := (hb h₂ ho).counted
  have hle : s₁.ledger.temps + 1 + 1 ≤ s₂.ledger.temps := hinner.le
  have hi : s.ledger.temps < s₁.ledger.temps := by omega
  simp only [List.append_assoc, List.cons_append, List.nil_append]
  apply Counted.take rfl (by simp)
  apply Counted.take rfl (by simp [hbound.mono (Nat.le_add_right _ 2)])
  rw [← hn]
  apply Counted.mention (by simp)
  apply Counted.take rfl (by simp; omega)
  apply Counted.mention (by simp)
  apply Counted.take rfl (by simp [hbase.mono (show _ ≤ s₁.ledger.temps + 1 + 1 by omega)]; omega)
  apply Counted.mention (by simp)
  apply hinner.append
  apply (place_counted _ _).append
  exact .mentions (by simp; omega)

theorem caseTests_counts {subject : Operand} {cases : List Case}
    (h : ∀ k ∈ cases, CountsValue options (k.value.lower .value)) {c : Context} {s s' : State}
    {x : Code × List Label} (hs : subject.Known s.ledger.temps)
    (hr : Runs (caseTests subject cases) c s x s') (ho : c.options = options) :
    Counted s.ledger.temps x.1 s'.ledger.temps := by
  induction cases generalizing s x with
  | nil =>
    obtain ⟨rfl, rfl⟩ := runs_pure.1 hr
    exact .nil
  | cons k rest ih =>
    obtain ⟨head, v, s₁, h₁, _, tests, labels, h₂, rfl⟩ := runs_caseTests_cons.1 hr
    obtain ⟨hhead, hv⟩ := h k (by simp) h₁ ho
    have hs := hs.mono hhead.le
    apply hhead.append
    apply Counted.mention (by simpa [hs] using hv)
    exact ih (s := s₁.nextLabel) (fun k hk => h k (by simp [hk])) hs h₂

theorem breakLabel_temps {c : Context} {s s' : State} {l? : Option Label}
    (h : Runs (account Ledger.breakLabel) c s l? s') : s'.ledger.temps = s.ledger.temps := by
  obtain ⟨_, _, rfl⟩ | ⟨_, _, _, _, rfl⟩ | ⟨_, _, _, _, rfl⟩ := runs_breakLabel.1 h <;> rfl

theorem continueLabel_temps {c : Context} {s s' : State} {l? : Option Label}
    (h : Runs (account Ledger.continueLabel) c s l? s') : s'.ledger.temps = s.ledger.temps := by
  obtain ⟨_, _, rfl⟩ | ⟨_, _, _, _, rfl⟩ | ⟨_, _, _, _, rfl⟩ := runs_continueLabel.1 h <;> rfl

theorem gotoBreak_counts : CountsCode options gotoBreak := by
  intro c s code s' h _
  obtain ⟨l?, hb, rfl⟩ := runs_gotoBreak.1 h
  refine .of_counted ?_
  rw [breakLabel_temps hb]
  exact .mentions (by cases l? <;> simp)

theorem jump_counts {target : Account (Option Label)} (problem : Problem)
    (ht : ∀ {c s l? s'}, Runs (account target) c s l? s' → s'.ledger.temps = s.ledger.temps) :
    CountsCode options (jump target problem) := by
  intro c s code s' h _
  obtain ⟨l, hl, rfl⟩ | ⟨s₁, hl, rfl, rfl⟩ := runs_jump.1 h
  · refine .of_counted ?_
    rw [ht hl]
    exact .mentions (by simp)
  · have hl : s₁.ledger.temps = s.ledger.temps := ht hl
    exact .empty hl

theorem caseBody_counts {l : Label} {isEmpty : Bool} (hb : CountsCode options body) :
    CountsCode options (caseBody l isEmpty body) := by
  intro c s code s' hr ho
  obtain ⟨inner, s₁, h₁, h⟩ := runs_caseBody.1 hr
  refine .of_counted ?_
  split at h
  · obtain ⟨exit, h₂, rfl⟩ := h
    exact .mention (by simp) ((hb h₁ ho).counted.append (gotoBreak_counts h₂ ho).counted)
  · obtain ⟨rfl, rfl⟩ := h
    exact .mention (by simp) (hb h₁ ho).counted

theorem switch_counts {subject : Lower Valued} {cases : List Case}
    {bodies : List Label → Lower Code} {default : Option (Lower Code)}
    (hs : CountsValue options subject)
    (hc : ∀ k ∈ cases, CountsValue options (k.value.lower .value))
    (hb : ∀ labels, CountsCode options (bodies labels))
    (hd : ∀ act ∈ default, CountsCode options act) :
    CountsCode options (switch subject cases bodies default) := by
  intro c s code s' h ho
  obtain ⟨head, v, s₁, h₁, copy, w, s₂, h₂, tests, labels, s₃, h₃, h⟩ := runs_switch.1 h
  obtain ⟨hhead, hv⟩ := hs h₁ ho
  obtain ⟨hcopy, hw⟩ := ensureTemp_counts (hv v (by simp)) h₂
  have htests := caseTests_counts hc (hw w (by simp)) h₃ ho
  have hfront := (hhead.append hcopy).append htests
  refine .of_counted ?_
  obtain ⟨rfl, skip, s₄, h₄, inner, s₅, h₅, rfl, rfl⟩ |
    ⟨body, rfl, _, inner, s₄, h₄, last, s₅, h₅, rfl, rfl⟩ := h
  · rw [List.append_assoc, List.append_assoc]
    apply hfront.append
    apply (gotoBreak_counts h₄ ho).counted.append
    exact ((hb labels h₅ ho).counted.append (place_counted _ _))
  · rw [List.append_assoc, List.append_assoc]
    apply hfront.append
    apply Counted.mention (by simp)
    apply (hb labels h₄ ho).counted.append
    apply Counted.mention (by simp)
    exact (hd body rfl h₅ ho).counted.append (place_counted _ _)

theorem tryCatch_counts {caught : String} (hb : CountsCode options body)
    (hn : CountsCode options other) : CountsCode options (tryCatch body caught other) := by
  intro c s code s' h ho
  obtain ⟨_, first, s₁, h₁, _, second, h₂, rfl⟩ := runs_tryCatch.1 h
  refine .of_counted ?_
  simp only [List.append_assoc, List.cons_append]
  apply Counted.mention (by simp)
  apply (hb h₁ ho).counted.append
  apply Counted.append (.mentions (by simp))
  apply (hn h₂ ho).counted.append
  exact .mentions (by simp)

end Forms

end Lower

section Statements

variable {options : Options}

theorem nothing_counts : CountsCode options (pure []) := by
  intro c s code s' h _
  obtain ⟨rfl, rfl⟩ := runs_pure.1 h
  exact .empty rfl

theorem append_counts {first second : Lower Code} (h : CountsCode options first)
    (k : CountsCode options second) : CountsCode options do return (← first) ++ (← second) := by
  intro c s code s' hr ho
  simp only [runs_bind, runs_pure] at hr
  obtain ⟨a, s₁, h₁, b, _, h₂, rfl, rfl⟩ := hr
  exact (h h₁ ho).append (k h₂ ho)

theorem lowerAll_counts {body : List Stmt} (h : ∀ s ∈ body, CountsCode options s.lower) :
    CountsCode options (lowerAll body) := by
  induction body with
  | nil =>
    rw [lowerAll]
    exact nothing_counts
  | cons s rest ih =>
    rw [lowerAll]
    exact append_counts (h s (by simp)) (ih fun s hs => h s (by simp [hs]))

theorem lowerOption_counts {s : Option Stmt} (h : ∀ s' ∈ s, CountsCode options s'.lower) :
    CountsCode options (lowerOption s) := by
  cases s with
  | none =>
    rw [lowerOption]
    exact nothing_counts
  | some s =>
    rw [lowerOption]
    exact h s rfl

theorem lowerCases_counts {cases : List Case} {labels : List Label}
    (h : ∀ k ∈ cases, ∀ s ∈ k.body, CountsCode options s.lower) :
    CountsCode options (lowerCases cases labels) := by
  induction cases generalizing labels with
  | nil =>
    rw [lowerCases_nil]
    exact nothing_counts
  | cons k rest ih =>
    cases labels with
    | nil =>
      rw [lowerCases]
      · exact nothing_counts
      · simp
    | cons l labels =>
      rw [lowerCases_cons]
      exact append_counts (caseBody_counts (lowerAll_counts (h k (by simp))))
        (ih fun k hk => h k (by simp [hk]))

theorem Function.lower_counts {f : Function} (h : ∀ s ∈ f.body.body, CountsCode options s.lower) :
    CountsCode options f.lower := by
  intro c s code s' hr ho
  rw [Function.lower_eq] at hr
  obtain ⟨_, rfl, rfl⟩ | ⟨id, x, u, s₁, inner, s₂, _, s₃, _, _, h₁, h₂, h₃, rfl, rfl⟩ :=
    runs_functionFrame hr
  · exact .empty rfl
  · have hp : s₁.ledger.temps = s.ledger.temps := (bindParams_binds f.params h₁).sameTemps
    have hin := (lowerAll_counts h h₂ ho).counted
    rw [hp, ← (exitFrame_counters h₃).1] at hin
    exact .of_counted (.mention (by simp) (hin.append (.mentions (by simp))))

theorem lowerMembers_counts {members : List Member}
    (hb : ∀ b, .field b ∈ members → CountsCode options b.lower)
    (hf : ∀ f, .method f ∈ members → CountsCode options f.lower) :
    CountsCode options (lowerMembers members) := by
  induction members with
  | nil =>
    rw [lowerMembers]
    exact nothing_counts
  | cons m rest ih =>
    have hm : CountsCode options m.lower := by
      cases m with
      | field b =>
        rw [Member.lower]
        exact guarding_counts (hb b (by simp))
      | method f =>
        rw [Member.lower]
        exact hf f (by simp)
    rw [lowerMembers]
    exact append_counts hm
      (ih (fun b h => hb b (by simp [h])) fun f h => hf f (by simp [h]))

theorem Class.lower_counts {k : Class}
    (hb : ∀ b, .field b ∈ k.members → CountsCode options b.lower)
    (hf : ∀ f, .method f ∈ k.members → CountsCode options f.lower) :
    CountsCode options k.lower := by
  intro c s code s' hr ho
  rw [Class.lower_eq] at hr
  obtain ⟨_, rfl, rfl⟩ | ⟨id, x, _, s₁, _, s₂, inner, s₃, _, s₄, _, _, h₁, h₂, h₃, h₄, rfl, rfl⟩ :=
    runs_classFrame hr
  · exact .empty rfl
  · obtain ⟨rfl, _⟩ := runs_inherited h₁
    have ha : s₂.ledger.temps = s₁.ledger.temps :=
      (allocate_counters (s := s₁.enterFrame) h₂).1
    have hin := (lowerMembers_counts hb hf h₃ ho).counted
    rw [ha, ← (exitFrame_counters h₄).1] at hin
    exact .of_counted (.mention (by simp) (hin.append (.mentions (by simp))))

theorem Stmt.lower_counts {s : Stmt} (hs : s.Filled options.raggedArrays) :
    CountsCode options s.lower := by
  induction s with
  | declare b =>
    rw [Stmt.lower]
    exact guarding_counts (b.lower_counts hs.own)
  | assign target value span =>
    have own := hs.own
    rw [Stmt.literals, List.forall_mem_append] at own
    rw [Stmt.lower]
    exact guarding_counts (target.assign_counts own.1 own.2)
  | print e span =>
    rw [Stmt.lower]
    refine guarding_counts fun c s code s' h ho => ?_
    simp only [runs_bind, runs_pure] at h
    obtain ⟨y, _, hy, rfl, rfl⟩ := h
    exact (argument_counts (e.lower_counts _ hs.own) hy ho).mention (by simp)
  | eval e span =>
    rw [Stmt.lower]
    refine guarding_counts fun c s code s' h ho => ?_
    simp only [runs_bind, runs_pure] at h
    obtain ⟨y, _, hy, rfl, rfl⟩ := h
    exact .of_counted (e.lower_counts _ hs.own hy ho).counted
  | ret e span =>
    cases e with
    | none =>
      rw [Stmt.lower]
      intro c s code s' h _
      obtain ⟨rfl, rfl⟩ := runs_pure.1 h
      exact .of_counted (.mention (by simp) .nil)
    | some e =>
      have own : ∀ es ∈ e.literals, _ := fun es h => hs.own es (literalsAll_of_mem (by simp) h)
      rw [Stmt.lower]
      refine guarding_counts fun c s code s' h ho => ?_
      simp only [runs_bind, runs_pure] at h
      obtain ⟨y, _, hy, rfl, rfl⟩ := h
      exact (e.lower_counts _ own hy ho).mention (by simp)
  | block b ih =>
    rw [Stmt.lower, Block.lower_eq]
    exact (lowerAll_counts fun s h => ih s h (hs.part s h)).inBlock _
  | ite c yes no span ihy ihn =>
    have hc : CountsValue options (c.lower .value) := c.lower_counts _ hs.own
    have hy : CountsCode options (lowerAll yes.body) :=
      lowerAll_counts fun s h => ihy s h (hs.part s (List.mem_append_left _ h))
    rw [Stmt.lower_ite]
    cases no with
    | none => exact ifThen_counts hc (hy.inBlock _)
    | some no =>
      refine ifThenElse_counts hc (hy.inBlock _) (CountsCode.inBlock ?_ _)
      exact lowerAll_counts fun s h => ihn no rfl s h (hs.part s (List.mem_append_right _ h))
  | loop c body span ih =>
    rw [Stmt.lower, Block.lower_eq]
    exact whileLoop_counts (c.lower_counts _ hs.own)
      ((lowerAll_counts fun s h => ih s h (hs.part s h)).inBlock _)
  | doWhile body c span ih =>
    rw [Stmt.lower, Block.lower_eq]
    exact doWhile_counts (c.lower_counts _ hs.own)
      ((lowerAll_counts fun s h => ih s h (hs.part s h)).inBlock _)
  | forLoop first test step body span ihf ihs ih =>
    have part := hs.part
    simp only [parts, List.forall_mem_append, Option.mem_toList] at part
    obtain ⟨⟨hf, ht⟩, hb⟩ := part
    rw [Stmt.lower, Block.lower_eq]
    refine CountsCode.inBlock (forLoop_counts (lowerOption_counts fun s h => ihf s h (hf s h)) ?_
      (lowerAll_counts fun s h => ih s h (hb s h))
      (lowerOption_counts fun s h => ihs s h (ht s h))) _
    intro act h
    obtain ⟨e, he, rfl⟩ := Option.map_eq_some_iff.1 h
    exact e.lower_counts _ fun es h => hs.own es (literalsAll_of_mem (by simp [he]) h)
  | foreach item collection body span ih =>
    rw [Stmt.lower, Block.lower_eq]
    refine CountsCode.inBlock (fun c s code s' h ho => ?_) _
    simp only [runs_bind, runs_pure] at h
    obtain ⟨y, _, h₁, bound, s₁, h₂, code, _, h₃, rfl, rfl⟩ := h
    obtain ⟨hcode, hbase⟩ := collection.lower_counts _ hs.own h₁ ho
    obtain ⟨rfl, hb⟩ := runs_loopBound h₂
    have hbase := hbase y.2 (by simp)
    -- the bound is a length or a constant, so it mentions no temporary but the base
    have hbound : bound.Known s₁.ledger.temps := by
      obtain rfl | ⟨_, _, _, _, _, _, _, _, _, rfl⟩ := hb <;> simp [hbase]
    refine .of_counted (hcode.append (indexLoop_counts hbase hbound (fun h => ?_) ?_ h₃ ho))
    · exact (bindLocal_binds item span h).sameTemps
    · exact lowerAll_counts fun s h => ih s h (hs.part s h)
  | switch subject cases default span ihc ihd =>
    have own := hs.own
    have part := hs.part
    rw [Stmt.literals, List.forall_mem_append] at own
    rw [parts, List.forall_mem_append] at part
    rw [Stmt.lower_switch]
    refine switch_counts (subject.lower_counts _ own.1) (fun k hk => ?_) (fun labels => ?_) ?_
    · exact k.value.lower_counts _ fun es h =>
        own.2 es (literalsAll_of_mem (List.mem_map_of_mem hk) h)
    · exact lowerCases_counts fun k hk s h =>
        ihc k hk s h (part.1 s (List.mem_flatMap.2 ⟨k, hk, h⟩))
    · intro act h
      obtain ⟨body, rfl, rfl⟩ := Option.map_eq_some_iff.1 h
      exact lowerAll_counts fun s h => ihd body rfl s h (part.2 s h)
  | exit span =>
    rw [Stmt.lower]
    exact jump_counts _ breakLabel_temps
  | next span =>
    rw [Stmt.lower]
    exact jump_counts _ continueLabel_temps
  | tryCatch body caught handler span ihb ihh =>
    have part := hs.part
    rw [parts, List.forall_mem_append] at part
    rw [Stmt.lower, Block.lower_eq, Block.lower_eq]
    refine tryCatch_counts ((lowerAll_counts fun s h => ihb s h (part.1 s h)).inBlock _)
      (CountsCode.inBlock (fun c s code s' h ho => ?_) _)
    simp only [runs_bind] at h
    obtain ⟨u, s₁, h₁, h₂⟩ := h
    exact .before (bindLocal_binds caught span h₁).sameTemps
      (lowerAll_counts (fun s h => ihh s h (part.2 s h)) h₂ ho)
  | function f ih =>
    rw [Stmt.lower]
    exact Function.lower_counts fun s h => ih s h (hs.part s h)
  | classDef k ih =>
    rw [Stmt.lower]
    refine Class.lower_counts (fun b hb => b.lower_counts fun es h => ?_)
      (fun f hf => Function.lower_counts fun s h => ih f hf s h ?_)
    · exact hs.own es (List.mem_flatMap.2 ⟨_, hb, h⟩)
    · exact hs.part s (List.mem_flatMap.2 ⟨_, hf, h⟩)

end Statements

theorem lowerAll_counted {body : List Stmt} {table : Table} {options : Options} {code : Code}
    {s : State} (hf : ∀ s ∈ body, s.Filled options.raggedArrays)
    (hr : Runs (lowerAll body) { options } (.start table options) code s) :
    code.temps.eraseDups = Temp.upTo s.ledger.temps :=
  (lowerAll_counts (fun s h => Stmt.lower_counts (hf s h)) hr rfl).counted.eraseDups_eq

namespace Program

variable {p : Program} {options : Options} {out : Compiled}

/-- If a program compiles in which every literal that is made into a value has elements, then its
code first mentions the temporaries that were taken in the order of their numbers, without a gap. -/
theorem compile_counted (h : p.compile options = .ok out)
    (hf : ∀ s ∈ p.statements, s.Filled options.raggedArrays) :
    ∃ s, Runs (lowerAll p.statements) { options } (.start p.collect.table options) out.code s ∧
      out.code.temps.eraseDups = Temp.upTo s.ledger.temps := by
  obtain ⟨_, hl⟩ := compile_eq_ok.1 h
  obtain ⟨s, hr, _⟩ := runs_program.1 hl
  exact ⟨s, hr, lowerAll_counted hf hr⟩

def listing : Program :=
  ⟨[.declare ⟨"xs", none, some (.array [] .unplaced), false, .atLine 1⟩,
    .print (.index (.array [.int 5 .unplaced, .ident "xs" .unplaced] .unplaced) (.int 0 .unplaced)
      .unplaced) (.atLine 2)], .unplaced⟩

theorem listing_filled : ∀ s ∈ listing.statements, s.Filled .reject := by
  simp only [listing, List.mem_cons, List.not_mem_nil, or_false, forall_eq_or_imp, forall_eq]
  refine ⟨.mk ?_ ?_, .mk ?_ ?_⟩
  · decide +kernel
  · simp [Stmt.parts]
  · decide +kernel
  · simp [Stmt.parts]

theorem listing_counted : ∃ out, listing.compile {} = .ok out ∧
    out.code.temps = [⟨1⟩, ⟨2⟩, ⟨3⟩, ⟨1⟩, ⟨3⟩, ⟨2⟩, ⟨4⟩, ⟨5⟩, ⟨3⟩, ⟨4⟩, ⟨6⟩, ⟨5⟩, ⟨6⟩] ∧
    ∃ s, Runs (lowerAll listing.statements) { options := {} } (.start listing.collect.table {})
        out.code s ∧
      out.code.temps.eraseDups = Temp.upTo s.ledger.temps := by
  have h : (·.code.temps) <$> (listing.compile {}).toOption =
      some [⟨1⟩, ⟨2⟩, ⟨3⟩, ⟨1⟩, ⟨3⟩, ⟨2⟩, ⟨4⟩, ⟨5⟩, ⟨3⟩, ⟨4⟩, ⟨6⟩, ⟨5⟩, ⟨6⟩] := by
    decide +kernel
  obtain ⟨out, ho, ht⟩ := exists_of_check h
  exact ⟨out, ho, ht, compile_counted ho listing_filled⟩

def hollow : Program := ⟨[.print (.array [] .unplaced) (.atLine 1)], .unplaced⟩

/-- Nothing is stored into an empty literal, and its copy is mentioned before the literal itself. -/
theorem hollow_disordered : ∃ out, hollow.compile {} = .ok out ∧
    out.code.temps.eraseDups = [⟨2⟩, ⟨1⟩] ∧ ∀ n, out.code.temps.eraseDups ≠ Temp.upTo n := by
  have h : (·.code.temps.eraseDups) <$> (hollow.compile {}).toOption = some [⟨2⟩, ⟨1⟩] := by
    decide +kernel
  obtain ⟨out, ho, ht⟩ := exists_of_check h
  refine ⟨out, ho, ht, fun n hn => ?_⟩
  rw [ht] at hn
  cases n with
  | zero => cases hn
  | succ n => simp [Temp.upTo, List.range_succ_eq_map] at hn

end Program

end ThreeAddress
