import ThreeAddress.Proofs.Plans.Program
import ThreeAddress.Proofs.Headers.Holes
import ThreeAddress.Proofs.Headers.Statements

namespace ThreeAddress

namespace Plan

variable {options : Options} {T T' : Table} {v : View T T'} {post : α → Prop} {d d₁ d₂ : FullState}

abbrev ofStmt (options : Options) (s : Stmt) : Plan Unit := begins (.stmt s) (s.plan options)

/-- Two runs that start alike, with one statement or another in the hole, come to the hole alike, as long
as nothing is reported. -/
def Passes (v : View T T') (options : Options) (C : Stmt → Plan Unit) : Prop :=
  ∀ ⦃s s' d t d₁ d₁'⦄, d.Seen v t → (C s).run d = .ok ((), d₁) →
    (C s').run (d.withTable t) = .ok ((), d₁') → d₁.problems = [] →
    ∃ σ τ σ₁ σ₁', σ.Seen v τ ∧ (s.plan options).run σ = .ok ((), σ₁) ∧
      (s'.plan options).run (σ.withTable τ) = .ok ((), σ₁') ∧ σ₁.Precedes d₁ ∧ σ₁'.Precedes d₁' ∧
      (ofStmt options s).course σ <:+: (C s).course d ∧
      (ofStmt options s').course (σ.withTable τ) <:+: (C s').course (d.withTable t)

namespace Passes

theorem here : Passes v options fun s => ofStmt options s :=
  fun _ _ _ _ _ _ ht h h' _ =>
    ⟨_, _, _, _, ht, h, h', .refl _, .refl _, List.infix_refl _, List.infix_refl _⟩

theorem report (p : Problem) : Passes v options fun _ => Plan.report p := by
  intro s s' d t d₁ d₁' _ h _ hq
  cases h
  simp at hq

theorem after {first : Plan α} {C : α → Stmt → Plan Unit} (h : first.Stays v post)
    (k : ∀ a, post a → Passes v options (C a)) : Passes v options fun s => first >>= fun a => C a s := by
  intro s s' d t d₁ d₁' ht hr hr' hq
  obtain ⟨a, e, hf, hr⟩ := run_bind_eq_ok.1 hr
  obtain ⟨a', e', hf', hr'⟩ := run_bind_eq_ok.1 hr'
  obtain ⟨u, hu, hs, ha⟩ := h.run hf ht
  rw [hu] at hf'
  cases hf'
  obtain ⟨σ, τ, σ₁, σ₁', hσ, h₁, h₁', hb, hb', hc, hc'⟩ := k a ha hs hr hr' hq
  exact ⟨σ, τ, σ₁, σ₁', hσ, h₁, h₁', hb, hb', hc.trans (course_infix_last (f := fun a => C a s) hf),
    hc'.trans (course_infix_last (f := fun a => C a s') hu)⟩

theorem before {C : Stmt → Plan Unit} {g : Unit → Plan Unit} (h : Passes v options C) :
    Passes v options fun s => C s >>= g := by
  intro s s' d t d₁ d₁' ht hr hr' hq
  obtain ⟨_, e, hf, hr⟩ := run_bind_eq_ok.1 hr
  obtain ⟨_, e', hf', hr'⟩ := run_bind_eq_ok.1 hr'
  have hp := run_precedes hr
  obtain ⟨σ, τ, σ₁, σ₁', hσ, h₁, h₁', hb, hb', hc, hc'⟩ := h ht hf hf' (hp.quiet hq)
  exact ⟨σ, τ, σ₁, σ₁', hσ, h₁, h₁', hb.trans hp, hb'.trans (run_precedes hr'),
    hc.trans (course_infix_first hf), hc'.trans (course_infix_first hf')⟩

theorem comp {C : Stmt → Plan Unit} {F : Stmt → Stmt} (h : Passes v options C)
    (k : Passes v options fun s => ofStmt options (F s)) : Passes v options fun s => C (F s) := by
  intro s s' d t d₁ d₁' ht hr hr' hq
  obtain ⟨e, u, e₁, e₁', hu, h₁, h₁', hb, hb', hc, hc'⟩ := h ht hr hr' hq
  obtain ⟨σ, τ, σ₁, σ₁', hσ, h₂, h₂', he, he', hd, hd'⟩ := k hu h₁ h₁' (hb.quiet hq)
  exact ⟨σ, τ, σ₁, σ₁', hσ, h₂, h₂', he.trans hb, he'.trans hb', hd.trans hc, hd'.trans hc'⟩

theorem begins {part : Stmt → Part} {C : Stmt → Plan Unit} (h : Passes v options C) :
    Passes v options fun s => Plan.begins (part s) (C s) := by
  intro s s' d t d₁ d₁' ht hr hr' hq
  obtain ⟨σ, τ, σ₁, σ₁', hσ, h₁, h₁', hb, hb', hc, hc'⟩ := h ht hr hr' hq
  exact ⟨σ, τ, σ₁, σ₁', hσ, h₁, h₁', hb, hb', hc.trans (List.suffix_cons _ _).isInfix,
    hc'.trans (List.suffix_cons _ _).isInfix⟩

theorem step {s : FullState.Step} {C : s.Answer → Stmt → Plan Unit} (hw : s.Within v)
    (k : ∀ b, s.Tells v b → Passes v options (C b)) : Passes v options fun r => of s >>= fun b => C b r :=
  after (.of hw) k

theorem emit {i : Instruction} {C : Stmt → Plan Unit} (h : Passes v options C) :
    Passes v options fun s => Plan.emit i >>= fun _ => C s :=
  step (s := .emit i) trivial fun _ _ => h

theorem seq {first : Plan α} {C : α → Stmt → Plan Unit} (h : first.KeepsTo v)
    (k : ∀ a, Passes v options (C a)) : Passes v options fun s => first >>= fun a => C a s :=
  after h fun a _ => k a

end Passes

section Forms

variable {C : Stmt → Plan Unit} {test : Plan Operand} {body other : Plan Unit} {span : Span}

theorem block_passes (hk : v.keys span.toPosition) (h : Passes v options C) :
    Passes v options fun s => Plan.block span (C s) :=
  .after (enterScope_stays hk) fun _ _ => .before h

theorem ifThen_passes (ht : test.KeepsTo v) (h : Passes v options C) :
    Passes v options fun s => ifThen test (C s) :=
  .seq (value_keepsTo ht) fun _ => .step trivial fun _ _ => .emit <| .before h

theorem ifThenElse_passes_left (ht : test.KeepsTo v) (h : Passes v options C) :
    Passes v options fun s => ifThenElse test (C s) other :=
  .seq (value_keepsTo ht) fun _ => .step trivial fun _ _ => .emit <| .before h

theorem ifThenElse_passes_right (ht : test.KeepsTo v) (hb : body.KeepsTo v) (h : Passes v options C) :
    Passes v options fun s => ifThenElse test body (C s) :=
  .seq (value_keepsTo ht) fun _ => .step trivial fun _ _ => .emit <| .seq hb fun _ => .step trivial fun _ _ =>
    .emit <| .emit <| .before h

theorem whileLoop_passes (ht : test.KeepsTo v) (h : Passes v options C) :
    Passes v options fun s => whileLoop test (C s) :=
  .step trivial fun _ _ => .emit <| .seq (value_keepsTo ht) fun _ => .step trivial fun _ _ => .emit <|
    .step trivial fun _ _ => .before h

theorem doWhile_passes (h : Passes v options C) : Passes v options fun s => doWhile (C s) test :=
  .step trivial fun _ _ => .emit <| .step trivial fun _ _ => .before h

theorem forLoop_passes_first {test : Option (Plan Operand)} {hasStep : Bool} {step : Plan Unit}
    (hk : v.keys span.toPosition) (h : Passes v options C) :
    Passes v options fun s => forLoop span (C s) test hasStep step body :=
  .after (enterScope_stays hk) fun _ _ => .before h

variable {lead : Plan Unit} {tests : Option (Plan Operand)} {hasStep : Bool}

theorem forLoop_passes_body {step : Plan Unit} (hk : v.keys span.toPosition) (hl : lead.KeepsTo v)
    (ht : ∀ t ∈ tests, t.KeepsTo v) (h : Passes v options C) :
    Passes v options fun s => forLoop span lead tests hasStep step (C s) :=
  .after (enterScope_stays hk) fun _ _ => .seq hl fun _ => .step trivial fun _ _ => .emit <|
    .seq (loopTest_keepsTo ht) fun _ => .step trivial fun _ _ => .before h

theorem forLoop_passes_step (hk : v.keys span.toPosition) (hl : lead.KeepsTo v)
    (ht : ∀ t ∈ tests, t.KeepsTo v) (hb : body.KeepsTo v) (h : Passes v options C) :
    Passes v options fun s => forLoop span lead tests hasStep (C s) body :=
  .after (enterScope_stays hk) fun _ _ => .seq hl fun _ => .step trivial fun _ _ => .emit <|
    .seq (loopTest_keepsTo ht) fun _ => .step trivial fun _ _ => .seq hb fun _ => .step trivial fun _ _ =>
    .seq (placeLabel_keepsTo _) fun _ => .before h

theorem indexLoop_passes {base bound : Operand} {item : String} {itemSpan : Span} (hn : v.names item)
    (h : Passes v options C) :
    Passes v options fun s => indexLoop options base bound item itemSpan (C s) :=
  .seq (copyToTemp_keepsTo _) fun _ => .seq (copyToTemp_keepsTo _) fun _ => .seq (bindLocal_keepsTo hn) fun _ =>
    .step trivial fun _ _ => .emit <| .step trivial fun _ _ => .emit <| .step trivial fun _ _ => .emit <|
    .step trivial fun _ _ => .emit <| .emit <| .step trivial fun _ _ => .before h

theorem foreachLoop_passes {e : Expr} {item : String} {itemSpan : Span} (hn : ∀ name, v.names name)
    (hk : v.keys span.toPosition) (h : Passes v options C) :
    Passes v options fun s => foreachLoop options span e item itemSpan (C s) :=
  .after (enterScope_stays hk) fun _ _ => .seq (value_keepsTo (e.headerPlan_keepsTo_all hn)) fun _ =>
    .seq (loopBound_keepsTo (fun u _ => hn u.1) _) fun _ => .before (indexLoop_passes (hn item) h)

theorem caseBody_passes (l : Label) (isEmpty : Bool) (h : Passes v options C) :
    Passes v options fun s => caseBody options l isEmpty (C s) := .emit <| .before h

theorem caseTests_stays (subject : Operand) (cases : List Case) (hn : ∀ name, v.names name) :
    (caseTests options subject cases).Stays v fun labels => labels.length = cases.length := by
  induction cases with
  | nil => exact .pure rfl
  | cons k rest ih =>
    exact .seq (value_keepsTo (k.value.headerPlan_keepsTo_all hn)) fun _ => .ask trivial fun _ _ => .emit <|
      ih.bind fun labels hl => .pure (by simp [hl])

section Switch

variable {subject : Plan Operand} {cases : List Case} {bodies : List Label → Plan Unit}
  {default : Option (Plan Unit)} {F : List Label → Stmt → Plan Unit}

theorem switch_passes_case (hn : ∀ name, v.names name) (hs : subject.KeepsTo v)
    (h : ∀ labels, labels.length = cases.length → Passes v options (F labels)) :
    Passes v options fun s => switch options subject cases (fun labels => F labels s) default := by
  refine .seq (value_keepsTo hs) fun x => .seq (ensureTemp_keepsTo x) fun x =>
    .after (caseTests_stays x cases hn) fun labels hl => .step trivial fun _ _ => ?_
  cases default with
  | none => exact .seq gotoBreak_keepsTo fun _ => .before (h labels hl)
  | some body => exact .step trivial fun _ _ => .emit <| .before (h labels hl)

theorem switch_passes_default (hn : ∀ name, v.names name) (hs : subject.KeepsTo v)
    (hb : ∀ labels, (bodies labels).KeepsTo v) (h : Passes v options C) :
    Passes v options fun s => switch options subject cases bodies (some (C s)) :=
  .seq (value_keepsTo hs) fun x => .seq (ensureTemp_keepsTo x) fun x =>
    .seq (caseTests_keepsTo x cases hn) fun labels => .step trivial fun _ _ => .step trivial fun _ _ => .emit <|
    .seq (hb labels) fun _ => .emit <| .before h

theorem caseTests_congr {cases' : List Case} (x : Operand)
    (h : cases.map (·.value) = cases'.map (·.value)) :
    caseTests options x cases = caseTests options x cases' := by
  induction cases generalizing cases' with
  | nil =>
    obtain rfl := List.map_eq_nil_iff.1 h.symm
    rfl
  | cons k rest ih =>
    obtain ⟨k', rest', rfl, hk, hrest⟩ := List.map_eq_cons_iff.1 h.symm
    rw [caseTests, caseTests, hk, ih hrest.symm]

theorem switch_congr {cases' : List Case} (h : cases.map (·.value) = cases'.map (·.value)) :
    switch options subject cases bodies default = switch options subject cases' bodies default := by
  simp only [switch, caseTests_congr _ h]

end Switch

theorem tryCatch_passes_body {caught : String} {handlerSpan : Span} (h : Passes v options C) :
    Passes v options fun s => tryCatch options (C s) caught span handlerSpan body :=
  .step trivial fun _ _ => .emit <| .before h

theorem tryCatch_passes_handler {caught : String} {handlerSpan : Span} (hk : v.keys handlerSpan.toPosition)
    (hn : v.names caught) (hb : body.KeepsTo v) (h : Passes v options C) :
    Passes v options fun s => tryCatch options body caught span handlerSpan (C s) :=
  .step trivial fun _ _ => .emit <| .seq hb fun _ => .emit <| .step trivial fun _ _ => .emit <| .emit <|
    .before <| block_passes hk <| .seq (bindLocal_keepsTo hn) fun _ => .emit h

theorem lookup_passes {name : String} {F : Option SymbolId → Stmt → Plan Unit} (hn : v.names name)
    (h : Passes v options (F none)) (k : ∀ id, v.ids id → Passes v options (F (some id))) :
    Passes v options fun s => of (.lookup name) >>= fun id? => F id? s :=
  .step (s := .lookup name) hn fun id? hid => by
    cases id? with
    | none => exact h
    | some id => exact k id (hid id rfl)

theorem atMembers_passes {members : Option Nat} (hm : ∀ i ∈ members, v.scopes i) (h : Passes v options C) :
    Passes v options fun s => atMembers members (C s) := by
  cases members with
  | none => exact h
  | some i => exact .step (s := .moveTo i) (hm i rfl) fun _ _ => h

theorem functionFrame_passes {name : String} {params : List Param} (hn : v.names name)
    (hl : ∀ name, v.locals name) (h : Passes v options C) :
    Passes v options fun s => functionFrame options name params span (C s) :=
  lookup_passes hn (.report _) fun id hid => .step (s := .symbol id) hid fun _ hx =>
    .step (s := .scope) trivial fun _ _ => .step trivial fun _ _ => .step trivial fun _ _ => .emit <|
    .before <| atMembers_passes hx <| .seq (.forM fun p _ => bindParam_keepsTo (hl p.name)) fun _ => h

theorem classFrame_passes {name : String} {parent : Option String} (hn : ∀ name, v.names name)
    (h : Passes v options C) : Passes v options fun s => classFrame name parent span (C s) :=
  lookup_passes (hn name) (.report _) fun id hid => .step (s := .symbol id) hid fun _ hx =>
    .seq (inherited_keepsTo hn) fun _ => .step (s := .scope) trivial fun _ _ => .step trivial fun _ _ =>
    .step trivial fun _ _ => .emit <| .seq (reserve_keepsTo _) fun _ => .before <| atMembers_passes hx h

end Forms

end Plan

section Layers

open Plan

variable {options : Options} {T T' : Table} {v : View T T'}

theorem planAll_append (xs ys : List Stmt) :
    planAll options (xs ++ ys) = planAll options xs >>= fun _ => planAll options ys := by
  induction xs with
  | nil => rw [List.nil_append, planAll, pure_bind]
  | cons s rest ih => simp only [List.cons_append, planAll, ih, bind_assoc]

variable (hn : ∀ name, v.names name) (hl : ∀ name, v.locals name)

include hn hl

theorem Gap.passes {g : Gap} (hk : ∀ key ∈ g.keys, v.keys key) :
    Passes v options fun s => planAll options (g.fill s) := by
  rw [keys, List.forall_mem_append] at hk
  simp only [fill, planAll_append, planAll]
  exact .seq (planBody_keepsTo hn hl hk.1) fun _ => .before .here

theorem Block.plan_keepsTo {b : Block} (hk : ∀ key ∈ b.keys, v.keys key) :
    (Plan.block b.span (b.plan options)).KeepsTo v := by
  obtain ⟨body, at_⟩ := b
  rw [Block.keys_eq, List.forall_mem_cons] at hk
  rw [Block.plan]
  exact block_keepsTo hk.1 (planBody_keepsTo hn hl hk.2)

theorem optionPlan_keepsTo {s : Option Stmt} (hk : ∀ key ∈ keysOption s, v.keys key) :
    (optionPlan options s).KeepsTo v := by
  cases s with
  | none =>
    rw [optionPlan]
    exact .pure trivial
  | some s =>
    rw [optionPlan]
    exact .begins (s.plan_keepsTo hn hl hk)

theorem caseBodies_keepsTo {cases : List Case} (hk : ∀ key ∈ keysCases cases, v.keys key)
    (labels : List Label) : (casePlans options cases labels).KeepsTo v := by
  rw [keysCases_eq, List.forall_mem_flatMap] at hk
  exact casePlans_keepsTo labels fun k hm => planBody_keepsTo hn hl (hk k hm)

theorem casePlans_passes {front back : List Case} {value : Expr} {g : Gap} {at_ : Span}
    (hf : ∀ key ∈ keysCases front, v.keys key) (hg : ∀ key ∈ g.keys, v.keys key) {labels : List Label}
    (hlen : labels.length = front.length + back.length + 1) :
    Passes v options fun s => casePlans options (front ++ ⟨value, g.fill s, at_⟩ :: back) labels := by
  induction front generalizing labels with
  | nil =>
    obtain ⟨l, labels, rfl⟩ := List.exists_cons_of_length_eq_add_one hlen
    have hne (s : Stmt) : (g.fill s).isEmpty = false := by simp [Gap.fill]
    simp only [List.nil_append, casePlans, hne]
    exact .before <| caseBody_passes l _ <| Gap.passes hn hl hg
  | cons k rest ih =>
    obtain ⟨value, body, span⟩ := k
    obtain ⟨l, labels, rfl⟩ := List.exists_cons_of_length_eq_add_one hlen
    rw [keysCases, Case.keys, List.forall_mem_append] at hf
    simp only [List.cons_append, casePlans]
    exact .seq (caseBody_keepsTo l _ (planBody_keepsTo hn hl hf.1)) fun _ => ih hf.2 (by simp at hlen; omega)

theorem memberPlans_passes {front back : List Member} {F : Stmt → Member}
    (hf : ∀ key ∈ keysMembers front, v.keys key) (h : Passes v options fun s => (F s).plan options) :
    Passes v options fun s => memberPlans options (front ++ F s :: back) := by
  induction front with
  | nil =>
    simp only [List.nil_append, memberPlans]
    exact .before h
  | cons m rest ih =>
    rw [keysMembers, List.forall_mem_append] at hf
    have hm : (m.plan options).KeepsTo v := Member.plan_keepsTo hn hl fun f he => by
      have hf := hf.1
      rw [he, Member.keys, Function.forall_keys] at hf
      exact planBody_keepsTo hn hl hf.2
    simp only [List.cons_append, memberPlans]
    exact .seq hm fun _ => ih hf.2

theorem Layer.passes {layer : Layer} (hk : ∀ key ∈ layer.keys, v.keys key) :
    Passes v options fun s => (layer.fill s).plan options := by
  have value (e : Expr) : (e.headerPlan options).KeepsTo v := e.headerPlan_keepsTo_all hn
  have test (e : Option Expr) : ∀ t ∈ e.map (·.headerPlan options), t.KeepsTo v := by
    intro t ht
    obtain ⟨e, -, rfl⟩ := Option.map_eq_some_iff.1 ht
    exact value e
  cases layer with
  | block g at_ =>
    rw [keys, List.forall_mem_cons] at hk
    simp only [fill, Stmt.plan, Block.plan]
    exact block_passes hk.1 (Gap.passes hn hl hk.2)
  | yes e g at_ other span =>
    rw [keys, List.forall_mem_append, List.forall_mem_cons] at hk
    have hbody : Passes v options fun s => Plan.block at_ (planAll options (g.fill s)) :=
      block_passes hk.1.1 (Gap.passes hn hl hk.1.2)
    cases other with
    | none =>
      simp only [fill, Stmt.plan, Block.plan]
      exact ifThen_passes (value e) hbody
    | some other =>
      simp only [fill, Stmt.plan, Block.plan]
      exact ifThenElse_passes_left (value e) hbody
  | no e body g at_ span =>
    rw [keys, List.forall_mem_append, List.forall_mem_cons] at hk
    simp only [fill, Stmt.plan, Block.plan]
    exact ifThenElse_passes_right (value e) (Block.plan_keepsTo hn hl hk.1)
      (block_passes hk.2.1 (Gap.passes hn hl hk.2.2))
  | loop e g at_ span =>
    rw [keys, List.forall_mem_cons] at hk
    simp only [fill, Stmt.plan, Block.plan]
    exact whileLoop_passes (value e) (block_passes hk.1 (Gap.passes hn hl hk.2))
  | doWhile g at_ e span =>
    rw [keys, List.forall_mem_cons] at hk
    simp only [fill, Stmt.plan, Block.plan]
    exact doWhile_passes (block_passes hk.1 (Gap.passes hn hl hk.2))
  | first e next body span =>
    rw [keys, List.forall_mem_append, Block.keys_eq, List.forall_mem_cons] at hk
    simp only [fill, Stmt.plan, optionPlan]
    exact forLoop_passes_first hk.2.1 .here
  | step lead e body span =>
    rw [keys, List.forall_mem_append, Block.keys_eq, List.forall_mem_cons] at hk
    obtain ⟨body, at_⟩ := body
    simp only [fill, Stmt.plan, optionPlan, Block.plan]
    exact forLoop_passes_step hk.2.1 (optionPlan_keepsTo hn hl hk.1) (test e)
      (planBody_keepsTo hn hl hk.2.2) .here
  | pass lead e next g at_ span =>
    rw [keys, List.forall_mem_append, List.forall_mem_append, List.forall_mem_cons] at hk
    simp only [fill, Stmt.plan, Block.plan]
    exact forLoop_passes_body hk.2.1 (optionPlan_keepsTo hn hl hk.1.1) (test e)
      (Gap.passes hn hl hk.2.2)
  | foreach item e g at_ span =>
    rw [keys, List.forall_mem_cons] at hk
    simp only [fill, Stmt.plan, Block.plan]
    exact foreachLoop_passes hn hk.1 (Gap.passes hn hl hk.2)
  | case subject front x g at_ back last span =>
    rw [keys, List.forall_mem_append, List.forall_mem_append, List.forall_mem_append] at hk
    -- the tests of a switch come in front of all bodies and do not depend on what fills the hole
    have hvalues (s : Stmt) : (front ++ (⟨x, g.fill s, at_⟩ : Case) :: back).map (·.value) =
        (front ++ (⟨x, [], at_⟩ : Case) :: back).map (·.value) := by simp
    simp only [fill, Stmt.plan_switch, switch_congr (hvalues _)]
    exact switch_passes_case hn (value subject) fun labels hlen =>
      casePlans_passes hn hl hk.1.1.1 hk.1.1.2 (by simp at hlen; omega)
  | default subject cases g span =>
    rw [keys, List.forall_mem_append] at hk
    simp only [fill, Stmt.plan_switch, Option.map_some]
    exact switch_passes_default hn (value subject) (caseBodies_keepsTo hn hl hk.1) (Gap.passes hn hl hk.2)
  | attempt g at_ caught rescue span =>
    rw [keys, List.forall_mem_append, List.forall_mem_cons] at hk
    simp only [fill, Stmt.plan, Block.plan]
    exact tryCatch_passes_body (block_passes hk.1.1 (Gap.passes hn hl hk.1.2))
  | handler body caught g at_ span =>
    rw [keys, List.forall_mem_append, List.forall_mem_cons] at hk
    simp only [fill, Stmt.plan, Block.plan]
    exact tryCatch_passes_handler hk.2.1 (hn caught) (Block.plan_keepsTo hn hl hk.1)
      (Gap.passes hn hl hk.2.2)
  | function name params result g at_ span =>
    rw [keys, List.forall_mem_cons] at hk
    simp only [fill, Stmt.plan, Function.plan, Block.plan]
    exact functionFrame_passes (hn name) hl (Gap.passes hn hl hk.2)
  | method owner parent front name params result g at_ span back whole =>
    rw [keys, List.forall_mem_append, List.forall_mem_append, List.forall_mem_cons,
      List.forall_mem_cons] at hk
    simp only [fill, Stmt.plan, Class.plan]
    refine classFrame_passes hn <| memberPlans_passes hn hl hk.1.1.2 ?_
    simp only [Member.plan, Function.plan, Block.plan]
    exact .begins <| functionFrame_passes (hn name) hl (Gap.passes hn hl hk.1.2.2)

theorem Hole.inside_passes {layers : List Layer} (hk : ∀ key ∈ layers.flatMap Layer.keys, v.keys key) :
    Passes v options fun s => ofStmt options (inside layers s) := by
  induction layers with
  | nil => exact .here
  | cons layer rest ih =>
    rw [List.flatMap_cons, List.forall_mem_append] at hk
    exact .comp (C := fun s => ofStmt options (layer.fill s)) (F := inside rest)
      (.begins (Layer.passes hn hl hk.1)) (ih hk.2)

theorem Hole.passes {h : Hole} (hk : ∀ key ∈ h.keys, v.keys key) :
    Passes v options fun s => planAll options (h.fill s).statements := by
  rw [keys, List.forall_mem_append] at hk
  exact .comp (C := fun s => planAll options (h.top.fill s)) (F := inside h.layers) (Gap.passes hn hl hk.1)
    (inside_passes hn hl hk.2)

end Layers

end ThreeAddress
