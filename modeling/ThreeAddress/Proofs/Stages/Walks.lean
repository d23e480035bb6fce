import ThreeAddress.Proofs.Plans.Program
import ThreeAddress.Proofs.Stages.Evaluations
import ThreeAddress.Proofs.Stages.Trails

namespace ThreeAddress

open Lowering Plan

def Part.stage (options : Options) : Part × FullState → Stage
  | (.stmt s, d) => .stmt (d.context options) s
  | (.header e, d) => .header (d.context options) e

theorem Part.stage_eq_stmt {options : Options} {x : Part × FullState} {c : Context} {r : Stmt} :
    Part.stage options x = .stmt c r ↔ ∃ σ, x = (.stmt r, σ) ∧ σ.context options = c := by
  obtain ⟨part, σ⟩ := x
  cases part <;> simp [Part.stage, and_comm]

namespace Table

variable {t t' : Table} {scope : Nat} {name : String} {id : SymbolId} {x : Symbol}

theorem visible?_of_lookup (ho : t'.outline = t.outline) (hl : t'.lookup scope name = .ok (some id))
    (hx : t'.symbol id = .ok x) :
    ∃ y, t.visible? scope name = some y ∧ y.toDeclaration = x.toDeclaration := by
  rw [← lookup_outline, ho, lookup_outline] at hl
  obtain ⟨y, hy, _⟩ := exists_symbol_of_lookup hl
  refine ⟨y, by simp [visible?, hl, hy, Except.toOption], ?_⟩
  have hxy : x.outline = y.outline := symbol_congr ho hx hy
  exact congrArg (fun s => s.toDeclaration) hxy.symm

theorem visible?_eq_none (ho : t'.outline = t.outline) (hl : t'.lookup scope name = .ok none) :
    t.visible? scope name = none := by
  rw [← lookup_outline, ho, lookup_outline] at hl
  simp [visible?, hl]

end Table

namespace Plan

namespace IsGlue

variable {plan : Plan α} {f : α → Plan β}

theorem pure (a : α) : (Pure.pure a : Plan α).IsGlue := trivial

theorem bind (h : plan.IsGlue) (k : ∀ a, (f a).IsGlue) : (plan >>= f).IsGlue := by
  rw [bind_eq]
  induction plan with
  | done a => exact k a
  | step s next ih => exact ⟨h.1, fun b => ih b (h.2 b)⟩

theorem of {s : FullState.Step} (hs : s.IsGlue) : (Plan.of s).IsGlue := ⟨hs, fun _ => trivial⟩

theorem ask {s : FullState.Step} {f : s.Answer → Plan β} (hs : s.IsGlue) (k : ∀ b, (f b).IsGlue) :
    (Plan.of s >>= f).IsGlue := (of hs).bind k

theorem emit {i : Instruction} (hi : ¬i.storesElement) : (Plan.emit i).IsGlue := of hi

theorem forM {f : γ → Plan Unit} (xs : List γ) (h : ∀ x, (f x).IsGlue) : (xs.forM f).IsGlue := by
  induction xs with
  | nil => exact pure ()
  | cons x rest ih => exact (h x).bind fun _ => ih

end IsGlue

section Glue

variable {options : Options}

theorem copyToTemp_isGlue (v : Operand) : (copyToTemp v).IsGlue :=
  IsGlue.ask trivial fun _ => (IsGlue.emit (by simp [Instruction.storesElement])).bind fun _ => .pure _

theorem ensureTemp_isGlue (v : Operand) : (ensureTemp v).IsGlue := by
  rw [ensureTemp]
  split
  · exact .pure v
  · exact copyToTemp_isGlue v

theorem placeLabel_isGlue (l : Option Label) : (placeLabel l).IsGlue := by
  cases l with
  | none => exact .pure ()
  | some l => exact .emit (by simp [Instruction.storesElement])

theorem gotoBreak_isGlue : gotoBreak.IsGlue :=
  IsGlue.ask trivial fun l? => by
    cases l? with
    | none => exact .pure ()
    | some l => exact .emit (by simp [Instruction.storesElement])

theorem jump_isGlue {target : Plan (Option Label)} (h : target.IsGlue) (problem : Problem) :
    (jump target problem).IsGlue := by
  refine h.bind fun l? => ?_
  cases l? with
  | none => exact .of trivial
  | some l => exact .emit (by simp [Instruction.storesElement])

theorem bindSymbol_isGlue (id : SymbolId) :
    (valueSize options id >>= fun size => bindStorage id size).IsGlue :=
  (IsGlue.ask (s := .symbol id) trivial fun _ => .pure _).bind fun _ =>
    IsGlue.ask trivial fun offset => .of (s := .place id offset _) trivial

theorem bindLocal_isGlue (name : String) (span : Span) : (bindLocal options name span).IsGlue :=
  IsGlue.ask (s := .lookup name) trivial fun id? => by
    cases id? with
    | none => exact .of trivial
    | some id => exact bindSymbol_isGlue id

theorem bindParam_isGlue (p : Param) : (bindParam options p).IsGlue :=
  IsGlue.ask (s := .lookupLocal p.name) trivial fun id? => by
    cases id? with
    | none => exact .of trivial
    | some id => exact bindSymbol_isGlue id

theorem loopBound_isGlue (e : Expr) (v : Operand) : (loopBound e v).IsGlue := by
  cases e with
  | ident name span =>
    refine IsGlue.ask (s := .lookup name) trivial fun id? => ?_
    cases id? with
    | none => exact .pure _
    | some id => exact IsGlue.ask (s := .symbol id) trivial fun _ => .pure _
  | _ => exact .pure _

theorem inherited_isGlue (parent : Option String) : (inherited parent).IsGlue := by
  cases parent with
  | none => exact .pure 0
  | some parent =>
    refine IsGlue.ask (s := .lookup parent) trivial fun id? => ?_
    cases id? with
    | none => exact .pure 0
    | some id => exact IsGlue.ask (s := .symbol id) trivial fun _ => .pure _

theorem reserve_isGlue (size : Nat) : (reserve size).IsGlue := by
  rw [reserve]
  split
  · exact IsGlue.ask trivial fun _ => .pure ()
  · exact .pure ()

end Glue

variable {options : Options} {t : Table} {p p₁ p' : Setting}

/-- Every run of the plan from the setting `p` is a walk along the stages, and ends in `p'`. -/
def Goes (options : Options) (t : Table) (p p' : Setting) (stages : List Stage) (plan : Plan α) : Prop :=
  ∀ ⦃d a d'⦄, plan.run d = .ok (a, d') → d.toSetting = p → d.table.outline = t.outline →
    d'.toSetting = p' ∧ Trail options d' d (plan.course d) d' ∧
      (plan.course d).map (Part.stage options) = stages

/-- From every setting the plan walks along the stages that stand in its context, and puts the setting
back. -/
def Walks (options : Options) (t : Table) (stages : Context → List Stage) (plan : Plan Unit) : Prop :=
  ∀ p : Setting, plan.Goes options t p p (stages (p.context options))

namespace Goes

variable {stages stages' : List Stage} {plan : Plan α} {f : α → Plan β}

theorem of_isGlue (h : plan.IsGlue) : plan.Goes options t p p [] := by
  intro d a d' hr hp _
  obtain ⟨hs, hset, hc⟩ := h.run hr
  exact ⟨hset.trans hp, hc ▸ .rest hs, by rw [hc]; rfl⟩

theorem bind_of {P : α → Prop} (h : plan.Goes options t p p₁ stages)
    (ha : ∀ ⦃d a d'⦄, plan.run d = .ok (a, d') → P a)
    (k : ∀ a, P a → (f a).Goes options t p₁ p' stages') :
    (plan >>= f).Goes options t p p' (stages ++ stages') := by
  intro d b d' hr hp ho
  obtain ⟨a, d₁, h₁, hr⟩ := run_bind_eq_ok.1 hr
  obtain ⟨hp₁, ht, hs⟩ := h h₁ hp ho
  obtain ⟨hp', ht', hs'⟩ := k a (ha h₁) hr hp₁ (ht.comes.outline.trans ho)
  rw [course_bind h₁, List.map_append, hs, hs']
  exact ⟨hp', (ht.mono ht'.comes).append ht', rfl⟩

theorem bind (h : plan.Goes options t p p₁ stages) (k : ∀ a, (f a).Goes options t p₁ p' stages') :
    (plan >>= f).Goes options t p p' (stages ++ stages') :=
  h.bind_of (P := fun _ => True) (fun _ _ _ _ => trivial) fun a _ => k a

theorem after (h : plan.IsGlue) (k : ∀ a, (f a).Goes options t p p' stages) :
    (plan >>= f).Goes options t p p' stages := (of_isGlue h).bind k

theorem before (h : plan.Goes options t p p₁ stages) (k : ∀ a, (f a).Goes options t p₁ p' []) :
    (plan >>= f).Goes options t p p' stages := by
  simpa using h.bind k

theorem emit {i : Instruction} {plan : Plan β} (hi : ¬i.storesElement) (h : plan.Goes options t p p' stages) :
    (Plan.emit i >>= fun _ => plan).Goes options t p p' stages := after (.emit hi) fun _ => h

theorem ask {s : FullState.Step} {f : s.Answer → Plan β} (hs : s.IsGlue)
    (k : ∀ b, (f b).Goes options t p p' stages) : (of s >>= f).Goes options t p p' stages := after (.of hs) k

theorem move {s : FullState.Step} {b : s.Answer} {f : s.Answer → Plan β}
    (hs : ∀ d : FullState, d.toSetting = p → d.step s = .ok (b, { d with toSetting := p₁ }))
    (hn : s.part? = none) (k : (f b).Goes options t p₁ p' stages) :
    (of s >>= f).Goes options t p p' stages := by
  intro d a d' hr hp ho
  have h₁ : (of s).run d = .ok (b, { d with toSetting := p₁ }) := by
    rw [of, run, hs d hp]
    rfl
  obtain ⟨_, _, hof, hr⟩ := run_bind_eq_ok.1 hr
  cases h₁.symm.trans hof
  obtain ⟨hp', ht, hstages⟩ := k hr rfl ho
  have hc : (of s).course d = [] := by simp [of, course, marks, hn, hs d hp]
  rw [course_bind h₁, hc, List.nil_append]
  have hskips : d.Skips { d with toSetting := p₁ } := .same rfl (List.prefix_refl _) rfl
  exact ⟨hp', ht.lead hskips, hstages⟩

theorem moveTo {scope : Nat} {plan : Plan β} (h : plan.Goes options t { p with scope } p' stages) :
    (of (.moveTo scope) >>= fun _ => plan).Goes options t p p' stages :=
  move (s := .moveTo scope) (fun _ hp => by rw [← hp]; rfl) rfl h

theorem back {scope : Nat} : (of (.moveTo scope)).Goes options t p { p with scope } [] :=
  move (s := .moveTo scope) (f := fun _ => pure ()) (fun _ hp => by rw [← hp]; rfl) rfl (of_isGlue (.pure ()))

theorem scope {f : Nat → Plan β} (h : (f p.scope).Goes options t p p' stages) :
    (of .scope >>= f).Goes options t p p' stages :=
  move (s := .scope) (fun _ hp => by rw [← hp]; rfl) rfl h

theorem enterFunction {name : String} {f : Option String → Plan β}
    (h : (f p.function).Goes options t { p with function := some name } p' stages) :
    (of (.enterFunction name) >>= f).Goes options t p p' stages :=
  move (s := .enterFunction name) (fun _ hp => by rw [← hp]; rfl) rfl h

theorem exitFunction {outer : Option String} :
    (of (.exitFunction outer)).Goes options t p { p with function := outer } [] :=
  move (s := .exitFunction outer) (f := fun _ => pure ()) (fun _ hp => by rw [← hp]; rfl) rfl
    (of_isGlue (.pure ()))

theorem enterClass {name : String} {f : Option String → Plan β}
    (h : (f p.className).Goes options t { p with className := some name } p' stages) :
    (of (.enterClass name) >>= f).Goes options t p p' stages :=
  move (s := .enterClass name) (fun _ hp => by rw [← hp]; rfl) rfl h

theorem exitClass {outer : Option String} :
    (of (.exitClass outer)).Goes options t p { p with className := outer } [] :=
  move (s := .exitClass outer) (f := fun _ => pure ()) (fun _ hp => by rw [← hp]; rfl) rfl
    (of_isGlue (.pure ()))

theorem atMembers {members : Option Nat} {body : Plan Unit}
    (h : body.Goes options t { p with scope := members.getD p.scope } p' stages) :
    (Plan.atMembers members body).Goes options t p p' stages := by
  cases members with
  | none => exact h
  | some scope => exact moveTo h

theorem enterScope {span : Span} {f : Nat → Plan β}
    (h : (f p.scope).Goes options t { p with scope := t.opened p.scope span } p' stages) :
    (Plan.enterScope span >>= f).Goes options t p p' stages := by
  intro d a d' hr hp ho
  obtain ⟨_, _, h₁, hr⟩ := run_bind_eq_ok.1 hr
  cases (enterScope_run span d).symm.trans h₁
  subst hp
  have hscope : (d.table.scopeFor span.toPosition).getD d.scope = t.opened d.scope span := by
    rw [Table.opened, ← Table.scopeFor_outline, ho, Table.scopeFor_outline]
  rw [hscope] at hr
  obtain ⟨hp', ht, hs⟩ := h hr rfl ho
  have hc : (Plan.enterScope span).course d = [] := by
    have hask : (of .scope).run d = .ok (d.scope, d) := rfl
    have hfind : (of (.scopeFor span.toPosition)).run d = .ok (d.table.scopeFor span.toPosition, d) := rfl
    rw [Plan.enterScope, course_bind hask, course_bind hfind]
    cases d.table.scopeFor span.toPosition <;> rfl
  rw [course_bind h₁, hc, List.nil_append, hscope]
  have hskips : d.Skips { d with scope := t.opened d.scope span } := .same rfl (List.prefix_refl _) rfl
  exact ⟨hp', ht.lead hskips, hs⟩

theorem visible {name : String} {f : Option SymbolId → Plan β} {k : SymbolId → Symbol → Plan β}
    (hf : ∀ id, f (some id) = of (.symbol id) >>= k id)
    (hn : t.visible? p.scope name = none → (f none).Goes options t p p' stages)
    (hs : ∀ id x y, t.visible? p.scope name = some y → y.members = x.members →
      (k id x).Goes options t p p' stages) :
    (of (.lookup name) >>= f).Goes options t p p' stages := by
  intro d a d' hr hp ho
  obtain ⟨id?, d₁, hl, hr'⟩ := run_bind_eq_ok.1 hr
  obtain ⟨hskip, hset, hc⟩ := (IsGlue.of (s := .lookup name) trivial).run hl
  have hlook : d.table.lookup p.scope name = .ok id? ∧ d₁ = d := by
    rw [← hp]
    change (d.ask (d.table.lookup d.scope name) >>= fun x => Except.ok x) = _ at hl
    cases hd : d.table.lookup d.scope name with
    | error e => simp [hd, FullState.ask, Bind.bind, Except.bind] at hl
    | ok found =>
      rw [hd] at hl
      cases hl
      exact ⟨rfl, rfl⟩
  obtain ⟨hlook, rfl⟩ := hlook
  rw [course_bind hl, hc, List.nil_append]
  cases id? with
  | none => exact hn (Table.visible?_eq_none ho hlook) hr' hp ho
  | some id =>
    rw [hf] at hr' ⊢
    obtain ⟨x, d₂, hx, hr''⟩ := run_bind_eq_ok.1 hr'
    obtain ⟨_, _, hc'⟩ := (IsGlue.of (s := .symbol id) trivial).run hx
    have hsym : d₁.table.symbol id = .ok x ∧ d₂ = d₁ := by
      change (d₁.ask (d₁.table.symbol id) >>= fun x => Except.ok x) = _ at hx
      cases hd : d₁.table.symbol id with
      | error e => simp [hd, FullState.ask, Bind.bind, Except.bind] at hx
      | ok y =>
        rw [hd] at hx
        cases hx
        exact ⟨rfl, rfl⟩
    obtain ⟨hsym, rfl⟩ := hsym
    obtain ⟨y, hy, hyx⟩ := Table.visible?_of_lookup ho hlook hsym
    rw [course_bind hx, hc', List.nil_append]
    exact hs id x y hy (congrArg Declaration.members hyx) hr'' hp ho

theorem header (e : Expr) :
    (value (e.headerPlan options)).Goes options t p p [.header (p.context options) e] := by
  have hplan : (e.headerPlan options).Goes options t { p with wanted := true } { p with wanted := true }
      [.header (p.context options) e] := by
    intro d v d' hr hp _
    have hr : (e.plan options).run d = .ok (v, d') := hr
    obtain ⟨code, _, hset, _⟩ := e.runs_of_plan hr
    have hc : (e.headerPlan options).course d = [(.header e, d)] := by
      change (.header e, d) :: (e.plan options).course d = _
      rw [(e.plan_evaluates hr rfl).2.1]
    rw [hc]
    refine ⟨hset.trans hp, .header (.refl d) (by rw [hp]) hr (.refl d') (.rest (.refl d')), ?_⟩
    simp [Part.stage, Setting.context, hp]
  refine move (s := .want true) (b := p.wanted) (fun _ hp => by rw [← hp]; rfl) rfl <| hplan.before fun v => ?_
  refine move (s := .want p.wanted) (b := true) (fun d hp => ?_) rfl (of_isGlue (.pure v))
  rw [show d = { d with toSetting := { p with wanted := true } } by rw [← hp]]
  rfl

theorem stmt {s : Stmt} (h : ¬s.isPlain →
    (s.plan options).Goes options t p p (s.stages t (p.context options))) :
    (begins (.stmt s) (s.plan options)).Goes options t p p
      (.stmt (p.context options) s :: s.stages t (p.context options)) := by
  intro d u d' hr hp ho
  have hr : (s.plan options).run d = .ok ((), d') := hr
  have hcontext : d.context options = p.context options := by rw [hp]
  change _ ∧ Trail options d' d ((.stmt s, d) :: (s.plan options).course d) d' ∧
    Part.stage options (.stmt s, d) :: ((s.plan options).course d).map (Part.stage options) = _
  rw [Part.stage, hcontext]
  by_cases hi : s.isPlain
  · obtain ⟨code, _, hset, _⟩ := s.runs_of_plan hr
    rw [(Stmt.plan_evaluates hi hr rfl).2.1, Stmt.stages_of_isPlain hi]
    exact ⟨hset.trans hp, .plain (.refl d) hi hr (.refl d') (.rest (.refl d')), rfl⟩
  · obtain ⟨hp', ht, hs⟩ := h hi hr hp ho
    rw [hs]
    exact ⟨hp', .around (.refl d) hi hr (.refl d') ht, rfl⟩

end Goes

section Forms

variable {body other first step : Plan Unit} {stages stages' stages'' : Context → List Stage} {e : Expr}
  {inner inner' : List Stage}

theorem block_walks (h : Walks options t stages body) (span : Span) :
    Walks options t (fun c => stages (c.within t span)) (block span body) := fun p =>
  .enterScope <| (h { p with scope := t.opened p.scope span }).before fun _ => .back

theorem ifThen_walks (hb : Walks options t stages body) :
    Walks options t (fun c => .header c e :: stages c) (ifThen (e.headerPlan options) body) := fun p =>
  (Goes.header e).bind fun _ => .ask trivial fun _ => .emit (by simp) <| (hb p).before fun _ =>
    .of_isGlue (.emit (by simp))

theorem ifThenElse_walks (hb : Walks options t stages body) (hn : Walks options t stages' other) :
    Walks options t (fun c => .header c e :: (stages c ++ stages' c))
      (ifThenElse (e.headerPlan options) body other) := fun p =>
  (Goes.header e).bind fun _ => .ask trivial fun _ => .emit (by simp) <| (hb p).bind fun _ =>
    .ask trivial fun _ => .emit (by simp) <| .emit (by simp) <| (hn p).before fun _ =>
      .of_isGlue (.emit (by simp))

theorem whileLoop_walks (hb : Walks options t stages body) :
    Walks options t (fun c => .header c e :: stages c) (whileLoop (e.headerPlan options) body) := fun p =>
  .ask trivial fun _ => .emit (by simp) <| (Goes.header e).bind fun _ => .ask trivial fun _ =>
    .emit (by simp) <| .ask trivial fun _ => (hb p).before fun _ =>
      .emit (by simp) <| .ask trivial fun _ => .of_isGlue (.emit (by simp))

theorem doWhile_walks (hb : Walks options t stages body) :
    Walks options t (fun c => stages c ++ [.header c e]) (doWhile body (e.headerPlan options)) := fun p =>
  .ask trivial fun _ => .emit (by simp) <| .ask trivial fun _ => (hb p).bind fun _ =>
    (Goes.header e).before fun _ => .emit (by simp) <| .ask trivial fun _ =>
      .of_isGlue (placeLabel_isGlue _)

theorem loopTest_goes (test : Option Expr) :
    (loopTest (test.map (·.headerPlan options))).Goes options t p p
      (test.toList.map (.header (p.context options))) := by
  cases test with
  | none => exact .of_isGlue (.pure none)
  | some e => exact (Goes.header e).before fun _ => .ask trivial fun _ => .emit (by simp) (.of_isGlue (.pure _))

theorem forLoop_walks {test : Option Expr} {hasStep : Bool} (span : Span)
    (hf : Walks options t stages first) (hb : Walks options t stages' body)
    (hs : Walks options t stages'' step) :
    Walks options t (fun c =>
        stages (c.within t span) ++ (test.toList.map (.header (c.within t span)) ++
          (stages' (c.within t span) ++ stages'' (c.within t span))))
      (forLoop span first (test.map (·.headerPlan options)) hasStep step body) := fun p => by
  let q : Setting := { p with scope := t.opened p.scope span }
  refine .enterScope <| (hf q).bind fun _ => .ask trivial fun _ => .emit (by simp) <|
    (loopTest_goes test).bind fun _ => .ask trivial fun _ => (hb q).bind fun _ => .ask trivial fun _ => ?_
  -- a step stands behind the mark that `continue` leads to
  exact .after (placeLabel_isGlue _) fun _ => (hs q).before fun _ => .emit (by simp) <|
    .after (placeLabel_isGlue _) fun _ => .back

theorem indexLoop_goes {base bound : Operand} {item : String} {span : Span}
    (hb : body.Goes options t p p inner) :
    (indexLoop options base bound item span body).Goes options t p p inner :=
  .after (copyToTemp_isGlue _) fun _ => .after (copyToTemp_isGlue _) fun _ =>
    .after (bindLocal_isGlue ..) fun _ => .ask trivial fun _ => .emit (by simp) <| .ask trivial fun _ =>
    .emit (by simp) <| .ask trivial fun _ => .emit (by simp) <| .ask trivial fun _ =>
    .emit (by simp) <| .emit (by simp) <| .ask trivial fun _ => hb.before fun _ => .ask trivial fun _ =>
    .after (placeLabel_isGlue _) fun _ => .emit (by simp) <| .emit (by simp) <| .of_isGlue (.emit (by simp))

theorem foreachLoop_walks {span itemSpan : Span} {item : String} (hb : Walks options t stages body) :
    Walks options t (fun c => .header (c.within t span) e :: stages (c.within t span))
      (foreachLoop options span e item itemSpan body) := fun p =>
  .enterScope <| (Goes.header e).bind fun _ => .after (loopBound_isGlue ..) fun _ =>
    (indexLoop_goes (hb { p with scope := t.opened p.scope span })).before fun _ => .back

theorem caseTests_goes {subject : Operand} (cases : List Case) :
    (caseTests options subject cases).Goes options t p p
      (cases.map (.header (p.context options) ·.value)) := by
  induction cases with
  | nil => exact .of_isGlue (.pure [])
  | cons k rest ih =>
    exact (Goes.header k.value).bind fun _ => .ask trivial fun _ => .emit (by simp) <|
      ih.before fun _ => .of_isGlue (.pure _)

theorem caseTests_length {subject : Operand} {cases : List Case} {d d' : FullState} {labels : List Label}
    (h : (caseTests options subject cases).run d = .ok (labels, d')) : labels.length = cases.length := by
  obtain ⟨x, hr, rfl, _⟩ := (caseTests_does subject cases).runs h rfl
  exact Lower.length_caseTests hr

theorem caseBody_walks {l : Label} {isEmpty : Bool} (hb : Walks options t stages body) :
    Walks options t stages (caseBody options l isEmpty body) := fun p =>
  .emit (by simp) <| (hb p).before fun _ => .ask trivial fun _ => by
    split
    · exact .of_isGlue gotoBreak_isGlue
    · exact .of_isGlue (.pure ())

theorem switch_walks {cases : List Case} {bodies : List Label → Plan Unit} {default : Option (Plan Unit)}
    (hb : ∀ labels, labels.length = cases.length → Walks options t stages (bodies labels))
    (hd : ∀ plan ∈ default, Walks options t stages' plan) (hn : default = none → ∀ c, stages' c = []) :
    Walks options t (fun c => .header c e :: (cases.map (.header c ·.value) ++ (stages c ++ stages' c)))
      (switch options (e.headerPlan options) cases bodies default) := fun p => by
  refine (Goes.header e).bind fun _ => .after (ensureTemp_isGlue _) fun _ =>
    (caseTests_goes cases).bind_of (fun _ _ _ => caseTests_length) fun labels hl => .ask trivial fun _ => ?_
  cases default with
  | none =>
    rw [hn rfl, List.append_nil]
    exact .after gotoBreak_isGlue fun _ => (hb labels hl p).before fun _ => .ask trivial fun _ =>
      .of_isGlue (placeLabel_isGlue _)
  | some plan =>
    exact .ask trivial fun _ => .emit (by simp) <| (hb labels hl p).bind fun _ => .emit (by simp) <|
      (hd plan rfl p).before fun _ => .ask trivial fun _ => .of_isGlue (placeLabel_isGlue _)

theorem tryCatch_walks {caught : String} {span handlerSpan : Span} (hb : Walks options t stages body)
    (hh : Walks options t stages' other) :
    Walks options t (fun c => stages c ++ stages' (c.within t handlerSpan))
      (tryCatch options body caught span handlerSpan other) := fun p => by
  have hhandler : Walks options t stages' (do
      bindLocal options caught span
      Plan.emit (.assign (.var caught) .exception)
      other) := fun q => .after (bindLocal_isGlue ..) fun _ => .emit (by simp) (hh q)
  exact .ask trivial fun _ => .emit (by simp) <| (hb p).bind fun _ => .emit (by simp) <|
    .ask trivial fun _ => .emit (by simp) <| .emit (by simp) <|
    (block_walks hhandler handlerSpan p).before fun _ => .of_isGlue (.emit (by simp))

theorem functionFrame_walks {name : String} {params : List Param} {span : Span}
    (hb : Walks options t stages body) :
    Walks options t (fun c => match t.visible? c.scope name with
        | none => []
        | some x => stages (c.inside x))
      (functionFrame options name params span body) := fun p => by
  refine .visible (fun _ => rfl) (fun hn => ?_) fun id x y hy hm => ?_
  · simp only [Setting.context, hn]
    exact .of_isGlue (.of (s := .report _) trivial)
  · simp only [Setting.context, hy, Context.inside, hm]
    refine .scope <| .enterFunction <| .ask trivial fun _ => .emit (by simp) <|
      .before (.atMembers <| .after (.forM _ fun p => bindParam_isGlue p) fun _ => hb _) fun _ => ?_
    exact .emit (by simp) <| .ask trivial fun _ => .ask (s := .closeFunction ..) trivial fun _ =>
      .moveTo .exitFunction

theorem classFrame_walks {name : String} {parent : Option String} {span : Span}
    (hb : Walks options t stages body) :
    Walks options t (fun c => match t.visible? c.scope name with
        | none => []
        | some x => stages { c.inside x with className := some name })
      (classFrame name parent span body) := fun p => by
  refine .visible (fun _ => rfl) (fun hn => ?_) fun id x y hy hm => ?_
  · simp only [Setting.context, hn]
    exact .of_isGlue (.of (s := .report _) trivial)
  · simp only [Setting.context, hy, Context.inside, hm]
    refine .after (inherited_isGlue parent) fun _ => .scope <| .enterClass <| .ask trivial fun _ =>
      .emit (by simp) <| .after (reserve_isGlue _) fun _ => .before (.atMembers (hb _)) fun _ => ?_
    exact .emit (by simp) <| .ask trivial fun _ => .ask (s := .closeClass ..) trivial fun _ =>
      .moveTo .exitClass

theorem jump_walks {target : Plan (Option Label)} (h : target.IsGlue) (problem : Problem) :
    Walks options t (fun _ => []) (jump target problem) := fun _ => .of_isGlue (jump_isGlue h problem)

end Forms

end Plan

section Statements

variable {options : Options} {t : Table} {inner : List Stmt}

abbrev Stmt.Walks (options : Options) (t : Table) (s : Stmt) : Prop :=
  ¬s.isPlain → Plan.Walks options t (fun c => s.stages t c) (s.plan options)

theorem planAll_walks (h : ∀ s ∈ inner, s.Walks options t) :
    Plan.Walks options t (fun c => stagesAll t c inner) (planAll options inner) := by
  induction inner with
  | nil =>
    simp only [planAll, stagesAll]
    exact fun _ => .of_isGlue (.pure ())
  | cons s rest ih =>
    simp only [planAll, stagesAll]
    exact fun p => (Goes.stmt fun hi => h s (by simp) hi p).bind fun _ =>
      ih (fun s hs => h s (by simp [hs])) p

theorem Block.walks {b : Block} (h : ∀ s ∈ b.body, s.Walks options t) :
    Plan.Walks options t (fun c => b.stages t c) (b.plan options) := by
  obtain ⟨body, span⟩ := b
  simp only [plan, stages]
  exact planAll_walks h

theorem optionPlan_walks {s : Option Stmt} (h : ∀ s' ∈ s, s'.Walks options t) :
    Plan.Walks options t (fun c => stagesOption t c s) (optionPlan options s) := by
  cases s with
  | none =>
    simp only [optionPlan, stagesOption]
    exact fun _ => .of_isGlue (.pure ())
  | some s =>
    simp only [optionPlan, stagesOption]
    exact fun p => .stmt fun hi => h s rfl hi p

theorem casePlans_walks {cases : List Case} {labels : List Label}
    (h : ∀ k ∈ cases, ∀ s ∈ k.body, s.Walks options t) (hl : labels.length = cases.length) :
    Plan.Walks options t (fun c => stagesCases t c cases) (casePlans options cases labels) := by
  induction cases generalizing labels with
  | nil =>
    simp only [casePlans, stagesCases]
    exact fun _ => .of_isGlue (.pure ())
  | cons k rest ih =>
    obtain ⟨l, labels, rfl⟩ := List.exists_cons_of_length_eq_add_one hl
    obtain ⟨e, body, span⟩ := k
    simp only [casePlans, stagesCases]
    exact fun p => (caseBody_walks (planAll_walks (h ⟨e, body, span⟩ (by simp))) p).bind fun _ =>
      ih (fun k hk => h k (by simp [hk])) (by simpa using hl) p

theorem Function.walks {f : Function} (h : ∀ s ∈ f.body.body, s.Walks options t) :
    Plan.Walks options t (fun c => f.stages t c) (f.plan options) := by
  obtain ⟨name, params, type, body, span⟩ := f
  simp only [plan, stages]
  exact functionFrame_walks (Block.walks h)

theorem memberPlans_walks {members : List Member}
    (h : ∀ f, .method f ∈ members → ∀ s ∈ f.body.body, s.Walks options t) :
    Plan.Walks options t (fun c => stagesMembers t c members) (memberPlans options members) := by
  induction members with
  | nil =>
    simp only [memberPlans, stagesMembers]
    exact fun _ => .of_isGlue (.pure ())
  | cons m rest ih =>
    have hrest := ih fun f hf => h f (by simp [hf])
    cases m with
    | field b =>
      simp only [memberPlans, Member.plan, stagesMembers]
      have hfield (p : Setting) : (begins (.stmt (.declare b)) (Stmt.plan options (.declare b))).Goes
          options t p p (.stmt (p.context options) (.declare b) ::
            Stmt.stages t (p.context options) (.declare b)) :=
        .stmt fun hi => absurd rfl hi
      simp only [Stmt.plan, Stmt.stages] at hfield
      exact fun p => (hfield p).bind fun _ => hrest p
    | method f =>
      simp only [memberPlans, Member.plan, stagesMembers]
      have hmethod (p : Setting) : (begins (.stmt (.function f)) (Stmt.plan options (.function f))).Goes
          options t p p (.stmt (p.context options) (.function f) ::
            Stmt.stages t (p.context options) (.function f)) :=
        .stmt fun _ => by
          simp only [Stmt.plan, Stmt.stages]
          exact Function.walks (h f (by simp)) p
      simp only [Stmt.plan, Stmt.stages] at hmethod
      exact fun p => (hmethod p).bind fun _ => hrest p

theorem Class.walks {k : Class} (h : ∀ f, .method f ∈ k.members → ∀ s ∈ f.body.body, s.Walks options t) :
    Plan.Walks options t (fun c => k.stages t c) (k.plan options) := by
  obtain ⟨name, parent, members, span⟩ := k
  simp only [plan, stages]
  exact classFrame_walks (memberPlans_walks h)

theorem Stmt.walks (s : Stmt) : s.Walks options t := by
  induction s with
  | declare | assign | print | eval | ret => exact fun h => absurd rfl h
  | block b ih =>
    intro _
    simp only [stages, plan]
    exact block_walks (Block.walks ih) b.span
  | ite e yes no span ihy ihn =>
    intro _
    have hy := block_walks (Block.walks ihy) yes.span
    cases no with
    | none =>
      simp only [stages, plan, List.append_nil]
      exact ifThen_walks hy
    | some no =>
      simp only [stages, plan]
      exact ifThenElse_walks hy (block_walks (Block.walks (ihn no rfl)) no.span)
  | loop e body span ih =>
    intro _
    simp only [stages, plan]
    exact whileLoop_walks (block_walks (Block.walks ih) body.span)
  | doWhile body e span ih =>
    intro _
    simp only [stages, plan]
    exact doWhile_walks (block_walks (Block.walks ih) body.span)
  | forLoop first test step body span ihf ihs ih =>
    intro _
    simp only [stages, plan]
    exact forLoop_walks body.span (optionPlan_walks ihf) (Block.walks ih) (optionPlan_walks ihs)
  | foreach item collection body span ih =>
    intro _
    simp only [stages, plan]
    exact foreachLoop_walks (Block.walks ih)
  | switch subject cases default span ihc ihd =>
    intro _
    rw [plan_switch]
    have hb (labels : List Label) (hl : labels.length = cases.length) := casePlans_walks ihc hl
    cases default with
    | none =>
      simp only [stages, List.append_nil]
      have hn : ∀ plan ∈ (none : Option (Plan Unit)), Plan.Walks options t (fun _ => []) plan := by simp
      simpa using switch_walks hb hn fun _ _ => rfl
    | some body =>
      simp only [stages]
      refine switch_walks hb (fun plan hplan => ?_) (by simp)
      cases hplan
      exact planAll_walks (ihd body rfl)
  | exit =>
    intro _
    simp only [stages, plan]
    exact jump_walks (.of (s := .breakLabel) trivial) _
  | next =>
    intro _
    simp only [stages, plan]
    exact jump_walks (.of (s := .continueLabel) trivial) _
  | tryCatch body caught handler span ihb ihh =>
    intro _
    simp only [stages, plan]
    exact tryCatch_walks (block_walks (Block.walks ihb) body.span) (Block.walks ihh)
  | function f ih =>
    intro _
    simp only [stages, plan]
    exact Function.walks ih
  | classDef k ih =>
    intro _
    simp only [stages, plan]
    exact Class.walks ih

end Statements

/-- The parts of a program, each with the state that lowering begins with it in. -/
def Program.course (p : Program) (table : Table) (options : Options) : List (Part × FullState) :=
  (planAll options p.statements).course (.start table options)

theorem Program.walk {p : Program} {table : Table} {options : Options} {out : Lowered}
    (h : p.lower table options = .ok out) :
    ∃ d, Trail options d (.start table options) (p.course table options) d ∧
      (p.course table options).map (Part.stage options) = p.stages table options ∧
      out = ⟨d.code, d.table, d.problems⟩ := by
  obtain ⟨d, hrun, hout⟩ := lower_run h
  obtain ⟨_, ht, hs⟩ := planAll_walks (fun s _ => s.walks) {} hrun rfl rfl
  exact ⟨d, ht, hs, hout⟩

theorem Program.compile_walk {p : Program} {options : Options} {out : Compiled}
    (h : p.compile options = .ok out) :
    ∃ d, Trail options d (.start p.collect.table options) (p.course p.collect.table options) d ∧
      (p.course p.collect.table options).map (Part.stage options) = p.stages p.collect.table options ∧
      d.code = out.code ∧ d.problems = [] := by
  obtain ⟨_, hl⟩ := compile_eq_ok.1 h
  obtain ⟨d, ht, hs, hout⟩ := p.walk hl
  obtain ⟨hc, _, hp⟩ := Lowered.mk.inj hout
  exact ⟨d, ht, hs, hc.symm, hp.symm⟩

end ThreeAddress
