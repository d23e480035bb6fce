import ThreeAddress.Proofs.Plans.Forms

namespace ThreeAddress

open Lowering Plan

variable {options : Options}

theorem storeScalar_does (id : SymbolId) (name : String) (e : Expr) :
    Does (p.context options) p p [] (fun code => (code, ()))
      (do
        let size ← valueSize options id
        bindStorage id size
        let v ← storable (e.plan options)
        emit (.assign (.var name) v))
      (do
        Lower.bindStorage id (← Lower.valueSize id)
        let (code, v) ← Lower.storable (e.lower .value)
        return code ++ [.assign (.var name) v]) :=
  (valueSize_does id).bind fun size => (bindStorage_does id size).bind fun _ =>
    (storable_does e.plan_does.value p).bind fun _ => .wrote rfl

theorem Binding.plan_does (b : Binding) : DoesCode options (b.plan options) b.lower := by
  refine fun p => (lookup_does b.name).bind fun id? => ?_
  cases id? with
  | none => exact (report_does _).last fun _ => .done rfl
  | some id =>
    dsimp only
    cases b.value with
    | none =>
      exact (valueSize_does id).bind fun size => (bindStorage_does id size).last fun _ => .done rfl
    | some e =>
      cases e with
      | array es span => exact declareArray_does id es span p
      | _ => exact storeScalar_does id b.name _

theorem Target.plan_does (e : Expr) (span : Span) (target : Target) :
    DoesCode options (target.plan options e span) (target.assign e span) := by
  intro p
  cases target with
  | ident name =>
    refine (lookup_does name).bind fun id? => ?_
    cases id? with
    | none => exact (report_does _).last fun _ => .done rfl
    | some id =>
      cases e with
      | array es span => exact assignArray_does id es span p
      | _ =>
        exact (symbol_does id).bind fun x => (storable_does (Expr.plan_does _).value p).bind fun _ =>
          .wrote rfl
  | index base indices =>
    exact (base.plan_does.value p).bind fun _ => (indexPlans_does indices).after.bind fun _ =>
      (storable_does e.plan_does.value p).after.bind fun _ => .wrote (by simp)
  | property object field =>
    exact (object.plan_does.value p).bind fun _ => (storable_does e.plan_does.value p).after.bind
      fun _ => .wrote (by simp)

section Lists

theorem planAll_does {body : List Stmt} (h : ∀ s ∈ body, DoesCode options (s.plan options) s.lower) :
    DoesCode options (planAll options body) (lowerAll body) := by
  induction body with
  | nil =>
    intro p
    rw [planAll, lowerAll]
    exact .done rfl
  | cons s rest ih =>
    intro p
    rw [planAll, lowerAll]
    exact Does.bind (.begins (h s (by simp) p)) fun _ =>
      (ih (fun s hs => h s (by simp [hs])) p).after.last fun _ =>
      .done rfl

theorem optionPlan_does {s : Option Stmt} (h : ∀ s' ∈ s, DoesCode options (s'.plan options) s'.lower) :
    DoesCode options (optionPlan options s) (lowerOption s) := by
  cases s with
  | none =>
    intro p
    rw [optionPlan, lowerOption]
    exact .done rfl
  | some s =>
    rw [optionPlan, lowerOption]
    exact fun p => .begins (h s rfl p)

theorem casePlans_does {cases : List Case} (labels : List Label)
    (h : ∀ k ∈ cases, ∀ s ∈ k.body, DoesCode options (s.plan options) s.lower) :
    DoesCode options (casePlans options cases labels) (lowerCases cases labels) := by
  induction cases generalizing labels with
  | nil =>
    intro p
    rw [lowerCases_nil, casePlans]
    · exact .done rfl
    · simp
  | cons k rest ih =>
    cases labels with
    | nil =>
      intro p
      rw [lowerCases, casePlans]
      · exact .done rfl
      · simp
      · simp
    | cons l labels =>
      obtain ⟨value, body, span⟩ := k
      intro p
      rw [lowerCases, casePlans]
      have hbody : DoesCode options (planAll options body) (lowerAll body) :=
        planAll_does (h ⟨value, body, span⟩ (by simp))
      exact (caseBody_does l _ hbody p).bind fun _ =>
        (ih labels (fun k hk => h k (by simp [hk])) p).after.last fun _ => .done rfl

theorem Block.plan_does {b : Block} (h : ∀ s ∈ b.body, DoesCode options (s.plan options) s.lower) :
    DoesCode options (b.plan options) b.lower := by
  obtain ⟨body, span⟩ := b
  rw [Block.plan, Block.lower]
  exact planAll_does h

theorem Function.plan_does {f : Function}
    (h : ∀ s ∈ f.body.body, DoesCode options (s.plan options) s.lower) :
    DoesCode options (f.plan options) f.lower := by
  obtain ⟨name, params, result, body, span⟩ := f
  rw [Function.plan, Function.lower]
  exact functionFrame_does params (Block.plan_does h)

theorem memberPlans_does {members : List Member}
    (h : ∀ f, .method f ∈ members → ∀ s ∈ f.body.body, DoesCode options (s.plan options) s.lower) :
    DoesCode options (memberPlans options members) (lowerMembers members) := by
  induction members with
  | nil =>
    intro p
    rw [memberPlans, lowerMembers]
    exact .done rfl
  | cons m rest ih =>
    have hm : DoesCode options (m.plan options) m.lower := by
      cases m with
      | field b =>
        rw [Member.plan, Member.lower]
        exact fun p => .begins (guarding_does b.plan_does p)
      | method f =>
        rw [Member.plan, Member.lower]
        exact fun p => .begins (Function.plan_does (h f (by simp)) p)
    intro p
    rw [memberPlans, lowerMembers]
    exact (hm p).bind fun _ => (ih (fun f hf => h f (by simp [hf])) p).after.last fun _ => .done rfl

end Lists

theorem Stmt.plan_switch (subject : Expr) (cases : List Case) (default : Option (List Stmt))
    (span : Span) : Stmt.plan options (.switch subject cases default span) =
      Plan.switch options (subject.headerPlan options) cases (casePlans options cases)
        (default.map (planAll options)) := by
  cases default <;> simp only [Stmt.plan, Option.map]

theorem Stmt.plan_does (s : Stmt) : DoesCode options (s.plan options) s.lower := by
  induction s with
  | declare b =>
    rw [Stmt.plan, Stmt.lower]
    exact guarding_does b.plan_does
  | assign target e span =>
    rw [Stmt.plan, Stmt.lower]
    exact guarding_does (target.plan_does e span)
  | print e span =>
    rw [Stmt.plan, Stmt.lower]
    exact guarding_does fun p => (argument_does e.plan_does.value p).bind fun _ => .wrote rfl
  | eval e span =>
    rw [Stmt.plan, Stmt.lower]
    refine guarding_does fun p => .want ?_
    exact (e.plan_does { p with wanted := false }).bind fun _ => .want <| .done rfl
  | ret e span =>
    cases e with
    | none =>
      rw [Stmt.plan, Stmt.lower]
      exact fun p => .wrote rfl
    | some e =>
      rw [Stmt.plan, Stmt.lower]
      exact guarding_does fun p => (e.plan_does.value p).bind fun _ => .wrote rfl
  | block b ih =>
    rw [Stmt.plan, Stmt.lower]
    exact block_does (Block.plan_does ih)
  | ite c yes no span ihy ihn =>
    have hy : DoesCode options (Plan.block yes.span (yes.plan options))
        (Lower.inBlock yes.span yes.lower) :=
      block_does (Block.plan_does ihy)
    cases no with
    | none =>
      rw [Stmt.plan, Stmt.lower]
      exact ifThen_does c.headerPlan_does hy
    | some no =>
      rw [Stmt.plan, Stmt.lower]
      exact ifThenElse_does c.headerPlan_does hy (block_does (Block.plan_does (ihn no rfl)))
  | loop c body span ih =>
    rw [Stmt.plan, Stmt.lower]
    exact whileLoop_does c.headerPlan_does (block_does (Block.plan_does ih))
  | doWhile body c span ih =>
    rw [Stmt.plan, Stmt.lower]
    exact doWhile_does (block_does (Block.plan_does ih)) c.headerPlan_does
  | forLoop first test step body span ihf ihs ih =>
    rw [Stmt.plan, Stmt.lower]
    exact forLoop_does test _ (optionPlan_does ihf) (optionPlan_does ihs) (Block.plan_does ih)
  | foreach item collection body span ih =>
    rw [Stmt.plan, Stmt.lower]
    exact foreachLoop_does collection item span (Block.plan_does ih)
  | switch subject cases default span ihc ihd =>
    rw [Stmt.plan_switch, Stmt.lower_switch]
    refine switch_does cases subject.headerPlan_does (fun labels => casePlans_does labels ihc) ?_
    cases default with
    | none => exact .none
    | some body => exact .some (planAll_does (ihd body rfl))
  | exit span =>
    rw [Stmt.plan, Stmt.lower]
    exact jump_does (fun _ => .keep fun _ => rfl) _
  | next span =>
    rw [Stmt.plan, Stmt.lower]
    exact jump_does (fun _ => .keep fun _ => rfl) _
  | tryCatch body caught handler span ihb ihh =>
    rw [Stmt.plan, Stmt.lower]
    exact tryCatch_does caught (block_does (Block.plan_does ihb)) (Block.plan_does ihh)
  | function f ih =>
    rw [Stmt.plan, Stmt.lower]
    exact Function.plan_does ih
  | classDef c ih =>
    obtain ⟨name, parent, members, span⟩ := c
    rw [Stmt.plan, Stmt.lower, Class.plan, Class.lower]
    exact classFrame_does (memberPlans_does ih)

theorem planBody_does (body : List Stmt) : DoesCode options (planAll options body) (lowerAll body) :=
  planAll_does fun s _ => s.plan_does

end ThreeAddress
