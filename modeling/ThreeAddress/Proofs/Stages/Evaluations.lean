import Mathlib.Data.List.ReduceOption
import Mathlib.Logic.Relation
import ThreeAddress.Proofs.Operations.Nodes
import ThreeAddress.Proofs.Plans.Runs

namespace ThreeAddress

open Lowering

/-- What a call evaluates ahead of its arguments. A name has no value of its own, and neither has a
method. -/
def Expr.ahead : Expr → List Expr
  | .ident .. => []
  | .property object .. => [object]
  | e => [e]

/-- What an expression evaluates itself. Of an array literal, these are the leaves that it has a position
for. -/
def Expr.parts (policy : RaggedArrays) : Expr → List Expr
  | .array es _ => (literalCells policy es).reduceOption
  | .new _ args _ => args
  | .binary l _ r _ | .logical l _ r _ | .index l r _ => [l, r]
  | .unary _ e _ | .property e _ _ => [e]
  | .ternary c a b _ => [c, a, b]
  | .call callee args _ => callee.ahead ++ args
  | .int .. | .str .. | .bool .. | .null _ | .ident .. | .this _ => []

/-- `e'` is evaluated on the way to the value of `e`. -/
def Expr.Evaluates (policy : RaggedArrays) : Expr → Expr → Prop :=
  Relation.ReflTransGen fun e e' => e' ∈ e.parts policy

def Expr.stored (policy : RaggedArrays) : Expr → List Expr
  | .array es at_ => (Expr.array es at_).parts policy
  | e => [e]

def Stmt.roots (policy : RaggedArrays) : Stmt → List Expr
  | .declare b => b.value.toList.flatMap (·.stored policy)
  | .assign (.ident _) value _ => value.stored policy
  | .assign target value _ => target.exprs ++ [value]
  | .print e _ | .eval e _ => [e]
  | .return e _ => e.toList
  | _ => []

theorem literalCells_reduceOption {policy : RaggedArrays} {es : List Expr} {dims : List Nat}
    (h : (Nest.row (lowerCells es)).shape? policy = some dims) :
    (literalCells policy es).reduceOption =
      (positions dims).flatMap fun p => ((Expr.array es .unplaced).at? p).toList := by
  rw [literalCells, literalPlaces, h, Option.getD_some, List.reduceOption, List.filterMap_map]
  induction positions dims with
  | nil => rfl
  | cons p rest ih =>
    rw [List.flatMap_cons, ← ih]
    cases hp : (Expr.array es .unplaced).at? p <;> simp [hp]

theorem Expr.mem_leaves_of_mem_parts {policy : RaggedArrays} {es : List Expr} {at_ : Span} {e : Expr}
    (h : e ∈ (Expr.array es at_).parts policy) : e ∈ leavesAll es := by
  rw [parts, List.reduceOption_mem_iff, literalCells, List.mem_map] at h
  obtain ⟨p, _, hp⟩ := h
  simpa [leaves] using mem_leaves_of_at? hp

theorem Expr.parts_induction {P : Expr → Prop} (policy : RaggedArrays)
    (h : ∀ e : Expr, (∀ e' ∈ e.parts policy, P e') → P e) (e : Expr) : P e := by
  induction e with
  | int | str | bool | null | ident | this => exact h _ (by simp [parts])
  | array es span ih => exact h _ fun e he => ih e (mem_leaves_of_mem_parts he)
  | binary l op r span ihl ihr | logical l op r span ihl ihr | index l r span ihl ihr =>
    exact h _ (by simp [parts, ihl, ihr])
  | unary op e span ih | property e field span ih => exact h _ (by simp [parts, ih])
  | ternary c a b span ihc iha ihb => exact h _ (by simp [parts, ihc, iha, ihb])
  | new name args span ih => exact h _ (by simpa [parts] using ih)
  | call callee args span ihc iho iha =>
    refine h _ fun e he => ?_
    obtain he | he := List.mem_append.1 he
    · cases callee with
      | ident => cases he
      | property object method at_ =>
        obtain rfl := List.mem_singleton.1 he
        exact iho _ _ _ rfl
      | _ =>
        obtain rfl := List.mem_singleton.1 he
        exact ihc
    · exact iha e he

def FullState.Step.IsInner : Step → Prop
  | .begin _ | .evaluate _ | .moveTo _ | .enterClass _ | .exitClass _ => False
  | _ => True

theorem FullState.step_inner {d d' : FullState} {s : Step} {b : s.Answer} (h : d.step s = .ok (b, d'))
    (hs : s.IsInner) (options : Options) :
    d'.context options = d.context options ∧ s.part? = none ∧ s.expr? = none := by
  cases s with
  | begin | evaluate | moveTo | enterClass | exitClass => exact hs.elim
  | freshTemp | freshLabel | enterLoop | exitLoop | enterSwitch | exitSwitch | breakLabel
  | continueLabel | allocate | enterFrame | exitFrame =>
    obtain ⟨_, _, rfl⟩ := keep_eq_ok h
    exact ⟨rfl, rfl, rfl⟩
  | endsInJump | className | isWanted | scope | scopeFor | lookup | lookupLocal | symbol | arraySize =>
    obtain rfl := ask_eq_ok h
    exact ⟨rfl, rfl, rfl⟩
  | emit | enterFunction | exitFunction | want | report | extend | closeFunction | closeClass =>
    cases h
    exact ⟨rfl, rfl, rfl⟩
  | place =>
    obtain ⟨_, _, _, rfl⟩ := step_place_eq_ok.1 h
    exact ⟨rfl, rfl, rfl⟩

namespace Plan

variable {options : Options} {c : Context} {d d' : FullState}

/-- The value of `x.1` is begun with in the state `x.2`, in the context `c`, and is there before `d'`. -/
def Starts (options : Options) (c : Context) (d' : FullState) (x : Expr × FullState) : Prop :=
  x.2.context options = c ∧ ∃ v σ, (x.1.plan options).run x.2 = .ok (v, σ) ∧ σ.Precedes d'

/-- The plan keeps the context and comes to no part of the program. As long as nothing is reported, it
begins with the values of `es` one after the other, and comes to whatever these come to. -/
def Evaluates (options : Options) (c : Context) (es : List Expr) (plan : Plan α) : Prop :=
  ∀ ⦃d a d'⦄, plan.run d = .ok (a, d') → d.context options = c →
    d'.context options = c ∧ plan.course d = [] ∧ (d'.problems = [] →
      ∃ starts : List (Expr × FullState), starts.map (·.1) = es ∧ (∀ x ∈ starts, Starts options c d' x) ∧
        plan.evaluations d = starts.flatMap fun x => (x.1.plan options).evaluations x.2)

namespace Evaluates

variable {es es' : List Expr} {plan : Plan α} {f : α → Plan β}

theorem pure (a : α) : (Pure.pure a : Plan α).Evaluates options c [] := by
  intro d b d' hr hc
  cases hr
  exact ⟨hc, rfl, fun _ => ⟨[], rfl, by simp, rfl⟩⟩

theorem bind (h : plan.Evaluates options c es) (k : ∀ a, (f a).Evaluates options c es') :
    (plan >>= f).Evaluates options c (es ++ es') := by
  intro d b d' hr hc
  obtain ⟨a, d₁, hp, hr⟩ := run_bind_eq_ok.1 hr
  obtain ⟨hc₁, hcourse, hfirst⟩ := h hp hc
  obtain ⟨hc', hcourse', hlast⟩ := k a hr hc₁
  have hd := run_precedes hr
  refine ⟨hc', by rw [course_bind hp, hcourse, hcourse', List.append_nil], fun hq => ?_⟩
  obtain ⟨starts, hes, hs, he⟩ := hfirst (hd.quiet hq)
  obtain ⟨starts', hes', hs', he'⟩ := hlast hq
  refine ⟨starts ++ starts', by simp [hes, hes'], ?_, ?_⟩
  · rw [List.forall_mem_append]
    refine ⟨fun x hx => ?_, hs'⟩
    obtain ⟨hc, v, σ, hr, hσ⟩ := hs x hx
    exact ⟨hc, v, σ, hr, hσ.trans hd⟩
  · rw [evaluations_bind hp, he, he', List.flatMap_append]

theorem ask {s : FullState.Step} {f : s.Answer → Plan β} (hs : s.IsInner)
    (k : ∀ b, (f b).Evaluates options c es) : (of s >>= f).Evaluates options c es := by
  have hfirst : (of s).Evaluates options c [] := by
    intro d b d' hr hc
    obtain ⟨b', d₁, hstep, rfl⟩ : ∃ b d₁, d.step s = .ok (b, d₁) ∧ d₁ = d' := by
      rw [of, run] at hr
      cases hs : d.step s with
      | error e => simp [hs, Bind.bind, Except.bind] at hr
      | ok x =>
        rw [hs] at hr
        cases hr
        exact ⟨_, _, rfl, rfl⟩
    obtain ⟨hc', hpart, hexpr⟩ := FullState.step_inner hstep hs options
    refine ⟨hc'.trans hc, by simp [of, course, marks, hpart, hstep], fun _ => ⟨[], rfl, by simp, ?_⟩⟩
    simp [of, evaluations, marks, hexpr, hstep]
  exact hfirst.bind k

theorem emit {i : Instruction} {plan : Plan β} (h : plan.Evaluates options c es) :
    (Plan.emit i >>= fun _ => plan).Evaluates options c es := ask (s := .emit i) trivial fun _ => h

theorem after (h : plan.Evaluates options c []) (k : ∀ a, (f a).Evaluates options c es) :
    (plan >>= f).Evaluates options c es := h.bind k

theorem before (h : plan.Evaluates options c es) (k : ∀ a, (f a).Evaluates options c []) :
    (plan >>= f).Evaluates options c es := by
  simpa using h.bind k

theorem report (p : Problem) (es : List Expr) : (Plan.report p).Evaluates options c es := by
  intro d u d' hr hc
  cases hr
  exact ⟨hc, rfl, fun hq => by simp at hq⟩

theorem wrote (i : Instruction) : (Plan.emit i).Evaluates options c [] :=
  ask (s := .emit i) (f := fun _ => Pure.pure ()) trivial fun _ => pure ()

theorem mapM {f : γ → Plan β} {g : γ → List Expr} {xs : List γ}
    (h : ∀ x ∈ xs, (f x).Evaluates options c (g x)) : (xs.mapM f).Evaluates options c (xs.flatMap g) := by
  induction xs with
  | nil => exact pure []
  | cons x rest ih =>
    rw [List.mapM_cons, List.flatMap_cons]
    exact (h x (by simp)).bind fun _ => (ih fun y hy => h y (by simp [hy])).before fun _ => pure _

theorem forM {f : γ → Plan Unit} {g : γ → List Expr} {xs : List γ}
    (h : ∀ x ∈ xs, (f x).Evaluates options c (g x)) : (xs.forM f).Evaluates options c (xs.flatMap g) := by
  induction xs with
  | nil => exact pure ()
  | cons x rest ih => exact (h x (by simp)).bind fun _ => ih fun y hy => h y (by simp [hy])

theorem filterM {f : γ → Plan Bool} {xs : List γ} (h : ∀ x ∈ xs, (f x).Evaluates options c []) :
    (xs.filterM f).Evaluates options c [] := by
  have haux (acc : List γ) : (xs.filterAuxM f acc).Evaluates options c [] := by
    induction xs generalizing acc with
    | nil => exact pure acc
    | cons x rest ih => exact (h x (by simp)).after fun b => ih (fun y hy => h y (by simp [hy])) _
  exact (haux []).after fun _ => pure _

end Evaluates

section Values

open Plan.Evaluates (ask after before)

variable {es es' : List Expr} {l r test : Plan Operand}

theorem copyToTemp_evaluates (x : Operand) : (copyToTemp x).Evaluates options c [] :=
  ask trivial fun _ => .emit <| .pure _

theorem ensureTemp_evaluates (x : Operand) : (ensureTemp x).Evaluates options c [] := by
  rw [ensureTemp]
  split
  · exact .pure x
  · exact copyToTemp_evaluates x

theorem value_evaluates (h : l.Evaluates options c es) : (value l).Evaluates options c es :=
  ask trivial fun _ => before h fun _ => ask trivial fun _ => .pure _

theorem storable_evaluates (h : l.Evaluates options c es) : (storable l).Evaluates options c es := by
  refine before (value_evaluates h) fun x => ?_
  cases x with
  | var name => exact copyToTemp_evaluates _
  | _ => exact .pure _

theorem argument_evaluates (h : l.Evaluates options c es) : (argument l).Evaluates options c es :=
  before (value_evaluates h) fun _ => copyToTemp_evaluates _

theorem finishCall_evaluates (wanted : Bool) (callee : String) (params : List Operand) :
    (finishCall wanted callee params).Evaluates options c [] := by
  rw [finishCall]
  split
  · exact ask trivial fun _ => .emit <| .pure _
  · exact .emit <| .pure _

theorem shortCircuit_evaluates (op : LogicalOp) (hl : l.Evaluates options c es)
    (hr : r.Evaluates options c es') : (shortCircuit op l r).Evaluates options c (es ++ es') :=
  (value_evaluates hl).bind fun _ => ask trivial fun _ => .emit <| ask trivial fun _ => .emit <|
    before (value_evaluates hr) fun _ => .emit <| .emit <| .pure _

theorem choose_evaluates {es₀ : List Expr} (h : test.Evaluates options c es₀) (hl : l.Evaluates options c es)
    (hr : r.Evaluates options c es') : (choose test l r).Evaluates options c (es₀ ++ (es ++ es')) :=
  (value_evaluates h).bind fun _ => ask trivial fun _ => .emit <| ask trivial fun _ => .emit <| .emit <|
    (value_evaluates hl).bind fun _ => ask trivial fun _ => .emit <| ask trivial fun _ => .emit <| .emit <|
    before (value_evaluates hr) fun _ => .emit <| .emit <| .pure _

theorem nameOperand_evaluates (name : String) (span : Span) :
    (nameOperand name span).Evaluates options c [] :=
  ask (s := .lookup name) trivial fun id? => by
    cases id? with
    | none => exact after (.report _ []) fun _ => .pure _
    | some id => exact ask trivial fun _ => .pure _

theorem receiverClass_evaluates (e : Expr) : (receiverClass e).Evaluates options c [] := by
  cases e with
  | this => exact ask (s := .className) (f := pure) trivial fun _ => .pure _
  | ident name span =>
    refine ask (s := .lookup name) trivial fun id? => ?_
    cases id? with
    | none => exact .pure _
    | some id =>
      refine ask (s := .symbol id) trivial fun x => ?_
      cases x.type <;> exact .pure _
  | _ => exact .pure _

theorem namedCallee_evaluates (name : String) (span : Span) :
    (namedCallee name span).Evaluates options c [] := by
  refine ask (s := .lookup name) trivial fun id? => ?_
  cases id? with
  | none => exact after (.report _ []) fun _ => .pure _
  | some id =>
    refine ask (s := .symbol id) trivial fun x => ?_
    split
    · exact after (copyToTemp_evaluates _) fun _ => .pure _
    · exact .pure _

theorem storeAll_evaluates (base : Operand) (stores : List (List Nat × Operand)) :
    (storeAll base stores).Evaluates options c [] := by
  induction stores with
  | nil => exact .pure ()
  | cons x rest ih => exact .emit ih

theorem literalShape_evaluates {name : String} {span : Span} {es : List Expr} {parts : List Expr}
    {f : Option (List Nat) → Plan β}
    (hn : (f none).Evaluates options c [])
    (h : ∀ dims, (Nest.row (lowerCells es)).shape? options.raggedArrays = some dims →
      (f (some dims)).Evaluates options c parts) :
    (literalShape options name span (.row (cellPlans options es)) >>= f).Evaluates options c parts := by
  have hfits := (Expr.array es span).cell_fits options
  rw [Expr.cellPlan, Expr.cell] at hfits
  rw [literalShape, hfits.shape?]
  cases hs : (Nest.row (lowerCells es)).shape? options.raggedArrays with
  | none =>
    rw [bind_assoc]
    exact before (.report _ parts) fun _ => hn
  | some dims => exact h dims hs

end Values

end Plan

open Plan

section Expressions

variable {options : Options} {c : Context}

/-- The plan of the expression begins with its value, and then comes to its parts. -/
def Expr.Opens (options : Options) (c : Context) (e : Expr) : Prop :=
  ∃ inner, e.plan options = valueOf e inner ∧ inner.Evaluates options c (e.parts options.raggedArrays)

theorem Expr.Opens.plan {e : Expr} (h : e.Opens options c) : (e.plan options).Evaluates options c [e] := by
  obtain ⟨inner, he, hi⟩ := h
  intro d v d' hr hc
  have hr' : inner.run d = .ok (v, d') := by rwa [he] at hr
  obtain ⟨hc', hcourse, _⟩ := hi hr' hc
  refine ⟨hc', by rwa [he], fun _ => ⟨[(e, d)], rfl, fun x hx => ?_, by simp⟩⟩
  obtain rfl := List.mem_singleton.1 hx
  exact ⟨hc, v, d', hr, .refl d'⟩

theorem leafAt_evaluates {es : List Expr} (h : ∀ e ∈ leavesAll es, e.Opens options c) (zero : Operand)
    (path : List Nat) :
    (leafAt (.row (cellPlans options es)) zero path).Evaluates options c
      ((Expr.array es .unplaced).at? path).toList := by
  have hplan := (Expr.array es .unplaced).at?_cellPlan options path
  rw [Expr.cellPlan] at hplan
  rw [leafAt, hplan]
  cases he : (Expr.array es .unplaced).at? path with
  | none => exact copyToTemp_evaluates zero
  | some e =>
    have := Expr.mem_leaves_of_at? he
    rw [Expr.leaves] at this
    exact storable_evaluates (h e this).plan

theorem literalValue_evaluates {es : List Expr} (h : ∀ e ∈ leavesAll es, e.Opens options c) (span : Span) :
    (literalValue options (.row (cellPlans options es)) span).Evaluates options c
      (literalCells options.raggedArrays es).reduceOption := by
  refine literalShape_evaluates ?_ fun dims hd => ?_
  · exact .ask trivial fun _ => (storeAll_evaluates ..).after fun _ => .pure _
  · rw [literalCells_reduceOption hd]
    exact (Evaluates.mapM fun path _ => leafAt_evaluates h _ path).before fun _ => .ask trivial fun _ =>
      (storeAll_evaluates ..).after fun _ => .pure _

theorem argPlans_evaluates {es : List Expr} (h : ∀ e ∈ es, e.Opens options c) :
    (argPlans options es).Evaluates options c es := by
  induction es with
  | nil =>
    rw [argPlans]
    exact .pure []
  | cons e rest ih =>
    rw [argPlans]
    exact (argument_evaluates (h e (by simp)).plan).bind fun _ =>
      (ih fun e he => h e (by simp [he])).before fun _ => .pure _

theorem calleePlan_evaluates {callee : Expr} (span : Span) (h : callee.Opens options c)
    (ho : ∀ object method at_, callee = .property object method at_ → object.Opens options c) :
    (calleePlan options span callee).Evaluates options c callee.ahead := by
  cases callee with
  | ident name at_ => exact namedCallee_evaluates name span
  | property object method at_ =>
    exact (receiverClass_evaluates object).after fun _ =>
      (argument_evaluates (ho object method at_ rfl).plan).before fun _ => .pure _
  | _ => exact (value_evaluates h.plan).before fun _ => .pure _

theorem Expr.opens (e : Expr) : e.Opens options c := by
  induction e with
  | int | str | bool | null => exact ⟨_, by rw [plan], copyToTemp_evaluates _⟩
  | ident name span => exact ⟨_, by rw [plan], nameOperand_evaluates name span⟩
  | this => exact ⟨_, by rw [plan], .pure _⟩
  | array es span ih => exact ⟨_, by rw [plan], literalValue_evaluates ih span⟩
  | binary l op r span ihl ihr =>
    refine ⟨_, by rw [plan], ?_⟩
    exact (value_evaluates ihl.plan).bind fun _ => (value_evaluates ihr.plan).before fun _ =>
      .ask trivial fun _ => .emit <| .pure _
  | unary op e span ih =>
    refine ⟨_, by rw [plan], ?_⟩
    exact (value_evaluates ih.plan).before fun _ => .ask trivial fun _ => .emit <| .pure _
  | logical l op r span ihl ihr => exact ⟨_, by rw [plan], shortCircuit_evaluates op ihl.plan ihr.plan⟩
  | ternary t a b span iht iha ihb => exact ⟨_, by rw [plan], choose_evaluates iht.plan iha.plan ihb.plan⟩
  | call callee args span ihc iho iha =>
    refine ⟨_, plan_call callee args span, ?_⟩
    -- the callee is no expression of its own: a name is not evaluated, and a receiver stands for it
    exact .ask trivial fun _ => (calleePlan_evaluates span ihc iho).bind fun _ =>
      (argPlans_evaluates iha).before fun _ => finishCall_evaluates ..
  | new name args span ih =>
    refine ⟨_, by rw [plan], ?_⟩
    exact (argPlans_evaluates ih).before fun _ => .ask trivial fun _ => .emit <| .pure _
  | index base i span ihb ihi =>
    refine ⟨_, by rw [plan], ?_⟩
    exact (value_evaluates ihb.plan).bind fun _ => (value_evaluates ihi.plan).before fun _ =>
      (ensureTemp_evaluates _).after fun _ => .ask trivial fun _ => .emit <| .pure _
  | property object field span ih =>
    refine ⟨_, by rw [plan], ?_⟩
    exact (value_evaluates ih.plan).before fun _ => .ask trivial fun _ => .emit <| .pure _

theorem Expr.plan_evaluates (e : Expr) : (e.plan options).Evaluates options c [e] := e.opens.plan

theorem storable_opens (e : Expr) : (storable (e.plan options)).Evaluates options c [e] :=
  storable_evaluates e.plan_evaluates

end Expressions

section Statements

variable {options : Options} {c : Context}

theorem guarding_evaluates {uses : List Use} {whole : Span} {act : Plan Unit} {es : List Expr}
    (h : act.Evaluates options c es) : (guarding uses whole act).Evaluates options c es := by
  rw [guarding, checkNames, bind_assoc]
  refine (Evaluates.filterM fun u _ => .ask (s := .lookup u.1) trivial fun _ => .pure _).after
    fun missing => ?_
  cases missing with
  | nil => exact h
  | cons u rest =>
    rw [bind_assoc]
    refine Evaluates.before ?_ fun _ => .pure ()
    have hrest (us : List Use) : (us.forM fun u =>
        Plan.report (.unresolved u.1 (u.2.orElse whole).line)).Evaluates options c [] := by
      rw [← List.flatMap_eq_nil_iff.2 fun (_ : Use) (_ : _ ∈ us) => rfl]
      exact .forM fun _ _ => .report _ []
    exact (Evaluates.report _ es).before fun _ => hrest _

theorem valueSize_evaluates (id : SymbolId) : (valueSize options id).Evaluates options c [] :=
  .ask (s := .symbol id) trivial fun _ => .pure _

theorem bindStorage_evaluates (id : SymbolId) (size : Nat) : (bindStorage id size).Evaluates options c [] :=
  .ask trivial fun offset => .ask (s := .place id offset size) (f := pure) trivial fun _ => .pure _

theorem storeElements_evaluates {es : List Expr} {dims : List Nat} (base zero : Operand)
    (hd : (Nest.row (lowerCells es)).shape? options.raggedArrays = some dims) :
    (storeElements base (.row (cellPlans options es)) dims zero).Evaluates options c
      (literalCells options.raggedArrays es).reduceOption := by
  rw [literalCells_reduceOption hd]
  exact .forM fun path _ => (leafAt_evaluates (fun e _ => e.opens) zero path).before fun _ => .wrote _

theorem declareArray_evaluates (id : SymbolId) (es : List Expr) (span : Span) :
    (declareArray options id es span).Evaluates options c (literalCells options.raggedArrays es).reduceOption :=
  .ask (s := .symbol id) trivial fun _ =>
    literalShape_evaluates (bindStorage_evaluates id _) fun dims hd => .ask trivial fun size =>
      .ask (s := .extend id dims) trivial fun _ => (bindStorage_evaluates id size).after fun _ =>
        storeElements_evaluates _ _ hd

theorem assignArray_evaluates (id : SymbolId) (es : List Expr) (span : Span) :
    (assignArray options id es span).Evaluates options c (literalCells options.raggedArrays es).reduceOption :=
  .ask (s := .symbol id) trivial fun _ =>
    literalShape_evaluates (.pure _) fun _ hd => storeElements_evaluates _ _ hd

theorem indexPlans_evaluates (es : List Expr) : (indexPlans options es).Evaluates options c es := by
  induction es with
  | nil => exact .pure []
  | cons e rest ih =>
    exact (value_evaluates e.plan_evaluates).bind fun _ => (ensureTemp_evaluates _).after fun _ =>
      ih.before fun _ => .pure _

theorem Binding.plan_evaluates (b : Binding) :
    (b.plan options).Evaluates options c (b.value.toList.flatMap (·.stored options.raggedArrays)) := by
  refine .ask (s := .lookup b.name) trivial fun id? => ?_
  cases id? with
  | none => exact .report _ _
  | some id =>
    have sized : (valueSize options id >>= fun size => bindStorage id size).Evaluates options c [] :=
      (valueSize_evaluates id).after fun _ => bindStorage_evaluates id _
    cases hv : b.value with
    | none => exact sized
    | some e =>
      rw [Option.toList_some, List.flatMap_singleton]
      cases e with
      | array es span => exact declareArray_evaluates id es span
      | _ =>
        exact (valueSize_evaluates id).after fun _ => (bindStorage_evaluates id _).after fun _ =>
          (storable_opens _).before fun _ => .wrote _

theorem Target.plan_evaluates (e : Expr) (span : Span) (target : Target) :
    (target.plan options e span).Evaluates options c
      ((Stmt.assign target e span).roots options.raggedArrays) := by
  cases target with
  | ident name =>
    refine .ask (s := .lookup name) trivial fun id? => ?_
    cases id? with
    | none => exact .report _ _
    | some id =>
      cases e with
      | array es span => exact assignArray_evaluates id es span
      | _ => exact .ask (s := .symbol id) trivial fun _ => (storable_opens _).before fun _ => .wrote _
  | index base indices =>
    exact (value_evaluates base.plan_evaluates).bind fun _ => (indexPlans_evaluates indices).bind fun _ =>
      (storable_opens e).before fun _ => .wrote _
  | property object field =>
    exact (value_evaluates object.plan_evaluates).bind fun _ => (storable_opens e).before fun _ => .wrote _

theorem Stmt.plan_evaluates {s : Stmt} (hs : s.isPlain) :
    (s.plan options).Evaluates options c (s.roots options.raggedArrays) := by
  cases s with
  | declare b =>
    rw [plan]
    exact guarding_evaluates b.plan_evaluates
  | assign target e span =>
    rw [plan]
    exact guarding_evaluates (target.plan_evaluates e span)
  | print e span =>
    rw [plan]
    exact guarding_evaluates <| (argument_evaluates e.plan_evaluates).before fun _ => .wrote _
  | eval e span =>
    rw [plan]
    exact guarding_evaluates <| .ask trivial fun _ => e.plan_evaluates.before fun _ => .ask trivial fun _ =>
      .pure ()
  | «return» e span =>
    cases e with
    | none =>
      rw [plan]
      exact .wrote _
    | some e =>
      rw [plan]
      exact guarding_evaluates <| (value_evaluates e.plan_evaluates).before fun _ => .wrote _
  | _ => simp [isPlain] at hs

end Statements

section Found

variable {options : Options} {d d' : FullState} {v : Operand} {e e' : Expr}

theorem Expr.starts_of_mem (hr : (e.plan options).run d = .ok (v, d')) (hq : d'.problems = [])
    {x : Expr × FullState} (hx : x ∈ (e.plan options).evaluations d) :
    Starts options (d.context options) d' x := by
  induction e using Expr.parts_induction options.raggedArrays generalizing d v d' with
  | h e ih =>
    have hopens : e.Opens options (d.context options) := e.opens
    obtain ⟨inner, he, hi⟩ := hopens
    have hr' : inner.run d = .ok (v, d') := by rwa [he] at hr
    obtain ⟨starts, hes, hs, hinner⟩ := (hi hr' rfl).2.2 hq
    rw [he] at hx
    obtain rfl | hx : x = (e, d) ∨ x ∈ inner.evaluations d := List.mem_cons.1 hx
    · exact ⟨rfl, v, d', hr, .refl d'⟩
    · rw [hinner, List.mem_flatMap] at hx
      obtain ⟨y, hy, hx⟩ := hx
      obtain ⟨hc, w, σ, hrun, hσ⟩ := hs y hy
      obtain ⟨hc', u, τ, hrun', hτ⟩ := ih y.1 (hes ▸ List.mem_map_of_mem hy) hrun (hσ.quiet hq) hx
      exact ⟨hc'.trans hc, u, τ, hrun', hτ.trans hσ⟩

theorem Expr.Evaluates.exists_mem (h : e.Evaluates options.raggedArrays e')
    (hr : (e.plan options).run d = .ok (v, d')) (hq : d'.problems = []) :
    ∃ τ, (e', τ) ∈ (e.plan options).evaluations d := by
  induction h using Relation.ReflTransGen.head_induction_on generalizing d v d' with
  | refl =>
    have hopens : e'.Opens options (d.context options) := e'.opens
    obtain ⟨inner, he, _⟩ := hopens
    rw [he]
    exact ⟨d, .head _⟩
  | @head e₁ e₂ hp _ ih =>
    have hopens : e₁.Opens options (d.context options) := e₁.opens
    obtain ⟨inner, he, hi⟩ := hopens
    have hr' : inner.run d = .ok (v, d') := by rwa [he] at hr
    obtain ⟨starts, hes, hs, hinner⟩ := (hi hr' rfl).2.2 hq
    rw [← hes, List.mem_map] at hp
    obtain ⟨y, hy, rfl⟩ := hp
    obtain ⟨_, w, σ, hrun, hσ⟩ := hs y hy
    obtain ⟨τ, hτ⟩ := ih hrun (hσ.quiet hq)
    rw [he]
    refine ⟨τ, .tail _ ?_⟩
    change _ ∈ inner.evaluations d
    rw [hinner]
    exact List.mem_flatMap.2 ⟨y, hy, hτ⟩

end Found

end ThreeAddress
