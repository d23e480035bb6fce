import ThreeAddress.Proofs.Plans.Rules
import ThreeAddress.Proofs.Emission.Values
import ThreeAddress.Proofs.Literals.Shapes

namespace ThreeAddress

open Lowering Plan

def Setting.demand (p : Setting) : Demand := if p.wanted then .value else .effect

variable {options : Options} {c : Context} {p : Setting} {pre : Code}

theorem copyToTemp_does (v : Operand) : Does c p p [] id (copyToTemp v) (Lower.copyToTemp v) :=
  freshTemp_does.bind fun _ => .emit <| .done rfl

theorem ensureTemp_does (v : Operand) : Does c p p [] id (ensureTemp v) (Lower.ensureTemp v) := by
  rw [ensureTemp, Lower.ensureTemp]
  split
  · exact .done rfl
  · exact copyToTemp_does v

section Valued

variable {plan l r : Plan Operand} {act l' r' : Lower Valued}

theorem value_does (act : Demand → Lower Valued)
    (h : ∀ p : Setting, Does (p.context options) p p [] id plan (act p.demand)) :
    DoesValue options (value plan) (act .value) := by
  intro p
  have hact : act .value = act .value >>= pure := (bind_pure _).symm
  rw [hact]
  exact .want <| (h { p with wanted := true }).bind fun _ => .want <| .done rfl

theorem storable_does (h : DoesValue options (value plan) act) :
    DoesValue options (storable plan) (Lower.storable act) := by
  intro p
  refine (h p).bind fun (code, v) => ?_
  cases v with
  | var name => exact (copyToTemp_does _).after.bind fun _ => .done rfl
  | _ => exact .done rfl

theorem argument_does (h : DoesValue options (value plan) act) :
    DoesValue options (argument plan) (Lower.argument act) := fun p =>
  (h p).bind fun (_, v) => (copyToTemp_does v).after.last fun _ => .done rfl

theorem shortCircuit_does (op : LogicalOp) (hl : DoesValue options (value l) l')
    (hr : DoesValue options (value r) r') :
    DoesValue options (shortCircuit op l r) (Lower.shortCircuit op l' r') := by
  intro p
  refine (hl p).bind fun (first, left) => freshTemp_does.bind fun t => .emit <|
    freshLabel_does.bind fun done => .emit <| (hr p).after.bind fun (second, right) => ?_
  cases op <;> exact .emit <| .emit <| .done (by simp)

theorem choose_does {test : Plan Operand} {test' : Lower Valued}
    (h : DoesValue options (value test) test') (hl : DoesValue options (value l) l')
    (hr : DoesValue options (value r) r') :
    DoesValue options (choose test l r) (Lower.choose test' l' r') := fun p =>
  (h p).bind fun _ => freshLabel_does.bind fun _ => .emit <| freshLabel_does.bind fun _ =>
    .emit <| .emit <| (hl p).after.bind fun _ => freshTemp_does.bind fun _ => .emit <|
    freshLabel_does.bind fun _ => .emit <| .emit <| (hr p).after.bind fun _ => .emit <| .emit <|
    .done (by simp)

end Valued

theorem nameOperand_does (name : String) (span : Span) :
    Does (p.context options) p p pre (fun v => (pre, v)) (nameOperand name span)
      (Lower.nameOperand name span) := by
  refine (lookup_does name).bind fun id? => ?_
  cases id? with
  | some id => exact (symbol_does id).bind fun _ => .done rfl
  | none => exact (report_does _).bind fun _ => .done rfl

theorem receiverClass_does (e : Expr) :
    Does (p.context options) p p pre (fun owner => (pre, owner)) (receiverClass e)
      (Lower.receiverClass e) := by
  cases e with
  | this => exact fun _ _ => rfl
  | ident name span =>
    refine (lookup_does name).bind fun id? => ?_
    cases id? with
    | none => exact .done rfl
    | some id =>
      refine (symbol_does id).bind fun x => ?_
      dsimp only
      cases x.type <;> exact .done rfl
  | _ => exact .done rfl

theorem namedCallee_does (name : String) (span : Span) :
    Does (p.context options) p p [] (fun x => (x.code, x.name, x.receiver)) (namedCallee name span)
      (Lower.namedCallee name span) := by
  refine (lookup_does name).bind fun id? => ?_
  cases id? with
  | none => exact (report_does _).bind fun _ => .done rfl
  | some id =>
    refine (symbol_does id).bind fun x => ?_
    dsimp only
    split
    · exact (copyToTemp_does _).bind fun _ => .done rfl
    · exact .done rfl

theorem finishCall_does (callee : String) (params : List Operand) :
    Does c p p [] id (finishCall p.wanted callee params)
      (Lower.finishCall p.demand callee params) := by
  rw [Setting.demand]
  cases p.wanted with
  | true => exact freshTemp_does.bind fun _ => .emit <| .done rfl
  | false => exact .emit <| .done rfl

section Literals

def Expr.cellPlan (options : Options) : Expr → Nest (Plan Operand)
  | .array es _ => .row (cellPlans options es)
  | e => .leaf (storable (e.plan options))

theorem cellPlans_eq_map (es : List Expr) : cellPlans options es = es.map (Expr.cellPlan options) := by
  induction es with
  | nil => rw [cellPlans]; rfl
  | cons e rest ih => cases e <;> simp [cellPlans, Expr.cellPlan, ih]

theorem Expr.at?_cellPlan (options : Options) (e : Expr) (path : List Nat) :
    (e.cellPlan options).at? path = (e.at? path).map fun e => storable (e.plan options) := by
  induction path generalizing e with
  | nil => cases e <;> simp [cellPlan, Nest.at?, at?]
  | cons i path ih =>
    cases e with
    | array es span =>
      rw [cellPlan, cellPlans_eq_map, Nest.at?, at?, List.getElem?_map, Option.map_bind]
      cases es[i]? <;> simp [ih]
    | _ => simp [cellPlan, Nest.at?, at?]

/-- A plan and its action see the same form of every literal. -/
theorem Expr.cell_fits (options : Options) (e : Expr) : (e.cellPlan options).Fits e.cell := by
  cases e with
  | array es span =>
    rw [cellPlan, cell, cellPlans_eq_map, lowerCells_eq_map]
    refine .row ?_
    rw [List.forall₂_map_left_iff, List.forall₂_map_right_iff, List.forall₂_same]
    exact fun e _ => e.cell_fits options
  | _ => exact .leaf _ _

theorem literalShape_does {n : Nest (Plan Operand)} {n' : Nest (Lower Valued)} (h : n.Fits n')
    (name : String) (span : Span) :
    Does (p.context options) p p pre (fun shape => (pre, shape)) (literalShape options name span n)
      (Lower.literalShape name span n') := by
  refine .read ?_
  rw [literalShape, h.shape?]
  dsimp only [Setting.context]
  cases n'.shape? options.raggedArrays with
  | none => exact (report_does _).bind fun _ => .done rfl
  | some dims => exact .done rfl

def Expr.Planned (options : Options) (e : Expr) : Prop :=
  ∀ p : Setting, Does (p.context options) p p [] id (e.plan options) (e.lower p.demand)

theorem Expr.Planned.value {e : Expr} (h : e.Planned options) :
    DoesValue options (Plan.value (e.plan options)) (e.lower .value) :=
  value_does (fun d => e.lower d) h

theorem leafAt_does {es : List Expr} (h : ∀ e ∈ leavesAll es, e.Planned options) (zero : Operand)
    (path : List Nat) :
    DoesValue options (leafAt (.row (cellPlans options es)) zero path)
      (Lower.leafAt (.row (lowerCells es)) zero path) := by
  have hplan := (Expr.array es .unplaced).at?_cellPlan options path
  have hact := (Expr.array es .unplaced).at?_cell path
  rw [Expr.cellPlan] at hplan
  rw [Expr.cell] at hact
  rw [leafAt, Lower.leafAt, hplan, hact]
  cases he : (Expr.array es .unplaced).at? path with
  | none => exact fun p => copyToTemp_does zero
  | some e =>
    have := Expr.mem_leaves_of_at? he
    rw [Expr.leaves] at this
    exact storable_does (h e this).value

theorem mapM_does {f : γ → Plan Operand} {f' : γ → Lower Valued} (xs : List γ)
    (h : ∀ x ∈ xs, DoesValue options (f x) (f' x)) :
    Does (p.context options) p p [] (fun ys => (ys.flatMap (·.1), ys.map (·.2))) (xs.mapM f)
      (xs.mapM f') := by
  induction xs with
  | nil => exact .done rfl
  | cons x rest ih =>
    rw [List.mapM_cons, List.mapM_cons]
    exact (h x (by simp) p).bind fun _ => (ih fun y hy => h y (by simp [hy])).after.bind fun _ =>
      .done (by simp)

theorem Does.storeAll {p' : Setting} {out : α → Code × β} {plan : Plan β} {act : Lower α}
    {base : Operand} {stores : List (List Nat × Operand)}
    (h : Does c p p' (pre ++ stores.map fun x => Lower.elementStore base x.1 x.2) out plan act) :
    Does c p p' pre out (Plan.storeAll base stores >>= fun _ => plan) act := by
  induction stores generalizing pre with
  | nil => rwa [List.map_nil, List.append_nil] at h
  | cons x rest ih => exact .emit <| ih <| by simpa using h

theorem literalValue_does {es : List Expr} (h : ∀ e ∈ leavesAll es, e.Planned options) (span : Span) :
    DoesValue options (literalValue options (.row (cellPlans options es)) span)
      (Lower.literalValue (.row (lowerCells es)) span) := fun _ =>
  (literalShape_does ((Expr.array es span).cell_fits options) _ span).bind fun shape =>
    (mapM_does _ fun path _ => leafAt_does h _ path).bind fun values => freshTemp_does.bind fun _ =>
    .storeAll <| .done <| by
      simp [List.zip_map_right, List.map_zip_eq_zipWith]

end Literals

section Calls

theorem argPlans_does {es : List Expr} (h : ∀ e ∈ es, e.Planned options) :
    Does (p.context options) p p [] id (argPlans options es) (lowerArgs es) := by
  induction es with
  | nil =>
    rw [argPlans, lowerArgs]
    exact .done rfl
  | cons e rest ih =>
    rw [argPlans, lowerArgs]
    exact (argument_does (h e (by simp)).value p).bind fun _ =>
      (ih fun e he => h e (by simp [he])).after.bind fun _ => .done rfl

def calleePlan (options : Options) (span : Span) : Expr → Plan (String × List Operand)
  | .ident name _ => namedCallee name span
  | .property object method _ => do
    let owner ← receiverClass object
    let receiver ← argument (object.plan options)
    return (methodName owner method, [receiver])
  | other => do
    let v ← value (other.plan options)
    return (v.render, [])

theorem Expr.plan_call (callee : Expr) (args : List Expr) (span : Span) :
    (Expr.call callee args span).plan options = valueOf (.call callee args span) (do
      let wanted ← of .isWanted
      let (name, receiver) ← calleePlan options span callee
      let params ← argPlans options args
      finishCall wanted name (receiver ++ params)) := by
  cases callee <;> simp [Expr.plan, calleePlan]

theorem calleePlan_does {callee : Expr} (span : Span) (h : callee.Planned options)
    (ho : ∀ object method at_, callee = .property object method at_ → object.Planned options) :
    Does (p.context options) p p [] (fun x => (x.code, x.name, x.receiver))
      (calleePlan options span callee) (Lower.lowerCallee span callee) := by
  cases callee with
  | ident name at_ => exact namedCallee_does name span
  | property object method at_ =>
    exact (receiverClass_does object).bind fun owner =>
      (argument_does (ho object method at_ rfl).value p).bind fun _ => .done rfl
  | _ => exact (h.value p).bind fun _ => .done rfl

end Calls

theorem Expr.plan_does (e : Expr) : e.Planned options := by
  induction e with
  | int | str | bool | null =>
    intro p
    rw [Expr.plan, Expr.lower]
    exact .valueOf <| copyToTemp_does _
  | ident name span =>
    intro p
    rw [Expr.plan, Expr.lower]
    exact .valueOf <| (nameOperand_does name span).last fun _ => .done rfl
  | this span =>
    intro p
    rw [Expr.plan, Expr.lower]
    exact .valueOf <| .done rfl
  | array es span ih =>
    intro p
    rw [Expr.plan, Expr.lower]
    exact .valueOf <| literalValue_does ih span p
  | binary l op r span ihl ihr =>
    intro p
    rw [Expr.plan, Expr.lower]
    exact .valueOf <| (ihl.value p).bind fun _ => (ihr.value p).after.bind fun _ =>
      freshTemp_does.bind fun _ => .emit <| .done rfl
  | unary op e span ih =>
    intro p
    rw [Expr.plan, Expr.lower]
    exact .valueOf <| (ih.value p).bind fun _ => freshTemp_does.bind fun _ => .emit <| .done rfl
  | logical l op r span ihl ihr =>
    intro p
    rw [Expr.plan, Expr.lower]
    exact .valueOf <| shortCircuit_does op ihl.value ihr.value p
  | ternary t a b span iht iha ihb =>
    intro p
    rw [Expr.plan, Expr.lower]
    exact .valueOf <| choose_does iht.value iha.value ihb.value p
  | call callee args span ihc iho iha =>
    intro p
    rw [Expr.plan_call, Expr.lower_call]
    exact .valueOf <| .isWanted <| (calleePlan_does span ihc iho).bind fun _ =>
      (argPlans_does iha).after.bind fun _ =>
      (finishCall_does _ _).after.last fun _ => .done (by simp)
  | new name args span ih =>
    intro p
    rw [Expr.plan, Expr.lower]
    exact .valueOf <| (argPlans_does ih).bind fun _ => freshTemp_does.bind fun _ => .emit <| .done rfl
  | index base i span ihb ihi =>
    intro p
    rw [Expr.plan, Expr.lower]
    exact .valueOf <| (ihb.value p).bind fun _ => (ihi.value p).after.bind fun _ =>
      (ensureTemp_does _).after.bind fun _ => freshTemp_does.bind fun _ => .emit <| .done (by simp)
  | property object field span ih =>
    intro p
    rw [Expr.plan, Expr.lower]
    exact .valueOf <| (ih.value p).bind fun _ => freshTemp_does.bind fun _ => .emit <| .done rfl

theorem Expr.headerPlan_does (e : Expr) : DoesValue options (value (e.headerPlan options)) (e.lower .value) :=
  value_does (fun d => e.lower d) fun p => .begins (e.plan_does p)

end ThreeAddress
