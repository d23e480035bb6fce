import ThreeAddress.Proofs.Plans.Statements
import ThreeAddress.Proofs.Headers.Collected
import ThreeAddress.Proofs.Headers.Views
import ThreeAddress.Proofs.Reports.Values

namespace ThreeAddress

open Plan

open Plan.Stays (ask)

variable {options : Options} {T T' : Table} {v : View T T'} {post : α → Prop}

namespace Plan

section Values

variable {l r test : Plan Operand}

theorem copyToTemp_keepsTo (x : Operand) : (copyToTemp x).KeepsTo v :=
  ask trivial fun _ _ => .emit <| .pure trivial

theorem ensureTemp_keepsTo (x : Operand) : (ensureTemp x).KeepsTo v := by
  rw [ensureTemp]
  split
  · exact .pure trivial
  · exact copyToTemp_keepsTo x

theorem value_keepsTo (h : l.KeepsTo v) : (value l).KeepsTo v :=
  ask trivial fun _ _ => h.seq fun _ => ask trivial fun _ _ => .pure trivial

theorem storable_keepsTo (h : l.KeepsTo v) : (storable l).KeepsTo v := by
  refine (value_keepsTo h).seq fun x => ?_
  cases x with
  | var name => exact copyToTemp_keepsTo _
  | _ => exact .pure trivial

theorem argument_keepsTo (h : l.KeepsTo v) : (argument l).KeepsTo v :=
  (value_keepsTo h).seq fun _ => copyToTemp_keepsTo _

theorem finishCall_keepsTo (wanted : Bool) (callee : String) (params : List Operand) :
    (finishCall wanted callee params).KeepsTo v := by
  rw [finishCall]
  split
  · exact ask trivial fun _ _ => .emit <| .pure trivial
  · exact .emit <| .pure trivial

theorem shortCircuit_keepsTo (op : LogicalOp) (hl : l.KeepsTo v) (hr : r.KeepsTo v) :
    (shortCircuit op l r).KeepsTo v :=
  (value_keepsTo hl).seq fun _ => ask trivial fun _ _ => .emit <| ask trivial fun _ _ => .emit <|
    (value_keepsTo hr).seq fun _ => .emit <| .emit <| .pure trivial

theorem choose_keepsTo (h : test.KeepsTo v) (hl : l.KeepsTo v) (hr : r.KeepsTo v) :
    (choose test l r).KeepsTo v :=
  (value_keepsTo h).seq fun _ => ask trivial fun _ _ => .emit <| ask trivial fun _ _ => .emit <| .emit <|
    (value_keepsTo hl).seq fun _ => ask trivial fun _ _ => .emit <| ask trivial fun _ _ => .emit <| .emit <|
    (value_keepsTo hr).seq fun _ => .emit <| .emit <| .pure trivial

end Values

section Names

variable {name : String} {span : Span}

theorem lookup_stays {f : Option SymbolId → Plan α} (hn : v.names name) (h : (f none).Stays v post)
    (k : ∀ id, v.ids id → (f (some id)).Stays v post) : (of (.lookup name) >>= f).Stays v post :=
  ask hn fun id? hid => by
    cases id? with
    | none => exact h
    | some id => exact k id (hid id rfl)

theorem nameOperand_keepsTo (hn : v.names name) : (nameOperand name span).KeepsTo v :=
  lookup_stays hn (Stays.report _ |>.seq fun _ => .pure trivial) fun _ hid =>
    ask hid fun _ _ => .pure trivial

theorem receiverClass_keepsTo {e : Expr} (hn : ∀ u ∈ e.uses, v.names u.1) : (receiverClass e).KeepsTo v := by
  cases e with
  | this => exact (Stays.of (s := .className) trivial).keepsTo
  | ident name span =>
    refine lookup_stays (hn (name, span) (by simp [Expr.uses])) (.pure trivial) fun id hid =>
      ask hid fun x _ => ?_
    cases x.type <;> exact .pure trivial
  | _ => exact .pure trivial

theorem namedCallee_keepsTo (hn : v.names name) : (namedCallee name span).KeepsTo v := by
  refine lookup_stays hn (Stays.report _ |>.seq fun _ => .pure trivial) fun id hid => ask hid fun x _ => ?_
  split
  · exact (copyToTemp_keepsTo _).seq fun _ => .pure trivial
  · exact .pure trivial

end Names

section Literals

theorem literalShape_keepsTo (name : String) (span : Span) (literal : Nest (Plan Operand)) :
    (literalShape options name span literal).KeepsTo v := by
  rw [literalShape]
  split
  · exact .pure trivial
  · exact (Stays.report _).seq fun _ => .pure trivial

theorem leafAt_keepsTo {es : List Expr} (h : ∀ e ∈ leavesAll es, (e.plan options).KeepsTo v)
    (zero : Operand) (path : List Nat) :
    (leafAt (.row (cellPlans options es)) zero path).KeepsTo v := by
  have hplan := (Expr.array es .unplaced).at?_cellPlan options path
  rw [Expr.cellPlan] at hplan
  rw [leafAt, hplan]
  cases he : (Expr.array es .unplaced).at? path with
  | none => exact copyToTemp_keepsTo zero
  | some e =>
    have := Expr.mem_leaves_of_at? he
    rw [Expr.leaves] at this
    exact storable_keepsTo (h e this)

theorem storeAll_keepsTo (base : Operand) (stores : List (List Nat × Operand)) :
    (storeAll base stores).KeepsTo v := by
  induction stores with
  | nil => exact .pure trivial
  | cons x rest ih => exact .emit ih

theorem literalValue_keepsTo {es : List Expr} (h : ∀ e ∈ leavesAll es, (e.plan options).KeepsTo v)
    (span : Span) : (literalValue options (.row (cellPlans options es)) span).KeepsTo v :=
  (literalShape_keepsTo ..).seq fun _ => (Stays.mapM fun path _ => leafAt_keepsTo h _ path).seq fun _ =>
    ask trivial fun _ _ => (storeAll_keepsTo ..).seq fun _ => .pure trivial

end Literals

end Plan

section Expressions

theorem mem_usesAll {es : List Expr} {e : Expr} {u : Use} (he : e ∈ es) (hu : u ∈ e.uses) :
    u ∈ usesAll es := by
  induction es with
  | nil => cases he
  | cons e₀ rest ih =>
    rw [usesAll, List.mem_append]
    cases he with
    | head => exact .inl hu
    | tail _ he => exact .inr (ih he)

theorem argPlans_keepsTo {es : List Expr} (h : ∀ e ∈ es, (e.plan options).KeepsTo v) :
    (argPlans options es).KeepsTo v := by
  induction es with
  | nil =>
    rw [argPlans]
    exact .pure trivial
  | cons e rest ih =>
    rw [argPlans]
    exact (argument_keepsTo (h e (by simp))).seq fun _ =>
      (ih fun e he => h e (by simp [he])).seq fun _ => .pure trivial

theorem calleePlan_keepsTo {callee : Expr} {span : Span} (hn : ∀ u ∈ callee.uses, v.names u.1)
    (h : (callee.plan options).KeepsTo v)
    (ho : ∀ object method at_, callee = .property object method at_ → (object.plan options).KeepsTo v) :
    (calleePlan options span callee).KeepsTo v := by
  cases callee with
  | ident name at_ => exact namedCallee_keepsTo (hn (name, at_) (by simp [Expr.uses]))
  | property object method at_ =>
    rw [Expr.uses] at hn
    exact (receiverClass_keepsTo hn).seq fun _ => (argument_keepsTo (ho object method at_ rfl)).seq fun _ =>
      .pure trivial
  | _ => exact (value_keepsTo h).seq fun _ => .pure trivial

theorem Expr.plan_keepsTo {e : Expr} (hn : ∀ u ∈ e.uses, v.names u.1) : (e.plan options).KeepsTo v := by
  induction e with
  | int | str | bool | null =>
    rw [plan]
    exact .valueOf <| copyToTemp_keepsTo _
  | ident name span =>
    rw [plan]
    exact .valueOf <| nameOperand_keepsTo (hn (name, span) (by simp [uses]))
  | this =>
    rw [plan]
    exact .valueOf <| .pure trivial
  | array es span ih =>
    rw [uses] at hn
    rw [plan]
    exact .valueOf <| literalValue_keepsTo (fun e he => ih e he fun u hu => hn u (usesAll_of_leaf es e he u hu))
      span
  | binary l op r span ihl ihr =>
    rw [uses, List.forall_mem_append] at hn
    rw [plan]
    exact .valueOf <| (value_keepsTo (ihl hn.1)).seq fun _ => (value_keepsTo (ihr hn.2)).seq fun _ =>
      ask trivial fun _ _ => .emit <| .pure trivial
  | unary op e span ih =>
    rw [uses] at hn
    rw [plan]
    exact .valueOf <| (value_keepsTo (ih hn)).seq fun _ => ask trivial fun _ _ => .emit <| .pure trivial
  | logical l op r span ihl ihr =>
    rw [uses, List.forall_mem_append] at hn
    rw [plan]
    exact .valueOf <| shortCircuit_keepsTo op (ihl hn.1) (ihr hn.2)
  | ternary t a b span iht iha ihb =>
    rw [uses, List.forall_mem_append, List.forall_mem_append] at hn
    rw [plan]
    exact .valueOf <| choose_keepsTo (iht hn.1.1) (iha hn.1.2) (ihb hn.2)
  | call callee args span ihc iho iha =>
    rw [uses, List.forall_mem_append] at hn
    rw [plan_call]
    refine .valueOf <| ask trivial fun _ _ => (calleePlan_keepsTo hn.1 (ihc hn.1)
      fun object method at_ ho => ?_).seq
      fun _ => (argPlans_keepsTo fun e he => iha e he fun u hu => hn.2 u (mem_usesAll he hu)).seq fun _ =>
      finishCall_keepsTo ..
    refine iho object method at_ ho ?_
    rw [ho, uses] at hn
    exact hn.1
  | new name args span ih =>
    rw [uses, List.forall_mem_cons] at hn
    rw [plan]
    exact .valueOf <| (argPlans_keepsTo fun e he => ih e he fun u hu => hn.2 u (mem_usesAll he hu)).seq fun _ =>
      ask trivial fun _ _ => .emit <| .pure trivial
  | index base i span ihb ihi =>
    rw [uses, List.forall_mem_append] at hn
    rw [plan]
    exact .valueOf <| (value_keepsTo (ihb hn.1)).seq fun _ => (value_keepsTo (ihi hn.2)).seq fun _ =>
      (ensureTemp_keepsTo _).seq fun _ => ask trivial fun _ _ => .emit <| .pure trivial
  | property object field span ih =>
    rw [uses] at hn
    rw [plan]
    exact .valueOf <| (value_keepsTo (ih hn)).seq fun _ => ask trivial fun _ _ => .emit <| .pure trivial

theorem Expr.headerPlan_keepsTo {e : Expr} (hn : ∀ u ∈ e.uses, v.names u.1) :
    (e.headerPlan options).KeepsTo v := .begins (e.plan_keepsTo hn)

end Expressions

namespace Plan

section Storage

variable {name : String} {span : Span} {id : SymbolId} {es : List Expr}

theorem guarding_keepsTo {uses : List Use} {whole : Span} {act : Plan Unit}
    (hn : ∀ u ∈ uses, v.names u.1) (h : act.KeepsTo v) : (guarding uses whole act).KeepsTo v := by
  have hmissing (u : Use) (hu : u ∈ uses) :
      (of (.lookup u.1) >>= fun id? => pure id?.isNone : Plan Bool).KeepsTo v :=
    ask (s := .lookup u.1) (hn u hu) fun _ _ => .pure trivial
  have hcheck : (checkNames uses whole).KeepsTo v :=
    (Stays.filterM hmissing).seq fun _ => (Stays.forM fun _ _ => .report _).seq fun _ => .pure trivial
  refine hcheck.seq fun ok => ?_
  cases ok with
  | true => exact h
  | false => exact .pure trivial

theorem valueSize_keepsTo (hid : v.ids id) : (valueSize options id).KeepsTo v :=
  ask hid fun _ _ => .pure trivial

theorem bindStorage_keepsTo (hid : v.ids id) (size : Nat) : (bindStorage id size).KeepsTo v :=
  ask trivial fun offset _ => (Stays.of (s := .place id offset size) hid).keepsTo

theorem bindLocal_keepsTo (hn : v.names name) : (bindLocal options name span).KeepsTo v :=
  lookup_stays hn (.report _) fun _ hid => (valueSize_keepsTo hid).seq fun _ => bindStorage_keepsTo hid _

theorem bindParam_keepsTo {p : Param} (hn : v.locals p.name) : (bindParam options p).KeepsTo v :=
  ask hn fun id? hid => by
    cases id? with
    | none => exact .report _
    | some id => exact (valueSize_keepsTo (hid id rfl)).seq fun _ => bindStorage_keepsTo (hid id rfl) _

variable (he : ∀ e ∈ leavesAll es, (e.plan options).KeepsTo v)

include he

theorem storeElements_keepsTo (base : Operand) (dims : List Nat) (zero : Operand) :
    (storeElements base (.row (cellPlans options es)) dims zero).KeepsTo v :=
  Stays.forM fun path _ => (leafAt_keepsTo he zero path).seq fun _ => .wrote _

theorem declareArray_keepsTo (hid : v.ids id) : (declareArray options id es span).KeepsTo v := by
  refine ask hid fun x _ => (literalShape_keepsTo ..).seq fun dims? => ?_
  cases dims? with
  | none => exact bindStorage_keepsTo hid _
  | some dims =>
    exact ask trivial fun size _ => ask (s := .extend id dims) hid fun _ _ =>
      (bindStorage_keepsTo hid size).seq fun _ => storeElements_keepsTo he ..

theorem assignArray_keepsTo (hid : v.ids id) : (assignArray options id es span).KeepsTo v := by
  refine ask hid fun x _ => (literalShape_keepsTo ..).seq fun dims? => ?_
  cases dims? with
  | none => exact .pure trivial
  | some dims => exact storeElements_keepsTo he ..

end Storage

section Control

variable {test : Plan Operand} {body other first step : Plan Unit} {span : Span}

theorem enterScope_stays (hk : v.keys span.toPosition) : (enterScope span).Stays v v.scopes :=
  ask trivial fun outer ho => ask hk fun i? hi => by
    cases i? with
    | none => exact .pure ho
    | some i => exact ask (s := .moveTo i) (hi i rfl) fun _ _ => .pure ho

theorem block_keepsTo (hk : v.keys span.toPosition) (h : body.KeepsTo v) : (block span body).KeepsTo v :=
  (enterScope_stays hk).bind fun outer ho => h.seq fun _ => (Stays.of (s := .moveTo outer) ho).keepsTo

theorem placeLabel_keepsTo (l : Option Label) : (placeLabel l).KeepsTo v := by
  cases l with
  | none => exact .pure trivial
  | some l => exact .wrote _

theorem gotoBreak_keepsTo : gotoBreak.KeepsTo v :=
  ask trivial fun l? _ => by
    cases l? with
    | none => exact .pure trivial
    | some l => exact .wrote _

theorem ifThen_keepsTo (ht : test.KeepsTo v) (hb : body.KeepsTo v) : (ifThen test body).KeepsTo v :=
  (value_keepsTo ht).seq fun _ => ask trivial fun _ _ => .emit <| hb.seq fun _ => .wrote _

theorem ifThenElse_keepsTo (ht : test.KeepsTo v) (hb : body.KeepsTo v) (ho : other.KeepsTo v) :
    (ifThenElse test body other).KeepsTo v :=
  (value_keepsTo ht).seq fun _ => ask trivial fun _ _ => .emit <| hb.seq fun _ => ask trivial fun _ _ =>
    .emit <| .emit <| ho.seq fun _ => .wrote _

theorem whileLoop_keepsTo (ht : test.KeepsTo v) (hb : body.KeepsTo v) : (whileLoop test body).KeepsTo v :=
  ask trivial fun _ _ => .emit <| (value_keepsTo ht).seq fun _ => ask trivial fun _ _ => .emit <|
    ask trivial fun _ _ => hb.seq fun _ => .emit <| ask trivial fun _ _ => .wrote _

theorem doWhile_keepsTo (hb : body.KeepsTo v) (ht : test.KeepsTo v) : (doWhile body test).KeepsTo v :=
  ask trivial fun _ _ => .emit <| ask trivial fun _ _ => hb.seq fun _ => (value_keepsTo ht).seq fun _ =>
    .emit <| ask trivial fun _ _ => placeLabel_keepsTo _

theorem loopTest_keepsTo {test : Option (Plan Operand)} (ht : ∀ t ∈ test, t.KeepsTo v) :
    (loopTest test).KeepsTo v := by
  cases test with
  | none => exact .pure trivial
  | some test =>
    exact (value_keepsTo (ht test rfl)).seq fun _ => ask trivial fun _ _ => .emit <| .pure trivial

theorem forLoop_keepsTo {test : Option (Plan Operand)} (hasStep : Bool) (hk : v.keys span.toPosition)
    (hf : first.KeepsTo v) (ht : ∀ t ∈ test, t.KeepsTo v) (hs : step.KeepsTo v) (hb : body.KeepsTo v) :
    (forLoop span first test hasStep step body).KeepsTo v :=
  (enterScope_stays hk).bind fun outer ho => hf.seq fun _ => ask trivial fun _ _ => .emit <|
    (loopTest_keepsTo ht).seq fun _ => ask trivial fun _ _ => hb.seq fun _ => ask trivial fun _ _ =>
    (placeLabel_keepsTo _).seq fun _ => hs.seq fun _ => .emit <| (placeLabel_keepsTo _).seq fun _ =>
    (Stays.of (s := .moveTo outer) ho).keepsTo

theorem loopBound_keepsTo {e : Expr} (hn : ∀ u ∈ e.uses, v.names u.1) (x : Operand) :
    (loopBound e x).KeepsTo v := by
  cases e with
  | ident name span =>
    exact lookup_stays (hn (name, span) (by simp [Expr.uses])) (.pure trivial) fun id hid =>
      ask hid fun _ _ => .pure trivial
  | _ => exact .pure trivial

theorem indexLoop_keepsTo {base bound : Operand} {item : String} {itemSpan : Span} (hn : v.names item)
    (hb : body.KeepsTo v) : (indexLoop options base bound item itemSpan body).KeepsTo v :=
  (copyToTemp_keepsTo _).seq fun _ => (copyToTemp_keepsTo _).seq fun _ => (bindLocal_keepsTo hn).seq fun _ =>
    ask trivial fun _ _ => .emit <| ask trivial fun _ _ => .emit <| ask trivial fun _ _ => .emit <|
    ask trivial fun _ _ => .emit <| .emit <| ask trivial fun _ _ => hb.seq fun _ => ask trivial fun _ _ =>
    (placeLabel_keepsTo _).seq fun _ => .emit <| .emit <| .wrote _

theorem caseBody_keepsTo (l : Label) (isEmpty : Bool) (hb : body.KeepsTo v) :
    (caseBody options l isEmpty body).KeepsTo v := by
  refine .emit <| hb.seq fun _ => ask trivial fun jumps _ => ?_
  split
  · exact gotoBreak_keepsTo
  · exact .pure trivial

theorem jump_keepsTo {target : Plan (Option Label)} (ht : target.KeepsTo v) (problem : Problem) :
    (jump target problem).KeepsTo v := by
  refine ht.seq fun l? => ?_
  cases l? with
  | none => exact .report _
  | some l => exact .wrote _

theorem tryCatch_keepsTo {caught : String} {handlerSpan : Span} {handler : Plan Unit}
    (hk : v.keys handlerSpan.toPosition) (hn : v.names caught) (hb : body.KeepsTo v)
    (hh : handler.KeepsTo v) :
    (tryCatch options body caught span handlerSpan handler).KeepsTo v :=
  ask trivial fun _ _ => .emit <| hb.seq fun _ => .emit <| ask trivial fun _ _ => .emit <| .emit <|
    (block_keepsTo hk <| (bindLocal_keepsTo hn).seq fun _ => .emit hh).seq fun _ => .wrote _

theorem inherited_keepsTo {parent : Option String} (hn : ∀ name, v.names name) :
    (inherited parent).KeepsTo v := by
  cases parent with
  | none => exact .pure trivial
  | some parent =>
    exact lookup_stays (hn parent) (.pure trivial) fun id hid => ask hid fun _ _ => .pure trivial

theorem reserve_keepsTo (size : Nat) : (reserve size).KeepsTo v := by
  rw [reserve]
  split
  · exact ask trivial fun _ _ => .pure trivial
  · exact .pure trivial

theorem atMembers_keepsTo {members : Option Nat} (hm : ∀ i ∈ members, v.scopes i) (hb : body.KeepsTo v) :
    (atMembers members body).KeepsTo v := by
  cases members with
  | none => exact hb
  | some i => exact ask (s := .moveTo i) (hm i rfl) fun _ _ => hb

theorem functionFrame_keepsTo {name : String} {params : List Param} (hn : v.names name)
    (hl : ∀ name, v.locals name) (hb : body.KeepsTo v) :
    (functionFrame options name params span body).KeepsTo v :=
  lookup_stays hn (.report _) fun id hid => ask hid fun _ hx => ask trivial fun outer ho =>
    ask trivial fun function _ => ask trivial fun _ _ => .emit <|
    (atMembers_keepsTo hx <| (Stays.forM fun p _ => bindParam_keepsTo (hl p.name)).seq fun _ => hb).seq
    fun _ => .emit <| ask trivial fun frame _ =>
    ask (s := .closeFunction id params.length frame) hid fun _ _ => ask (s := .moveTo outer) ho fun _ _ =>
    (Stays.of (s := .exitFunction function) trivial).keepsTo

theorem classFrame_keepsTo {name : String} {parent : Option String} (hn : ∀ name, v.names name)
    (hb : body.KeepsTo v) : (classFrame name parent span body).KeepsTo v :=
  lookup_stays (hn name) (.report _) fun id hid => ask hid fun _ hx => (inherited_keepsTo hn).seq fun size =>
    ask trivial fun outer ho => ask trivial fun className _ => ask trivial fun _ _ => .emit <|
    (reserve_keepsTo size).seq fun _ => (atMembers_keepsTo hx hb).seq fun _ => .emit <|
    ask trivial fun frame _ => ask (s := .closeClass id frame) hid fun _ _ =>
    ask (s := .moveTo outer) ho fun _ _ => (Stays.of (s := .exitClass className) trivial).keepsTo

theorem caseTests_keepsTo (subject : Operand) (cases : List Case) (hn : ∀ name, v.names name) :
    (caseTests options subject cases).KeepsTo v := by
  induction cases with
  | nil => exact .pure trivial
  | cons k rest ih =>
    exact (value_keepsTo (.begins (Expr.plan_keepsTo fun u _ => hn u.1))).seq fun _ => ask trivial fun _ _ =>
      .emit <| ih.seq fun _ => .pure trivial

theorem switch_keepsTo {subject : Plan Operand} {cases : List Case} {bodies : List Label → Plan Unit}
    {default : Option (Plan Unit)} (hn : ∀ name, v.names name) (hs : subject.KeepsTo v)
    (hb : ∀ labels, (bodies labels).KeepsTo v) (hd : ∀ body ∈ default, body.KeepsTo v) :
    (switch options subject cases bodies default).KeepsTo v := by
  refine (value_keepsTo hs).seq fun _ => (ensureTemp_keepsTo _).seq fun _ =>
    (caseTests_keepsTo _ cases hn).seq fun labels => ask trivial fun _ _ => ?_
  cases default with
  | none =>
    exact gotoBreak_keepsTo.seq fun _ => (hb labels).seq fun _ => ask trivial fun _ _ =>
      placeLabel_keepsTo _
  | some body =>
    exact ask trivial fun _ _ => .emit <| (hb labels).seq fun _ => .emit <| (hd body rfl).seq fun _ =>
      ask trivial fun _ _ => placeLabel_keepsTo _

end Control

end Plan

section Statements

variable (hn : ∀ name, v.names name)

include hn

theorem indexPlans_keepsTo (es : List Expr) : (indexPlans options es).KeepsTo v := by
  induction es with
  | nil => exact .pure trivial
  | cons e rest ih =>
    exact (value_keepsTo (Expr.plan_keepsTo fun u _ => hn u.1)).seq fun _ =>
      (ensureTemp_keepsTo _).seq fun _ => ih.seq fun _ => .pure trivial

theorem Expr.plan_keepsTo_all (e : Expr) : (e.plan options).KeepsTo v := e.plan_keepsTo fun u _ => hn u.1

theorem Expr.headerPlan_keepsTo_all (e : Expr) : (e.headerPlan options).KeepsTo v :=
  e.headerPlan_keepsTo fun u _ => hn u.1

theorem Binding.plan_keepsTo (b : Binding) : (b.plan options).KeepsTo v := by
  refine lookup_stays (hn b.name) (.report _) fun id hid => ?_
  have sized : ((valueSize options id) >>= fun size => bindStorage id size).KeepsTo v :=
    (valueSize_keepsTo hid).seq fun _ => bindStorage_keepsTo hid _
  cases b.value with
  | none => exact sized
  | some e =>
    cases e with
    | array es span => exact declareArray_keepsTo (fun e _ => e.plan_keepsTo_all hn) hid
    | _ =>
      exact (valueSize_keepsTo hid).seq fun _ => (bindStorage_keepsTo hid _).seq fun _ =>
        (storable_keepsTo (Expr.plan_keepsTo_all hn _)).seq fun _ => .wrote _

theorem Target.plan_keepsTo (e : Expr) (span : Span) (target : Target) :
    (target.plan options e span).KeepsTo v := by
  have stored : (storable (e.plan options)).KeepsTo v := storable_keepsTo (e.plan_keepsTo_all hn)
  cases target with
  | ident name =>
    refine lookup_stays (hn name) (.report _) fun id hid => ?_
    cases e with
    | array es span => exact assignArray_keepsTo (fun e _ => e.plan_keepsTo_all hn) hid
    | _ => exact ask hid fun x _ => stored.seq fun _ => .wrote _
  | index base indices =>
    exact (value_keepsTo (base.plan_keepsTo_all hn)).seq fun _ => (indexPlans_keepsTo hn indices).seq fun _ =>
      stored.seq fun _ => .wrote _
  | property object field =>
    exact (value_keepsTo (object.plan_keepsTo_all hn)).seq fun _ => stored.seq fun _ => .wrote _

omit hn in
theorem planAll_keepsTo {body : List Stmt} (h : ∀ s ∈ body, (s.plan options).KeepsTo v) :
    (planAll options body).KeepsTo v := by
  induction body with
  | nil =>
    rw [planAll]
    exact .pure trivial
  | cons s rest ih =>
    rw [planAll]
    exact Stays.begins (h s (by simp)) |>.seq fun _ => ih fun s hs => h s (by simp [hs])

omit hn in
theorem casePlans_keepsTo {cases : List Case} (labels : List Label)
    (h : ∀ k ∈ cases, (planAll options k.body).KeepsTo v) : (casePlans options cases labels).KeepsTo v := by
  induction cases generalizing labels with
  | nil =>
    rw [casePlans]
    · exact .pure trivial
    · simp
  | cons k rest ih =>
    obtain ⟨value, body, span⟩ := k
    cases labels with
    | nil =>
      rw [casePlans]
      · exact .pure trivial
      · simp
    | cons l labels =>
      rw [casePlans]
      have hbody : (planAll options body).KeepsTo v := h ⟨value, body, span⟩ (by simp)
      exact (caseBody_keepsTo l _ hbody).seq fun _ => ih labels fun k hk => h k (by simp [hk])

theorem Member.plan_keepsTo (hl : ∀ name, v.locals name) {m : Member}
    (h : ∀ f, m = .method f → (planAll options f.body.body).KeepsTo v) : (m.plan options).KeepsTo v := by
  cases m with
  | field b =>
    rw [Member.plan]
    exact .begins <| guarding_keepsTo (fun u _ => hn u.1) (b.plan_keepsTo hn)
  | method f =>
    have hf := h f rfl
    obtain ⟨name, params, result, ⟨body, at_⟩, span⟩ := f
    rw [Member.plan, Function.plan, Block.plan]
    exact .begins <| functionFrame_keepsTo (hn name) hl hf

omit hn in
theorem memberPlans_keepsTo {members : List Member} (h : ∀ m ∈ members, (m.plan options).KeepsTo v) :
    (memberPlans options members).KeepsTo v := by
  induction members with
  | nil =>
    rw [memberPlans]
    exact .pure trivial
  | cons m rest ih =>
    rw [memberPlans]
    exact (h m (by simp)).seq fun _ => ih fun m hm => h m (by simp [hm])

theorem Stmt.plan_keepsTo (hl : ∀ name, v.locals name) {s : Stmt} (hk : ∀ key ∈ s.keys, v.keys key) :
    (s.plan options).KeepsTo v := by
  have value (e : Expr) : (e.plan options).KeepsTo v := e.plan_keepsTo_all hn
  have header (e : Expr) : (e.headerPlan options).KeepsTo v := e.headerPlan_keepsTo_all hn
  -- a body is planned in steps of its statements, whose keys are among its own
  have all {body : List Stmt} (ih : ∀ s ∈ body, (∀ key ∈ s.keys, v.keys key) → (s.plan options).KeepsTo v)
      (hk : ∀ key ∈ keysAll body, v.keys key) : (planAll options body).KeepsTo v := by
    rw [keysAll_eq, List.forall_mem_flatMap] at hk
    exact planAll_keepsTo fun s hs => ih s hs (hk s hs)
  have option {s : Option Stmt} (ih : ∀ s' ∈ s, (∀ key ∈ s'.keys, v.keys key) → (s'.plan options).KeepsTo v)
      (hk : ∀ key ∈ keysOption s, v.keys key) : (optionPlan options s).KeepsTo v := by
    cases s with
    | none =>
      rw [optionPlan]
      exact .pure trivial
    | some s =>
      rw [optionPlan]
      exact .begins (ih s rfl hk)
  induction s with
  | declare b =>
    rw [plan]
    exact guarding_keepsTo (fun u _ => hn u.1) (b.plan_keepsTo hn)
  | assign target e span =>
    rw [plan]
    exact guarding_keepsTo (fun u _ => hn u.1) (target.plan_keepsTo hn e span)
  | print e span =>
    rw [plan]
    exact guarding_keepsTo (fun u _ => hn u.1) <| (argument_keepsTo (value e)).seq fun _ => .wrote _
  | eval e span =>
    rw [plan]
    exact guarding_keepsTo (fun u _ => hn u.1) <| ask trivial fun _ _ => (value e).seq fun _ =>
      ask trivial fun _ _ => .pure trivial
  | ret e span =>
    cases e with
    | none =>
      rw [plan]
      exact .wrote _
    | some e =>
      rw [plan]
      exact guarding_keepsTo (fun u _ => hn u.1) <| (value_keepsTo (value e)).seq fun _ => .wrote _
  | block b ih =>
    obtain ⟨body, at_⟩ := b
    rw [keys, Block.keys_eq, List.forall_mem_cons] at hk
    rw [plan, Block.plan]
    exact block_keepsTo hk.1 (all ih hk.2)
  | ite c yes no span ihy ihn =>
    obtain ⟨body, at_⟩ := yes
    rw [keys, List.forall_mem_append, Block.keys_eq, List.forall_mem_cons] at hk
    have hy : (Plan.block at_ (planAll options body)).KeepsTo v := block_keepsTo hk.1.1 (all ihy hk.1.2)
    cases no with
    | none =>
      rw [plan, Block.plan]
      exact ifThen_keepsTo (header c) hy
    | some no =>
      obtain ⟨other, other_at⟩ := no
      rw [keysElse, Block.keys_eq, List.forall_mem_cons] at hk
      rw [plan, Block.plan, Block.plan]
      exact ifThenElse_keepsTo (header c) hy (block_keepsTo hk.2.1 (all (ihn _ rfl) hk.2.2))
  | loop c body span ih =>
    obtain ⟨body, at_⟩ := body
    rw [keys, Block.keys_eq, List.forall_mem_cons] at hk
    rw [plan, Block.plan]
    exact whileLoop_keepsTo (header c) (block_keepsTo hk.1 (all ih hk.2))
  | doWhile body c span ih =>
    obtain ⟨body, at_⟩ := body
    rw [keys, Block.keys_eq, List.forall_mem_cons] at hk
    rw [plan, Block.plan]
    exact doWhile_keepsTo (block_keepsTo hk.1 (all ih hk.2)) (header c)
  | forLoop first test step body span ihf ihs ih =>
    obtain ⟨body, at_⟩ := body
    rw [keys, List.forall_mem_append, List.forall_mem_append, Block.keys_eq, List.forall_mem_cons] at hk
    obtain ⟨⟨hf, hs⟩, hk, hb⟩ := hk
    rw [plan, Block.plan]
    refine forLoop_keepsTo _ hk (option ihf hf) (fun t ht => ?_) (option ihs hs) (all ih hb)
    obtain ⟨e, -, rfl⟩ := Option.map_eq_some_iff.1 ht
    exact header e
  | foreach item collection body span ih =>
    obtain ⟨body, at_⟩ := body
    rw [keys, Block.keys_eq, List.forall_mem_cons] at hk
    rw [plan, Block.plan]
    exact (enterScope_stays hk.1).bind fun outer ho => (value_keepsTo (header collection)).seq fun _ =>
      (loopBound_keepsTo (fun u _ => hn u.1) _).seq fun _ => (indexLoop_keepsTo (hn item) (all ih hk.2)).seq
      fun _ => (Stays.of (s := .moveTo outer) ho).keepsTo
  | switch subject cases default span ihc ihd =>
    rw [keys, List.forall_mem_append, keysCases_eq, List.forall_mem_flatMap] at hk
    rw [plan_switch]
    refine switch_keepsTo hn (header subject)
      (fun labels => casePlans_keepsTo labels fun k hm => all (ihc k hm) (hk.1 k hm)) fun act ha => ?_
    obtain ⟨body, rfl, rfl⟩ := Option.map_eq_some_iff.1 ha
    exact all (ihd body rfl) hk.2
  | exit =>
    rw [plan]
    exact jump_keepsTo (Stays.of (s := .breakLabel) trivial).keepsTo _
  | next =>
    rw [plan]
    exact jump_keepsTo (Stays.of (s := .continueLabel) trivial).keepsTo _
  | tryCatch body caught handler span ihb ihh =>
    obtain ⟨body, at_⟩ := body
    obtain ⟨handler, handler_at⟩ := handler
    rw [keys, List.forall_mem_append, Block.keys_eq, List.forall_mem_cons, Block.keys_eq,
      List.forall_mem_cons] at hk
    obtain ⟨⟨hb, hbs⟩, hh, hhs⟩ := hk
    rw [plan, Block.plan, Block.plan]
    exact tryCatch_keepsTo hh (hn caught) (block_keepsTo hb (all ihb hbs)) (all ihh hhs)
  | function f ih =>
    obtain ⟨name, params, result, ⟨body, at_⟩, span⟩ := f
    rw [keys, Function.forall_keys] at hk
    rw [plan, Function.plan, Block.plan]
    exact functionFrame_keepsTo (hn name) hl (all ih hk.2)
  | classDef c ih =>
    obtain ⟨name, parent, members, span⟩ := c
    rw [keys, Class.keys, List.forall_mem_cons, keysMembers_eq, List.forall_mem_flatMap] at hk
    rw [plan, Class.plan]
    refine classFrame_keepsTo hn <| memberPlans_keepsTo fun m hm => Member.plan_keepsTo hn hl fun f hf => ?_
    subst hf
    have hf := hk.2 _ hm
    rw [Member.keys, Function.forall_keys] at hf
    exact all (ih f hm) hf.2

theorem planBody_keepsTo (hl : ∀ name, v.locals name) {body : List Stmt}
    (hk : ∀ key ∈ keysAll body, v.keys key) :
    (planAll options body).KeepsTo v := by
  rw [keysAll_eq, List.forall_mem_flatMap] at hk
  exact planAll_keepsTo fun s hs => s.plan_keepsTo hn hl (hk s hs)

end Statements

end ThreeAddress
