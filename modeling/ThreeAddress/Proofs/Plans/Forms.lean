import ThreeAddress.Proofs.Plans.Values

namespace ThreeAddress

open Lowering Plan

variable {options : Options} {c : Context} {p : Setting} {pre : Code}

section Names

theorem filterM_does {f : γ → Plan Bool} {f' : γ → Lower Bool} (xs : List γ)
    (h : ∀ x ∈ xs, Does c p p pre (fun b => (pre, b)) (f x) (f' x)) :
    Does c p p pre (fun ys => (pre, ys)) (xs.filterM f) (xs.filterM f') := by
  have haux (acc : List γ) :
      Does c p p pre (fun ys => (pre, ys)) (xs.filterAuxM f acc) (xs.filterAuxM f' acc) := by
    induction xs generalizing acc with
    | nil => exact .done rfl
    | cons x rest ih =>
      exact (h x (by simp)).bind fun b => ih (fun y hy => h y (by simp [hy])) _
  exact (haux []).bind fun _ => .done rfl

theorem forM_does {f : γ → Plan Unit} {f' : γ → Lower Unit} (xs : List γ)
    (h : ∀ x ∈ xs, Does c p p pre (fun u => (pre, u)) (f x) (f' x)) :
    Does c p p pre (fun u => (pre, u)) (xs.forM f) (xs.forM f') := by
  induction xs with
  | nil => exact .done rfl
  | cons x rest ih => exact (h x (by simp)).bind fun _ => ih fun y hy => h y (by simp [hy])

theorem guarding_does {uses : List Use} {whole : Span} {body : Plan Unit} {body' : Lower Code}
    (h : DoesCode options body body') :
    DoesCode options (guarding uses whole body) (Lower.guarding uses whole body') := by
  intro p
  rw [guarding, checkNames, bind_assoc]
  refine (filterM_does uses fun u _ => (lookup_does u.1).bind fun _ => .done rfl).bind fun missing => ?_
  cases missing with
  | nil => exact h p
  | cons u rest =>
    rw [bind_assoc]
    exact (forM_does _ fun u _ => report_does _).bind fun _ => .done rfl

end Names

section Blocks

variable {body : Plan Unit} {body' : Lower Code}

theorem enterScope_run (span : Span) (d : FullState) :
    (enterScope span).run d = .ok (d.scope,
      { d with scope := (d.table.scopeFor span.toPosition).getD d.scope }) := by
  have hkey : (of (.scopeFor span.toPosition)).run d = .ok (d.table.scopeFor span.toPosition, d) := rfl
  change (of (.scopeFor span.toPosition) >>= _).run d = _
  rw [run_bind, hkey]
  cases d.table.scopeFor span.toPosition <;> rfl

theorem Does.inBlock {p' : Setting} {out : α → Code × β} {span : Span} {k : Nat → Plan β}
    {act : Lower α}
    (h : ∀ scope, Does (({ p with scope } : Setting).context options) { p with scope } p' pre out
      (k p.scope) act) :
    Does (p.context options) p p' pre out (enterScope span >>= k) (Lower.inBlock span act) := by
  intro code s
  rw [run_bind, enterScope_run]
  exact h _ code s

theorem block_does {span : Span} {out : α → Code × Unit} {act : Lower α}
    (h : ∀ p : Setting, Does (p.context options) p p [] out body act) (p : Setting) :
    Does (p.context options) p p [] out (block span body) (Lower.inBlock span act) :=
  .inBlock fun scope => (h { p with scope }).finish fun _ => moveTo_does rfl

end Blocks

section Storage

theorem valueSize_does (id : SymbolId) :
    Does (p.context options) p p pre (fun size => (pre, size)) (valueSize options id)
      (Lower.valueSize id) :=
  (symbol_does id).bind fun _ => .read <| .done rfl

theorem bindLocal_does (name : String) (span : Span) :
    Does (p.context options) p p pre (fun u => (pre, u)) (bindLocal options name span)
      (Lower.bindLocal name span) := by
  refine (lookup_does name).bind fun id? => ?_
  cases id? with
  | none => exact report_does _
  | some id => exact (valueSize_does id).bind fun size => bindStorage_does id size

theorem Does.lookupLocal {p' : Setting} {out : α → Code × β} {name : String}
    {k : Option SymbolId → Plan β} {f : Option SymbolId → Lower α}
    (h : ∀ id?, Does (p.context options) p p' pre out (k id?) (f id?)) :
    Does (p.context options) p p' pre out (of (.lookupLocal name) >>= k)
      (do f (← (← get).table.lookupLocal (← MonadReader.read).scope name)) := by
  have hl : Does (p.context options) p p pre (fun id? => (pre, id?)) (of (.lookupLocal name))
      (do (← get).table.lookupLocal (← MonadReader.read).scope name) :=
    .ask (fun s => s.table.lookupLocal p.scope name) (fun _ _ => rfl) fun _ => rfl
  exact hl.bind h

theorem bindParams_does (params : List Param) :
    Does (p.context options) p p pre (fun u => (pre, u)) (params.forM (bindParam options))
      (Lower.bindParams params) := by
  refine forM_does params fun x _ => .lookupLocal fun id? => ?_
  cases id? with
  | none => exact report_does _
  | some id => exact (valueSize_does id).bind fun size => bindStorage_does id size

theorem forM_writes {f : γ → Plan Unit} {f' : γ → Lower Code} (xs : List γ)
    (h : ∀ x ∈ xs, DoesCode options (f x) (f' x)) :
    Does (p.context options) p p [] (fun codes => (codes.flatten, ())) (xs.forM f) (xs.mapM f') := by
  induction xs with
  | nil => exact .done rfl
  | cons x rest ih =>
    rw [List.mapM_cons]
    exact (h x (by simp) p).bind fun _ => (ih fun y hy => h y (by simp [hy])).after.last fun _ =>
      .done rfl

theorem storeElements_does {es : List Expr} (base : Operand) (dims : List Nat) (zero : Operand) :
    DoesCode options (storeElements base (.row (cellPlans options es)) dims zero)
      (Lower.storeElements base (.row (lowerCells es)) dims zero) := by
  intro _
  refine Does.last (forM_writes _ fun path _ p => ?_) fun _ => .done rfl
  exact (leafAt_does (fun e _ => e.plan_does) zero path p).bind fun _ => .wrote rfl

theorem declareArray_does (id : SymbolId) (es : List Expr) (span : Span) :
    DoesCode options (declareArray options id es span) (Lower.declareArray id es span) := by
  intro p
  refine (symbol_does id).bind fun x => .read <|
    (literalShape_does ((Expr.array es span).cell_fits options) _ span).bind fun shape => ?_
  cases shape with
  | none => exact (bindStorage_does id _).last fun _ => .done rfl
  | some dims =>
    exact (arraySize_does _ _ _).bind fun size => (modifySymbol_does fun _ => rfl).bind fun _ =>
      (bindStorage_does id size).bind fun _ => storeElements_does _ dims _ p

theorem assignArray_does (id : SymbolId) (es : List Expr) (span : Span) :
    DoesCode options (assignArray options id es span) (Lower.assignArray id es span) := by
  intro p
  refine (symbol_does id).bind fun x =>
    (literalShape_does ((Expr.array es span).cell_fits options) _ span).bind fun shape => ?_
  cases shape with
  | none => exact .done rfl
  | some dims => exact storeElements_does _ dims _ p

theorem indexPlans_does (es : List Expr) :
    Does (p.context options) p p [] id (indexPlans options es) (Lower.lowerIndices es) := by
  induction es with
  | nil => exact .done rfl
  | cons e rest ih =>
    exact (e.plan_does.value p).bind fun _ => (ensureTemp_does _).after.bind fun _ =>
      ih.after.bind fun _ => .done (by simp)

end Storage

section Control

variable {p' : Setting} {out : α → Code × β} {plan : Plan β} {act : Lower α} {test : Plan Operand}
  {test' : Lower Valued} {first step body other : Plan Unit}
  {first' step' body' other' : Lower Code}

theorem Does.placed {l : Option Label} (h : Does c p p' (pre ++ Lower.place l) out plan act) :
    Does c p p' pre out (placeLabel l >>= fun _ => plan) act := by
  cases l with
  | none => rwa [Lower.place, Option.toList_none, List.map_nil, List.append_nil] at h
  | some l => exact .emit h

theorem placeLabel_does {l : Option Label} {out : α → Code × Unit} {a : α}
    (h : out a = (pre ++ Lower.place l, ())) : Does c p p pre out (placeLabel l) (pure a) := by
  rw [← bind_pure (placeLabel l)]
  exact .placed <| .done h

theorem gotoBreak_does : Does c p p [] (fun code => (code, ())) gotoBreak Lower.gotoBreak := by
  refine Does.bind (.keep fun _ => rfl) fun l? => ?_
  cases l? with
  | none => exact .done rfl
  | some l => exact .wrote rfl

theorem ifThen_does (ht : DoesValue options (value test) test') (hb : DoesCode options body body') :
    DoesCode options (ifThen test body) (Lower.ifThen test' body') := fun p =>
  (ht p).bind fun _ => freshLabel_does.bind fun _ => .emit <| (hb p).after.bind fun _ =>
    .wrote (by simp)

theorem ifThenElse_does (ht : DoesValue options (value test) test') (hb : DoesCode options body body')
    (ho : DoesCode options other other') :
    DoesCode options (ifThenElse test body other) (Lower.ifThenElse test' body' other') := fun p =>
  (ht p).bind fun _ => freshLabel_does.bind fun _ => .emit <| (hb p).after.bind fun _ =>
    freshLabel_does.bind fun _ => .emit <| .emit <| (ho p).after.bind fun _ => .wrote (by simp)

theorem whileLoop_does (ht : DoesValue options (value test) test') (hb : DoesCode options body body') :
    DoesCode options (whileLoop test body) (Lower.whileLoop test' body') := fun p =>
  freshLabel_does.bind fun _ => .emit <| (ht p).after.bind fun _ => freshLabel_does.bind fun _ =>
    .emit <| Does.bind (.keep fun _ => rfl) fun _ => (hb p).after.bind fun _ => .emit <|
    Does.bind (.keep fun _ => rfl) fun _ => .wrote (by simp)

theorem doWhile_does (hb : DoesCode options body body') (ht : DoesValue options (value test) test') :
    DoesCode options (doWhile body test) (Lower.doWhile body' test') := fun p =>
  freshLabel_does.bind fun _ => .emit <| Does.bind (.keep fun _ => rfl) fun _ =>
    (hb p).after.bind fun _ => (ht p).after.bind fun _ => .emit <|
    Does.bind (.keep fun _ => rfl) fun _ => placeLabel_does (by simp)

theorem loopTest_does (test : Option Expr) :
    Does (p.context options) p p [] id (loopTest (test.map (·.headerPlan options)))
      (Lower.loopTest (test.map (·.lower .value))) := by
  cases test with
  | none => exact .done rfl
  | some e =>
    exact (e.headerPlan_does p).bind fun _ => freshLabel_does.bind fun _ => .emit <| .done rfl

theorem forLoop_does {span : Span} (test : Option Expr) (hasStep : Bool)
    (hf : DoesCode options first first') (hs : DoesCode options step step')
    (hb : DoesCode options body body') :
    DoesCode options (forLoop span first (test.map (·.headerPlan options)) hasStep step body)
      (Lower.inBlock span
        (Lower.forLoop first' (test.map (·.lower .value)) hasStep step' body')) := by
  refine fun p => .inBlock fun scope => ?_
  refine (hf _).bind fun _ => freshLabel_does.bind fun _ => .emit <|
    (loopTest_does test).after.bind fun _ => Does.bind (.keep fun _ => rfl) fun _ =>
    (hb _).after.bind fun _ => Does.bind (.keep fun _ => rfl) fun _ => .placed <|
    (hs _).after.bind fun _ => .emit <| .placed ?_
  cases hasStep <;> exact moveTo_does (by simp [Lower.place])

theorem loopBound_does (e : Expr) (v : Operand) :
    Does (p.context options) p p pre (fun bound => (pre, bound)) (loopBound e v)
      (Lower.loopBound e v) := by
  cases e with
  | ident name span =>
    refine (lookup_does name).bind fun id? => ?_
    cases id? with
    | none => exact .done rfl
    | some id => exact (symbol_does id).bind fun _ => .done rfl
  | _ => exact .done rfl

theorem indexLoop_does (base bound : Operand) (item : String) (span : Span)
    (hb : DoesCode options body body') :
    DoesCode options (indexLoop options base bound item span body)
      (Lower.indexLoop base bound item (Lower.bindLocal item span) body') := fun p =>
  (copyToTemp_does _).bind fun _ => (copyToTemp_does _).after.bind fun _ =>
    (bindLocal_does item span).bind fun _ => freshLabel_does.bind fun _ => .emit <|
    freshTemp_does.bind fun _ => .emit <| freshLabel_does.bind fun _ => .emit <|
    freshTemp_does.bind fun _ => .emit <| .emit <| Does.bind (.keep fun _ => rfl) fun _ =>
    (hb p).after.bind fun _ => Does.bind (.keep fun _ => rfl) fun _ => .placed <| .emit <| .emit <|
    .wrote (by simp)

theorem foreachLoop_does {span : Span} (collection : Expr) (item : String) (itemSpan : Span)
    (hb : DoesCode options body body') :
    DoesCode options (foreachLoop options span collection item itemSpan body)
      (Lower.inBlock span do
        let (head, base) ← collection.lower .value
        let bound ← Lower.loopBound collection base
        return head ++
          (← Lower.indexLoop base bound item (Lower.bindLocal item itemSpan) body')) := by
  refine fun p => .inBlock fun scope => ?_
  refine (collection.headerPlan_does _).bind fun _ => (loopBound_does collection _).bind fun _ =>
    (indexLoop_does _ _ item itemSpan hb _).after.bind fun _ => ?_
  exact moveTo_does rfl

theorem caseTests_does (subject : Operand) (cases : List Case) :
    Does (p.context options) p p [] id (caseTests options subject cases)
      (Lower.caseTests subject cases) := by
  induction cases with
  | nil => exact .done rfl
  | cons k rest ih =>
    exact (k.value.headerPlan_does p).bind fun _ => freshLabel_does.bind fun _ => .emit <|
      ih.after.bind fun _ => .done (by simp)

theorem Does.endsInJump {k : Bool → Plan β} {jumps : Bool} (hne : pre ≠ [])
    (hj : pre.endsInJump = jumps) (h : Does c p p' pre out (k jumps) act) :
    Does c p p' pre out (of .endsInJump >>= k) act := by
  intro code s
  have hends : (code ++ pre : Code).endsInJump = jumps := by
    rw [← hj, Code.endsInJump, Code.endsInJump, List.getLast?_append_of_ne_nil _ hne]
  have := h code s
  rwa [← hends] at this

theorem caseBody_does (l : Label) (isEmpty : Bool) (hb : DoesCode options body body') :
    DoesCode options (caseBody options l isEmpty body) (Lower.caseBody l isEmpty body') := by
  intro p
  have hends (code : Code) : Code.endsInJump (.label l :: code) = code.endsInJump := by
    cases code <;> simp [Code.endsInJump, Instruction.isJump, List.getLast?_cons]
  refine .emit <| (hb p).after.bind fun code => .endsInJump (by simp) (hends code) <| .read ?_
  dsimp only [Setting.context]
  split
  · exact gotoBreak_does.after.last fun _ => .done (by simp)
  · exact .done (by simp)

theorem switch_does {subject : Plan Operand} {subject' : Lower Valued} (cases : List Case)
    {bodies : List Label → Plan Unit} {bodies' : List Label → Lower Code}
    {default : Option (Plan Unit)} {default' : Option (Lower Code)}
    (hs : DoesValue options (value subject) subject')
    (hb : ∀ labels, DoesCode options (bodies labels) (bodies' labels))
    (hd : Option.Rel (DoesCode options) default default') :
    DoesCode options (switch options subject cases bodies default)
      (Lower.switch subject' cases bodies' default') := by
  intro p
  refine (hs p).bind fun _ => (ensureTemp_does _).after.bind fun _ =>
    (caseTests_does _ cases).after.bind fun (tests, labels) =>
    Does.bind (.keep fun _ => rfl) fun _ => ?_
  cases hd with
  | none =>
    exact gotoBreak_does.after.bind fun _ => (hb labels p).after.bind fun _ =>
      Does.bind (.keep fun _ => rfl) fun _ => placeLabel_does (by simp)
  | some hd =>
    exact freshLabel_does.bind fun _ => .emit <| (hb labels p).after.bind fun _ => .emit <|
      (hd p).after.bind fun _ => Does.bind (.keep fun _ => rfl) fun _ => placeLabel_does (by simp)

theorem jump_does {target : Account (Option Label)} {ask : Plan (Option Label)}
    (h : ∀ p : Setting, Does (p.context options) p p [] (fun l? => ([], l?)) ask
      (Lower.account target)) (problem : Problem) :
    DoesCode options (jump ask problem) (Lower.jump target problem) := by
  refine fun p => (h p).bind fun l? => ?_
  cases l? with
  | none => exact (report_does problem).last fun _ => .done rfl
  | some l => exact .wrote rfl

theorem tryCatch_does {span handlerSpan : Span} (caught : String) (hb : DoesCode options body body')
    (ho : DoesCode options other other') :
    DoesCode options (tryCatch options body caught span handlerSpan other)
      (Lower.tryCatch body' caught <| Lower.inBlock handlerSpan do
        Lower.bindLocal caught span
        other') := by
  intro p
  refine freshLabel_does.bind fun failed => .emit <| (hb p).after.bind fun first => .emit <|
    freshLabel_does.bind fun done => .emit <| .emit <| ?_
  have hhandler (q : Setting) : Does (q.context options) q q []
      (fun code => (.assign (.var caught) .exception :: code, ()))
      (do bindLocal options caught span; emit (.assign (.var caught) .exception); other)
      (do Lower.bindLocal caught span; other') :=
    (bindLocal_does caught span).bind fun _ => .emit (ho q).after
  exact (block_does hhandler p).after.bind fun _ => .wrote (by simp)

end Control

section Frames

theorem inherited_does (parent : Option String) :
    Does (p.context options) p p pre (fun size => (pre, size)) (inherited parent)
      (Lower.inherited parent) := by
  cases parent with
  | none => exact .done rfl
  | some parent =>
    refine (lookup_does parent).bind fun id? => ?_
    cases id? with
    | none => exact .done rfl
    | some id => exact (symbol_does id).bind fun _ => .done rfl

theorem atMembers_does {out : α → Code × Unit} {body : Plan Unit} {act : Lower α}
    (members : Option Nat) (h : ∀ p : Setting, Does (p.context options) p p [] out body act) :
    Does (p.context options) p { p with scope := members.getD p.scope } [] out (atMembers members body)
      (Lower.inScope (members.getD p.scope) act) := by
  cases members with
  | none => exact h p
  | some scope => exact .moveTo (h { p with scope })

theorem functionFrame_does {name : String} {span : Span} {body : Plan Unit} {body' : Lower Code}
    (params : List Param) (hb : DoesCode options body body') :
    DoesCode options (functionFrame options name params span body)
      (Lower.functionFrame name params span body') := by
  intro p
  refine (lookup_does name).bind fun id? => ?_
  cases id? with
  | none => exact (report_does _).last fun _ => .done rfl
  | some id =>
    refine (symbol_does id).bind fun x => .read ?_
    simp only [Lower.inFrame, bind_assoc, pure_bind]
    have hmembers (q : Setting) : Does (q.context options) q q [] (fun code => (code, ()))
        (do params.forM (bindParam options); body) (do Lower.bindParams params; body') :=
      (bindParams_does params).bind fun _ => hb q
    have hall := atMembers_does (p := { p with function := some x.qualifiedName }) x.members hmembers
    refine .scope <| .enterFunction <| Does.bind (.keep fun _ => rfl) fun _ => .emit <|
      hall.after.bind fun code => .emit <| Does.bind (.keep fun _ => rfl) fun frame => ?_
    exact (modifySymbol_does fun _ => rfl).bind fun _ => .moveTo <| exitFunction_does (by simp)

/-- At the start of a frame it makes no difference whether no room is taken or room for nothing. -/
theorem enterFrame_does {p' : Setting} {out : α → Code × β} {plan : Plan β} {act : Lower α}
    {i : Instruction} (size : Nat) (h : Does c p p' (pre ++ [i]) out plan act) :
    Does c p p' pre out
      (do
        of .enterFrame
        emit i
        reserve size
        plan)
      (do
        Lower.account Ledger.enterFrame
        let _ ← Lower.account (Ledger.allocate size)
        act) := by
  rw [reserve]
  split
  · rw [bind_assoc]
    exact Does.bind (.keep fun _ => rfl) fun _ => .emit <| Does.bind (.keep fun _ => rfl) fun _ => h
  next hsize =>
    obtain rfl : size = 0 := by omega
    have hzero : (Lower.account Ledger.enterFrame >>= fun _ =>
        Lower.account (Ledger.allocate 0) >>= fun _ => act) =
        Lower.account Ledger.enterFrame >>= fun _ => act := rfl
    rw [hzero, pure_bind]
    exact Does.bind (.keep fun _ => rfl) fun _ => .emit h

theorem classFrame_does {name : String} {parent : Option String} {span : Span} {members : Plan Unit}
    {members' : Lower Code} (hm : DoesCode options members members') :
    DoesCode options (classFrame name parent span members)
      (Lower.classFrame name parent span members') := by
  intro p
  refine (lookup_does name).bind fun id? => ?_
  cases id? with
  | none => exact (report_does _).last fun _ => .done rfl
  | some id =>
    refine (symbol_does id).bind fun x => .read <| (inherited_does parent).bind fun size => ?_
    let inside (c : Context) : Context :=
      { c with scope := x.members.getD p.scope, className := some name }
    have hroom : withReader inside (do let _ ← Lower.account (Ledger.allocate size); members') =
        (do let _ ← Lower.account (Ledger.allocate size); withReader inside members') := rfl
    have hmembers : Does (p.context options) { p with className := some name }
        { p with scope := x.members.getD p.scope, className := some name } []
        (fun code => (code, ())) (atMembers x.members members) (withReader inside members') :=
      atMembers_does (p := { p with className := some name }) x.members hm
    refine .scope <| .enterClass ?_
    change Does _ _ _ _ _ _
      (Lower.inFrame (withReader inside do let _ ← Lower.account (Ledger.allocate size); members') >>= _)
    simp only [hroom, Lower.inFrame, bind_assoc, pure_bind]
    refine enterFrame_does size <| hmembers.after.bind fun code => .emit <|
      Does.bind (.keep fun _ => rfl) fun frame => ?_
    exact (modifySymbol_does fun _ => rfl).bind fun _ => .moveTo <| exitClass_does (by simp)

end Frames

end ThreeAddress
