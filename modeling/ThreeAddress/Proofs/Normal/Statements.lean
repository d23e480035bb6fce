import ThreeAddress.Proofs.Normal.Values

namespace ThreeAddress

open Lowering Lower

variable {body : List Stmt}

namespace Lower

section Store

theorem storeElements_normal {base zero : Operand} {es : List Expr} (dims : List Nat)
    (hb : base.IsPlace) (hz : zero.IsConstant) :
    Gives (Code.Normal body) (storeElements base (.row (lowerCells es)) dims zero) := by
  have leaf (p : List Nat) (act : Lower Valued) (h : (Nest.row (lowerCells es)).at? p = some act) :
      Gives (Valued.Held body) act := by
    obtain ⟨e, _, rfl⟩ := leaf_of_lowerCells h
    exact storable_held (e.lower_placed body)
  refine Gives.bind (Gives.mapM fun p _ => ?_) fun stores hs => .pure (Code.normal_flatten hs)
  refine (leafAt_held (leaf p) hz).bind fun x hx => .pure ?_
  simpa [hx.1] using elementStore_normal p hb hx.2

theorem declareArray_normal (id : SymbolId) (es : List Expr) (span : Span) :
    Gives (Code.Normal body) (declareArray id es span) := by
  refine .seq fun x => .seq fun c => .seq fun shape => ?_
  cases shape with
  | none => exact .seq fun _ => .pure Code.normal_nil
  | some dims =>
    refine .seq fun size => .seq fun _ => .seq fun _ => ?_
    exact storeElements_normal dims (.var x.name) (Ty.zero_constant _)

theorem assignArray_normal (id : SymbolId) (es : List Expr) (span : Span) :
    Gives (Code.Normal body) (assignArray id es span) := by
  refine .seq fun x => .seq fun shape => ?_
  cases shape with
  | none => exact .pure Code.normal_nil
  | some dims => exact storeElements_normal dims (.var x.name) (Ty.zero_constant _)

theorem lowerIndices_normal (body : List Stmt) (es : List Expr) :
    Gives (fun x => Code.Normal body x.1 ∧ ∀ i ∈ x.2, i.IsIndex) (lowerIndices es) := by
  induction es with
  | nil => exact .pure ⟨Code.normal_nil, nofun⟩
  | cons e rest ih =>
    refine (e.lower_placed body).bind fun x hx => (ensureTemp_held body hx.2).bind fun y hy => ?_
    refine ih.bind fun z hz => .pure ⟨by simpa [hx.1, hy.1] using hz.1, ?_⟩
    obtain ⟨_, t, ht⟩ := hy
    simpa [ht] using ⟨.temp t, hz.2⟩

theorem keep_normal {e : Expr} (name : String) : Gives (Code.Normal body) (do
    let x ← storable (e.lower .value)
    return x.1 ++ [.assign (.var name) x.2]) := by
  refine (storable_held (e.lower_placed body)).bind fun x hx => .pure ?_
  obtain ⟨hc, t, ht⟩ := hx
  simpa [ht, hc] using .keep name t

end Store

theorem guarding_normal (uses : List Use) (whole : Span) {act : Lower Code}
    (h : Gives (Code.Normal body) act) : Gives (Code.Normal body) (guarding uses whole act) := by
  intro c s code s' hr
  obtain ⟨_, hr⟩ | ⟨_, rfl, _⟩ := runs_guarding hr
  · exact h hr
  · exact Code.normal_nil

section Forms

variable {test : Lower Valued} {inner other step : Lower Code}

theorem ifThen_normal (ht : Gives (Valued.Placed body) test) (hb : Gives (Code.Normal body) inner) :
    Gives (Code.Normal body) (ifThen test inner) :=
  ht.bind fun x hx => .seq fun done => hb.bind fun code hc => .pure (by simp [hx.1, hc])

theorem ifThenElse_normal (ht : Gives (Valued.Placed body) test)
    (hb : Gives (Code.Normal body) inner) (ho : Gives (Code.Normal body) other) :
    Gives (Code.Normal body) (ifThenElse test inner other) :=
  ht.bind fun x hx => .seq fun no => hb.bind fun first hf => .seq fun done =>
    ho.bind fun second hs => .pure (by simp [hx.1, hf, hs])

theorem whileLoop_normal (ht : Gives (Valued.Placed body) test)
    (hb : Gives (Code.Normal body) inner) : Gives (Code.Normal body) (whileLoop test inner) :=
  .seq fun start => ht.bind fun x hx => .seq fun done => .seq fun _ => hb.bind fun code hc =>
    .seq fun _ => .pure (by simp [hx.1, hc])

theorem doWhile_normal (ht : Gives (Valued.Placed body) test)
    (hb : Gives (Code.Normal body) inner) : Gives (Code.Normal body) (doWhile inner test) :=
  .seq fun start => .seq fun _ => hb.bind fun code hc => ht.bind fun x hx => .seq fun _ =>
    .pure (by simp [hx.1, hc])

theorem loopTest_normal (test : Option Expr) :
    Gives (fun x => Code.Normal body x.1) (loopTest (test.map (·.lower .value))) := by
  cases test with
  | none => exact .pure Code.normal_nil
  | some e =>
    exact (e.lower_placed body).bind fun x hx => .seq fun done => .pure (by simp [hx.1])

theorem forLoop_normal {first : Lower Code} {test : Option (Lower Valued)} {hasStep : Bool}
    (hf : Gives (Code.Normal body) first) (ht : Gives (fun x => Code.Normal body x.1) (loopTest test))
    (hs : Gives (Code.Normal body) step) (hb : Gives (Code.Normal body) inner) :
    Gives (Code.Normal body) (forLoop first test hasStep step inner) := by
  intro c s code s' h
  obtain ⟨_, _, h₁, _, _, _, _, h₂, _, _, h₃, _, h₄, rfl⟩ := runs_forLoop.1 h
  have := ht h₂
  cases hasStep <;> simp_all [hf h₁, hb h₃, hs h₄]

theorem loopBound_normal (e : Expr) {value : Operand} (hv : value.IsPlace) :
    Gives (fun n => n.IsConstant ∨ n.IsAccess) (loopBound e value) := by
  intro c s n s' h
  obtain ⟨_, rfl | ⟨_, _, _, _, k, _, _, _, _, rfl⟩⟩ := runs_loopBound h
  · exact .inr (.field "length" hv)
  · exact .inl (.int _)

theorem indexLoop_normal {base bound : Operand} {item : String} {collection : Expr} {block : Block}
    {span : Span} {bind : Lower Unit} (hw : Stmt.Within (.foreach item collection block span) body)
    (hv : base.IsPlace) (hn : bound.IsConstant ∨ bound.IsAccess) (hb : Gives (Code.Normal body) inner) :
    Gives (Code.Normal body) (indexLoop base bound item bind inner) := by
  intro c s code s' h
  obtain ⟨_, _, _, s₁, _, _, _, _, _, _, _, h₂, _, rfl⟩ := runs_indexLoop.1 h
  have count : Instruction.Normal body (.assign (.temp s.nextTemp.temp) bound) :=
    hn.elim (.constant _) (.load _)
  have fetch (t : Temp) : Instruction.Normal body (.assign (.temp t) (.element base [.temp s.temp])) :=
    .load t (.element hv (by simpa using .temp s.temp))
  have start : Instruction.Normal body (.assign (.temp s.temp) (.int 0)) := .constant _ (.int 0)
  have compare (t : Temp) : Instruction.Normal body
      (.binary (.temp t) (.temp s.temp) .lt (.temp s.nextTemp.temp)) := .binary t _ (.temp _) (.temp _)
  simp [hb h₂, count, fetch, start, compare, Instruction.Normal.keep, Instruction.Normal.increment _ hw]

theorem gotoBreak_normal (body : List Stmt) : Gives (Code.Normal body) gotoBreak := by
  refine .seq fun l => .pure ?_
  cases l <;> simp

theorem caseTests_normal (body : List Stmt) (subject : Operand) (cases : List Case) :
    Gives (fun x => Code.Normal body x.1) (caseTests subject cases) := by
  induction cases with
  | nil => exact .pure Code.normal_nil
  | cons k rest ih =>
    exact (k.value.lower_placed body).bind fun x hx => .seq fun l => ih.bind fun y hy =>
      .pure (by simp [hx.1, hy])

theorem caseBody_normal (l : Label) (isEmpty : Bool) (hb : Gives (Code.Normal body) inner) :
    Gives (Code.Normal body) (caseBody l isEmpty inner) := by
  refine hb.bind fun code hc => .seq fun c => ?_
  split
  · exact (gotoBreak_normal body).bind fun exit he => .pure (by simp [hc, he])
  · exact .pure (by simp [hc])

theorem switch_normal {subject : Lower Valued} {cases : List Case}
    {bodies : List Label → Lower Code} {default : Option (Lower Code)}
    (hs : Gives (Valued.Placed body) subject) (hb : ∀ labels, Gives (Code.Normal body) (bodies labels))
    (hd : ∀ act ∈ default, Gives (Code.Normal body) act) :
    Gives (Code.Normal body) (switch subject cases bodies default) := by
  refine hs.bind fun x hx => (ensureTemp_held body hx.2).bind fun y hy => ?_
  refine (caseTests_normal body _ cases).bind fun z hz => .seq fun _ => ?_
  cases default with
  | none =>
    exact (gotoBreak_normal body).bind fun skip hk => (hb _).bind fun code hc => .seq fun done =>
      .pure (by simp [hx.1, hy.1, hz, hk, hc])
  | some act =>
    exact .seq fun l => (hb _).bind fun code hc => (hd act rfl).bind fun last hl => .seq fun done =>
      .pure (by simp [hx.1, hy.1, hz, hc, hl])

theorem jump_normal (target : Account (Option Label)) (problem : Problem) :
    Gives (Code.Normal body) (jump target problem) := by
  refine .seq fun l => ?_
  cases l with
  | none => exact .seq fun _ => .pure Code.normal_nil
  | some l => exact .pure (by simp)

theorem tryCatch_normal {caught : String} {block handler : Block} {span : Span}
    (hw : Stmt.Within (.tryCatch block caught handler span) body)
    (hb : Gives (Code.Normal body) inner) (ho : Gives (Code.Normal body) other) :
    Gives (Code.Normal body) (tryCatch inner caught other) :=
  .seq fun failed => hb.bind fun first hf => .seq fun done => ho.bind fun second hs =>
    .pure (by simp [hf, hs, Instruction.Normal.caught hw])

theorem functionFrame_normal (name : String) (params : List Param) (span : Span)
    (hb : Gives (Code.Normal body) inner) :
    Gives (Code.Normal body) (functionFrame name params span inner) := by
  intro c s code s' h
  obtain ⟨_, rfl, _⟩ | ⟨_, _, _, _, _, _, _, _, _, _, _, h₂, _, _, rfl⟩ := runs_functionFrame h
  · exact Code.normal_nil
  · simp [hb h₂]

theorem classFrame_normal (name : String) (parent : Option String) (span : Span)
    (hb : Gives (Code.Normal body) inner) :
    Gives (Code.Normal body) (classFrame name parent span inner) := by
  intro c s code s' h
  obtain ⟨_, rfl, _⟩ | ⟨_, _, _, _, _, _, _, _, _, _, _, _, _, _, h₃, _, _, rfl⟩ := runs_classFrame h
  · exact Code.normal_nil
  · simp [hb h₃]

end Forms

end Lower

theorem Binding.lower_normal (b : Binding) : Gives (Code.Normal body) b.lower := by
  refine .seq fun found => ?_
  cases found with
  | none => exact .seq fun _ => .pure Code.normal_nil
  | some id =>
    dsimp only
    split
    · exact declareArray_normal ..
    · exact .seq fun _ => .seq fun _ => keep_normal b.name
    · exact .seq fun _ => .seq fun _ => .pure Code.normal_nil

theorem Target.assign_normal (value : Expr) (span : Span) (target : Target) :
    Gives (Code.Normal body) (target.assign value span) := by
  have stored := storable_held (value.lower_placed body)
  cases target with
  | ident name =>
    refine .seq fun found => ?_
    cases found with
    | none => exact .seq fun _ => .pure Code.normal_nil
    | some id =>
      cases value with
      | array es span => exact assignArray_normal ..
      | _ => exact .seq fun x => keep_normal (x.address.getD name)
  | index base indices =>
    refine (base.lower_placed body).bind fun x hx => (lowerIndices_normal body indices).bind fun y hy => ?_
    refine stored.bind fun z hz => .pure ?_
    obtain ⟨hc, t, ht⟩ := hz
    simpa [hx.1, hy.1, hc, ht] using Instruction.Normal.store t (.element hx.2 hy.2)
  | property object field =>
    refine (object.lower_placed body).bind fun x hx => stored.bind fun z hz => .pure ?_
    obtain ⟨hc, t, ht⟩ := hz
    simpa [hx.1, hc, ht] using Instruction.Normal.store t (.field field hx.2)

section Statements

variable {inner : List Stmt}

theorem lowerAll_normal (h : ∀ s ∈ inner, Gives (Code.Normal body) s.lower) :
    Gives (Code.Normal body) (lowerAll inner) := by
  induction inner with
  | nil =>
    rw [lowerAll]
    exact .pure Code.normal_nil
  | cons s rest ih =>
    rw [lowerAll]
    exact (h s (by simp)).bind fun first hf => (ih fun s hs => h s (by simp [hs])).bind fun second hs =>
      .pure (by simp [hf, hs])

theorem lowerOption_normal {s : Option Stmt} (h : ∀ s' ∈ s, Gives (Code.Normal body) s'.lower) :
    Gives (Code.Normal body) (lowerOption s) := by
  cases s with
  | none =>
    rw [lowerOption]
    exact .pure Code.normal_nil
  | some s =>
    rw [lowerOption]
    exact h s rfl

theorem lowerCases_normal {cases : List Case} (labels : List Label)
    (h : ∀ k ∈ cases, ∀ s ∈ k.body, Gives (Code.Normal body) s.lower) :
    Gives (Code.Normal body) (lowerCases cases labels) := by
  induction cases generalizing labels with
  | nil =>
    rw [lowerCases_nil]
    exact .pure Code.normal_nil
  | cons k rest ih =>
    cases labels with
    | nil =>
      rw [lowerCases]
      · exact .pure Code.normal_nil
      · simp
    | cons l labels =>
      rw [lowerCases_cons]
      exact (caseBody_normal l _ (lowerAll_normal (h k (by simp)))).bind fun first hf =>
        (ih labels fun k hk => h k (by simp [hk])).bind fun second hs => .pure (by simp [hf, hs])

theorem lowerMembers_normal {members : List Member}
    (h : ∀ f, .method f ∈ members → ∀ s ∈ f.body.body, Gives (Code.Normal body) s.lower) :
    Gives (Code.Normal body) (lowerMembers members) := by
  induction members with
  | nil =>
    rw [lowerMembers]
    exact .pure Code.normal_nil
  | cons m rest ih =>
    rw [lowerMembers]
    have hm : Gives (Code.Normal body) m.lower := by
      cases m with
      | field b =>
        rw [Member.lower]
        exact guarding_normal _ _ b.lower_normal
      | method f =>
        rw [Member.lower, Function.lower_eq]
        exact functionFrame_normal _ _ _ (lowerAll_normal (h f (by simp)))
    exact hm.bind fun first hf => (ih fun f hf => h f (by simp [hf])).bind fun second hs =>
      .pure (by simp [hf, hs])

theorem Stmt.lower_normal (s : Stmt) (hw : s.Within body) : Gives (Code.Normal body) s.lower := by
  induction s with
  | declare b =>
    rw [Stmt.lower]
    exact guarding_normal _ _ b.lower_normal
  | assign target value span =>
    rw [Stmt.lower]
    exact guarding_normal _ _ (target.assign_normal value span)
  | print e span =>
    rw [Stmt.lower]
    exact guarding_normal _ _ <|
      (argument_held (e.lower_placed body)).bind fun x hx => .pure (by simp [hx.1])
  | eval e span =>
    rw [Stmt.lower]
    exact guarding_normal _ _ <| (e.lower_normal body .effect).bind fun x hx => .pure hx.1
  | ret e span =>
    cases e with
    | none =>
      rw [Stmt.lower]
      exact .pure (by simp)
    | some e =>
      rw [Stmt.lower]
      exact guarding_normal _ _ <| (e.lower_placed body).bind fun x hx => .pure (by simp [hx.1])
  | block b ih =>
    rw [Stmt.lower, Block.lower_eq]
    exact (lowerAll_normal fun s hs => ih s hs (hw.part hs)).inBlock _
  | ite c yes no span ihy ihn =>
    have hy := (lowerAll_normal fun s hs => ihy s hs (hw.part (by simp [parts, hs]))).inBlock yes.span
    rw [Stmt.lower_ite]
    cases no with
    | none => exact ifThen_normal (c.lower_placed body) hy
    | some no =>
      have hn := (lowerAll_normal fun s hs => ihn no rfl s hs (hw.part (by simp [parts, hs]))).inBlock no.span
      exact ifThenElse_normal (c.lower_placed body) hy hn
  | loop c inner span ih =>
    rw [Stmt.lower, Block.lower_eq]
    exact whileLoop_normal (c.lower_placed body)
      ((lowerAll_normal fun s hs => ih s hs (hw.part hs)).inBlock _)
  | doWhile inner c span ih =>
    rw [Stmt.lower, Block.lower_eq]
    exact doWhile_normal (c.lower_placed body)
      ((lowerAll_normal fun s hs => ih s hs (hw.part hs)).inBlock _)
  | forLoop first test step inner span ihf ihs ih =>
    rw [Stmt.lower, Block.lower_eq]
    refine (forLoop_normal (lowerOption_normal fun s hs => ihf s hs ?_) (loopTest_normal test)
      (lowerOption_normal fun s hs => ihs s hs ?_) (lowerAll_normal fun s hs => ih s hs ?_)).inBlock _
    all_goals exact hw.part (by simp_all [parts])
  | foreach item collection inner span ih =>
    rw [Stmt.lower, Block.lower_eq]
    refine Gives.inBlock ((collection.lower_placed body).bind fun x hx => ?_) _
    refine (loopBound_normal collection hx.2).bind fun n hn => ?_
    exact (indexLoop_normal hw hx.2 hn (lowerAll_normal fun s hs => ih s hs (hw.part hs))).bind
      fun code hc => .pure (by simp [hx.1, hc])
  | switch subject cases default span ihc ihd =>
    rw [Stmt.lower_switch]
    refine switch_normal (subject.lower_placed body) (fun labels => lowerCases_normal labels fun k hk s hs =>
      ihc k hk s hs (hw.part ?_)) fun act h => ?_
    · simp only [parts, List.mem_append, List.mem_flatMap]
      exact .inl ⟨k, hk, hs⟩
    · obtain ⟨inner, hb, rfl⟩ := Option.map_eq_some_iff.1 h
      exact lowerAll_normal fun s hs => ihd inner hb s hs (hw.part (by simp_all [parts]))
  | exit span =>
    rw [Stmt.lower]
    exact jump_normal ..
  | next span =>
    rw [Stmt.lower]
    exact jump_normal ..
  | tryCatch inner caught handler span ihb ihh =>
    rw [Stmt.lower, Block.lower_eq, Block.lower_eq]
    refine tryCatch_normal hw ((lowerAll_normal fun s hs => ihb s hs ?_).inBlock _) <|
      Gives.inBlock (.seq fun _ => lowerAll_normal fun s hs => ihh s hs ?_) _
    all_goals exact hw.part (by simp [parts, hs])
  | function f ih =>
    rw [Stmt.lower, Function.lower_eq]
    exact functionFrame_normal _ _ _ (lowerAll_normal fun s hs => ih s hs (hw.part hs))
  | classDef c ih =>
    rw [Stmt.lower, Class.lower_eq]
    refine classFrame_normal _ _ _ (lowerMembers_normal fun f hf s hs => ih f hf s hs (hw.part ?_))
    simp only [parts, List.mem_flatMap]
    exact ⟨.method f, hf, hs⟩

end Statements

end ThreeAddress
