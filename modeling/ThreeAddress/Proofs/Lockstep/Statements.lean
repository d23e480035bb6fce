import ThreeAddress.Proofs.Lockstep.Forms

namespace ThreeAddress

open Lowering Lower
open Lowering.State (Follows)

variable {κ : Comparison}

abbrev Lower.CodeLockstep (κ : Comparison) (act act' : Lower Code) : Prop := Lockstep κ (Code.Like κ) act act'

namespace Lower

section Control

variable {test test' : Lower Valued} {first first' body body' other other' step step' : Lower Code}

theorem ifThen_lockstep (ht : ValueLockstep κ test test') (hb : CodeLockstep κ body body') :
    CodeLockstep κ (ifThen test body) (ifThen test' body') :=
  ht.bind_coded fun _ _ _ hx => freshLabel_lockstep.bind fun _ _ hd => hb.bind fun _ _ hy =>
    .pure ((hx.append (.cons (.branch hd) hy)).append (.one (.label hd)))

theorem ifThenElse_lockstep (ht : ValueLockstep κ test test') (hb : CodeLockstep κ body body')
    (ho : CodeLockstep κ other other') :
    CodeLockstep κ (ifThenElse test body other) (ifThenElse test' body' other') :=
  ht.bind_coded fun _ _ _ hx => freshLabel_lockstep.bind fun _ _ hn => hb.bind fun _ _ hy =>
    freshLabel_lockstep.bind fun _ _ hd => ho.bind fun _ _ hz =>
    .pure (((hx.append (.cons (.branch hn) hy)).append (.cons (.goto hd) (.cons (.label hn) hz))).append
      (.one (.label hd)))

theorem whileLoop_lockstep (ht : ValueLockstep κ test test') (hb : CodeLockstep κ body body') :
    CodeLockstep κ (whileLoop test body) (whileLoop test' body') :=
  freshLabel_lockstep.bind fun _ _ hs => ht.bind_coded fun _ _ _ hx => freshLabel_lockstep.bind fun _ _ hd =>
    (enterLoop_lockstep (hd.map some) (hs.map some)).seq fun _ _ => hb.bind fun _ _ hy =>
    exitLoop_lockstep.bind fun _ _ _ =>
    .pure (.cons (.label hs) ((hx.append (.cons (.branch hd) hy)).append
      (.cons (.goto hs) (.one (.label hd)))))

theorem doWhile_lockstep (hb : CodeLockstep κ body body') (ht : ValueLockstep κ test test') :
    CodeLockstep κ (doWhile body test) (doWhile body' test') :=
  freshLabel_lockstep.bind fun _ _ hs => (enterLoop_lockstep (.refl _) (hs.map some)).seq fun _ _ =>
    hb.bind fun _ _ hy => ht.bind_coded fun _ _ _ hx => exitLoop_lockstep.bind fun _ _ he =>
    .pure (.cons (.label hs) ((hy.append hx).append (.cons (.branch hs) (.place (he.map (·.1))))))

theorem loopTest_lockstep {test test' : Option Expr} (h : Option.Rel (Expr.Alike κ.lines) test test') :
    Lockstep κ (Coded κ (SameIf κ.labels)) (loopTest (test.map (·.lower .value)))
      (loopTest (test'.map (·.lower .value))) := by
  cases h with
  | none => exact .pure (Std.Refl.refl _)
  | some h =>
    exact (h.lockstep.value _).bind_coded fun _ _ _ hx => freshLabel_lockstep.bind fun _ _ hd =>
      .pure ⟨hx.append (.one (.branch hd)), hd.map some⟩

theorem forLoop_lockstep {test test' : Option (Lower Valued)} {hasStep : Bool}
    (hf : CodeLockstep κ first first')
    (ht : Lockstep κ (Coded κ (SameIf κ.labels)) (loopTest test) (loopTest test'))
    (hs : CodeLockstep κ step step') (hb : CodeLockstep κ body body') :
    CodeLockstep κ (forLoop first test hasStep step body) (forLoop first' test' hasStep step' body') := by
  refine hf.bind fun _ _ hhead => freshLabel_lockstep.bind fun start start' hstart =>
    ht.bind fun _ _ htest => (enterLoop_lockstep htest.rest ?_).seq fun _ _ => hb.bind fun _ _ hcode =>
    exitLoop_lockstep.bind fun _ _ he => hs.bind fun tail tail' htail => .pure ?_
  · cases hasStep
    · exact hstart.map some
    · exact .refl _
  · have hlast : Code.Like κ _ _ := (Code.Like.place (he.map (·.2))).append htail
    refine (((hhead.append (.cons (.label hstart) htest.code)).append hcode).append ?_).append
      (.cons (.goto hstart) (.place (he.map (·.1))))
    cases hasStep
    · exact htail
    · exact hlast

theorem indexLoop_lockstep {base bound : Operand} {item : String} {bind bind' : Lower Unit}
    (hi : Lockstep κ (fun _ _ => True) bind bind') (hb : CodeLockstep κ body body') :
    CodeLockstep κ (indexLoop base bound item bind body) (indexLoop base bound item bind' body') :=
  (copyToTemp_lockstep _).bind_coded fun _ _ _ hx => (copyToTemp_lockstep _).bind_coded fun _ _ _ hy =>
    hi.seq fun _ _ => freshLabel_lockstep.bind fun _ _ hs => freshTemp_lockstep.bind_eq fun _ =>
    freshLabel_lockstep.bind fun _ _ hd => freshTemp_lockstep.bind_eq fun _ =>
    (enterLoop_lockstep (hd.map some) (.refl _)).seq fun _ _ => hb.bind fun _ _ hcode =>
    exitLoop_lockstep.bind fun _ _ he =>
    .pure (((((hx.append hy).append (.cons (.label hs) (.cons (.refl _) (.cons (.branch hd) (.refl _))))).append
      hcode).append (.place (he.map (·.2)))).append
      (.cons (.refl _) (.cons (.goto hs) (.one (.label hd)))))

theorem caseTests_lockstep {cases cases' : List Case} {R : Stmt → Stmt → Prop} (subject : Operand)
    (h : List.Forall₂ (CasesAlike κ.lines R) cases cases') :
    Lockstep κ (Coded κ (List.Forall₂ (SameIf κ.labels))) (caseTests subject cases)
      (caseTests subject cases') := by
  induction h with
  | nil => exact .pure (Std.Refl.refl _)
  | cons hk _ ih =>
    cases hk with
    | mk hv _ =>
      exact (hv.lockstep.value _).bind_coded fun _ _ _ hx => freshLabel_lockstep.bind fun _ _ hl =>
        ih.bind fun _ _ hr => .pure ⟨hx.append (.cons (.branch hl) hr.code), .cons hl hr.rest⟩

theorem gotoBreak_lockstep : CodeLockstep κ gotoBreak gotoBreak :=
  breakLabel_lockstep.bind fun _ _ h => .pure (.jumps (sameIf_of_rel h))

theorem gotoBreak_alone {c : Context} {s s₁ : State} {code : Code} (h : Runs gotoBreak c s code s₁)
    (hn : ¬κ.labels) :
    code.skeleton = [] ∧ (∀ {t : State}, s.Like κ t → s₁.Like κ t) ∧
      ∀ {t : State}, t.Like κ s → t.Like κ s₁ := by
  have hany {α : Type} {a b : α} : SameIf κ.labels a b := fun p => (hn p).elim
  obtain ⟨l?, hr, rfl⟩ := runs_gotoBreak.1 h
  refine ⟨by cases l? <;> rfl, ?_⟩
  obtain ⟨_, _, rfl⟩ | ⟨_, _, _, _, rfl⟩ | ⟨rest, hb, _, _, rfl⟩ := runs_breakLabel.1 hr
  · exact ⟨id, id⟩
  · exact ⟨id, id⟩
  · refine ⟨fun {t} hs => hs.withLedger ?_, fun {t} hs => hs.withLedger ?_⟩
    · obtain ⟨_, rest', _, hrest, he⟩ := List.forall₂_cons_left_iff.1 (hb ▸ hs.ledger.targets.breaks)
      exact { hs.ledger with labels := hany, targets := ⟨he ▸ .cons hany hrest, hs.ledger.targets.continues⟩ }
    · obtain ⟨_, rest', _, hrest, he⟩ := List.forall₂_cons_right_iff.1 (hb ▸ hs.ledger.targets.breaks)
      exact { hs.ledger with labels := hany, targets := ⟨he ▸ .cons hany hrest, hs.ledger.targets.continues⟩ }

theorem gotoBreak_left {code code' : Code} (hn : ¬κ.labels) (h : code.Like κ code') :
    CodeLockstep κ (do return code ++ (← gotoBreak)) (pure code') where
  follows := gotoBreak_grows.follows.bind fun _ => .pure _
  agree _ _ _ _ _ _ _ _ _ hs hr hr' _ := by
    obtain ⟨exit, _, he, hr⟩ := runs_bind.1 hr
    obtain ⟨rfl, rfl⟩ := runs_pure.1 hr
    obtain ⟨rfl, rfl⟩ := runs_pure.1 hr'
    obtain ⟨hx, hl, _⟩ := gotoBreak_alone he hn
    exact ⟨⟨by rw [Code.skeleton_append, hx, List.append_nil, h.skeleton], fun p => (hn p).elim⟩, hl hs⟩

theorem gotoBreak_right {code code' : Code} (hn : ¬κ.labels) (h : code.Like κ code') :
    CodeLockstep κ (pure code) (do return code' ++ (← gotoBreak)) where
  follows := .pure _
  agree _ _ _ _ _ _ _ _ _ hs hr hr' _ := by
    obtain ⟨exit, _, he, hr'⟩ := runs_bind.1 hr'
    obtain ⟨rfl, rfl⟩ := runs_pure.1 hr
    obtain ⟨rfl, rfl⟩ := runs_pure.1 hr'
    obtain ⟨hx, _, hl⟩ := gotoBreak_alone he hn
    exact ⟨⟨by rw [Code.skeleton_append, hx, List.append_nil, h.skeleton], fun p => (hn p).elim⟩, hl hs⟩

/-- Where labels are not compared, one of the runs may leave the switch and the other fall through. -/
theorem caseBody_lockstep {l l' : Label} {isEmpty : Bool} (hl : SameIf κ.labels l l')
    (hb : CodeLockstep κ body body') :
    CodeLockstep κ (caseBody l isEmpty body) (caseBody l' isEmpty body') := by
  refine hb.bind fun code code' hcode => read_lockstep.bind fun c c' hc => ?_
  have hplain : Code.Like κ (.label l :: code) (.label l' :: code') := .cons (.label hl) hcode
  by_cases hlabels : κ.labels
  · rw [hcode.whole hlabels, hc.caseExit hlabels]
    have hplain : Code.Like κ (.label l :: code') (.label l' :: code') := .cons (.label hl) (.refl _)
    split
    · exact gotoBreak_lockstep.bind fun _ _ hx => .pure (hplain.append hx)
    · exact .pure hplain
  · split <;> split
    · exact gotoBreak_lockstep.bind fun _ _ hx => .pure (hplain.append hx)
    · exact gotoBreak_left hlabels hplain
    · exact gotoBreak_right hlabels hplain
    · exact .pure hplain

theorem switch_lockstep {subject subject' : Lower Valued} {cases cases' : List Case}
    {bodies bodies' : List Label → Lower Code} {default default' : Option (Lower Code)}
    {R : Stmt → Stmt → Prop} (hs : ValueLockstep κ subject subject')
    (hc : List.Forall₂ (CasesAlike κ.lines R) cases cases')
    (hb : ∀ {labels labels'}, List.Forall₂ (SameIf κ.labels) labels labels' →
      CodeLockstep κ (bodies labels) (bodies' labels'))
    (hd : Option.Rel (CodeLockstep κ) default default') :
    CodeLockstep κ (switch subject cases bodies default) (switch subject' cases' bodies' default') := by
  refine hs.bind_coded fun _ _ _ hx => (ensureTemp_lockstep _).bind_coded fun _ _ _ hy =>
    (caseTests_lockstep _ hc).bind fun _ _ hz => enterSwitch_lockstep.seq fun _ _ => ?_
  have htests := (hx.append hy).append hz.code
  cases hd with
  | none =>
    exact gotoBreak_lockstep.bind fun _ _ hskip => (hb hz.rest).bind fun _ _ hcode =>
      exitSwitch_lockstep.bind fun _ _ he => .pure (((htests.append hskip).append hcode).append (.place he))
  | some hd =>
    exact freshLabel_lockstep.bind fun _ _ ho => (hb hz.rest).bind fun _ _ hcode => hd.bind fun _ _ hlast =>
      exitSwitch_lockstep.bind fun _ _ he => .pure (((htests.append (.cons (.goto ho) hcode)).append
        (.cons (.label ho) hlast)).append (.place he))

theorem jump_lockstep {target : Account (Option Label)} {p p' : Problem}
    (ht : Lockstep κ (Option.Rel (SameIf κ.labels)) (account target) (account target))
    (hp : p.Alike κ.lines p') : CodeLockstep κ (jump target p) (jump target p') := by
  refine ht.bind fun l l' hl => ?_
  cases hl with
  | none => exact (report_lockstep hp).seq fun _ _ => .pure (.refl _)
  | some hl => exact .pure (.one (.goto hl))

theorem tryCatch_lockstep (caught : String) (hb : CodeLockstep κ body body')
    (ho : CodeLockstep κ other other') :
    CodeLockstep κ (tryCatch body caught other) (tryCatch body' caught other') :=
  freshLabel_lockstep.bind fun _ _ hf => hb.bind fun _ _ hx => freshLabel_lockstep.bind fun _ _ hd =>
    ho.bind fun _ _ hy => .pure ((((Code.Like.cons (.tryBegin hf) hx).append
      (.cons (.refl _) (.cons (.goto hd) (.cons (.label hf) (.refl _))))).append hy).append
      (.one (.label hd)))

abbrev Framed (κ : Comparison) : Code × Nat → Code × Nat → Prop := Coded κ (SameIf κ.bytes)

theorem inFrame_lockstep (hb : CodeLockstep κ body body') :
    Lockstep κ (Framed κ) (inFrame body) (inFrame body') :=
  enterFrame_lockstep.seq fun _ _ => hb.bind fun _ _ hx => exitFrame_lockstep.bind fun _ _ hf =>
    .pure ⟨hx, hf⟩

theorem functionFrame_lockstep (name : String) {params params' : List Param} {span span' : Span}
    (hp : List.Forall₂ (Param.Alike κ.lines) params params') (hs : span.Alike κ.lines span')
    (hb : CodeLockstep κ body body') :
    CodeLockstep κ (functionFrame name params span body) (functionFrame name params' span' body') := by
  have hinner {scope scope' : Nat} (h : scope = scope') : Lockstep κ (Framed κ)
      (inFrame (withReader ({ · with scope }) (bindParams params >>= fun _ => body)))
      (inFrame (withReader ({ · with scope := scope' }) (bindParams params' >>= fun _ => body'))) :=
    inFrame_lockstep (((bindParams_lockstep hp).seq fun _ _ => hb).withReader fun hc => { hc with scope := h })
  have hrecord {id : SymbolId} {frame frame' : Nat} (hid : ∃ y, κ.left.symbol id = .ok y)
      (hf : SameIf κ.bytes frame frame') : Lockstep κ (fun _ _ => True)
      (modifySymbol id ({ · with params := params.length, frame }))
      (modifySymbol id ({ · with params := params'.length, frame := frame' })) :=
    modifySymbol_lockstep hid (fun _ => rfl) (fun _ => rfl) fun _ _ hz =>
      { hz with params := hp.length_eq, frame := hf }
  refine named_lockstep name hs fun id => symbol_twins_bind ?_ fun hid x x' hx =>
    read_lockstep.bind fun c c' hc => (hinner ?_).bind fun y y' hy =>
    (hrecord hid hy.rest).seq fun _ _ => .pure ?_
  · have hk (frame : Nat) : Keeps Follows
        (modifySymbol id ({ · with params := params.length, frame })) := modifySymbol_follows fun _ => rfl
    exact (symbol_keeps id).bind fun x => read_keeps.bind fun c => (hinner rfl).follows.bind
      fun (_, frame) => (hk frame).bind fun _ => .pure _
  · rw [hx.members, hc.scope]
  · rw [hx.qualifiedName]
    exact (Code.Like.cons (.refl _) hy.code).append (.refl _)

theorem classFrame_lockstep (name : String) (parent : Option String) {span span' : Span}
    (hs : span.Alike κ.lines span') (hb : CodeLockstep κ body body') :
    CodeLockstep κ (classFrame name parent span body) (classFrame name parent span' body') := by
  have hinner {scope scope' size size' : Nat} (h : scope = scope') (hz : SameIf κ.bytes size size') :
      Lockstep κ (Framed κ)
        (inFrame (withReader ({ · with scope, className := some name })
          (account (Ledger.allocate size) >>= fun _ => body)))
        (inFrame (withReader ({ · with scope := scope', className := some name })
          (account (Ledger.allocate size') >>= fun _ => body'))) :=
    inFrame_lockstep (((allocate_lockstep hz).bind fun _ _ _ => hb).withReader fun hc =>
      { hc with scope := h, className := rfl })
  have hrecord {id : SymbolId} {frame frame' : Nat} (hid : ∃ y, κ.left.symbol id = .ok y)
      (hf : SameIf κ.bytes frame frame') : Lockstep κ (fun _ _ => True)
      (modifySymbol id ({ · with frame })) (modifySymbol id ({ · with frame := frame' })) :=
    modifySymbol_lockstep hid (fun _ => rfl) (fun _ => rfl) fun _ _ hz => { hz with frame := hf }
  refine named_lockstep name hs fun id => symbol_twins_bind ?_ fun hid x x' hx =>
    read_lockstep.bind fun c c' hc => (inherited_lockstep parent).bind fun size size' hz =>
    (hinner ?_ hz).bind fun y y' hy => (hrecord hid hy.rest).seq fun _ _ => .pure ?_
  · have hk (frame : Nat) : Keeps Follows (modifySymbol id ({ · with frame })) :=
      modifySymbol_follows fun _ => rfl
    exact (symbol_keeps id).bind fun x => read_keeps.bind fun c =>
      (@inherited_lockstep κ parent).follows.bind fun size =>
      (hinner rfl (.refl size)).follows.bind fun (_, frame) => (hk frame).bind fun _ => .pure _
  · rw [hx.members, hc.scope]
  · exact (Code.Like.cons (.refl _) hy.code).append (.refl _)

end Control

end Lower

section Statements

abbrev Stmt.Lockstep (κ : Comparison) (s s' : Stmt) : Prop := CodeLockstep κ s.lower s'.lower

variable {body body' : List Stmt}

theorem lowerAll_lockstep (h : List.Forall₂ (Stmt.Lockstep κ) body body') :
    CodeLockstep κ (lowerAll body) (lowerAll body') := by
  induction h with
  | nil =>
    rw [lowerAll]
    exact .pure (.refl _)
  | cons hs _ ih =>
    rw [lowerAll, lowerAll]
    exact hs.bind fun _ _ hx => ih.bind fun _ _ hy => .pure (hx.append hy)

theorem lowerOption_lockstep {s s' : Option Stmt} (h : Option.Rel (Stmt.Lockstep κ) s s') :
    CodeLockstep κ (lowerOption s) (lowerOption s') := by
  cases h with
  | none =>
    rw [lowerOption]
    exact .pure (.refl _)
  | some h =>
    rw [lowerOption, lowerOption]
    exact h

theorem block_lockstep {b b' : Block} (h : BlocksAlike κ.SameScope (Stmt.Lockstep κ) b b') :
    CodeLockstep κ (inBlock b.span b.lower) (inBlock b'.span b'.lower) := by
  cases h with
  | mk hk hb =>
    rw [Block.lower_eq, Block.lower_eq]
    exact inBlock_lockstep hk (lowerAll_lockstep hb)

theorem isEmpty_eq {R : Stmt → Stmt → Prop} (h : List.Forall₂ R body body') :
    body.isEmpty = body'.isEmpty := by
  cases h <;> rfl

theorem lowerCases_lockstep {cases cases' : List Case} {labels labels' : List Label}
    (h : List.Forall₂ (CasesAlike κ.lines (Stmt.Lockstep κ)) cases cases')
    (hl : List.Forall₂ (SameIf κ.labels) labels labels') :
    CodeLockstep κ (lowerCases cases labels) (lowerCases cases' labels') := by
  induction h generalizing labels labels' with
  | nil =>
    rw [lowerCases_nil, lowerCases_nil]
    exact .pure (.refl _)
  | cons hk _ ih =>
    cases hl with
    | nil => 
      rw [lowerCases, lowerCases]
      · exact .pure (.refl _)
      · simp
      · simp
    | cons hl hrest =>
      cases hk with
      | mk _ hb =>
        rw [lowerCases_cons, lowerCases_cons]
        dsimp only
        rw [isEmpty_eq hb]
        exact (caseBody_lockstep hl (lowerAll_lockstep hb)).bind fun _ _ hx => (ih hrest).bind fun _ _ hy =>
          .pure (hx.append hy)

theorem Function.lower_lockstep {f f' : Function}
    (h : FunctionsAlike κ.lines κ.SameScope (Stmt.Lockstep κ) f f') : CodeLockstep κ f.lower f'.lower := by
  cases h with
  | mk hp hb hs =>
    cases hb with
    | mk _ hb =>
      rw [Function.lower_eq, Function.lower_eq]
      exact functionFrame_lockstep _ hp hs (lowerAll_lockstep hb)

theorem lowerMembers_lockstep {members members' : List Member}
    (h : List.Forall₂ (MembersAlike κ.lines κ.SameScope (Stmt.Lockstep κ)) members members') :
    CodeLockstep κ (lowerMembers members) (lowerMembers members') := by
  induction h with
  | nil =>
    rw [lowerMembers]
    exact .pure (.refl _)
  | @cons m m' _ _ hm _ ih =>
    rw [lowerMembers, lowerMembers]
    suffices h : CodeLockstep κ m.lower m'.lower from
      h.bind fun _ _ hx => ih.bind fun _ _ hy => .pure (hx.append hy)
    cases hm with
    | field hb =>
      rw [Member.lower, Member.lower]
      exact guarding_lockstep hb.uses hb.span hb.lower_lockstep
    | method hf =>
      rw [Member.lower, Member.lower]
      exact Function.lower_lockstep hf

/-- Two statements that are alike, lowered in states that are alike, yield code that is alike. -/
theorem Stmt.Alike.lockstep {s s' : Stmt} (h : s.Alike κ.lines κ.SameScope s') : s.Lockstep κ s' := by
  apply Stmt.Alike.induction (P := Stmt.Lockstep κ) (h := h)
  case declare =>
    intro b b' hb
    rw [Stmt.Lockstep, Stmt.lower, Stmt.lower]
    exact guarding_lockstep hb.uses hb.span hb.lower_lockstep
  case assign =>
    intro target target' value value' a b ht hv ha
    rw [Stmt.Lockstep, Stmt.lower, Stmt.lower]
    exact guarding_lockstep (List.rel_append (ht.uses ha) hv.uses) ha (ht.assign_lockstep hv ha)
  case print =>
    intro e e' a b he ha
    rw [Stmt.Lockstep, Stmt.lower, Stmt.lower]
    exact guarding_lockstep he.uses ha <| (argument_lockstep (he.lockstep.value _)).bind_coded fun _ _ _ hx =>
      .pure (hx.append (.refl _))
  case eval =>
    intro e e' a b he ha
    rw [Stmt.Lockstep, Stmt.lower, Stmt.lower]
    exact guarding_lockstep he.uses ha <| (he.lockstep.value _).bind_coded fun _ _ _ hx => .pure hx
  case block =>
    intro x x' hx
    rw [Stmt.Lockstep, Stmt.lower, Stmt.lower]
    exact block_lockstep hx
  case ite =>
    intro c c' yes yes' no no' a b hc hy hn _
    rw [Stmt.Lockstep]
    cases hn with
    | none =>
      rw [Stmt.lower, Stmt.lower]
      exact ifThen_lockstep (hc.lockstep.value _) (block_lockstep hy)
    | some hn =>
      rw [Stmt.lower, Stmt.lower]
      exact ifThenElse_lockstep (hc.lockstep.value _) (block_lockstep hy) (block_lockstep hn)
  case loop =>
    intro c c' body body' a b hc hb _
    rw [Stmt.Lockstep, Stmt.lower, Stmt.lower]
    exact whileLoop_lockstep (hc.lockstep.value _) (block_lockstep hb)
  case doWhile =>
    intro c c' body body' a b hb hc _
    rw [Stmt.Lockstep, Stmt.lower, Stmt.lower]
    exact doWhile_lockstep (block_lockstep hb) (hc.lockstep.value _)
  case forLoop =>
    intro first first' test test' step step' body body' a b hf ht hs hb _
    rw [Stmt.Lockstep, Stmt.lower, Stmt.lower]
    cases hb with
    | mk hk hb =>
      rw [Block.lower_eq, Block.lower_eq]
      -- the two loops place a label for `continue` alike, as both have a step or neither has
      have he : step.isSome = step'.isSome := by cases hs <;> rfl
      rw [he]
      exact inBlock_lockstep hk (forLoop_lockstep (lowerOption_lockstep hf) (loopTest_lockstep ht)
        (lowerOption_lockstep hs) (lowerAll_lockstep hb))
  case foreach =>
    intro item collection collection' body body' a b hc hb ha
    rw [Stmt.Lockstep, Stmt.lower, Stmt.lower]
    cases hb with
    | mk hk hb =>
      rw [Block.lower_eq, Block.lower_eq]
      exact inBlock_lockstep hk <| (hc.lockstep.value _).bind_coded fun _ _ base hx =>
        (loopBound_lockstep hc base).bind_eq fun _ =>
        (indexLoop_lockstep (bindLocal_lockstep item ha) (lowerAll_lockstep hb)).bind fun _ _ hy =>
        .pure (hx.append hy)
  case switch =>
    intro subject subject' cases cases' default default' a b hs hc hd _
    rw [Stmt.Lockstep, Stmt.lower_switch, Stmt.lower_switch]
    refine switch_lockstep (hs.lockstep.value _) hc (fun hl => lowerCases_lockstep hc hl) ?_
    cases hd with
    | none => exact .none
    | some hd => exact .some (lowerAll_lockstep hd)
  case exit =>
    intro a b ha
    rw [Stmt.Lockstep, Stmt.lower, Stmt.lower]
    exact jump_lockstep breakLabel_lockstep (.breakOutside ha)
  case next =>
    intro a b ha
    rw [Stmt.Lockstep, Stmt.lower, Stmt.lower]
    exact jump_lockstep continueLabel_lockstep (.continueOutside ha)
  case ret =>
    intro e e' a b he ha
    rw [Stmt.Lockstep]
    cases he with
    | none =>
      rw [Stmt.lower, Stmt.lower]
      exact .pure (.refl _)
    | some he =>
      rw [Stmt.lower, Stmt.lower]
      exact guarding_lockstep he.uses ha <| (he.lockstep.value _).bind_coded fun _ _ _ hx =>
        .pure (hx.append (.refl _))
  case tryCatch =>
    intro caught body body' handler handler' a b hb hh ha
    rw [Stmt.Lockstep, Stmt.lower, Stmt.lower]
    refine tryCatch_lockstep caught (block_lockstep hb) ?_
    cases hh with
    | mk hk hh =>
      rw [Block.lower_eq, Block.lower_eq]
      exact inBlock_lockstep hk ((bindLocal_lockstep caught ha).seq fun _ _ => lowerAll_lockstep hh)
  case function =>
    intro f f' hf
    rw [Stmt.Lockstep, Stmt.lower, Stmt.lower]
    exact Function.lower_lockstep hf
  case classDef =>
    intro c c' hc
    rw [Stmt.Lockstep, Stmt.lower, Stmt.lower]
    cases hc with
    | mk hm _ hs =>
      rw [Class.lower_eq, Class.lower_eq]
      exact classFrame_lockstep _ _ hs (lowerMembers_lockstep hm)

end Statements

namespace Table

variable {k : Position → Position} {f g : Symbol → Symbol} {t t' : Table}

theorem overwrite_id (t : Table) : t.overwrite id id = t := by
  have hs : Scope.overwrite id id = id := funext fun s => by simp [Scope.overwrite]
  rw [overwrite, hs, List.map_id]

theorem overwrite_congr (hg : t.overwrite k g = t'.overwrite k g)
    (hf : ∀ {id x x'}, t.symbol id = .ok x → t'.symbol id = .ok x' → f x = f x') :
    t.overwrite k f = t'.overwrite k f := by
  refine congrArg Table.mk (List.ext_getElem? fun i => ?_)
  have hi := congrArg (·.scopes[i]?) hg
  simp only [overwrite, List.getElem?_map] at hi ⊢
  cases h : t.scopes[i]? with
  | none =>
    cases h' : t'.scopes[i]? with
    | none => rfl
    | some s' => simp [h, h'] at hi
  | some s =>
    cases h' : t'.scopes[i]? with
    | none => simp [h, h'] at hi
    | some s' =>
      simp only [h, h', Option.map_some, Option.some.injEq, Scope.overwrite, Scope.mk.injEq] at hi ⊢
      obtain ⟨hkey, hkind, hparent, hchildren, hsymbols⟩ := hi
      refine ⟨hkey, hkind, hparent, hchildren, List.ext_getElem (by simpa using congrArg List.length hsymbols)
        fun j hj hj' => ?_⟩
      simp only [List.length_map] at hj hj'
      rw [List.getElem_map, List.getElem_map]
      exact @hf ⟨i, j⟩ _ _ (symbol_eq_ok.2 ⟨s, h, List.getElem?_eq_getElem hj⟩)
        (symbol_eq_ok.2 ⟨s', h', List.getElem?_eq_getElem hj'⟩)

end Table

structure Lowered.Like (κ : Comparison) (out out' : Lowered) : Prop where
  code : out.code.Like κ out'.code
  left : out.table.outline = κ.left.outline
  right : out'.table.outline = κ.right.outline
  symbol : ∀ {id x x'}, out.table.symbol id = .ok x → out'.table.symbol id = .ok x' → x.Like κ x'
  problems : List.Forall₂ (Problem.Alike κ.lines) out.problems out'.problems

theorem Program.lower_like {p p' : Program} {options options' : Options} {out out' : Lowered}
    (h : List.Forall₂ (Stmt.Alike κ.lines κ.SameScope) p.statements p'.statements)
    (hc : Context.Like κ { options } { options := options' })
    (hs : State.Like κ (.start κ.left options) (.start κ.right options'))
    (ho : p.lower κ.left options = .ok out) (ho' : p'.lower κ.right options' = .ok out')
    (hq : κ.quiet → out.problems = []) : out.Like κ out' := by
  obtain ⟨s, hr, _, _, ht, hp⟩ := runs_program.1 ho
  obtain ⟨s', hr', _, _, ht', hp'⟩ := runs_program.1 ho'
  obtain ⟨hcode, hs⟩ := (lowerAll_lockstep (h.imp fun _ _ h => h.lockstep)).agree hc hs hr hr' (hp ▸ hq)
  exact {
    code := hcode
    left := by rw [ht, hs.left]
    right := by rw [ht', hs.right]
    symbol := by
      rw [ht, ht']
      exact hs.symbol
    problems := by
      rw [hp, hp']
      exact hs.problems }

end ThreeAddress
