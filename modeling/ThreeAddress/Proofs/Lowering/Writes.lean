import ThreeAddress.Proofs.Lowering.Growth

namespace ThreeAddress

open Lowering Lower

/-- A relation between tables that holds across everything that lowering writes. -/
class Writing (R : Table → Table → Prop) : Prop extends Std.Refl R, IsTrans Table R where
  storage : ∀ t id {x} offset size, t.symbol id = .ok x → x.offset = none →
    R t (t.modifySymbol id fun x => { x with offset := some offset, size, address := some x.name })
  array : ∀ t id {x} dimensions offset size, t.symbol id = .ok x → x.offset = none →
    R t ((t.modifySymbol id ({ · with dimensions })).modifySymbol id fun x =>
      { x with offset := some offset, size, address := some x.name })
  frame : ∀ t id frame, R t (t.modifySymbol id ({ · with frame }))
  function : ∀ t id params frame, R t (t.modifySymbol id ({ · with params, frame }))

namespace Lowering.State

def Writes (R : Table → Table → Prop) (s s' : State) : Prop := R s.table s'.table

variable {R : Table → Table → Prop} [Writing R]

theorem Writes.of_eq {s s' : State} (h : s'.table = s.table) : Writes R s s' := by
  rw [Writes, h]
  exact Std.Refl.refl _

instance : Steady (Writes R) where
  refl _ := .of_eq rfl
  trans _ _ _ h k := IsTrans.trans (r := R) _ _ _ h k
  nextTemp _ := .of_eq rfl
  report _ _ _ := .of_eq rfl

end Lowering.State

namespace Lower

open Lowering.State (Writes)

variable {R : Table → Table → Prop} [Writing R]

theorem Keeps.writes {act : Lower α} (h : Keeps State.Advances act) : Keeps (Writes R) act :=
  h.mono fun h => .of_eq h.table

theorem account_writes (act : Account α) : Keeps (Writes R) (account act) := by
  intro c s a s' h
  obtain ⟨_, _, rfl⟩ := runs_account.1 h
  exact .of_eq rfl

theorem freshLabel_writes : Keeps (Writes R) freshLabel := account_writes _

theorem report_writes (p : Problem) : Keeps (Writes R) (report p) := by
  intro c s u s' h
  rw [runs_report.1 h]
  exact .of_eq rfl

theorem bindStorage_writes (id : SymbolId) (size : Nat) : Keeps (Writes R) (bindStorage id size) := by
  intro c s u s' h
  obtain ⟨_, x, hx, ho, rfl⟩ := runs_bindStorage.1 h
  exact Writing.storage _ _ _ _ hx ho

omit [Writing R] in
theorem modifySymbol_writes {id : SymbolId} {f : Symbol → Symbol}
    (h : ∀ t : Table, R t (t.modifySymbol id f)) : Keeps (Writes R) (modifySymbol id f) := by
  intro c s u s' hr
  rw [runs_modifySymbol.1 hr]
  exact h s.table

theorem bindLocal_writes (name : String) (span : Span) : Keeps (Writes R) (bindLocal name span) := by
  refine (lookup_keeps name).bind fun found => ?_
  cases found with
  | none => exact report_writes _
  | some id => exact (valueSize_keeps id).bind fun _ => bindStorage_writes ..

theorem bindParams_writes (params : List Param) : Keeps (Writes R) (bindParams params) := by
  refine Keeps.forM fun p _ => get_keeps.bind fun _ => read_keeps.bind fun _ =>
    (lift_keeps _).bind fun found => ?_
  cases found with
  | none => exact report_writes _
  | some id => exact (valueSize_keeps id).bind fun _ => bindStorage_writes ..

theorem declareArray_writes (id : SymbolId) (es : List Expr) (span : Span) :
    Keeps (Writes R) (declareArray id es span) := by
  intro c s code s' hr
  obtain ⟨x, s₁, _, ⟨hl, ⟨u, hb⟩, _⟩ | ⟨dims, size, u, s₂, hl, _, hb, he⟩⟩ := runs_declareArray hr
  · have h₁ : Writes R s s₁ := literalShape_keeps _ _ _ hl
    exact IsTrans.trans (r := Writes R) _ _ _ h₁ (bindStorage_writes _ _ hb)
  · have h₁ : Writes R s s₁ := literalShape_keeps _ _ _ hl
    have h₃ : Writes R s₂ s' := (storeElements_keeps (leaf_advances es)).writes he
    refine IsTrans.trans (r := Writes R) _ _ _ h₁ (IsTrans.trans (r := Writes R) _ _ _ ?_ h₃)
    obtain ⟨_, y, hy, ho, rfl⟩ := runs_bindStorage.1 hb
    -- The extents are written right before the place, so the symbol has had no place then either.
    obtain ⟨hn, _⟩ | ⟨_, z, hz, rfl⟩ := Table.symbol_of_modifySymbol hy
    · exact absurd rfl hn
    · exact Writing.array _ _ _ _ _ hz ho

section Forms

variable {test : Lower Valued} {first body other step : Lower Code}

theorem ifThen_writes (ht : Keeps (Writes R) test) (hb : Keeps (Writes R) body) :
    Keeps (Writes R) (ifThen test body) :=
  ht.bind fun _ => freshLabel_writes.bind fun _ => hb.bind fun _ => .pure _

theorem ifThenElse_writes (ht : Keeps (Writes R) test) (hb : Keeps (Writes R) body)
    (ho : Keeps (Writes R) other) : Keeps (Writes R) (ifThenElse test body other) :=
  ht.bind fun _ => freshLabel_writes.bind fun _ => hb.bind fun _ => freshLabel_writes.bind fun _ =>
    ho.bind fun _ => .pure _

theorem whileLoop_writes (ht : Keeps (Writes R) test) (hb : Keeps (Writes R) body) :
    Keeps (Writes R) (whileLoop test body) :=
  freshLabel_writes.bind fun _ => ht.bind fun _ => freshLabel_writes.bind fun _ =>
    (account_writes _).bind fun _ => hb.bind fun _ => (account_writes _).bind fun _ => .pure _

theorem doWhile_writes (ht : Keeps (Writes R) test) (hb : Keeps (Writes R) body) :
    Keeps (Writes R) (doWhile body test) :=
  freshLabel_writes.bind fun _ => (account_writes _).bind fun _ => hb.bind fun _ =>
    ht.bind fun _ => (account_writes _).bind fun _ => .pure _

theorem forLoop_writes {test : Option (Lower Valued)} {hasStep : Bool}
    (hf : Keeps (Writes R) first) (ht : Keeps (Writes R) (loopTest test))
    (hs : Keeps (Writes R) step) (hb : Keeps (Writes R) body) :
    Keeps (Writes R) (forLoop first test hasStep step body) :=
  hf.bind fun _ => freshLabel_writes.bind fun _ => ht.bind fun _ => (account_writes _).bind fun _ =>
    hb.bind fun _ => (account_writes _).bind fun _ => hs.bind fun _ => .pure _

theorem indexLoop_writes {base bound : Operand} {item : String} {bind : Lower Unit}
    (hi : Keeps (Writes R) bind) (hb : Keeps (Writes R) body) :
    Keeps (Writes R) (indexLoop base bound item bind body) :=
  (copyToTemp_keeps _).bind fun _ => (copyToTemp_keeps _).bind fun _ => hi.bind fun _ =>
    freshLabel_writes.bind fun _ => freshTemp_keeps.bind fun _ => freshLabel_writes.bind fun _ =>
    freshTemp_keeps.bind fun _ => (account_writes _).bind fun _ => hb.bind fun _ =>
    (account_writes _).bind fun _ => .pure _

theorem gotoBreak_writes : Keeps (Writes R) gotoBreak := (account_writes _).bind fun _ => .pure _

theorem caseBody_writes (l : Label) (isEmpty : Bool) (hb : Keeps (Writes R) body) :
    Keeps (Writes R) (caseBody l isEmpty body) := by
  refine hb.bind fun _ => read_keeps.bind fun _ => ?_
  split
  · exact gotoBreak_writes.bind fun _ => .pure _
  · exact .pure _

theorem switch_writes {subject : Lower Valued} {cases : List Case}
    {bodies : List Label → Lower Code} {default : Option (Lower Code)}
    (hs : Keeps (Writes R) subject) (hb : ∀ labels, Keeps (Writes R) (bodies labels))
    (hd : ∀ act ∈ default, Keeps (Writes R) act) :
    Keeps (Writes R) (switch subject cases bodies default) := by
  refine hs.bind fun _ => (ensureTemp_keeps _).bind fun _ => (caseTests_advances _ _).writes.bind
    fun _ => (account_writes _).bind fun _ => ?_
  cases default with
  | none =>
    exact gotoBreak_writes.bind fun _ => (hb _).bind fun _ => (account_writes _).bind fun _ => .pure _
  | some body =>
    exact freshLabel_writes.bind fun _ => (hb _).bind fun _ => (hd body rfl).bind fun _ =>
      (account_writes _).bind fun _ => .pure _

theorem jump_writes (target : Account (Option Label)) (problem : Problem) :
    Keeps (Writes R) (jump target problem) := by
  refine (account_writes _).bind fun found => ?_
  cases found with
  | none => exact (report_writes _).bind fun _ => .pure _
  | some l => exact .pure _

theorem tryCatch_writes {caught : String} (hb : Keeps (Writes R) body)
    (ho : Keeps (Writes R) other) : Keeps (Writes R) (tryCatch body caught other) :=
  freshLabel_writes.bind fun _ => hb.bind fun _ => freshLabel_writes.bind fun _ =>
    ho.bind fun _ => .pure _

theorem inFrame_writes {act : Lower α} (h : Keeps (Writes R) act) : Keeps (Writes R) (inFrame act) :=
  (account_writes _).bind fun _ => h.bind fun _ => (account_writes _).bind fun _ => .pure _

theorem functionFrame_writes (name : String) (params : List Param) (span : Span)
    (hb : Keeps (Writes R) body) : Keeps (Writes R) (functionFrame name params span body) := by
  refine (lookup_keeps name).bind fun found => ?_
  cases found with
  | none => exact (report_writes _).bind fun _ => .pure _
  | some id =>
    exact (symbol_keeps id).bind fun _ => read_keeps.bind fun _ =>
      (inFrame_writes (.withReader ((bindParams_writes params).bind fun _ => hb))).bind
        fun (_, frame) => (modifySymbol_writes fun t => Writing.function t id params.length frame).bind
        fun _ => .pure _

theorem classFrame_writes (name : String) (parent : Option String) (span : Span)
    (hb : Keeps (Writes R) body) : Keeps (Writes R) (classFrame name parent span body) := by
  refine (lookup_keeps name).bind fun found => ?_
  cases found with
  | none => exact (report_writes _).bind fun _ => .pure _
  | some id =>
    have hi : Keeps (Writes R) (inherited parent) := by
      intro c s size s' h
      obtain ⟨rfl, _⟩ := runs_inherited h
      exact .of_eq rfl
    exact (symbol_keeps id).bind fun _ => read_keeps.bind fun _ => hi.bind fun _ =>
      (inFrame_writes (.withReader ((account_writes _).bind fun _ => hb))).bind
        fun (_, frame) => (modifySymbol_writes fun t => Writing.frame t id frame).bind fun _ => .pure _

end Forms

end Lower

open Lowering.State (Writes)

variable {R : Table → Table → Prop} [Writing R]

theorem Binding.lower_writes (b : Binding) : Keeps (Writes R) b.lower := by
  refine (lookup_keeps b.name).bind fun found => ?_
  cases found with
  | none => exact (report_writes _).bind fun _ => .pure _
  | some id =>
    have scalar (e : Expr) : Keeps (Writes R) (do
        bindStorage id (← valueSize id)
        let x ← storable (e.lower .value)
        return x.1 ++ [.assign (.var b.name) x.2]) :=
      (valueSize_keeps id).bind fun _ => (bindStorage_writes ..).bind fun _ =>
        (storable_keeps (e.lower_advances _)).writes.bind fun _ => .pure _
    dsimp only
    split
    · exact declareArray_writes ..
    · exact scalar _
    · exact (valueSize_keeps id).bind fun _ => (bindStorage_writes ..).bind fun _ => .pure _

theorem Member.lower_writes {m : Member}
    (h : ∀ f, m = .method f → ∀ s ∈ f.body.body, Keeps (Writes R) s.lower) :
    Keeps (Writes R) m.lower := by
  cases m with
  | field b =>
    rw [Member.lower]
    exact guarding_keeps _ _ (fun h => .of_eq h.table) b.lower_writes
  | method f =>
    rw [Member.lower, Function.lower_eq]
    exact functionFrame_writes _ _ _ (lowerAll_keeps (h f rfl))

theorem Stmt.lower_writes (s : Stmt) : Keeps (Writes R) s.lower := by
  induction s with
  | declare b =>
    rw [Stmt.lower]
    exact guarding_keeps _ _ (fun h => .of_eq h.table) b.lower_writes
  | assign | print | eval | ret => exact (lower_advances rfl).writes
  | block b ih =>
    rw [Stmt.lower, Block.lower_eq]
    exact (lowerAll_keeps ih).inBlock _
  | ite c yes no span ihy ihn =>
    have hc : Keeps (Writes R) _ := (c.lower_advances .value).writes
    have hy := (lowerAll_keeps ihy).inBlock yes.span
    rw [Stmt.lower_ite]
    cases no with
    | none => exact ifThen_writes hc hy
    | some no => exact ifThenElse_writes hc hy ((lowerAll_keeps (ihn no rfl)).inBlock _)
  | loop c body span ih =>
    rw [Stmt.lower, Block.lower_eq]
    exact whileLoop_writes (c.lower_advances .value).writes ((lowerAll_keeps ih).inBlock _)
  | doWhile body c span ih =>
    rw [Stmt.lower, Block.lower_eq]
    exact doWhile_writes (c.lower_advances .value).writes ((lowerAll_keeps ih).inBlock _)
  | forLoop first test step body span ihf ihs ih =>
    rw [Stmt.lower, Block.lower_eq]
    exact (forLoop_writes (lowerOption_keeps ihf) (loopTest_advances test).writes
      (lowerOption_keeps ihs) (lowerAll_keeps ih)).inBlock _
  | foreach item collection body span ih =>
    rw [Stmt.lower, Block.lower_eq]
    refine Keeps.inBlock ((collection.lower_advances _).writes.bind ?_) _
    rintro ⟨_, base⟩
    exact (loopBound_keeps ..).bind fun _ =>
      (indexLoop_writes (bindLocal_writes ..) (lowerAll_keeps ih)).bind fun _ => .pure _
  | switch subject cases default span ihc ihd =>
    rw [Stmt.lower_switch]
    refine switch_writes (subject.lower_advances _).writes
      (fun labels => lowerCases_keeps labels fun k hk l =>
        caseBody_writes l _ (lowerAll_keeps (ihc k hk))) ?_
    intro act h
    obtain ⟨body, hb, rfl⟩ := Option.map_eq_some_iff.1 h
    exact lowerAll_keeps (ihd body hb)
  | exit span =>
    rw [Stmt.lower]
    exact jump_writes ..
  | next span =>
    rw [Stmt.lower]
    exact jump_writes ..
  | tryCatch body caught handler span ihb ihh =>
    rw [Stmt.lower, Block.lower_eq, Block.lower_eq]
    exact tryCatch_writes ((lowerAll_keeps ihb).inBlock _) <|
      Keeps.inBlock ((bindLocal_writes ..).bind fun _ => lowerAll_keeps ihh) _
  | function f ih =>
    rw [Stmt.lower, Function.lower_eq]
    exact functionFrame_writes _ _ _ (lowerAll_keeps ih)
  | classDef c ih =>
    rw [Stmt.lower, Class.lower_eq]
    exact classFrame_writes _ _ _ (lowerMembers_keeps fun m hm =>
      m.lower_writes fun f hf => ih f (hf ▸ hm))

theorem Program.lower_writes {p : Program} {table : Table} {options : Options} {out : Lowered}
    (h : p.lower table options = .ok out) : R table out.table := by
  obtain ⟨s, hr, _, _, ht, _⟩ := runs_program.1 h
  have hw : Writes R _ s := lowerAll_keeps (fun s _ => s.lower_writes) hr
  rwa [ht]

end ThreeAddress
