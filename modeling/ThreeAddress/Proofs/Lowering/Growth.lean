import Mathlib.Data.List.Forall2
import ThreeAddress.Proofs.Lowering.Advance
import ThreeAddress.Proofs.Scope.Growth

namespace ThreeAddress

open Lowering

/-- `slots'` is `slots` later on: labels that were there have stayed. -/
def Fills : List (Option Label) → List (Option Label) → Prop :=
  List.Forall₂ fun o o' => ∀ l ∈ o, l ∈ o'

namespace Fills

variable {a b c : List (Option Label)} {o : Option Label}

theorem refl (a : List (Option Label)) : Fills a a := List.forall₂_same.2 fun _ _ _ h => h

theorem trans (h : Fills a b) (k : Fills b c) : Fills a c := by
  induction h generalizing c with
  | nil => exact k
  | cons ho _ ih =>
    cases k with
    | cons hp k => exact .cons (fun l hl => hp l (ho l hl)) (ih k)

theorem tail (h : Fills (o :: a) b) : Fills a b.tail := by
  cases h with
  | cons _ h => exact h

theorem eq_cons (h : Fills (o :: a) b) : b = b.head?.join :: b.tail := by
  cases h with
  | cons _ _ => rfl

theorem nil_left (h : Fills [] b) : b = [] := by
  cases h
  rfl

theorem head (h : Fills (some l :: a) b) : b.head?.join = some l := by
  cases h with
  | cons h _ => exact h l rfl

end Fills

/-- `s'` is `s` later on, in the same frame and with the same targets. -/
structure Lowering.State.Grows (s s' : State) : Prop where
  temps : s.ledger.temps ≤ s'.ledger.temps
  labels : s.ledger.labels ≤ s'.ledger.labels
  layout : s'.ledger.layout = s.ledger.layout
  breaks : Fills s.ledger.targets.breaks s'.ledger.targets.breaks
  continues : Fills s.ledger.targets.continues s'.ledger.targets.continues
  cursor : s.ledger.cursor ≤ s'.ledger.cursor
  saved : s'.ledger.saved = s.ledger.saved
  table : s.table.Grows s'.table
  problems : s.problems <+: s'.problems

/-- `s'` is `s` after some storage was given out besides. -/
structure Lowering.State.Stores (s s' : State) : Prop extends State.Grows s s' where
  targets : s'.ledger.targets = s.ledger.targets
  quiet : ∃ ps, s'.problems = s.problems ++ ps ∧ ∀ p ∈ ps, ¬p.isJump

/-- `s'` is `s` after variables got their storage, without any code. -/
structure Lowering.State.Binds (s s' : State) : Prop extends State.Stores s s' where
  sameTemps : s'.ledger.temps = s.ledger.temps
  sameLabels : s'.ledger.labels = s.ledger.labels

namespace Lowering.State

theorem Advances.grows {s s' : State} (h : s.Advances s') : s.Grows s' where
  temps := h.temps
  labels := h.labels
  layout := h.layout
  breaks := by rw [h.targets]; exact .refl _
  continues := by rw [h.targets]; exact .refl _
  cursor := Nat.le_of_eq h.cursor.symm
  saved := h.saved
  table := by rw [h.table]; exact .refl _
  problems := by
    obtain ⟨ps, hp, _⟩ := h.problems
    exact ⟨ps, hp.symm⟩

namespace Grows

variable {s s' s'' : State} {b k : Option Label}

theorem refl (s : State) : s.Grows s := (Advances.refl s).grows

theorem trans (h : s.Grows s') (k : s'.Grows s'') : s.Grows s'' where
  temps := Nat.le_trans h.temps k.temps
  labels := Nat.le_trans h.labels k.labels
  layout := k.layout.trans h.layout
  breaks := h.breaks.trans k.breaks
  continues := h.continues.trans k.continues
  cursor := Nat.le_trans h.cursor k.cursor
  saved := k.saved.trans h.saved
  table := h.table.trans k.table
  problems := h.problems.trans k.problems

instance : Std.Refl Grows := ⟨refl⟩

instance : IsTrans State Grows := ⟨fun _ _ _ => trans⟩

theorem quiet (h : s.Grows s') (hp : s'.problems = []) : s.problems = [] :=
  List.prefix_nil.1 (hp ▸ h.problems)

theorem nextTemp (s : State) : s.Grows s.nextTemp := (Advances.nextTemp s).grows

theorem nextLabel (s : State) : s.Grows s.nextLabel := (Advances.nextLabel s).grows

theorem report (s : State) (p : Problem) : s.Grows (s.report p) :=
  { refl s with problems := ⟨[p], rfl⟩ }

theorem exitLoop (h : (s.enterLoop b k).Grows s') : s.Grows s'.exitLoop :=
  { h with breaks := h.breaks.tail, continues := h.continues.tail }

theorem breakLabel?_eq {l : Label} (h : (s.enterLoop (some l) k).Grows s') :
    s'.breakLabel? = some l :=
  h.breaks.head

theorem continueLabel?_eq {l : Label} (h : (s.enterLoop b (some l)).Grows s') :
    s'.continueLabel? = some l :=
  h.continues.head

theorem exitSwitch (h : s.enterSwitch.Grows s') : s.Grows s'.exitSwitch :=
  { h with breaks := h.breaks.tail }

theorem exitFrame {c : Context} {size : Nat} (h : s.enterFrame.Grows s')
    (hr : Lower.Runs (Lower.account Ledger.exitFrame) c s' size s'') : s.Grows s'' := by
  obtain ⟨l, hl, rfl⟩ := Lower.runs_account.1 hr
  obtain ⟨cursor, hc, rfl, _⟩ := Ledger.runs_exitFrame.1 hl
  have hs : s'.ledger.saved = (s.ledger.cursor, s.ledger.targets) :: s.ledger.saved := h.saved
  rw [hs] at hc
  refine { h with breaks := ?_, continues := ?_, cursor := ?_, saved := ?_ }
  · simpa [hs] using Fills.refl _
  · simpa [hs] using Fills.refl _
  · cases hl : s'.ledger.layout <;> simp [hl] at hc <;> simp only <;> omega
  · simp [hs]

theorem modifySymbol {id : SymbolId} {f : Symbol → Symbol}
    (h : ∀ x, s.table.symbol id = .ok x → x.Grows (f x)) :
    s.Grows { s with table := s.table.modifySymbol id f } :=
  { refl s with table := .modifySymbol h }

end Grows

theorem Advances.stores {s s' : State} (h : s.Advances s') : s.Stores s' :=
  ⟨h.grows, h.targets, h.problems⟩

namespace Stores

theorem refl (s : State) : s.Stores s := (Advances.refl s).stores

theorem trans {s s' s'' : State} (h : s.Stores s') (k : s'.Stores s'') : s.Stores s'' where
  toGrows := h.toGrows.trans k.toGrows
  targets := k.targets.trans h.targets
  quiet := by
    obtain ⟨ps, hp, hj⟩ := h.quiet
    obtain ⟨qs, hq, hk⟩ := k.quiet
    refine ⟨ps ++ qs, by simp [hp, hq], ?_⟩
    intro p hm
    exact (List.mem_append.1 hm).elim (hj p) (hk p)

instance : Steady Stores where
  refl := refl
  trans _ _ _ := trans
  nextTemp s := (Advances.nextTemp s).stores
  report _ _ h := (Advances.report (by simpa using h)).stores

theorem modifySymbol {s : State} {id : SymbolId} {f : Symbol → Symbol}
    (h : ∀ x, s.table.symbol id = .ok x → x.Grows (f x)) :
    s.Stores { s with table := s.table.modifySymbol id f } :=
  ⟨.modifySymbol h, rfl, [], by simp, by simp⟩

end Stores

namespace Binds

theorem refl (s : State) : s.Binds s := ⟨.refl s, rfl, rfl⟩

theorem trans {s s' s'' : State} (h : s.Binds s') (k : s'.Binds s'') : s.Binds s'' :=
  ⟨h.toStores.trans k.toStores, k.sameTemps.trans h.sameTemps, k.sameLabels.trans h.sameLabels⟩

theorem report (s : State) {p : Problem} (h : ¬p.isJump) : s.Binds (s.report p) :=
  ⟨(Advances.report (by simpa using h)).stores, rfl, rfl⟩

end Binds

end Lowering.State

namespace Lower

open Lowering.State (Grows Stores Binds)

theorem Keeps.grows {act : Lower α} (h : Keeps State.Advances act) : Keeps Grows act :=
  h.mono State.Advances.grows

theorem Keeps.stores {act : Lower α} (h : Keeps State.Advances act) : Keeps Stores act :=
  h.mono State.Advances.stores

theorem Keeps.bound {act : Lower α} (h : Keeps Binds act) : Keeps Stores act :=
  h.mono Binds.toStores

theorem Keeps.stored {act : Lower α} (h : Keeps Stores act) : Keeps Grows act :=
  h.mono Stores.toGrows

theorem Keeps.inBlock {R : State → State → Prop} {act : Lower α} (h : Keeps R act) (span : Span) :
    Keeps R (inBlock span act) :=
  fun _ _ _ _ hr => h (runs_inBlock.1 hr)

theorem freshLabel_grows : Keeps Grows freshLabel := freshLabel_advances.grows

theorem report_grows (p : Problem) : Keeps Grows (report p) := by
  intro c s u s' h
  rw [runs_report.1 h]
  exact .report s p

theorem lift_keeps {R : State → State → Prop} [Std.Refl R] (x : Checked α) :
    Keeps R (liftM x) := by
  intro c s a s' h
  obtain ⟨_, rfl⟩ := runs_lift.1 h
  exact Std.Refl.refl s'

theorem modifySymbol_stores {id : SymbolId} {f : Symbol → Symbol}
    (h : ∀ x : Symbol, x.Grows (f x)) : Keeps Stores (modifySymbol id f) := by
  intro c s u s' hr
  rw [runs_modifySymbol.1 hr]
  exact .modifySymbol fun x _ => h x

theorem bindStorage_binds (id : SymbolId) (size : Nat) : Keeps Binds (bindStorage id size) := by
  intro c s u s' h
  obtain ⟨_, x, hx, hb, rfl⟩ := runs_bindStorage.1 h
  have hm : s.Stores { s with table := s.table.modifySymbol id fun x =>
      { x with offset := some s.ledger.cursor, size, address := some x.name } } := by
    refine .modifySymbol fun y hy => ?_
    cases hx.symm.trans hy
    exact ⟨rfl, by simp [hb], by simp [hb], by simp [hb]⟩
  exact { hm with cursor := Nat.le_add_right _ _, sameTemps := rfl, sameLabels := rfl }

theorem valueSize_keeps {R : State → State → Prop} [Std.Refl R] (id : SymbolId) :
    Keeps R (valueSize id) := by
  intro c s n s' h
  obtain ⟨_, _, rfl, _⟩ := runs_valueSize.1 h
  exact Std.Refl.refl s'

theorem exitFrame_counters {c : Context} {s s' : State} {size : Nat}
    (h : Runs (account Ledger.exitFrame) c s size s') :
    s'.ledger.temps = s.ledger.temps ∧ s'.ledger.labels = s.ledger.labels := by
  obtain ⟨l, hl, rfl⟩ := runs_account.1 h
  obtain ⟨_, _, rfl, _⟩ := Ledger.runs_exitFrame.1 hl
  exact ⟨rfl, rfl⟩

theorem allocate_counters {c : Context} {s s' : State} {size base : Nat}
    (h : Runs (account (Ledger.allocate size)) c s base s') :
    s'.ledger.temps = s.ledger.temps ∧ s'.ledger.labels = s.ledger.labels := by
  obtain ⟨l, hl, rfl⟩ := runs_account.1 h
  obtain ⟨_, rfl, _⟩ := Ledger.runs_allocate.1 hl
  exact ⟨rfl, rfl⟩

theorem breakLabel_grows : Keeps Grows (account Ledger.breakLabel) := by
  intro c s x s' h
  obtain ⟨_, _, rfl⟩ | ⟨l, rest, _, _, rfl⟩ | ⟨rest, hs, _, _, rfl⟩ := runs_breakLabel.1 h
  · exact .refl _
  · exact .refl _
  · refine { Grows.nextLabel s with breaks := ?_ }
    rw [show s.ledger.targets.breaks = none :: rest from hs]
    exact .cons nofun (Fills.refl rest)

theorem continueLabel_grows : Keeps Grows (account Ledger.continueLabel) := by
  intro c s x s' h
  obtain ⟨_, _, rfl⟩ | ⟨l, rest, _, _, rfl⟩ | ⟨rest, hs, _, _, rfl⟩ := runs_continueLabel.1 h
  · exact .refl _
  · exact .refl _
  · refine { Grows.nextLabel s with continues := ?_ }
    rw [show s.ledger.targets.continues = none :: rest from hs]
    exact .cons nofun (Fills.refl rest)

section Forms

variable {test : Lower Valued} {first body other step : Lower Code}

theorem ifThen_grows (ht : Keeps Grows test) (hb : Keeps Grows body) :
    Keeps Grows (ifThen test body) :=
  ht.bind fun _ => freshLabel_grows.bind fun _ => hb.bind fun _ => .pure _

theorem ifThenElse_grows (ht : Keeps Grows test) (hb : Keeps Grows body)
    (ho : Keeps Grows other) : Keeps Grows (ifThenElse test body other) :=
  ht.bind fun _ => freshLabel_grows.bind fun _ => hb.bind fun _ => freshLabel_grows.bind fun _ =>
    ho.bind fun _ => .pure _

theorem whileLoop_grows (ht : Keeps Grows test) (hb : Keeps Grows body) :
    Keeps Grows (whileLoop test body) := by
  intro c s code s' h
  obtain ⟨_, _, _, s₁, h₁, _, _, s₂, h₂, rfl, _⟩ := runs_whileLoop.1 h
  exact (Grows.nextLabel s).trans <| (ht h₁).trans <| (Grows.nextLabel s₁).trans (hb h₂).exitLoop

theorem doWhile_grows (ht : Keeps Grows test) (hb : Keeps Grows body) :
    Keeps Grows (doWhile body test) := by
  intro c s code s' h
  obtain ⟨_, _, s₁, h₁, _, _, s₂, h₂, rfl, _⟩ := runs_doWhile.1 h
  exact (Grows.nextLabel s).trans ((hb h₁).trans (ht h₂)).exitLoop

theorem forLoop_grows {test : Option (Lower Valued)} {hasStep : Bool} (hf : Keeps Grows first)
    (ht : Keeps Grows (loopTest test)) (hs : Keeps Grows step) (hb : Keeps Grows body) :
    Keeps Grows (forLoop first test hasStep step body) := by
  intro c s code s' h
  obtain ⟨_, s₁, h₁, _, _, _, s₂, h₂, _, s₃, h₃, _, h₄, _⟩ := runs_forLoop.1 h
  exact (hf h₁).trans <| (Grows.nextLabel s₁).trans <| (ht h₂).trans <|
    (hb h₃).exitLoop.trans (hs h₄)

theorem indexLoop_grows {base bound : Operand} {item : String} {bind : Lower Unit}
    (hi : Keeps Grows bind) (hb : Keeps Grows body) :
    Keeps Grows (indexLoop base bound item bind body) := by
  intro c s code s' h
  obtain ⟨_, _, _, s₁, h₁, _, _, _, _, _, s₂, h₂, rfl, _⟩ := runs_indexLoop.1 h
  exact (Grows.nextTemp s).trans <| (Grows.nextTemp _).trans <| (hi h₁).trans <|
    (Grows.nextLabel s₁).trans <| (Grows.nextTemp _).trans <| (Grows.nextLabel _).trans <|
    (Grows.nextTemp _).trans (hb h₂).exitLoop

theorem gotoBreak_grows : Keeps Grows gotoBreak := breakLabel_grows.bind fun _ => .pure _

theorem caseBody_grows (l : Label) (isEmpty : Bool) (hb : Keeps Grows body) :
    Keeps Grows (caseBody l isEmpty body) := by
  refine hb.bind fun _ => read_keeps.bind fun _ => ?_
  split
  · exact gotoBreak_grows.bind fun _ => .pure _
  · exact .pure _

theorem switch_grows {subject : Lower Valued} {cases : List Case}
    {bodies : List Label → Lower Code} {default : Option (Lower Code)}
    (hs : Keeps State.Advances subject) (hb : ∀ labels, Keeps Grows (bodies labels))
    (hd : ∀ act ∈ default, Keeps Grows act) :
    Keeps Grows (switch subject cases bodies default) := by
  intro c s code s' h
  obtain ⟨_, _, s₁, h₁, _, _, s₂, h₂, _, _, s₃, h₃, h⟩ := runs_switch.1 h
  have hc : s₁.Advances s₂ := ensureTemp_keeps _ h₂
  refine (hs h₁).grows.trans <| hc.grows.trans <| (caseTests_advances _ _ h₃).grows.trans ?_
  obtain ⟨_, _, s₄, h₄, _, s₅, h₅, rfl, _⟩ | ⟨_, hd', _, _, s₄, h₄, _, s₅, h₅, rfl, _⟩ := h
  · exact ((gotoBreak_grows h₄).trans (hb _ h₅)).exitSwitch
  · exact ((Grows.nextLabel _).trans <| (hb _ h₄).trans (hd _ hd' h₅)).exitSwitch

theorem tryCatch_grows {caught : String} (hb : Keeps Grows body) (ho : Keeps Grows other) :
    Keeps Grows (tryCatch body caught other) :=
  freshLabel_grows.bind fun _ => hb.bind fun _ => freshLabel_grows.bind fun _ =>
    ho.bind fun _ => .pure _

theorem jump_grows {target : Account (Option Label)} (problem : Problem)
    (h : Keeps Grows (account target)) : Keeps Grows (jump target problem) := by
  refine h.bind fun x => ?_
  cases x with
  | none => exact (report_grows problem).bind fun _ => .pure _
  | some l => exact .pure _

theorem guarding_keeps {R : State → State → Prop} (uses : List Use) (whole : Span)
    (le : ∀ {s s' : State}, s.Advances s' → R s s') (hb : Keeps R body) :
    Keeps R (guarding uses whole body) := by
  intro c s code s' h
  obtain ⟨_, h⟩ | ⟨_, _, rfl⟩ := runs_guarding h
  · exact hb h
  · refine le (State.Advances.report fun p hp => ?_)
    obtain ⟨u, _, rfl⟩ := List.mem_map.1 hp
    simp [Problem.isJump]

theorem guarding_stores (uses : List Use) (whole : Span) (hb : Keeps Stores body) :
    Keeps Stores (guarding uses whole body) := guarding_keeps uses whole State.Advances.stores hb

theorem guarding_advances (uses : List Use) (whole : Span) (hb : Keeps State.Advances body) :
    Keeps State.Advances (guarding uses whole body) := guarding_keeps uses whole id hb

theorem bindLocal_binds (name : String) (span : Span) : Keeps Binds (bindLocal name span) := by
  intro c s u s' h
  obtain ⟨_, rfl⟩ | ⟨id, x, _, _, h⟩ := runs_bindLocal.1 h
  · exact .report s (by simp [Problem.isJump])
  · exact bindStorage_binds _ _ h

theorem loopBound_keeps {R : State → State → Prop} [Std.Refl R] (e : Expr) (value : Operand) :
    Keeps R (loopBound e value) := by
  intro c s n s' h
  obtain ⟨rfl, _⟩ := runs_loopBound h
  exact Std.Refl.refl s'

theorem bindParams_binds (params : List Param) : Keeps Binds (bindParams params) := by
  intro c s u s' h
  induction params generalizing s with
  | nil =>
    obtain ⟨_, rfl⟩ := runs_pure.1 h
    exact .refl _
  | cons p rest ih =>
    obtain ⟨s₁, ⟨_, rfl⟩ | ⟨id, x, v, _, _, h₁⟩, h₂⟩ := runs_bindParams_cons h
    · exact (Binds.report s (by simp [Problem.isJump])).trans (ih h₂)
    · exact (bindStorage_binds _ _ h₁).trans (ih h₂)

theorem functionFrame_grows (name : String) (params : List Param) (span : Span)
    (hb : Keeps Grows body) : Keeps Grows (functionFrame name params span body) := by
  intro c s code s' h
  obtain ⟨_, _, rfl⟩ | ⟨id, x, _, s₁, _, s₂, _, s₃, _, hx, h₁, h₂, h₃, rfl, _⟩ :=
    runs_functionFrame h
  · exact .report s _
  · exact (Grows.exitFrame ((bindParams_binds params h₁).toGrows.trans (hb h₂)) h₃).trans <|
      .modifySymbol fun _ _ => ⟨rfl, fun _ => rfl, fun _ => rfl, fun _ => rfl⟩

theorem allocate_frame_grows {c : Context} {s s' : State} {size base : Nat}
    (h : Runs (account (Ledger.allocate size)) c s.enterFrame base s') :
    s.enterFrame.Grows s' := by
  obtain ⟨l, hl, rfl⟩ := runs_account.1 h
  obtain ⟨_, rfl, _⟩ := Ledger.runs_allocate.1 hl
  exact { Grows.refl _ with cursor := Nat.zero_le _ }

theorem classFrame_grows (name : String) (parent : Option String) (span : Span)
    (hb : Keeps Grows body) : Keeps Grows (classFrame name parent span body) := by
  intro c s code s' h
  obtain ⟨_, _, rfl⟩ | ⟨id, x, size, s₁, _, s₂, _, s₃, _, s₄, _, hx, h₁, h₂, h₃, h₄, rfl, _⟩ :=
    runs_classFrame h
  · exact .report s _
  · obtain ⟨rfl, _⟩ := runs_inherited h₁
    exact (Grows.exitFrame ((allocate_frame_grows h₂).trans (hb h₃)) h₄).trans <|
      .modifySymbol fun _ _ => ⟨rfl, fun _ => rfl, fun _ => rfl, fun _ => rfl⟩

end Forms

theorem storeElements_keeps {base zero : Operand} {literal : Nest (Lower Valued)}
    {dims : List Nat} (h : ∀ path, ∀ act ∈ literal.at? path, Keeps State.Advances act) :
    Keeps State.Advances (storeElements base literal dims zero) := by
  refine (Keeps.mapM fun p _ => ?_).bind fun _ => .pure _
  exact (leafAt_keeps (h p) zero).bind fun _ => .pure _

theorem leaf_advances (es : List Expr) (path : List Nat) :
    ∀ act ∈ (Nest.row (lowerCells es)).at? path, Keeps State.Advances act := by
  intro act h
  obtain ⟨e, _, rfl⟩ := leaf_of_lowerCells h
  exact storable_keeps (e.lower_advances .value)

theorem declareArray_stores (id : SymbolId) (es : List Expr) (span : Span) :
    Keeps Stores (declareArray id es span) := by
  refine (symbol_keeps id).bind fun x => read_keeps.bind fun c =>
    (literalShape_keeps ..).stores.bind fun shape => ?_
  cases shape with
  | none => exact (bindStorage_binds ..).bound.bind fun _ => .pure _
  | some dims =>
    refine Keeps.bind (lift_keeps _) fun size => (modifySymbol_stores ?_).bind fun _ =>
      (bindStorage_binds ..).bound.bind fun _ => (storeElements_keeps (leaf_advances es)).stores
    exact fun _ => ⟨rfl, fun _ => rfl, fun _ => rfl, fun _ => rfl⟩

theorem assignArray_advances (id : SymbolId) (es : List Expr) (span : Span) :
    Keeps State.Advances (assignArray id es span) := by
  refine (symbol_keeps id).bind fun x => (literalShape_keeps ..).bind fun shape => ?_
  cases shape with
  | none => exact .pure _
  | some dims => exact storeElements_keeps (leaf_advances es)

theorem lowerIndices_advances (es : List Expr) : Keeps State.Advances (lowerIndices es) := by
  induction es with
  | nil => exact .pure _
  | cons e rest ih =>
    exact (e.lower_advances _).bind fun _ => (ensureTemp_keeps _).bind fun _ =>
      ih.bind fun _ => .pure _

end Lower

open Lower Lowering.State

theorem Binding.lower_stores (b : Binding) : Keeps Stores b.lower := by
  refine (lookup_keeps b.name).bind fun found => ?_
  cases found with
  | none => exact (report_keeps (by simp [Problem.isJump])).stores.bind fun _ => .pure _
  | some id =>
    have scalar (e : Expr) : Keeps Stores (do
        bindStorage id (← valueSize id)
        let x ← storable (e.lower .value)
        return x.1 ++ [.assign (.var b.name) x.2]) :=
      (valueSize_keeps id).bind fun _ => (bindStorage_binds ..).bound.bind fun _ =>
        (storable_keeps (e.lower_advances _)).stores.bind fun _ => .pure _
    dsimp only
    split
    · exact declareArray_stores ..
    · exact scalar _
    · exact (valueSize_keeps id).bind fun _ => (bindStorage_binds ..).bound.bind fun _ => .pure _

theorem Target.assign_advances (value : Expr) (span : Span) (target : Target) :
    Keeps Advances (target.assign value span) := by
  have stored := storable_keeps (value.lower_advances .value)
  cases target with
  | ident name =>
    refine (lookup_keeps name).bind fun found => ?_
    cases found with
    | none => exact (report_keeps (by simp [Problem.isJump])).bind fun _ => .pure _
    | some id =>
      cases value with
      | array es span => exact assignArray_advances ..
      | _ => exact (symbol_keeps id).bind fun _ => stored.bind fun _ => .pure _
  | index base indices =>
    exact (base.lower_advances _).bind fun _ => (lowerIndices_advances _).bind fun _ =>
      stored.bind fun _ => .pure _
  | property object field =>
    exact (object.lower_advances _).bind fun _ => stored.bind fun _ => .pure _

section Lists

variable {R : State → State → Prop} [Std.Refl R] [IsTrans State R]

theorem lowerAll_keeps {body : List Stmt} (h : ∀ s ∈ body, Keeps R s.lower) :
    Keeps R (lowerAll body) := by
  induction body with
  | nil =>
    rw [lowerAll]
    exact .pure _
  | cons s rest ih =>
    rw [lowerAll]
    exact (h s (by simp)).bind fun _ => (ih fun s hs => h s (by simp [hs])).bind fun _ => .pure _

omit [IsTrans State R] in
theorem lowerOption_keeps {s : Option Stmt} (h : ∀ s' ∈ s, Keeps R s'.lower) :
    Keeps R (lowerOption s) := by
  cases s with
  | none =>
    rw [lowerOption]
    exact .pure _
  | some s =>
    rw [lowerOption]
    exact h s rfl

theorem lowerCases_keeps {cases : List Case} (labels : List Label)
    (h : ∀ k ∈ cases, ∀ l, Keeps R (caseBody l k.body.isEmpty (lowerAll k.body))) :
    Keeps R (lowerCases cases labels) := by
  induction cases generalizing labels with
  | nil =>
    rw [lowerCases_nil]
    exact .pure _
  | cons k rest ih =>
    cases labels with
    | nil =>
      rw [lowerCases]
      · exact .pure _
      · simp
    | cons l labels =>
      rw [lowerCases_cons]
      exact (h k (by simp) l).bind fun _ =>
        (ih labels fun k hk => h k (by simp [hk])).bind fun _ => .pure _

theorem lowerMembers_keeps {members : List Member} (h : ∀ m ∈ members, Keeps R m.lower) :
    Keeps R (lowerMembers members) := by
  induction members with
  | nil =>
    rw [lowerMembers]
    exact .pure _
  | cons m rest ih =>
    rw [lowerMembers]
    exact (h m (by simp)).bind fun _ => (ih fun m hm => h m (by simp [hm])).bind fun _ => .pure _

end Lists

theorem Member.lower_grows {m : Member}
    (h : ∀ f, m = .method f → ∀ s ∈ f.body.body, Keeps Grows s.lower) : Keeps Grows m.lower := by
  cases m with
  | field b =>
    rw [Member.lower]
    exact (guarding_stores _ _ b.lower_stores).stored
  | method f =>
    rw [Member.lower, Function.lower_eq]
    exact functionFrame_grows _ _ _ (lowerAll_keeps (h f rfl))

def Stmt.isPlain : Stmt → Bool
  | .declare _ | .assign .. | .print .. | .eval .. | .return .. => true
  | _ => false

/-- The plain statements that declare nothing. -/
def Stmt.isAction : Stmt → Bool
  | .assign .. | .print .. | .eval .. | .return .. => true
  | _ => false

theorem Stmt.lower_advances {s : Stmt} (h : s.isAction) : Keeps Advances s.lower := by
  cases s with
  | assign target value span =>
    rw [Stmt.lower]
    exact guarding_advances _ _ (target.assign_advances value span)
  | print e span =>
    rw [Stmt.lower]
    exact guarding_advances _ _ <| (argument_keeps (e.lower_advances _)).bind fun _ => .pure _
  | eval e span =>
    rw [Stmt.lower]
    exact guarding_advances _ _ <| (e.lower_advances _).bind fun _ => .pure _
  | «return» e span =>
    cases e with
    | none =>
      rw [Stmt.lower]
      exact .pure _
    | some e =>
      rw [Stmt.lower]
      exact guarding_advances _ _ <| (e.lower_advances _).bind fun _ => .pure _
  | _ => simp [isAction] at h

theorem Stmt.lower_stores {s : Stmt} (h : s.isPlain) : Keeps Stores s.lower := by
  cases s with
  | declare b =>
    rw [Stmt.lower]
    exact guarding_stores _ _ b.lower_stores
  | assign | print | eval | «return» => exact (lower_advances rfl).stores
  | _ => simp [isPlain] at h

theorem Stmt.lower_grows (s : Stmt) : Keeps Grows s.lower := by
  induction s with
  | declare | assign | print | eval | ret => exact (lower_stores rfl).stored
  | block b ih =>
    rw [Stmt.lower, Block.lower_eq]
    exact (lowerAll_keeps ih).inBlock _
  | ite c yes no span ihy ihn =>
    have hc := (c.lower_advances .value).grows
    have hy := (lowerAll_keeps ihy).inBlock yes.span
    rw [Stmt.lower_ite]
    cases no with
    | none => exact ifThen_grows hc hy
    | some no => exact ifThenElse_grows hc hy ((lowerAll_keeps (ihn no rfl)).inBlock _)
  | loop c body span ih =>
    rw [Stmt.lower, Block.lower_eq]
    exact whileLoop_grows (c.lower_advances .value).grows ((lowerAll_keeps ih).inBlock _)
  | doWhile body c span ih =>
    rw [Stmt.lower, Block.lower_eq]
    exact doWhile_grows (c.lower_advances .value).grows ((lowerAll_keeps ih).inBlock _)
  | forLoop first test step body span ihf ihs ih =>
    rw [Stmt.lower, Block.lower_eq]
    exact (forLoop_grows (lowerOption_keeps ihf) (loopTest_advances test).grows
      (lowerOption_keeps ihs) (lowerAll_keeps ih)).inBlock _
  | foreach item collection body span ih =>
    rw [Stmt.lower, Block.lower_eq]
    refine Keeps.inBlock ((collection.lower_advances _).grows.bind ?_) _
    rintro ⟨_, base⟩
    exact (loopBound_keeps ..).bind fun _ =>
      (indexLoop_grows (bindLocal_binds ..).bound.stored (lowerAll_keeps ih)).bind fun _ => .pure _
  | switch subject cases default span ihc ihd =>
    rw [Stmt.lower_switch]
    refine switch_grows (subject.lower_advances _) (fun labels => lowerCases_keeps labels fun k hk l =>
      caseBody_grows l _ (lowerAll_keeps (ihc k hk))) ?_
    intro act h
    obtain ⟨body, hb, rfl⟩ := Option.map_eq_some_iff.1 h
    exact lowerAll_keeps (ihd body hb)
  | exit span =>
    rw [Stmt.lower]
    exact jump_grows _ breakLabel_grows
  | next span =>
    rw [Stmt.lower]
    exact jump_grows _ continueLabel_grows
  | tryCatch body caught handler span ihb ihh =>
    rw [Stmt.lower, Block.lower_eq, Block.lower_eq]
    exact tryCatch_grows ((lowerAll_keeps ihb).inBlock _) <|
      Keeps.inBlock ((bindLocal_binds ..).bound.stored.bind fun _ => lowerAll_keeps ihh) _
  | function f ih =>
    rw [Stmt.lower, Function.lower_eq]
    exact functionFrame_grows _ _ _ (lowerAll_keeps ih)
  | classDef c ih =>
    rw [Stmt.lower, Class.lower_eq]
    exact classFrame_grows _ _ _ (lowerMembers_keeps fun m hm =>
      m.lower_grows fun f hf => ih f (hf ▸ hm))

theorem lowerBody_grows (body : List Stmt) : Keeps Grows (lowerAll body) :=
  lowerAll_keeps fun s _ => s.lower_grows

theorem lowerOption_grows (s : Option Stmt) : Keeps Grows (lowerOption s) :=
  lowerOption_keeps fun s _ => s.lower_grows

theorem lowerCases_grows (cases : List Case) (labels : List Label) :
    Keeps Grows (lowerCases cases labels) :=
  lowerCases_keeps labels fun _ _ l => caseBody_grows l _ (lowerBody_grows _)

theorem lowerMembers_grows (members : List Member) : Keeps Grows (lowerMembers members) :=
  lowerMembers_keeps fun m _ => m.lower_grows fun _ _ s _ => s.lower_grows

end ThreeAddress
