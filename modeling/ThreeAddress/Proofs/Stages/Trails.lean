import ThreeAddress.Proofs.Lowering.Writes
import ThreeAddress.Proofs.Plans.Runs
import ThreeAddress.Proofs.Stages.Contexts

/-! A run of lowering as a walk along the statements that it lowers. Whatever is written between them
leaves the extents of arrays alone. -/

namespace ThreeAddress

open Lowering Lower

namespace Lowering.State

/-- `s'` comes after `s`: names mean the same, storage that was given out has stayed, nothing else was
written into the table, and what was reported is still there. -/
structure Precedes (s s' : State) : Prop where
  table : s.table.Grows s'.table
  writes : ∀ (R : Table → Table → Prop) [Writing R], R s.table s'.table
  problems : s.problems <+: s'.problems

/-- `s'` comes after `s`, and no extents were recorded in between. -/
structure Leads (s s' : State) : Prop extends Precedes s s' where
  dimensions : ∀ {id x y}, s.table.symbol id = .ok x → s'.table.symbol id = .ok y →
    y.dimensions = x.dimensions

variable {s s' s'' : State}

theorem precedes_of_lower {r : Stmt} {c : Context} {code : Code} (h : Runs r.lower c s code s') :
    s.Precedes s' :=
  ⟨(r.lower_grows h).table, fun _ _ => r.lower_writes h, (r.lower_grows h).problems⟩

namespace Precedes

theorem trans (h : s.Precedes s') (k : s'.Precedes s'') : s.Precedes s'' :=
  ⟨h.table.trans k.table, fun R _ => IsTrans.trans (r := R) _ _ _ (h.writes R) (k.writes R),
    h.problems.trans k.problems⟩

theorem quiet (h : s.Precedes s') (hp : s'.problems = []) : s.problems = [] :=
  List.prefix_nil.1 (hp ▸ h.problems)

end Precedes

namespace Leads

theorem of_table (ht : s'.table = s.table) (hp : s.problems <+: s'.problems) : s.Leads s' where
  table := ht ▸ .refl _
  writes R _ := ht ▸ Std.Refl.refl (r := R) _
  problems := hp
  dimensions hx hy := by
    rw [ht] at hy
    cases hx.symm.trans hy
    rfl

theorem same (ht : s'.table = s.table) (hp : s'.problems = s.problems) : s.Leads s' :=
  .of_table ht (hp ▸ List.prefix_refl _)

theorem refl (s : State) : s.Leads s := .same rfl rfl

theorem report (s : State) (p : Problem) : s.Leads (s.report p) := .of_table rfl ⟨[p], rfl⟩

theorem trans (h : s.Leads s') (k : s'.Leads s'') : s.Leads s'' where
  toPrecedes := h.toPrecedes.trans k.toPrecedes
  dimensions hx hz := by
    obtain ⟨y, hy, _⟩ := h.table.exists_symbol hx
    exact (k.dimensions hy hz).trans (h.dimensions hx hy)

theorem modifySymbol {id : SymbolId} {f : Symbol → Symbol}
    (hg : ∀ x, s.table.symbol id = .ok x → x.Grows (f x))
    (hw : ∀ (R : Table → Table → Prop) [Writing R], R s.table (s.table.modifySymbol id f))
    (hd : ∀ x, (f x).dimensions = x.dimensions) :
    s.Leads { s with table := s.table.modifySymbol id f } where
  table := .modifySymbol hg
  writes := hw
  problems := List.prefix_refl _
  dimensions hx hy := by
    obtain ⟨_, hy⟩ | ⟨rfl, x, hx', rfl⟩ := Table.symbol_of_modifySymbol hy
    · cases hx.symm.trans hy
      rfl
    · cases hx.symm.trans hx'
      exact hd _

end Leads

theorem Advances.leads (h : s.Advances s') : s.Leads s' :=
  .of_table h.table h.grows.problems

end Lowering.State

open Lowering.State (Leads Precedes)

namespace Lower

variable {c : Context} {s s' : State}

theorem bindStorage_leads (id : SymbolId) (size : Nat) : Keeps Leads (bindStorage id size) := by
  intro c s u s' h
  have hg := (bindStorage_binds _ _ h).table
  have hw (R : Table → Table → Prop) [Writing R] : R s.table s'.table := bindStorage_writes _ _ h
  obtain ⟨_, x, hx, ho, rfl⟩ := runs_bindStorage.1 h
  refine ⟨⟨hg, hw, List.prefix_refl _⟩, fun {i y z} hy hz => ?_⟩
  obtain ⟨_, hz⟩ | ⟨rfl, w, hw, rfl⟩ := Table.symbol_of_modifySymbol hz
  · cases hy.symm.trans hz
    rfl
  · cases hy.symm.trans hw
    rfl

end Lower

@[simp] def Instruction.storesElement : Instruction → Bool
  | .assign (.element ..) _ => true
  | _ => false

/-- What stands around the code of a statement or an expression: nothing of it writes into an
array. -/
def Code.IsGlue (code : Code) : Prop := ∀ i ∈ code, ¬i.storesElement

namespace Code

variable {a b : Code} {i : Instruction}

@[simp] theorem isGlue_nil : IsGlue [] := nofun

@[simp] theorem isGlue_cons : IsGlue (i :: a) ↔ ¬i.storesElement ∧ IsGlue a := List.forall_mem_cons

@[simp] theorem isGlue_append : IsGlue (a ++ b) ↔ IsGlue a ∧ IsGlue b := List.forall_mem_append

end Code

namespace FullState

/-- `d'` comes after `d` with nothing but glue in between. -/
structure Skips (d d' : FullState) : Prop where
  leads : d.toState.Leads d'.toState
  code : ∃ glue : Code, glue.IsGlue ∧ d'.code = d.code ++ glue

variable {d d' d'' : FullState} {s : Step} {b : s.Answer}

namespace Skips

theorem same (ht : d'.toState.table = d.toState.table) (hp : d.problems <+: d'.problems)
    (hc : d'.code = d.code) : d.Skips d' :=
  ⟨.of_table ht hp, [], Code.isGlue_nil, by rw [hc, List.append_nil]⟩

theorem refl (d : FullState) : d.Skips d := same rfl (List.prefix_refl _) rfl

theorem trans (h : d.Skips d') (k : d'.Skips d'') : d.Skips d'' := by
  obtain ⟨g, hg, hc⟩ := h.code
  obtain ⟨g', hg', hc'⟩ := k.code
  exact ⟨h.leads.trans k.leads, g ++ g', Code.isGlue_append.2 ⟨hg, hg'⟩, by
    rw [hc', hc, List.append_assoc]⟩

theorem precedes (h : d.Skips d') : d.Precedes d' := by
  obtain ⟨g, _, hc⟩ := h.code
  exact ⟨⟨g, hc.symm⟩, h.leads.problems, h.leads.table.outline⟩

end Skips

/-- A step that stays in the setting, begins with no part, stores no element and records no extents. -/
def Step.IsGlue : Step → Prop
  | .emit i => ¬i.storesElement
  | .begin _ | .extend .. | .want _ | .moveTo _ | .enterFunction _ | .exitFunction _ | .enterClass _
  | .exitClass _ => False
  | _ => True

theorem step_skips (h : d.step s = .ok (b, d')) (hs : s.IsGlue) :
    d.Skips d' ∧ d'.toSetting = d.toSetting ∧ s.part? = none := by
  cases s with
  | begin | extend | want | moveTo | enterFunction | exitFunction | enterClass | exitClass => exact hs.elim
  | freshTemp | freshLabel | enterLoop | exitLoop | enterSwitch | exitSwitch | breakLabel
  | continueLabel | allocate | enterFrame | exitFrame =>
    obtain ⟨_, _, rfl⟩ := keep_eq_ok h
    exact ⟨.same rfl (List.prefix_refl _) rfl, rfl, rfl⟩
  | endsInJump | className | isWanted | scope | scopeFor | lookup | lookupLocal | symbol | arraySize =>
    obtain rfl := ask_eq_ok h
    exact ⟨.refl _, rfl, rfl⟩
  | evaluate =>
    cases h
    exact ⟨.refl _, rfl, rfl⟩
  | emit i =>
    cases h
    exact ⟨⟨.refl _, [i], Code.isGlue_cons.2 ⟨hs, Code.isGlue_nil⟩, rfl⟩, rfl, rfl⟩
  | report p =>
    cases h
    exact ⟨.same rfl ⟨[p], rfl⟩ rfl, rfl, rfl⟩
  | place id offset size =>
    obtain ⟨x, hx, ho, rfl⟩ := step_place_eq_ok.1 h
    refine ⟨⟨.modifySymbol (fun y hy => ?_) (fun R _ => Writing.storage _ _ _ _ hx ho) fun _ => rfl, [],
      Code.isGlue_nil, (List.append_nil _).symm⟩, rfl, rfl⟩
    cases hx.symm.trans hy
    exact ⟨rfl, by simp [ho], by simp [ho], by simp [ho]⟩
  | closeFunction =>
    cases h
    exact ⟨⟨.modifySymbol (fun _ _ => ⟨rfl, fun _ => rfl, fun _ => rfl, fun _ => rfl⟩)
      (fun R _ => Writing.function _ _ _ _) fun _ => rfl, [], Code.isGlue_nil, (List.append_nil _).symm⟩,
      rfl, rfl⟩
  | closeClass =>
    cases h
    exact ⟨⟨.modifySymbol (fun _ _ => ⟨rfl, fun _ => rfl, fun _ => rfl, fun _ => rfl⟩)
      (fun R _ => Writing.frame _ _ _) fun _ => rfl, [], Code.isGlue_nil, (List.append_nil _).symm⟩,
      rfl, rfl⟩

end FullState

namespace Plan

def IsGlue : Plan α → Prop
  | .done _ => True
  | .step s next => s.IsGlue ∧ ∀ b, (next b).IsGlue

theorem IsGlue.run {plan : Plan α} {d d' : FullState} {a : α} (h : plan.IsGlue)
    (hr : plan.run d = .ok (a, d')) : d.Skips d' ∧ d'.toSetting = d.toSetting ∧ plan.course d = [] := by
  induction plan generalizing d with
  | done b =>
    cases hr
    exact ⟨.refl _, rfl, rfl⟩
  | step s next ih =>
    rw [Plan.run] at hr
    cases hs : d.step s with
    | error e => simp [hs, Bind.bind, Except.bind] at hr
    | ok x =>
      rw [hs] at hr
      obtain ⟨hskip, hset, hpart⟩ := FullState.step_skips hs h.1
      obtain ⟨hskip', hset', hcourse⟩ := ih x.1 (h.2 x.1) hr
      refine ⟨hskip.trans hskip', hset'.trans hset, ?_⟩
      rw [course, marks, hpart, hs]
      exact hcourse

end Plan

/-- A walk along the parts of a program, each with the state that it begins in. A statement that holds
others comes in front of them, and its run is theirs with what stands around them; the run of any other part
is over when the walk goes on. All of these runs are over at `last`. -/
inductive Trail (options : Options) (last : FullState) :
    FullState → List (Part × FullState) → FullState → Prop
  | rest {d d'} : FullState.Skips d d' → Trail options last d [] d'
  | plain {d σ σ' d' r course} : FullState.Skips d σ → r.isPlain → (r.plan options).run σ = .ok ((), σ') →
    σ'.Precedes last → Trail options last σ' course d' → Trail options last d ((.stmt r, σ) :: course) d'
  | around {d σ σ' d' r course} : FullState.Skips d σ → ¬r.isPlain →
    (r.plan options).run σ = .ok ((), σ') → σ'.Precedes last → Trail options last σ course d' →
    Trail options last d ((.stmt r, σ) :: course) d'
  | header {d σ σ' d' e v course} : FullState.Skips d σ → σ.wanted → (e.plan options).run σ = .ok (v, σ') →
    σ'.Precedes last → Trail options last σ' course d' → Trail options last d ((.header e, σ) :: course) d'

section Runs

variable {options : Options} {σ σ' : FullState} {r : Stmt} {e : Expr} {v : Operand}

theorem Stmt.runs_of_plan (h : (r.plan options).run σ = .ok ((), σ')) :
    ∃ code, Runs r.lower (σ.context options) σ.toState code σ'.toState ∧
      σ'.toSetting = σ.toSetting ∧ σ'.code = σ.code ++ code := by
  obtain ⟨code, hr, _, hset, hc⟩ := (r.plan_does σ.toSetting).runs h rfl
  exact ⟨code, hr, hset, hc⟩

theorem Expr.runs_of_plan (h : (e.plan options).run σ = .ok (v, σ')) :
    ∃ code, Runs (e.lower σ.demand) (σ.context options) σ.toState (code, v) σ'.toState ∧
      σ'.toSetting = σ.toSetting ∧ σ'.code = σ.code ++ code := by
  obtain ⟨⟨code, _⟩, hr, rfl, hset, hc⟩ := (e.plan_does σ.toSetting).runs h rfl
  exact ⟨code, hr, hset, hc⟩

theorem Stmt.precedes_of_plan (h : (r.plan options).run σ = .ok ((), σ')) :
    σ.toState.Precedes σ'.toState := by
  obtain ⟨code, hr, _⟩ := r.runs_of_plan h
  exact State.precedes_of_lower hr

theorem Expr.leads_of_plan (h : (e.plan options).run σ = .ok (v, σ')) : σ.toState.Leads σ'.toState := by
  obtain ⟨code, hr, _⟩ := e.runs_of_plan h
  exact (e.lower_advances _ hr).leads

end Runs

namespace Trail

variable {options : Options} {last last' d d' d'' : FullState}
  {course course' front back : List (Part × FullState)}

theorem precedes (h : Trail options last d course d') : d.toState.Precedes d'.toState := by
  induction h with
  | rest h => exact h.leads.toPrecedes
  | plain h _ hr _ _ ih => exact (h.leads.toPrecedes.trans (Stmt.precedes_of_plan hr)).trans ih
  | around h _ _ _ _ ih => exact h.leads.toPrecedes.trans ih
  | header h _ hr _ _ ih => exact (h.leads.toPrecedes.trans (Expr.leads_of_plan hr).toPrecedes).trans ih

theorem comes (h : Trail options last d course d') : d.Precedes d' := by
  induction h with
  | rest h => exact h.precedes
  | plain h _ hr _ _ ih => exact (h.precedes.trans (Plan.run_precedes hr)).trans ih
  | around h _ _ _ _ ih => exact h.precedes.trans ih
  | header h _ hr _ _ ih => exact (h.precedes.trans (Plan.run_precedes hr)).trans ih

theorem mono (hl : last.Precedes last') (h : Trail options last d course d') :
    Trail options last' d course d' := by
  induction h with
  | rest h => exact .rest h
  | plain h hi hr hp _ ih => exact .plain h hi hr (hp.trans hl) ih
  | around h hi hr hp _ ih => exact .around h hi hr (hp.trans hl) ih
  | header h hw hr hp _ ih => exact .header h hw hr (hp.trans hl) ih

theorem lead (h : d.Skips d') (k : Trail options last d' course d'') : Trail options last d course d'' := by
  cases k with
  | rest k => exact .rest (h.trans k)
  | plain k hi hr hp ht => exact .plain (h.trans k) hi hr hp ht
  | around k hi hr hp ht => exact .around (h.trans k) hi hr hp ht
  | header k hw hr hp ht => exact .header (h.trans k) hw hr hp ht

theorem append (h : Trail options last d course d') (k : Trail options last d' course' d'') :
    Trail options last d (course ++ course') d'' := by
  induction h with
  | rest h => exact k.lead h
  | plain h hi hr hp _ ih => exact .plain h hi hr hp (ih k)
  | around h hi hr hp _ ih => exact .around h hi hr hp (ih k)
  | header h hw hr hp _ ih => exact .header h hw hr hp (ih k)

/-- The walk up to a statement, the run of that statement, and the walk from there. -/
theorem pass {r : Stmt} {σ : FullState} (h : Trail options last d (front ++ (.stmt r, σ) :: back) d') :
    Trail options last d front σ ∧ ∃ σ', (r.plan options).run σ = .ok ((), σ') ∧ σ'.Precedes last ∧
      Trail options last (if r.isPlain then σ' else σ) back d' := by
  induction front generalizing d with
  | nil =>
    cases h with
    | plain h hi hr hp ht => exact ⟨.rest h, _, hr, hp, by rwa [if_pos hi]⟩
    | around h hi hr hp ht => exact ⟨.rest h, _, hr, hp, by rwa [if_neg hi]⟩
  | cons q front ih =>
    cases h with
    | plain h hi hr hp ht => exact ⟨.plain h hi hr hp (ih ht).1, (ih ht).2⟩
    | around h hi hr hp ht => exact ⟨.around h hi hr hp (ih ht).1, (ih ht).2⟩
    | header h hw hr hp ht => exact ⟨.header h hw hr hp (ih ht).1, (ih ht).2⟩

end Trail

end ThreeAddress
