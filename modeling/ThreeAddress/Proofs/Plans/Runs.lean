import ThreeAddress.Proofs.Plans.Statements
import ThreeAddress.Proofs.Scope.Growth

namespace ThreeAddress

open Lowering

structure FullState.Precedes (d d' : FullState) : Prop where
  code : d.code <+: d'.code
  problems : d.problems <+: d'.problems
  outline : d'.table.outline = d.table.outline

namespace FullState

variable {d d' d'' d₁ : FullState} {s : Step} {b : s.Answer}

theorem keep_eq_ok {act : Account α} {a : α} (h : d.keep act = .ok (a, d')) :
    ∃ ledger, Ledger.Runs act d.ledger a ledger ∧ d' = { d with ledger } := by
  rw [keep] at h
  cases hl : act.run d.ledger with
  | error e => simp [hl, bind, Except.bind] at h
  | ok x =>
    rw [hl] at h
    cases h
    exact ⟨_, hl, rfl⟩

theorem ask_eq_ok {x : Checked α} {a : α} (h : d.ask x = .ok (a, d')) : d' = d := by
  rw [ask] at h
  cases x with
  | error e => simp [bind, Except.bind] at h
  | ok b =>
    cases h
    rfl

theorem step_place_eq_ok {id : SymbolId} {offset size : Nat} :
    d.step (.place id offset size) = .ok ((), d₁) ↔
      ∃ x, d.table.symbol id = .ok x ∧ x.offset = none ∧ d₁ = d.modifySymbol id fun x =>
        { x with offset := some offset, size, address := some x.name } := by
  rw [step]
  cases d.table.symbol id with
  | error e => simp [bind, Except.bind]
  | ok x =>
    cases ho : x.offset with
    | some o => simp [ho, bind, Except.bind, throw, throwThe, MonadExceptOf.throw]
    | none => simp [ho, bind, Except.bind, pure, Except.pure, eq_comm]

theorem Precedes.refl (d : FullState) : d.Precedes d := ⟨List.prefix_refl _, List.prefix_refl _, rfl⟩

theorem Precedes.trans (h : d.Precedes d') (k : d'.Precedes d'') : d.Precedes d'' :=
  ⟨h.code.trans k.code, h.problems.trans k.problems, k.outline.trans h.outline⟩

theorem Precedes.quiet (h : d.Precedes d') (hp : d'.problems = []) : d.problems = [] :=
  List.prefix_nil.1 (hp ▸ h.problems)

theorem modifySymbol_precedes {id : SymbolId} {f : Symbol → Symbol} (hf : ∀ x, (f x).outline = x.outline) :
    d.Precedes (d.modifySymbol id f) :=
  ⟨List.prefix_refl _, List.prefix_refl _, Table.outline_modifySymbol fun x _ => hf x⟩

theorem step_precedes (h : d.step s = .ok (b, d')) : d.Precedes d' := by
  cases s with
  | freshTemp | freshLabel | enterLoop | exitLoop | enterSwitch | exitSwitch | breakLabel
  | continueLabel | allocate | enterFrame | exitFrame =>
    obtain ⟨_, _, rfl⟩ := keep_eq_ok h
    exact ⟨List.prefix_refl _, List.prefix_refl _, rfl⟩
  | endsInJump | className | isWanted | scope | scopeFor | lookup | lookupLocal | symbol | arraySize =>
    obtain rfl := ask_eq_ok h
    exact .refl _
  | begin | evaluate | enterFunction | exitFunction | enterClass | exitClass | want | moveTo =>
    cases h
    exact ⟨List.prefix_refl _, List.prefix_refl _, rfl⟩
  | emit i =>
    cases h
    exact ⟨⟨[i], rfl⟩, List.prefix_refl _, rfl⟩
  | report p =>
    cases h
    exact ⟨List.prefix_refl _, ⟨[p], rfl⟩, rfl⟩
  | place id offset size =>
    obtain ⟨_, _, _, rfl⟩ := step_place_eq_ok.1 h
    exact modifySymbol_precedes fun _ => rfl
  | extend | closeFunction | closeClass =>
    cases h
    exact modifySymbol_precedes fun _ => rfl

end FullState

namespace Plan

variable {plan : Plan α} {d d₁ d₂ : FullState}

theorem run_precedes {plan : Plan α} {a : α} (h : plan.run d = .ok (a, d₁)) : d.Precedes d₁ := by
  induction plan generalizing d with
  | done b =>
    cases h
    exact .refl _
  | step s next ih =>
    rw [Plan.run] at h
    cases hs : d.step s with
    | error e => simp [hs, Bind.bind, Except.bind] at h
    | ok x =>
      rw [hs] at h
      exact (FullState.step_precedes hs).trans (ih x.1 h)

theorem run_bind_eq_ok {plan : Plan α} {f : α → Plan β} {b : β} :
    (plan >>= f).run d = .ok (b, d₂) ↔
      ∃ a d₁, plan.run d = .ok (a, d₁) ∧ (f a).run d₁ = .ok (b, d₂) := by
  rw [run_bind]
  cases plan.run d with
  | error e => simp [Bind.bind, Except.bind]
  | ok x =>
    refine ⟨fun h => ⟨_, _, rfl, h⟩, ?_⟩
    rintro ⟨_, _, ⟨⟩, h⟩
    exact h

end Plan

theorem DoesCode.run {options : Options} {plan : Plan Unit} {act : Lower Code}
    (h : DoesCode options plan act) (d : FullState) :
    plan.run d = (fun x => ((), { d with toState := x.2, code := d.code ++ x.1 })) <$>
      act (d.context options) d.toState := by
  have := h d.toSetting d.code d.toState
  rwa [List.append_nil] at this

theorem Does.runs {c : Context} {p p' : Setting} {out : α → Code × β} {plan : Plan β} {act : Lower α}
    {d d' : FullState} {b : β} (h : Does c p p' [] out plan act) (hr : plan.run d = .ok (b, d'))
    (hp : d.toSetting = p) :
    ∃ a, Lower.Runs act c d.toState a d'.toState ∧ b = (out a).2 ∧ d'.toSetting = p' ∧
      d'.code = d.code ++ (out a).1 := by
  subst hp
  have hd := h d.code d.toState
  rw [List.append_nil] at hd
  have hd : plan.run d = _ := hd
  rw [hr] at hd
  cases ha : act c d.toState with
  | error e => simp [ha, Functor.map, Except.map] at hd
  | ok x =>
    rw [ha] at hd
    cases hd
    exact ⟨x.1, ha, rfl, rfl, rfl⟩

theorem Does.run_of_runs {c : Context} {p' : Setting} {out : α → Code × β} {plan : Plan β} {act : Lower α}
    {d : FullState} {a : α} {s : State} (h : Does c d.toSetting p' [] out plan act)
    (hr : Lower.Runs act c d.toState a s) :
    plan.run d = .ok ((out a).2, ⟨s, p', d.code ++ (out a).1⟩) := by
  have hd := h d.code d.toState
  rw [List.append_nil, show act c d.toState = .ok (a, s) from hr] at hd
  exact hd

end ThreeAddress
