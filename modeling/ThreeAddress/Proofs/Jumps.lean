import ThreeAddress.Proofs.Lowering.Exits

/-! Where `break` and `continue` lead. The rules below say it statement by statement, for the code of
a statement and the problems that lowering it reports; every lowering obeys them. -/

namespace ThreeAddress

open Lowering Lower

def Expr.Yields (e : Expr) (head : Code) (v : Operand) (ps : List Problem) : Prop :=
  (∃ c s s', Runs (e.lower .value) c s (head, v) s' ∧ s'.problems = s.problems ++ ps) ∧
    ∀ p ∈ ps, ¬p.isJump

inductive Tested : Option Expr → Code → Option Label → List Problem → Prop
  | never : Tested none [] done []
  | test : Expr.Yields e head v ps →
    Tested (some e) (head ++ [.branch v .eq (.int 0) done]) (some done) ps

mutual

inductive Routed : Exits → Stmt → Code → List Problem → Prop
  | plain : s.isPlain → (∀ p ∈ ps, ¬p.isJump) → Routed ex s code ps
  | exit : ex.breaks = some (some l) → Routed ex (.break span) [.goto l] []
  | strayExit : ex.breaks = none → Routed ex (.break span) [] [.breakOutside span.line]
  | next : ex.continues = some (some l) → Routed ex (.continue span) [.goto l] []
  | strayNext : ex.continues = none → Routed ex (.continue span) [] [.continueOutside span.line]
  | block : RoutedAll ex b.body code ps → Routed ex (.block b) code ps
  | ifThen : c.Yields head v ps → RoutedAll ex yes.body mid qs →
    Routed ex (.ite c yes none span) (head ++ .branch v .eq (.int 0) l :: mid ++ [.label l])
      (ps ++ qs)
  | ifThenElse : c.Yields head v ps → RoutedAll ex yes.body first qs →
    RoutedAll ex no.body second rs →
    Routed ex (.ite c yes (some no) span)
      (head ++ .branch v .eq (.int 0) l :: first ++ .goto done :: .label l :: second
        ++ [.label done]) (ps ++ qs ++ rs)
  | whileLoop : c.Yields head v ps →
    RoutedAll ⟨some (some done), some (some start)⟩ body.body mid qs →
    Routed ex (.while c body span)
      (.label start :: head ++ .branch v .eq (.int 0) done :: mid
        ++ [.goto start, .label done]) (ps ++ qs)
  | doWhile : RoutedAll ⟨some done, some (some start)⟩ body.body mid ps →
    c.Yields tail v qs →
    Routed ex (.doWhile body c span)
      (.label start :: mid ++ tail ++ .branch v .ne (.int 0) start :: place done) (ps ++ qs)
  | forever : RoutedAll ex first.toList head ps → Tested test check done qs →
    RoutedAll ⟨some done, some (some start)⟩ body.body mid rs →
    Routed ex (.for first test none body span)
      (head ++ .label start :: check ++ mid ++ .goto start :: place done) (ps ++ qs ++ rs)
  | forStep : RoutedAll ex first.toList head ps → Tested test check done qs →
    RoutedAll ⟨some done, some next⟩ body.body mid rs → Routed ex step tail ts →
    Routed ex (.for first test (some step) body span)
      (head ++ .label start :: check ++ mid ++ (place next ++ tail) ++ .goto start :: place done)
      (ps ++ qs ++ rs ++ ts)
  | foreach : (∀ p ∈ ps, ¬p.isJump) →
    RoutedAll ⟨some (some done), some next⟩ body.body mid qs →
    Routed ex (.foreach item collection body span)
      (head ++ mid ++ place next ++ [.binary i i .add (.int 1), .goto start, .label done])
      (ps ++ qs)
  | switch : (∀ p ∈ ps, ¬p.isJump) → RoutedCases ⟨some done, ex.continues⟩ cases mid qs →
    Routed ex (.switch subject cases none span) (head ++ mid ++ place done) (ps ++ qs)
  | switchDefault : (∀ p ∈ ps, ¬p.isJump) → RoutedCases ⟨some done, ex.continues⟩ cases mid qs →
    RoutedAll ⟨some done, ex.continues⟩ body last rs →
    Routed ex (.switch subject cases (some body) span)
      (head ++ mid ++ .label l :: last ++ place done) (ps ++ qs ++ rs)
  | tryCatch : RoutedAll ex body.body first ps → (∀ p ∈ qs, ¬p.isJump) →
    RoutedAll ex handler.body second rs →
    Routed ex (.tryCatch body caught handler span)
      (.tryBegin failed :: first
        ++ [.tryEnd, .goto done, .label failed, .assign (.var caught) .exception]
        ++ second ++ [.label done]) (ps ++ qs ++ rs)
  | function : RoutedFunction f code ps → Routed ex (.function f) code ps
  | classDef : RoutedMembers c.members mid ps →
    Routed ex (.class c) (.entry c.name :: mid ++ [.close c.name]) ps
  | strayClass : Routed ex (.class c) [] [.unresolved c.name c.span.line]

inductive RoutedAll : Exits → List Stmt → Code → List Problem → Prop
  | nil : RoutedAll ex [] [] []
  | cons : Routed ex s first ps → RoutedAll ex rest second qs →
    RoutedAll ex (s :: rest) (first ++ second) (ps ++ qs)

inductive RoutedCases : Exits → List Case → Code → List Problem → Prop
  | nil : RoutedCases ex [] [] []
  | cons : RoutedAll ex k.body mid ps →
    (leave = [] ∨ ∃ done, ex.breaks = some (some done) ∧ leave = [.goto done]) →
    RoutedCases ex rest second qs →
    RoutedCases ex (k :: rest) (.label l :: mid ++ leave ++ second) (ps ++ qs)

inductive RoutedFunction : Function → Code → List Problem → Prop
  | body : (∀ p ∈ ps, ¬p.isJump) → RoutedAll {} f.body.body mid qs →
    RoutedFunction f (.entry name :: mid ++ [.close name]) (ps ++ qs)
  | stray : RoutedFunction f [] [.unresolved f.name f.span.line]

inductive RoutedMembers : List Member → Code → List Problem → Prop
  | nil : RoutedMembers [] [] []
  | field : (∀ p ∈ ps, ¬p.isJump) → RoutedMembers rest second qs →
    RoutedMembers (.field b :: rest) (first ++ second) (ps ++ qs)
  | method : RoutedFunction f first ps → RoutedMembers rest second qs →
    RoutedMembers (.method f :: rest) (first ++ second) (ps ++ qs)

end

theorem Expr.yields {e : Expr} {c : Context} {s s' : State} {x : Valued}
    (h : Runs (e.lower .value) c s x s') :
    ∃ ps, s'.problems = s.problems ++ ps ∧ e.Yields x.1 x.2 ps := by
  obtain ⟨ps, hp, hj⟩ := (e.lower_advances .value h).problems
  exact ⟨ps, hp, ⟨c, s, s', h, hp⟩, hj⟩

/-- What a statement's lowering has to show: its code and its problems obey the rules, whatever the
labels of the constructs around it turn out to be. -/
def Stmt.Routes (s : Stmt) : Prop :=
  ∀ ⦃ex c σ code σ'⦄, Runs s.lower c σ code σ' → Exits.Settles ex σ'.targets →
    ∃ ps, σ'.problems = σ.problems ++ ps ∧ Routed ex s code ps

variable {c : Context} {σ σ' : State} {code : Code} {ex : Exits}

theorem routed_all {body : List Stmt} (h : ∀ s ∈ body, s.Routes)
    (hr : Runs (lowerAll body) c σ code σ') (hs : ex.Settles σ'.targets) :
    ∃ ps, σ'.problems = σ.problems ++ ps ∧ RoutedAll ex body code ps := by
  induction body generalizing σ code with
  | nil =>
    rw [lowerAll] at hr
    obtain ⟨rfl, rfl⟩ := runs_pure.1 hr
    exact ⟨[], by simp, .nil⟩
  | cons s rest ih =>
    rw [lowerAll] at hr
    simp only [runs_bind, runs_pure] at hr
    obtain ⟨first, σ₁, h₁, second, _, h₂, rfl, rfl⟩ := hr
    have hg : σ₁.Grows σ' := lowerBody_grows _ h₂
    obtain ⟨ps, hp, hps⟩ := h s (by simp) h₁ (hs.before hg)
    obtain ⟨qs, hq, hqs⟩ := ih (fun s hs => h s (by simp [hs])) h₂
    exact ⟨ps ++ qs, by rw [hq, hp, List.append_assoc], .cons hps hqs⟩

theorem routed_option {first : Option Stmt} (h : ∀ s ∈ first, s.Routes)
    (hr : Runs (lowerOption first) c σ code σ') (hs : ex.Settles σ'.targets) :
    ∃ ps, σ'.problems = σ.problems ++ ps ∧ RoutedAll ex first.toList code ps := by
  have hr : Runs (lowerAll first.toList) c σ code σ' := by
    cases first <;> simpa [lowerOption, lowerAll] using hr
  exact routed_all (fun s hs => h s (by simpa using hs)) hr hs

theorem leave_routed {leave : Code} (hr : Runs gotoBreak c σ leave σ')
    (hs : ex.Settles σ'.targets) : σ'.problems = σ.problems ∧
      (leave = [] ∨ ∃ done, ex.breaks = some (some done) ∧ leave = [.goto done]) := by
  obtain ⟨l?, hb, rfl⟩ := runs_gotoBreak.1 hr
  obtain ⟨hp, he⟩ := settled_break hb hs
  cases l? with
  | none => exact ⟨hp, .inl rfl⟩
  | some l => exact ⟨hp, .inr ⟨l, he, rfl⟩⟩

theorem routed_cases {cases : List Case} {labels : List Label}
    (h : ∀ k ∈ cases, ∀ s ∈ k.body, s.Routes) (hl : labels.length = cases.length)
    (hr : Runs (lowerCases cases labels) c σ code σ') (hs : ex.Settles σ'.targets) :
    ∃ ps, σ'.problems = σ.problems ++ ps ∧ RoutedCases ex cases code ps := by
  induction cases generalizing labels σ code with
  | nil =>
    rw [lowerCases_nil] at hr
    obtain ⟨rfl, rfl⟩ := runs_pure.1 hr
    exact ⟨[], by simp, .nil⟩
  | cons k rest ih =>
    cases labels with
    | nil => simp at hl
    | cons l labels =>
      rw [lowerCases_cons] at hr
      simp only [runs_bind, runs_pure] at hr
      obtain ⟨first, σ₁, h₁, second, _, h₂, rfl, rfl⟩ := hr
      have hg : σ₁.Grows σ' := lowerCases_grows _ labels h₂
      obtain ⟨qs, hq, hqs⟩ := ih (fun k hk => h k (by simp [hk])) (by simpa using hl) h₂
      obtain ⟨inner, σ₀, h₀, h₁⟩ := runs_caseBody.1 h₁
      split at h₁
      · obtain ⟨leave, hb, rfl⟩ := h₁
        obtain ⟨ps, hp, hps⟩ :=
          routed_all (h k (by simp)) h₀ ((hs.before hg).before (gotoBreak_grows hb))
        obtain ⟨hb, hl⟩ := leave_routed hb (hs.before hg)
        have := RoutedCases.cons (l := l) hps hl hqs
        exact ⟨ps ++ qs, by rw [hq, hb, hp, List.append_assoc], by simpa using this⟩
      · obtain ⟨rfl, rfl⟩ := h₁
        obtain ⟨ps, hp, hps⟩ := routed_all (h k (by simp)) h₀ (hs.before hg)
        have := RoutedCases.cons (l := l) hps (.inl rfl) hqs
        exact ⟨ps ++ qs, by rw [hq, hp, List.append_assoc], by simpa using this⟩

theorem routed_test {test : Option Expr} {check : Code} {done done' : Option Label}
    (hr : Runs (loopTest (test.map (·.lower .value))) c σ (check, done) σ')
    (hd : ∀ l ∈ done, l ∈ done') :
    ∃ ps, σ'.problems = σ.problems ++ ps ∧ Tested test check done' ps := by
  obtain ⟨ht, hx, rfl⟩ | ⟨act, head, v, s₁, ht, h₁, _, rfl, hx⟩ := runs_loopTest.1 hr
  · cases hx
    obtain rfl := Option.map_eq_none_iff.1 ht
    exact ⟨[], by simp, .never⟩
  · cases hx
    obtain ⟨e, rfl, rfl⟩ := Option.map_eq_some_iff.1 ht
    obtain ⟨ps, hp, hy⟩ := e.yields h₁
    rw [Option.mem_def.1 (hd _ rfl)]
    exact ⟨ps, hp, .test hy⟩

theorem exitFrame_problems {size : Nat} (h : Runs (account Ledger.exitFrame) c σ size σ') :
    σ'.problems = σ.problems := by
  obtain ⟨l, _, rfl⟩ := runs_account.1 h
  rfl

theorem routed_function {f : Function} (h : ∀ s ∈ f.body.body, s.Routes)
    (hr : Runs f.lower c σ code σ') :
    ∃ ps, σ'.problems = σ.problems ++ ps ∧ RoutedFunction f code ps := by
  rw [Function.lower_eq] at hr
  obtain ⟨_, rfl, rfl⟩ | ⟨id, x, _, s₁, inner, s₂, _, s₃, _, _, h₁, h₂, h₃, rfl, rfl⟩ :=
    runs_functionFrame hr
  · exact ⟨_, rfl, .stray⟩
  · have hp := bindParams_binds f.params h₁
    have hg : s₁.Grows s₂ := lowerBody_grows _ h₂
    obtain ⟨ps, hps, hj⟩ := hp.quiet
    obtain ⟨qs, hqs, hq⟩ := routed_all h h₂ (Exits.settles_outside (hp.toGrows.trans hg) rfl)
    refine ⟨ps ++ qs, ?_, .body hj hq⟩
    rw [exitFrame_problems h₃, hqs, hps, List.append_assoc]

theorem routed_members {members : List Member}
    (h : ∀ f, .method f ∈ members → ∀ s ∈ f.body.body, s.Routes)
    (hr : Runs (lowerMembers members) c σ code σ') :
    ∃ ps, σ'.problems = σ.problems ++ ps ∧ RoutedMembers members code ps := by
  induction members generalizing σ code with
  | nil =>
    rw [lowerMembers] at hr
    obtain ⟨rfl, rfl⟩ := runs_pure.1 hr
    exact ⟨[], by simp, .nil⟩
  | cons m rest ih =>
    rw [lowerMembers] at hr
    simp only [runs_bind, runs_pure] at hr
    obtain ⟨first, σ₁, h₁, second, _, h₂, rfl, rfl⟩ := hr
    obtain ⟨qs, hq, hqs⟩ := ih (fun f hf => h f (by simp [hf])) h₂
    cases m with
    | field b =>
      rw [Member.lower] at h₁
      obtain ⟨ps, hp, hj⟩ := (guarding_stores _ _ b.lower_stores h₁).quiet
      exact ⟨ps ++ qs, by rw [hq, hp, List.append_assoc], .field hj hqs⟩
    | method f =>
      rw [Member.lower] at h₁
      obtain ⟨ps, hp, hps⟩ := routed_function (h f (by simp)) h₁
      exact ⟨ps ++ qs, by rw [hq, hp, List.append_assoc], .method hps hqs⟩

theorem Stmt.routes (s : Stmt) : s.Routes := by
  induction s with
  | declare b | assign target value span | print e span | eval e span | ret e span =>
    intro ex c σ code σ' hr hs
    obtain ⟨ps, hp, hj⟩ := (lower_stores rfl hr).quiet
    exact ⟨ps, hp, .plain rfl hj⟩
  | block b ih =>
    intro ex c σ code σ' hr hs
    rw [Stmt.lower, Block.lower_eq] at hr
    obtain ⟨ps, hp, h⟩ := routed_all ih (runs_inBlock.1 hr) hs
    exact ⟨ps, hp, .block h⟩
  | ite e yes no span ihy ihn =>
    intro ex c σ code σ' hr hs
    rw [Stmt.lower_ite] at hr
    cases no with
    | none =>
      obtain ⟨head, v, s₁, h₁, _, inner, h₂, rfl⟩ := runs_ifThen.1 hr
      obtain ⟨ps, hp, hy⟩ := e.yields h₁
      obtain ⟨qs, hq, hb⟩ := routed_all ihy (runs_inBlock.1 h₂) hs
      exact ⟨ps ++ qs, by rw [hq, hp, List.append_assoc], .ifThen hy hb⟩
    | some no =>
      obtain ⟨head, v, s₁, h₁, _, first, s₂, h₂, _, second, h₃, rfl⟩ := runs_ifThenElse.1 hr
      have hg : s₂.Grows σ' :=
        (State.Grows.nextLabel s₂).trans ((lowerBody_grows no.body).inBlock no.span h₃)
      obtain ⟨ps, hp, hy⟩ := e.yields h₁
      -- the targets around settle at the end of the statement, so the first branch sees them further on
      obtain ⟨qs, hq, hb⟩ := routed_all ihy (runs_inBlock.1 h₂) (hs.before hg)
      obtain ⟨rs, ht, hn⟩ := routed_all (ihn no rfl) (runs_inBlock.1 h₃) hs
      exact ⟨ps ++ qs ++ rs, by rw [ht, hq, hp]; simp, .ifThenElse hy hb hn⟩
  | loop e body span ih =>
    intro ex c σ code σ' hr hs
    rw [Stmt.lower, Block.lower_eq] at hr
    obtain ⟨_, head, v, s₁, h₁, _, inner, s₂, h₂, rfl, rfl⟩ := runs_whileLoop.1 hr
    have hg := (lowerBody_grows body.body).inBlock body.span h₂
    obtain ⟨ps, hp, hy⟩ := e.yields h₁
    -- in the body, the targets are those of the loop, which settle at the end of the body
    obtain ⟨qs, hq, hb⟩ := routed_all ih (runs_inBlock.1 h₂) (Exits.settles_loop hg)
    rw [hg.breakLabel?_eq, hg.continueLabel?_eq] at hb
    exact ⟨ps ++ qs, by rw [hq, hp, List.append_assoc], .whileLoop hy hb⟩
  | doWhile body e span ih =>
    intro ex c σ code σ' hr hs
    rw [Stmt.lower, Block.lower_eq] at hr
    obtain ⟨_, inner, s₁, h₁, tail, v, s₂, h₂, rfl, rfl⟩ := runs_doWhile.1 hr
    have hg := (lowerBody_grows body.body).inBlock body.span h₁
    obtain ⟨ps, hp, hb⟩ := routed_all ih (runs_inBlock.1 h₁) (Exits.settles_loop hg)
    obtain ⟨qs, hq, hy⟩ := e.yields h₂
    rw [hg.continueLabel?_eq] at hb
    rw [show s₂.breakLabel? = s₁.breakLabel? by
      rw [State.breakLabel?, State.targets, (e.lower_advances _ h₂).targets]]
    exact ⟨ps ++ qs, by rw [hq, hp, List.append_assoc], .doWhile hb hy⟩
  | forLoop first test step body span ihf ihs ih =>
    intro ex c σ code σ' hr hs
    rw [Stmt.lower, Block.lower_eq] at hr
    obtain ⟨head, s₁, h₁, _, check, done, s₂, h₂, inner, s₃, h₃, tail, h₄, rfl⟩ :=
      runs_forLoop.1 (runs_inBlock.1 hr)
    have hg := lowerBody_grows body.body h₃
    have hstep := lowerOption_grows _ h₄
    have htest : s₁.Grows s₂ := (State.Grows.nextLabel s₁).trans (loopTest_advances test h₂).grows
    obtain ⟨ps, hp, hf⟩ := routed_option ihf h₁ (hs.before (htest.trans (hg.exitLoop.trans hstep)))
    obtain ⟨qs, hq, ht⟩ := routed_test h₂ fun l hl => by
      subst hl
      exact hg.breakLabel?_eq
    obtain ⟨rs, hi, hb⟩ := routed_all ih h₃ (Exits.settles_loop hg)
    cases step with
    | none =>
      obtain ⟨rfl, rfl⟩ : tail = [] ∧ σ' = s₃.exitLoop := by simpa [lowerOption] using h₄
      rw [State.Grows.continueLabel?_eq hg] at hb
      refine ⟨ps ++ qs ++ rs, by rw [hi, hq, hp]; simp, ?_⟩
      simpa using Routed.forever hf ht hb
    | some step =>
      rw [lowerOption] at h₄
      obtain ⟨ts, hu, hu'⟩ := ihs step rfl h₄ hs
      exact ⟨ps ++ qs ++ rs ++ ts, by rw [hu, hi, hq, hp]; simp, .forStep hf ht hb hu'⟩
  | foreach item collection body span ih =>
    intro ex c σ code σ' hr hs
    rw [Stmt.lower, Block.lower_eq] at hr
    simp only [runs_inBlock, runs_bind, runs_pure] at hr
    obtain ⟨⟨head, base⟩, s₁, h₁, bound, _, h₂, code, _, h₃, rfl, rfl⟩ := hr
    obtain ⟨rfl, _⟩ := runs_loopBound h₂
    obtain ⟨_, _, _, s₂, h₄, _, _, _, _, inner, s₃, h₅, rfl, rfl⟩ := runs_indexLoop.1 h₃
    have hg := lowerBody_grows body.body h₅
    obtain ⟨ps, hp, hj⟩ := (collection.lower_advances _ h₁).problems
    obtain ⟨qs, hq, hk⟩ := (bindLocal_binds item span h₄).quiet
    obtain ⟨rs, hr, hb⟩ := routed_all ih h₅ (Exits.settles_loop hg)
    rw [hg.breakLabel?_eq] at hb
    refine ⟨ps ++ qs ++ rs, by rw [hr, hq, hp]; simp, ?_⟩
    rw [← List.append_assoc, ← List.append_assoc, ← List.append_assoc]
    refine .foreach (fun p hm => ?_) hb
    exact (List.mem_append.1 hm).elim (hj p) (hk p)
  | switch subject cases default span ihc ihd =>
    intro ex c σ code σ' hr hs
    rw [Stmt.lower_switch] at hr
    obtain ⟨head, v, s₁, h₁, copy, w, s₂, h₂, tests, labels, s₃, h₃, h⟩ := runs_switch.1 hr
    have hl := length_caseTests h₃
    have hc : s₁.Advances s₂ := ensureTemp_keeps v h₂
    obtain ⟨ps, hp, hj⟩ := ((subject.lower_advances _ h₁).trans <|
      hc.trans (caseTests_advances w cases h₃)).problems
    obtain ⟨hd, skip, s₄, h₄, inner, s₅, h₅, rfl, rfl⟩ |
      ⟨body, hd, _, inner, s₄, h₄, last, s₅, h₅, rfl, rfl⟩ := h
    · obtain rfl := Option.map_eq_none_iff.1 hd
      -- a switch takes `break` for itself and leaves `continue` to the loop around
      have hs := hs.switch ((gotoBreak_grows h₄).trans
        (lowerCases_grows _ labels h₅))
      have hk := (leave_routed h₄ (hs.before (lowerCases_grows _ labels h₅))).1
      obtain ⟨qs, hq, hb⟩ := routed_cases ihc hl h₅ hs
      exact ⟨ps ++ qs, by rw [hq, hk, hp]; simp, .switch hj hb⟩
    · obtain ⟨body, rfl, rfl⟩ := Option.map_eq_some_iff.1 hd
      have hg := lowerBody_grows body h₅
      have hs := hs.switch ((State.Grows.nextLabel _).trans
        ((lowerCases_grows _ labels h₄).trans hg))
      obtain ⟨qs, hq, hb⟩ := routed_cases ihc hl h₄ (hs.before hg)
      obtain ⟨rs, hr, hb'⟩ := routed_all (ihd body rfl) h₅ hs
      refine ⟨ps ++ qs ++ rs, by rw [hr, hq, hp]; simp, ?_⟩
      rw [List.append_cons (head ++ copy ++ tests) (.goto s₃.label) inner]
      exact .switchDefault hj hb hb'
  | exit span =>
    intro ex c σ code σ' hr hs
    rw [Stmt.lower] at hr
    obtain ⟨l, hb, rfl⟩ | ⟨σ₁, hb, rfl, rfl⟩ := runs_jump.1 hr
    · obtain ⟨hp, he⟩ := settled_break hb hs
      exact ⟨[], by simpa using hp, .exit he⟩
    · obtain ⟨hp, he⟩ := settled_break hb hs
      exact ⟨[.breakOutside span.line], congrArg (· ++ _) hp, .strayExit he⟩
  | next span =>
    intro ex c σ code σ' hr hs
    rw [Stmt.lower] at hr
    obtain ⟨l, hb, rfl⟩ | ⟨σ₁, hb, rfl, rfl⟩ := runs_jump.1 hr
    · obtain ⟨hp, he⟩ := settled_continue hb hs
      exact ⟨[], by simpa using hp, .next he⟩
    · obtain ⟨hp, he⟩ := settled_continue hb hs
      exact ⟨[.continueOutside span.line], congrArg (· ++ _) hp, .strayNext he⟩
  | tryCatch body caught handler span ihb ihh =>
    intro ex c σ code σ' hr hs
    rw [Stmt.lower, Block.lower_eq, Block.lower_eq] at hr
    obtain ⟨_, first, s₁, h₁, _, second, h₂, rfl⟩ := runs_tryCatch.1 hr
    simp only [runs_inBlock, runs_bind] at h₁ h₂
    obtain ⟨_, s₂, h₂, h₃⟩ := h₂
    have hg := lowerBody_grows handler.body h₃
    have hl := bindLocal_binds caught span h₂
    obtain ⟨ps, hp, hb⟩ := routed_all ihb h₁
      (hs.before ((State.Grows.nextLabel s₁).trans (hl.toGrows.trans hg)))
    obtain ⟨qs, hq, hj⟩ := hl.quiet
    obtain ⟨rs, hr, hh⟩ := routed_all ihh h₃ hs
    exact ⟨ps ++ qs ++ rs, by rw [hr, hq, hp]; simp, .tryCatch hb hj hh⟩
  | function f ih =>
    intro ex c σ code σ' hr hs
    rw [Stmt.lower] at hr
    obtain ⟨ps, hp, h⟩ := routed_function ih hr
    exact ⟨ps, hp, .function h⟩
  | classDef k ih =>
    intro ex c σ code σ' hr hs
    rw [Stmt.lower, Class.lower_eq] at hr
    obtain ⟨_, rfl, rfl⟩ | ⟨id, x, _, _, _, s₂, inner, s₃, _, s₄, _, _, h₁, h₂, h₃, h₄, rfl, rfl⟩ :=
      runs_classFrame hr
    · exact ⟨_, rfl, .strayClass⟩
    · obtain ⟨rfl, _⟩ := runs_inherited h₁
      obtain ⟨l, _, rfl⟩ := runs_account.1 h₂
      obtain ⟨ps, hp, h⟩ := routed_members ih h₃
      exact ⟨ps, by rw [exitFrame_problems h₄, hp], .classDef h⟩

/-- Every `break` and `continue` of a program that is lowered leads where the rules say, and the
problems are those that the rules name, in the order of lowering. -/
theorem Program.lower_routed {p : Program} {table : Table} {options : Options} {out : Lowered}
    (h : p.lower table options = .ok out) :
    RoutedAll {} p.statements out.code out.problems := by
  obtain ⟨s, hr, _, _, _, hp'⟩ := runs_program.1 h
  have hg := lowerBody_grows p.statements hr
  obtain ⟨ps, hp, hb⟩ := routed_all (fun s _ => s.routes) hr (Exits.settles_outside hg rfl)
  rw [hp', show s.problems = ps by simpa using hp]
  exact hb

def Program.strayJump : Program :=
  ⟨[.while (.bool true .unplaced) ⟨[.switch (.int 1 .unplaced)
      [⟨.int 1 .unplaced, [.continue .unplaced], .unplaced⟩] none .unplaced], .unplaced⟩ .unplaced,
    .break (.atLine 7)], .unplaced⟩

theorem Program.strayJump_routed :
    ∃ out, strayJump.lower .empty {} = .ok out ∧ out.problems = [.breakOutside 7] ∧
      RoutedAll {} strayJump.statements out.code out.problems := by
  have h : Lowered.problems <$> (strayJump.lower .empty {}).toOption = some [.breakOutside 7] := by
    decide +kernel
  obtain ⟨out, ho, hp⟩ := exists_of_check h
  exact ⟨out, ho, hp, Program.lower_routed ho⟩

end ThreeAddress
