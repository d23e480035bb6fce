import ThreeAddress.Proofs.Emission.Values
import ThreeAddress.Proofs.Jumps
import ThreeAddress.Proofs.Temps.Program

namespace ThreeAddress

open Lowering Lower

section Store

variable {strict : Prop} {ragged : RaggedArrays}

theorem storeElements_emits {es : List Expr} {there : String} {dims : List Nat} {type : Ty}
    (hs : Shaped strict ragged es) (hd : positions dims = literalPlaces ragged es) :
    Obeys strict ragged (fun n code m => EmitsStores strict ragged there es n code m)
      (storeElements (.var there) (.row (lowerCells es)) dims type.zero) := by
  intro c s code s' hr ho hp bases
  simp only [storeElements, runs_bind, runs_pure] at hr
  obtain ⟨stores, _, hm, rfl, rfl⟩ := hr
  obtain ⟨xs, hxs, rfl⟩ :=
    runs_mapM_map (g := fun p (x : Valued) => x.1 ++ [elementStore (.var there) p x.2]) hm
  have hz : type.zero.temps = [] := by cases type <;> rfl
  rw [hd] at hxs ⊢
  obtain ⟨bases', hcells⟩ := mapM_emits (fun e _ => e.emits _) hz hxs ho hp bases
  exact ⟨bases', .mk hs hcells⟩

theorem EmitsStores.none {es : List Expr} {there : String} {n : Supply}
    (hs : Shaped strict ragged es) (hd : [] = literalPlaces ragged es) :
    EmitsStores strict ragged there es n [] n := by
  have hcells : EmitsCells strict ragged (literalCells ragged es) n [] n := by
    rw [literalCells, ← hd]
    exact .nil
  have hstores : EmitsStores strict ragged there es n _ n := .mk hs hcells
  rwa [List.zipWith_nil_right] at hstores

theorem declareArray_emits {id : SymbolId} {es : List Expr} {span : Span} :
    Obeys strict ragged (fun n code m => ∃ there, EmitsStores strict ragged there es n code m)
      (declareArray id es span) := by
  intro c s code s' hr ho hp bases
  obtain ⟨x, s₁, _, ⟨hs, ⟨u, hb⟩, rfl⟩ | ⟨dims, size, u, s₂, hs, _, hb, he⟩⟩ := runs_declareArray hr
  · have hq : strict → s₁.problems = [] := (bindStorage_binds _ _ hb).toGrows.quiet ∘ hp
    obtain ⟨hshape, hplaces⟩ := shaped_of_runs hs ho hq
    rw [(bindStorage_binds _ _ hb).sameTemps, literalShape_temps hs]
    exact ⟨bases, x.name, .none hshape hplaces⟩
  · have hq : strict → s₁.problems = [] := fun h => (bindStorage_binds _ _ hb).toGrows.quiet <|
      (storeElements_keeps (leaf_advances es) he).grows.quiet (hp h)
    have ht : s₂.ledger.temps = s₁.ledger.temps := (bindStorage_binds _ _ hb).sameTemps
    obtain ⟨hshape, hplaces⟩ := shaped_of_runs hs ho hq
    obtain ⟨bases', h⟩ := storeElements_emits hshape hplaces he ho hp bases
    rw [ht, literalShape_temps hs] at h
    exact ⟨bases', x.name, h⟩

theorem assignArray_emits {id : SymbolId} {es : List Expr} {span : Span} :
    Obeys strict ragged (fun n code m => ∃ there, EmitsStores strict ragged there es n code m)
      (assignArray id es span) := by
  intro c s code s' hr ho hp bases
  obtain ⟨x, shape, s₁, _, hs, ⟨rfl, rfl, rfl⟩ | ⟨dims, rfl, he⟩⟩ := runs_assignArray hr
  · obtain ⟨hshape, hplaces⟩ := shaped_of_runs hs ho hp
    rw [literalShape_temps hs]
    exact ⟨bases, x.name, .none hshape hplaces⟩
  · have hq : strict → s₁.problems = [] :=
      (storeElements_keeps (leaf_advances es) he).grows.quiet ∘ hp
    obtain ⟨hshape, hplaces⟩ := shaped_of_runs hs ho hq
    obtain ⟨bases', h⟩ := storeElements_emits hshape hplaces he ho hp bases
    rw [literalShape_temps hs] at h
    exact ⟨bases', x.name, h⟩

theorem lowerIndices_emits (es : List Expr) :
    Obeys strict ragged (fun n x m => EmitsIndices strict ragged es n x.1 x.2 m) (lowerIndices es) := by
  induction es with
  | nil =>
    intro c s x s' hr _ _ bases
    obtain ⟨rfl, rfl⟩ := runs_pure.1 hr
    exact ⟨bases, .nil⟩
  | cons e rest ih =>
    intro c s x s' hr ho hp bases
    simp only [lowerIndices, runs_bind, runs_pure] at hr
    obtain ⟨y, s₁, h₁, z, s₂, h₂, w, _, h₃, rfl, rfl⟩ := hr
    have hp₂ : strict → s₂.problems = [] := (lowerIndices_advances rest h₃).grows.quiet ∘ hp
    have hp₁ : strict → s₁.problems = [] :=
      (ensureTemp_keeps (R := State.Advances) _ h₂).grows.quiet ∘ hp₂
    obtain ⟨bases₁, he⟩ := e.emits .value h₁ ho hp₁ bases
    obtain ⟨bases₂, hrest⟩ := ih h₃ ho hp bases₁
    exact ⟨bases₂, .cons he (ensureTemp_copied h₂ bases₁) hrest⟩

theorem storable_emits {e : Expr} {c : Context} {s s' : State} {x : Valued}
    (h : Runs (storable (e.lower .value)) c s x s') (ho : c.options.raggedArrays = ragged)
    (hp : strict → s'.problems = []) (bases : List Temp) :
    ∃ bases' code v m copy, x.1 = code ++ copy ∧
      e.Emits strict ragged .value ⟨s.ledger.temps, bases⟩ code v m ∧
      Copied m v copy x.2 ⟨s'.ledger.temps, bases'⟩ := by
  obtain ⟨y, s₁, copy, hy, hs, hx, hc⟩ := storable_copied h
  obtain ⟨bases', he⟩ := e.emits .value hy ho (fun h => hs ▸ hp h) bases
  exact ⟨bases', _, _, _, copy, hx, he, hc bases'⟩

theorem emits_guarding {uses : List Use} {whole : Span} {act : Lower Code} {c : Context}
    {s s' : State} {code : Code} (h : Runs (guarding uses whole act) c s code s')
    (hp : strict → s'.problems = []) :
    Runs act c s code s' ∨ ¬strict ∧ code = [] ∧ s'.ledger.temps = s.ledger.temps := by
  by_cases hs : strict
  · exact .inl (runs_of_guarding h (hp hs))
  · obtain ⟨_, h⟩ | ⟨_, rfl, rfl⟩ := runs_guarding h
    · exact .inl h
    · exact .inr ⟨hs, rfl, rfl⟩

end Store

section Statements

variable {strict : Prop} {ragged : RaggedArrays}

theorem not_strict_of_report {s : State} {p : Problem}
    (hp : strict → (s.report p).problems = []) : ¬strict := fun h => by simpa using hp h

theorem Binding.emits (b : Binding) :
    Obeys strict ragged (fun n code m => b.Emits strict ragged n code m) b.lower := by
  intro c s code s' hr ho hp bases
  obtain ⟨_, rfl, rfl⟩ | ⟨id, es, span, _, hv, h⟩ | ⟨id, x, u, s₁, _, _, hb, h⟩ := b.runs_lower hr
  · exact ⟨bases, .stray (not_strict_of_report hp)⟩
  · obtain ⟨bases', there, h⟩ := declareArray_emits h ho hp bases
    exact ⟨bases', .array hv h⟩
  · have hb : s₁.ledger.temps = s.ledger.temps := (bindStorage_binds _ _ hb).sameTemps
    rw [← hb]
    obtain ⟨hv, rfl, rfl⟩ | ⟨e, y, hv, he, hy, rfl⟩ := h
    · exact ⟨bases, .bare hv⟩
    · obtain ⟨bases', code, v, m, copy, hcode, hvalue, hcopy⟩ := storable_emits hy ho hp bases
      rw [hcode]
      exact ⟨bases', .value hv he hvalue hcopy⟩

theorem Target.emits (target : Target) (value : Expr) (span : Span) :
    Obeys strict ragged (fun n code m => target.Emits strict ragged value n code m)
      (target.assign value span) := by
  intro c s code s' hr ho hp bases
  cases target with
  | ident name =>
    obtain ⟨_, rfl, rfl⟩ | ⟨id, es, at_, _, rfl, h⟩ | ⟨id, x, y, _, _, he, hy, rfl⟩ :=
      Target.runs_assign_ident hr
    · exact ⟨bases, .stray (not_strict_of_report hp)⟩
    · obtain ⟨bases', there, h⟩ := assignArray_emits h ho hp bases
      exact ⟨bases', .array h⟩
    · obtain ⟨bases', code, v, m, copy, hcode, hvalue, hcopy⟩ := storable_emits hy ho hp bases
      rw [hcode]
      exact ⟨bases', .ident he hvalue hcopy⟩
  | index base indices =>
    simp only [Target.assign, runs_bind, runs_pure] at hr
    obtain ⟨y, s₁, h₁, z, s₂, h₂, w, _, h₃, rfl, rfl⟩ := hr
    have hp₂ : strict → s₂.problems = [] :=
      (storable_keeps (R := State.Advances) (value.lower_advances _) h₃).grows.quiet ∘ hp
    obtain ⟨bases₁, hb⟩ :=
      base.emits .value h₁ ho ((lowerIndices_advances indices h₂).grows.quiet ∘ hp₂) bases
    obtain ⟨bases₂, hi⟩ := lowerIndices_emits indices h₂ ho hp₂ bases₁
    obtain ⟨bases₃, code, v, m, copy, hcode, hvalue, hcopy⟩ := storable_emits h₃ ho hp bases₂
    rw [hcode]
    exact ⟨bases₃, .index hb hi hvalue hcopy⟩
  | property object field =>
    simp only [Target.assign, runs_bind, runs_pure] at hr
    obtain ⟨y, s₁, h₁, z, _, h₂, rfl, rfl⟩ := hr
    have hp₁ : strict → s₁.problems = [] :=
      (storable_keeps (R := State.Advances) (value.lower_advances _) h₂).grows.quiet ∘ hp
    obtain ⟨bases₁, hb⟩ := object.emits .value h₁ ho hp₁ bases
    obtain ⟨bases₂, code, v, m, copy, hcode, hvalue, hcopy⟩ := storable_emits h₂ ho hp bases₁
    rw [hcode]
    exact ⟨bases₂, .property hb hvalue hcopy⟩

theorem loopTest_emits {test : Option Expr} {check : Code} {done done' : Option Label} {c : Context}
    {s s' : State} (hr : Runs (loopTest (test.map (·.lower .value))) c s (check, done) s')
    (ho : c.options.raggedArrays = ragged) (hp : strict → s'.problems = [])
    (hd : ∀ l ∈ done, l ∈ done') (bases : List Temp) :
    ∃ bases', EmitsTest strict ragged test ⟨s.ledger.temps, bases⟩ check done'
      ⟨s'.ledger.temps, bases'⟩ := by
  obtain ⟨ht, hx, rfl⟩ | ⟨act, head, v, s₁, ht, h₁, _, rfl, hx⟩ := runs_loopTest.1 hr
  · cases hx
    obtain rfl := Option.map_eq_none_iff.1 ht
    exact ⟨bases, .never⟩
  · cases hx
    obtain ⟨e, rfl, rfl⟩ := Option.map_eq_some_iff.1 ht
    obtain ⟨bases', he⟩ := e.emits .value h₁ ho hp bases
    rw [Option.mem_def.1 (hd _ rfl)]
    exact ⟨bases', .test he⟩

theorem caseTests_emits (subject : Operand) (cases : List Case) :
    Obeys strict ragged (fun n x m => EmitsTests strict ragged subject cases n x.1 x.2 m)
      (caseTests subject cases) := by
  induction cases with
  | nil =>
    intro c s x s' hr _ _ bases
    obtain ⟨rfl, rfl⟩ := runs_pure.1 hr
    exact ⟨bases, .nil⟩
  | cons k rest ih =>
    intro c s x s' hr ho hp bases
    obtain ⟨head, v, s₁, h₁, _, tests, labels, h₂, rfl⟩ := runs_caseTests_cons.1 hr
    obtain ⟨bases₁, hk⟩ :=
      k.value.emits .value h₁ ho ((caseTests_advances subject rest h₂).grows.quiet ∘ hp) bases
    obtain ⟨bases₂, hrest⟩ := ih h₂ ho hp bases₁
    exact ⟨bases₂, .cons hk hrest⟩

/-- Every run of the action obeys the rule `R`, which also depends on where jumps lead in the end. -/
def Lower.ObeysWithin (strict : Prop) (ragged : RaggedArrays)
    (R : Exits → Supply → Code → Supply → Prop) (act : Lower Code) : Prop :=
  ∀ ⦃ex c s code s'⦄, Runs act c s code s' → c.options.raggedArrays = ragged →
    (strict → s'.problems = []) → ex.Settles s'.targets →
    ∀ bases, ∃ bases', R ex ⟨s.ledger.temps, bases⟩ code ⟨s'.ledger.temps, bases'⟩

abbrev Stmt.Obeys (strict : Prop) (ragged : RaggedArrays) (s : Stmt) : Prop :=
  ObeysWithin strict ragged (fun ex n code m => s.Emits strict ragged ex n code m) s.lower

theorem lowerAll_emits {body : List Stmt} (h : ∀ s ∈ body, s.Obeys strict ragged) :
    ObeysWithin strict ragged (fun ex n code m => EmitsAll strict ragged ex body n code m)
      (lowerAll body) := by
  induction body with
  | nil =>
    intro ex c s code s' hr _ _ _ bases
    rw [lowerAll] at hr
    obtain ⟨rfl, rfl⟩ := runs_pure.1 hr
    exact ⟨bases, .nil⟩
  | cons s rest ih =>
    intro ex c σ code σ' hr ho hp hs bases
    rw [lowerAll] at hr
    simp only [runs_bind, runs_pure] at hr
    obtain ⟨first, σ₁, h₁, second, _, h₂, rfl, rfl⟩ := hr
    have hg : σ₁.Grows σ' := lowerBody_grows rest h₂
    obtain ⟨bases₁, hfirst⟩ := h s (by simp) h₁ ho (hg.quiet ∘ hp) (hs.before hg) bases
    obtain ⟨bases₂, hrest⟩ := ih (fun s hs => h s (by simp [hs])) h₂ ho hp hs bases₁
    exact ⟨bases₂, .cons hfirst hrest⟩

theorem lowerOption_emits {s : Option Stmt} (h : ∀ s' ∈ s, s'.Obeys strict ragged) :
    ObeysWithin strict ragged (fun ex n code m => EmitsAll strict ragged ex s.toList n code m)
      (lowerOption s) := by
  intro ex c σ code σ' hr
  have hr : Runs (lowerAll s.toList) c σ code σ' := by
    cases s <;> simpa [lowerOption, lowerAll] using hr
  exact lowerAll_emits (fun s hs => h s (by simpa using hs)) hr

theorem gotoBreak_leaves {c : Context} {s s' : State} {code : Code} {ex : Exits}
    (hr : Runs gotoBreak c s code s') (hs : ex.Settles s'.targets) :
    s'.problems = s.problems ∧ s'.ledger.temps = s.ledger.temps ∧ Departs ex.breaks code := by
  obtain ⟨hp, hl⟩ := leave_routed hr hs
  obtain ⟨l?, hb, _⟩ := runs_gotoBreak.1 hr
  exact ⟨hp, breakLabel_temps hb, hl⟩

theorem lowerCases_emits {cases : List Case} {labels : List Label}
    (h : ∀ k ∈ cases, ∀ s ∈ k.body, s.Obeys strict ragged) (hl : labels.length = cases.length) :
    ObeysWithin strict ragged
      (fun ex n code m => EmitsCases strict ragged ex cases labels n code m)
      (lowerCases cases labels) := by
  induction cases generalizing labels with
  | nil =>
    intro ex c s code s' hr _ _ _ bases
    rw [lowerCases_nil] at hr
    obtain ⟨rfl, rfl⟩ := runs_pure.1 hr
    exact ⟨bases, .nil⟩
  | cons k rest ih =>
    obtain ⟨l, labels, rfl⟩ := List.exists_cons_of_length_eq_add_one hl
    intro ex c s code s' hr ho hp hs bases
    rw [lowerCases_cons] at hr
    simp only [runs_bind, runs_pure] at hr
    obtain ⟨first, s₁, h₁, second, _, h₂, rfl, rfl⟩ := hr
    have hg : s₁.Grows s' := lowerCases_grows _ labels h₂
    obtain ⟨inner, s₀, h₀, h₁⟩ := runs_caseBody.1 h₁
    -- a case ends with a jump out of the switch or with nothing at all
    obtain ⟨leave, rfl, hg₀, hp₀, ht₀, hleave⟩ : ∃ leave, first = .label l :: inner ++ leave ∧
        s₀.Grows s₁ ∧ s₁.problems = s₀.problems ∧ s₁.ledger.temps = s₀.ledger.temps ∧
        Departs ex.breaks leave := by
      split at h₁
      · obtain ⟨leave, hb, rfl⟩ := h₁
        exact ⟨leave, rfl, gotoBreak_grows hb, gotoBreak_leaves hb (hs.before hg)⟩
      · obtain ⟨rfl, rfl⟩ := h₁
        exact ⟨[], by simp, .refl _, rfl, rfl, .inl rfl⟩
    obtain ⟨bases₁, hbody⟩ := lowerAll_emits (h k (by simp)) h₀ ho
      (hg₀.quiet ∘ hg.quiet ∘ hp) ((hs.before hg).before hg₀) bases
    obtain ⟨bases₂, hrest⟩ := ih (fun k hk => h k (by simp [hk])) (by simpa using hl) h₂ ho hp hs bases₁
    rw [ht₀] at hrest
    exact ⟨bases₂, .cons hbody hleave hrest⟩

theorem Function.emits {f : Function} (h : ∀ s ∈ f.body.body, s.Obeys strict ragged) :
    Obeys strict ragged (fun n code m => EmitsFunction strict ragged f n code m) f.lower := by
  intro c s code s' hr ho hp bases
  rw [Function.lower_eq] at hr
  obtain ⟨_, rfl, rfl⟩ | ⟨id, x, _, s₁, inner, s₂, _, s₃, _, _, h₁, h₂, h₃, rfl, rfl⟩ :=
    runs_functionFrame hr
  · exact ⟨bases, .stray (not_strict_of_report hp)⟩
  · have hb := bindParams_binds f.params h₁
    have hg : s₁.Grows s₂ := lowerBody_grows f.body.body h₂
    obtain ⟨bases', hbody⟩ := lowerAll_emits h h₂ ho (fun hs => by
      rw [← exitFrame_problems h₃]
      exact hp hs) (Exits.settles_outside (hb.toGrows.trans hg) rfl) bases
    have ht : s₁.ledger.temps = s.ledger.temps := hb.sameTemps
    rw [ht, ← (exitFrame_counters h₃).1] at hbody
    exact ⟨bases', .body hbody⟩

theorem lowerMembers_emits {members : List Member}
    (h : ∀ f, .method f ∈ members → ∀ s ∈ f.body.body, s.Obeys strict ragged) :
    Obeys strict ragged (fun n code m => EmitsMembers strict ragged members n code m)
      (lowerMembers members) := by
  induction members with
  | nil =>
    intro c s code s' hr _ _ bases
    rw [lowerMembers] at hr
    obtain ⟨rfl, rfl⟩ := runs_pure.1 hr
    exact ⟨bases, .nil⟩
  | cons m rest ih =>
    intro c s code s' hr ho hp bases
    rw [lowerMembers] at hr
    simp only [runs_bind, runs_pure] at hr
    obtain ⟨first, s₁, h₁, second, _, h₂, rfl, rfl⟩ := hr
    have hp₁ : strict → s₁.problems = [] :=
      (lowerMembers_grows _ h₂).quiet ∘ hp
    have hrest := ih (fun f hf => h f (by simp [hf])) h₂ ho hp
    cases m with
    | field b =>
      rw [Member.lower] at h₁
      obtain ⟨bases₁, hfirst⟩ : ∃ bases₁, b.Emits strict ragged ⟨s.ledger.temps, bases⟩ first
          ⟨s₁.ledger.temps, bases₁⟩ := by
        obtain h₁ | ⟨hs, rfl, ht⟩ := emits_guarding h₁ hp₁
        · exact b.emits h₁ ho hp₁ bases
        · rw [ht]
          exact ⟨bases, .stray hs⟩
      obtain ⟨bases₂, hrest⟩ := hrest bases₁
      exact ⟨bases₂, .field hfirst hrest⟩
    | method f =>
      rw [Member.lower] at h₁
      obtain ⟨bases₁, hfirst⟩ := Function.emits (h f (by simp)) h₁ ho hp₁ bases
      obtain ⟨bases₂, hrest⟩ := hrest bases₁
      exact ⟨bases₂, .method hfirst hrest⟩

theorem guarded_emits {s : Stmt} {uses : List Use} {whole : Span} {act : Lower Code}
    (hs : s.lower = guarding uses whole act) (hi : s.isPlain)
    (h : Obeys strict ragged (fun n code m => ∀ ex, s.Emits strict ragged ex n code m) act) :
    s.Obeys strict ragged := by
  intro ex c σ code σ' hr ho hp _ bases
  rw [hs] at hr
  obtain hr | ⟨hs, rfl, ht⟩ := emits_guarding hr hp
  · obtain ⟨bases', h⟩ := h hr ho hp bases
    exact ⟨bases', h ex⟩
  · rw [ht]
    exact ⟨bases, .skipped hs hi⟩

theorem Stmt.ite_emits {yes : Block} {no : Option Block} (e : Expr) (span : Span)
    (hy : ∀ s ∈ yes.body, s.Obeys strict ragged)
    (hn : ∀ b ∈ no, ∀ s ∈ b.body, s.Obeys strict ragged) :
    (Stmt.ite e yes no span).Obeys strict ragged := by
  intro ex c σ code σ' hr ho hp hs bases
  rw [Stmt.lower_ite] at hr
  cases no with
  | none =>
    obtain ⟨head, v, s₁, h₁, _, inner, h₂, rfl⟩ := runs_ifThen.1 hr
    have hg : s₁.Grows σ' :=
      (State.Grows.nextLabel s₁).trans ((lowerBody_grows yes.body).inBlock yes.span h₂)
    obtain ⟨bases₁, he⟩ := e.emits .value h₁ ho (hg.quiet ∘ hp) bases
    obtain ⟨bases₂, hb⟩ := lowerAll_emits hy (runs_inBlock.1 h₂) ho hp hs bases₁
    exact ⟨bases₂, .ifThen he hb⟩
  | some no =>
    obtain ⟨head, v, s₁, h₁, _, first, s₂, h₂, _, second, h₃, rfl⟩ := runs_ifThenElse.1 hr
    have hg₁ : s₁.Grows s₂ :=
      (State.Grows.nextLabel s₁).trans ((lowerBody_grows yes.body).inBlock yes.span h₂)
    have hg₂ : s₂.Grows σ' :=
      (State.Grows.nextLabel s₂).trans ((lowerBody_grows no.body).inBlock no.span h₃)
    have hp₂ : strict → s₂.problems = [] := hg₂.quiet ∘ hp
    obtain ⟨bases₁, he⟩ := e.emits .value h₁ ho (hg₁.quiet ∘ hp₂) bases
    obtain ⟨bases₂, hb⟩ := lowerAll_emits hy (runs_inBlock.1 h₂) ho hp₂ (hs.before hg₂) bases₁
    obtain ⟨bases₃, hn⟩ := lowerAll_emits (hn no rfl) (runs_inBlock.1 h₃) ho hp hs bases₂
    exact ⟨bases₃, .ifThenElse he hb hn⟩

theorem Stmt.while_emits {body : Block} (e : Expr) (span : Span)
    (h : ∀ s ∈ body.body, s.Obeys strict ragged) :
    (Stmt.while e body span).Obeys strict ragged := by
  intro ex c σ code σ' hr ho hp hs bases
  rw [Stmt.lower, Block.lower_eq] at hr
  obtain ⟨_, head, v, s₁, h₁, _, inner, s₂, h₂, rfl, rfl⟩ := runs_whileLoop.1 hr
  have hg := (lowerBody_grows body.body).inBlock body.span h₂
  obtain ⟨bases₁, he⟩ := e.emits .value h₁ ho (hg.quiet ∘ hp) bases
  obtain ⟨bases₂, hb⟩ :=
    lowerAll_emits h (runs_inBlock.1 h₂) ho hp (Exits.settles_loop hg) bases₁
  rw [hg.breakLabel?_eq, hg.continueLabel?_eq] at hb
  exact ⟨bases₂, .whileLoop he hb⟩

theorem Stmt.doWhile_emits {body : Block} (e : Expr) (span : Span)
    (h : ∀ s ∈ body.body, s.Obeys strict ragged) :
    (Stmt.doWhile body e span).Obeys strict ragged := by
  intro ex c σ code σ' hr ho hp hs bases
  rw [Stmt.lower, Block.lower_eq] at hr
  obtain ⟨_, inner, s₁, h₁, tail, v, s₂, h₂, rfl, rfl⟩ := runs_doWhile.1 hr
  have hg := (lowerBody_grows body.body).inBlock body.span h₁
  have he := e.lower_advances _ h₂
  obtain ⟨bases₁, hb⟩ := lowerAll_emits h (runs_inBlock.1 h₁) ho (he.grows.quiet ∘ hp)
    (Exits.settles_loop hg) bases
  obtain ⟨bases₂, he'⟩ := e.emits .value h₂ ho hp bases₁
  rw [hg.continueLabel?_eq] at hb
  rw [show s₂.breakLabel? = s₁.breakLabel? by
    rw [State.breakLabel?, State.targets, he.targets]]
  exact ⟨bases₂, .doWhile hb he'⟩

theorem Stmt.for_emits {first step : Option Stmt} {body : Block} (test : Option Expr) (span : Span)
    (h : ∀ s ∈ first, s.Obeys strict ragged) (hu : ∀ s ∈ step, s.Obeys strict ragged)
    (hb : ∀ s ∈ body.body, s.Obeys strict ragged) :
    (Stmt.for first test step body span).Obeys strict ragged := by
  intro ex c σ code σ' hr ho hp hs bases
  rw [Stmt.lower, Block.lower_eq] at hr
  obtain ⟨head, s₁, h₁, _, check, done, s₂, h₂, inner, s₃, h₃, tail, h₄, rfl⟩ :=
    runs_forLoop.1 (runs_inBlock.1 hr)
  have hg := lowerBody_grows body.body h₃
  have hstep := lowerOption_grows _ h₄
  have htest : s₁.Grows s₂ := (State.Grows.nextLabel s₁).trans (loopTest_advances test h₂).grows
  have hp₃ : strict → s₃.problems = [] := hstep.quiet ∘ hp
  have hp₂ : strict → s₂.problems = [] := hg.quiet ∘ hp₃
  obtain ⟨bases₁, hf⟩ := lowerOption_emits h h₁ ho (htest.quiet ∘ hp₂)
    (hs.before (htest.trans (hg.exitLoop.trans hstep))) bases
  -- the label behind the loop is one that its body may break to
  have hdone : ∀ l ∈ done, l ∈ s₃.breakLabel? := by
    rintro l rfl
    exact hg.breakLabel?_eq
  obtain ⟨bases₂, ht⟩ := loopTest_emits h₂ ho hp₂ hdone bases₁
  obtain ⟨bases₃, hb⟩ := lowerAll_emits hb h₃ ho hp₃ (Exits.settles_loop hg) bases₂
  obtain ⟨bases₄, hu⟩ := lowerOption_emits hu h₄ ho hp hs bases₃
  refine ⟨bases₄, ?_⟩
  cases step with
  | none =>
    rw [State.Grows.continueLabel?_eq hg] at hb
    exact .forLoop hf ht hb hu (.inr ⟨rfl, rfl⟩)
  | some step => exact .forLoop hf ht hb hu (.inl rfl)

theorem Stmt.foreach_emits {body : Block} (item : String) (collection : Expr) (span : Span)
    (h : ∀ s ∈ body.body, s.Obeys strict ragged) :
    (Stmt.foreach item collection body span).Obeys strict ragged := by
  intro ex c σ code σ' hr ho hp hs bases
  rw [Stmt.lower, Block.lower_eq] at hr
  simp only [runs_inBlock, runs_bind, runs_pure] at hr
  obtain ⟨⟨head, base⟩, _, h₁, bound, s₁, h₂, code, _, h₃, rfl, rfl⟩ := hr
  obtain ⟨rfl, hbound⟩ := runs_loopBound h₂
  obtain ⟨_, _, _, s₂, h₄, _, _, _, _, inner, s₃, h₅, rfl, rfl⟩ := runs_indexLoop.1 h₃
  have hg := lowerBody_grows body.body h₅
  have hl := bindLocal_binds item span h₄
  obtain ⟨bases₁, he⟩ :=
    collection.emits .value h₁ ho (hl.toGrows.quiet ∘ hg.quiet ∘ hp) bases
  obtain ⟨bases₂, hb⟩ := lowerAll_emits h h₅ ho hp (Exits.settles_loop hg) bases₁
  have ht : s₂.ledger.temps = s₁.ledger.temps + 1 + 1 := hl.sameTemps
  have hb : EmitsAll strict ragged ⟨some s₃.breakLabel?, some s₃.continueLabel?⟩ body.body
      ⟨s₂.ledger.temps + 1 + 1, bases₁⟩ inner ⟨s₃.ledger.temps, bases₂⟩ := hb
  rw [hg.breakLabel?_eq, ht] at hb
  refine ⟨bases₂, ?_⟩
  rw [show s₂.nextLabel.temp = ⟨s₁.ledger.temps + 1 + 1 + 1⟩ from
      congrArg (fun n => Temp.mk (n + 1)) ht,
    show s₂.nextLabel.nextTemp.nextLabel.temp = ⟨s₁.ledger.temps + 1 + 1 + 1 + 1⟩ from
      congrArg (fun n => Temp.mk (n + 1 + 1)) ht]
  refine .foreach he ?_ hb
  obtain hbound | ⟨_, _, _, _, _, _, _, _, _, hbound⟩ := hbound
  · exact .inl hbound
  · exact .inr ⟨_, hbound⟩

theorem switchFront_emits {subject : Expr} {cases : List Case} {c : Context}
    {s s₁ s₂ s₃ : State} {head copy tests : Code} {v w : Operand} {labels : List Label}
    (h₁ : Runs (subject.lower .value) c s (head, v) s₁)
    (h₂ : Runs (ensureTemp v) c s₁ (copy, w) s₂)
    (h₃ : Runs (caseTests w cases) c s₂ (tests, labels) s₃)
    (ho : c.options.raggedArrays = ragged) (hp : strict → s₃.problems = []) (bases : List Temp) :
    ∃ bases₁ bases₃,
      subject.Emits strict ragged .value ⟨s.ledger.temps, bases⟩ head v
        ⟨s₁.ledger.temps, bases₁⟩ ∧
      Copied ⟨s₁.ledger.temps, bases₁⟩ v copy w ⟨s₂.ledger.temps, bases₁⟩ ∧
      EmitsTests strict ragged w cases ⟨s₂.ledger.temps, bases₁⟩ tests labels
        ⟨s₃.ledger.temps, bases₃⟩ := by
  have hcopy : s₁.Advances s₂ := ensureTemp_keeps v h₂
  have htests : s₂.Advances s₃ := caseTests_advances w cases h₃
  have hp₂ : strict → s₂.problems = [] := htests.grows.quiet ∘ hp
  obtain ⟨bases₁, he⟩ := subject.emits .value h₁ ho (hcopy.grows.quiet ∘ hp₂) bases
  obtain ⟨bases₃, ht⟩ := caseTests_emits w cases h₃ ho hp bases₁
  exact ⟨bases₁, bases₃, he, ensureTemp_copied h₂ bases₁, ht⟩

theorem Stmt.switch_emits {cases : List Case} {default : Option (List Stmt)} (subject : Expr)
    (span : Span) (hc : ∀ k ∈ cases, ∀ s ∈ k.body, s.Obeys strict ragged)
    (hd : ∀ body ∈ default, ∀ s ∈ body, s.Obeys strict ragged) :
    (Stmt.switch subject cases default span).Obeys strict ragged := by
  intro ex c σ code σ' hr ho hp hs bases
  rw [Stmt.lower_switch] at hr
  obtain ⟨head, v, s₁, h₁, copy, w, s₂, h₂, tests, labels, s₃, h₃, h⟩ := runs_switch.1 hr
  have hl := length_caseTests h₃
  obtain ⟨hn, skip, s₄, h₄, inner, s₅, h₅, rfl, rfl⟩ |
    ⟨body, hn, _, inner, s₄, h₄, last, s₅, h₅, rfl, rfl⟩ := h
  · obtain rfl := Option.map_eq_none_iff.1 hn
    have hg := lowerCases_grows _ labels h₅
    have hs := hs.switch ((gotoBreak_grows h₄).trans hg)
    obtain ⟨hp₄, ht₄, hleave⟩ := gotoBreak_leaves h₄ (hs.before hg)
    obtain ⟨bases₁, bases₃, he, hcopy, ht⟩ := switchFront_emits h₁ h₂ h₃ ho (fun h => by
      rw [show s₃.problems = s₄.problems from hp₄.symm]
      exact hg.quiet (hp h)) bases
    obtain ⟨bases₅, hb⟩ := lowerCases_emits hc hl h₅ ho hp hs bases₃
    rw [ht₄] at hb
    exact ⟨bases₅, .switch he hcopy ht hleave hb⟩
  · obtain ⟨body, rfl, rfl⟩ := Option.map_eq_some_iff.1 hn
    have hg := lowerBody_grows body h₅
    have hg₄ := lowerCases_grows _ labels h₄
    have hs := hs.switch ((State.Grows.nextLabel _).trans (hg₄.trans hg))
    have hp₄ : strict → s₄.problems = [] := hg.quiet ∘ hp
    obtain ⟨bases₁, bases₃, he, hcopy, ht⟩ := switchFront_emits h₁ h₂ h₃ ho (hg₄.quiet ∘ hp₄) bases
    obtain ⟨bases₄, hb⟩ := lowerCases_emits hc hl h₄ ho hp₄ (hs.before hg) bases₃
    obtain ⟨bases₅, hb'⟩ := lowerAll_emits (hd body rfl) h₅ ho hp hs bases₄
    exact ⟨bases₅, .switchDefault he hcopy ht hb hb'⟩

theorem Stmt.break_emits (span : Span) : (Stmt.break span).Obeys strict ragged := by
  intro ex c σ code σ' hr ho hp hs bases
  rw [Stmt.lower] at hr
  obtain ⟨l, hb, rfl⟩ | ⟨σ₁, hb, rfl, rfl⟩ := runs_jump.1 hr
  · obtain ⟨_, he⟩ := settled_break hb hs
    rw [breakLabel_temps hb]
    exact ⟨bases, .exit he⟩
  · have ht : σ₁.ledger.temps = σ.ledger.temps := breakLabel_temps hb
    rw [ht]
    exact ⟨bases, .strayExit (not_strict_of_report hp)⟩

theorem Stmt.continue_emits (span : Span) : (Stmt.continue span).Obeys strict ragged := by
  intro ex c σ code σ' hr ho hp hs bases
  rw [Stmt.lower] at hr
  obtain ⟨l, hb, rfl⟩ | ⟨σ₁, hb, rfl, rfl⟩ := runs_jump.1 hr
  · obtain ⟨_, he⟩ := settled_continue hb hs
    rw [continueLabel_temps hb]
    exact ⟨bases, .next he⟩
  · have ht : σ₁.ledger.temps = σ.ledger.temps := continueLabel_temps hb
    rw [ht]
    exact ⟨bases, .strayNext (not_strict_of_report hp)⟩

theorem Stmt.tryCatch_emits {body handler : Block} (caught : String) (span : Span)
    (h : ∀ s ∈ body.body, s.Obeys strict ragged)
    (hc : ∀ s ∈ handler.body, s.Obeys strict ragged) :
    (Stmt.tryCatch body caught handler span).Obeys strict ragged := by
  intro ex c σ code σ' hr ho hp hs bases
  rw [Stmt.lower, Block.lower_eq, Block.lower_eq] at hr
  obtain ⟨_, first, s₁, h₁, _, second, h₂, rfl⟩ := runs_tryCatch.1 hr
  simp only [runs_inBlock, runs_bind] at h₁ h₂
  obtain ⟨_, s₂, h₂, h₃⟩ := h₂
  have hl := bindLocal_binds caught span h₂
  have hg : s₁.Grows σ' := (State.Grows.nextLabel s₁).trans <|
    hl.toGrows.trans (lowerBody_grows handler.body h₃)
  obtain ⟨bases₁, hb⟩ := lowerAll_emits h h₁ ho (hg.quiet ∘ hp) (hs.before hg) bases
  obtain ⟨bases₂, hh⟩ := lowerAll_emits hc h₃ ho hp hs bases₁
  have ht : s₂.ledger.temps = s₁.ledger.temps := hl.sameTemps
  rw [ht] at hh
  exact ⟨bases₂, .tryCatch hb hh⟩

theorem Stmt.class_emits {k : Class}
    (h : ∀ f, .method f ∈ k.members → ∀ s ∈ f.body.body, s.Obeys strict ragged) :
    (Stmt.class k).Obeys strict ragged := by
  intro ex c σ code σ' hr ho hp _ bases
  rw [Stmt.lower, Class.lower_eq] at hr
  obtain ⟨_, rfl, rfl⟩ | ⟨id, x, _, s₁, _, s₂, inner, s₃, _, s₄, _, _, h₁, h₂, h₃, h₄, rfl, rfl⟩ :=
    runs_classFrame hr
  · exact ⟨bases, .strayClass (not_strict_of_report hp)⟩
  · obtain ⟨rfl, _⟩ := runs_inherited h₁
    obtain ⟨bases', hm⟩ := lowerMembers_emits h h₃ ho (fun hs => by
      rw [← exitFrame_problems h₄]
      exact hp hs) bases
    have ht : s₂.ledger.temps = s₁.ledger.temps := (allocate_counters (s := s₁.enterFrame) h₂).1
    rw [ht, ← (exitFrame_counters h₄).1] at hm
    exact ⟨bases', .classDef hm⟩

theorem Stmt.emits (s : Stmt) : s.Obeys strict ragged := by
  induction s with
  | declare b =>
    refine guarded_emits (by rw [Stmt.lower]) rfl fun c s code s' hr ho hp bases => ?_
    obtain ⟨bases', h⟩ := b.emits hr ho hp bases
    exact ⟨bases', fun _ => .declare h⟩
  | assign target value span =>
    refine guarded_emits (by rw [Stmt.lower]) rfl fun c s code s' hr ho hp bases => ?_
    obtain ⟨bases', h⟩ := target.emits value span hr ho hp bases
    exact ⟨bases', fun _ => .assign h⟩
  | print e span =>
    refine guarded_emits (by rw [Stmt.lower]) rfl fun c s code s' hr ho hp bases => ?_
    simp only [runs_bind, runs_argument, runs_pure] at hr
    obtain ⟨_, _, ⟨y, s₁, h₁, _, rfl, rfl⟩, rfl, rfl⟩ := hr
    obtain ⟨bases', h⟩ := e.emits .value h₁ ho hp bases
    exact ⟨bases', fun _ => .print h⟩
  | eval e span =>
    refine guarded_emits (by rw [Stmt.lower]) rfl fun c s code s' hr ho hp bases => ?_
    simp only [runs_bind, runs_pure] at hr
    obtain ⟨y, _, h₁, rfl, rfl⟩ := hr
    obtain ⟨bases', h⟩ := e.emits .effect h₁ ho hp bases
    exact ⟨bases', fun _ => .eval h⟩
  | ret e span =>
    cases e with
    | none =>
      intro ex c s code s' hr _ _ _ bases
      rw [Stmt.lower] at hr
      obtain ⟨rfl, rfl⟩ := runs_pure.1 hr
      exact ⟨bases, .leave⟩
    | some e =>
      refine guarded_emits (by rw [Stmt.lower]) rfl fun c s code s' hr ho hp bases => ?_
      simp only [runs_bind, runs_pure] at hr
      obtain ⟨y, _, h₁, rfl, rfl⟩ := hr
      obtain ⟨bases', h⟩ := e.emits .value h₁ ho hp bases
      exact ⟨bases', fun _ => .return h⟩
  | block b ih =>
    intro ex c σ code σ' hr ho hp hs bases
    rw [Stmt.lower, Block.lower_eq] at hr
    obtain ⟨bases', h⟩ := lowerAll_emits ih (runs_inBlock.1 hr) ho hp hs bases
    exact ⟨bases', .block h⟩
  | ite e yes no span ihy ihn => exact ite_emits e span ihy ihn
  | loop e body span ih => exact while_emits e span ih
  | doWhile body e span ih => exact doWhile_emits e span ih
  | forLoop first test step body span ihf ihs ih => exact for_emits test span ihf ihs ih
  | foreach item collection body span ih => exact foreach_emits item collection span ih
  | switch subject cases default span ihc ihd => exact switch_emits subject span ihc ihd
  | exit span => exact break_emits span
  | next span => exact continue_emits span
  | tryCatch body caught handler span ihb ihh => exact tryCatch_emits caught span ihb ihh
  | function f ih =>
    intro ex c σ code σ' hr ho hp _ bases
    rw [Stmt.lower] at hr
    obtain ⟨bases', h⟩ := Function.emits ih hr ho hp bases
    exact ⟨bases', .function h⟩
  | classDef k ih => exact class_emits ih

end Statements

theorem Program.lower_emits {p : Program} {table : Table} {options : Options} {out : Lowered}
    (strict : Prop) (h : p.lower table options = .ok out) (hp : strict → out.problems = []) :
    ∃ n, EmitsAll strict options.raggedArrays {} p.statements {} out.code n := by
  obtain ⟨s, hr, _, _, _, hps⟩ := runs_program.1 h
  have hg := lowerBody_grows p.statements hr
  obtain ⟨bases, h⟩ := lowerAll_emits (fun s _ => s.emits) hr rfl (hps ▸ hp)
    (Exits.settles_outside hg rfl) []
  exact ⟨_, h⟩

end ThreeAddress
