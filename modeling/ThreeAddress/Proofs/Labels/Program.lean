import ThreeAddress.Proofs.Labels.Values
import ThreeAddress.Proofs.Lowering.Growth

namespace ThreeAddress

open Lowering Lower

/-- The labels of the targets, which the constructs around have to place. -/
def Lowering.State.pending (s : State) : List Label :=
  (s.targets.breaks ++ s.targets.continues).filterMap id

/-- Running the action leaves no more labels pending than the targets say. -/
def Lower.LeavesPending (act : Lower Code) : Prop :=
  ∀ ⦃c s code s'⦄, Runs act c s code s' →
    Labelled s.ledger.labels s.pending code s'.ledger.labels s'.pending

namespace Lower

open Lowering.State (Stores Binds Grows)

theorem Places.leavesPending {act : Lower α} {f : α → Code} (h : Places f act) (ha : Keeps Stores act)
    {c : Context} {s s' : State} {x : α} (hr : Runs act c s x s') :
    Labelled s.ledger.labels s.pending (f x) s'.ledger.labels s'.pending := by
  rw [show s'.pending = s.pending by rw [State.pending, State.pending, State.targets, (ha hr).targets]]
  exact (h hr).inside _

theorem LeavesPending.inBlock {act : Lower Code} (h : LeavesPending act) (span : Span) :
    LeavesPending (inBlock span act) :=
  fun _ _ _ _ hr => h (runs_inBlock.1 hr)

theorem Keeps.places {act : Lower α} (h : Keeps Binds act) : Places (fun _ => []) act :=
  .plain (fun _ _ _ _ hr => (h hr).sameLabels) (by simp)

theorem filterMap_perm (x y : Option Label) (xs ys : List (Option Label)) :
    ((x :: xs ++ y :: ys).filterMap id).Perm
      (y.toList ++ (x.toList ++ (xs ++ ys).filterMap id)) := by
  cases x <;> cases y <;> simp
  exact (List.perm_middle.cons _).trans (.swap ..)

theorem pending_enterLoop (s : State) (b k : Option Label) :
    (s.enterLoop b k).pending.Perm (k.toList ++ (b.toList ++ s.pending)) :=
  filterMap_perm b k s.targets.breaks s.targets.continues

theorem pending_exitLoop {s s' : State} {b k : Option Label} (h : (s.enterLoop b k).Grows s') :
    s'.pending.Perm (s'.continueLabel?.toList ++ (s'.breakLabel?.toList ++ s'.exitLoop.pending)) := by
  have := filterMap_perm s'.breakLabel? s'.continueLabel? s'.targets.breaks.tail
    s'.targets.continues.tail
  rwa [← h.breaks.eq_cons, ← h.continues.eq_cons] at this

theorem pending_exitSwitch {s s' : State} (h : s.enterSwitch.Grows s') :
    s'.pending = s'.breakLabel?.toList ++ s'.exitSwitch.pending := by
  have (x : Option Label) (xs : List (Option Label)) :
      (x :: xs).filterMap id = x.toList ++ xs.filterMap id := by cases x <;> rfl
  rw [State.pending, show s'.targets.breaks = _ from h.breaks.eq_cons, List.cons_append, this]
  rfl

section Forms

variable {test : Lower Valued} {first body other step : Lower Code}

theorem LeavesPending.loop {c : Context} {s s' : State} {b : Option Label} {l : Label} {code : Code}
    (hb : LeavesPending body) (hg : Keeps Grows body)
    (hr : Runs body c (s.enterLoop b (some l)) code s') (hl : l ∈ Label.upTo s.ledger.labels) :
    Labelled s.ledger.labels (b.toList ++ s.pending) code s'.ledger.labels
      (s'.breakLabel?.toList ++ s'.exitLoop.pending) := by
  have h := (hb hr).perm (pending_enterLoop s b (some l)) (pending_exitLoop (hg hr))
  rw [(hg hr).continueLabel?_eq] at h
  exact h.drop (.refl _) (.refl _) hl

theorem LeavesPending.loopStep {c : Context} {s s' : State} {b : Option Label} {code : Code}
    (hb : LeavesPending body) (hg : Keeps Grows body) (hr : Runs body c (s.enterLoop b none) code s') :
    Labelled s.ledger.labels (b.toList ++ s.pending) code s'.ledger.labels
      (s'.continueLabel?.toList ++ (s'.breakLabel?.toList ++ s'.exitLoop.pending)) :=
  (hb hr).perm (pending_enterLoop s b none) (pending_exitLoop (hg hr))

theorem ifThen_leavesPending (ht : Places Prod.fst test) (ha : Keeps Stores test) (hb : LeavesPending body) :
    LeavesPending (ifThen test body) := by
  intro c s code s' h
  obtain ⟨head, v, s₁, h₁, _, inner, h₂, rfl⟩ := runs_ifThen.1 h
  simp only [List.append_assoc, List.cons_append]
  apply (ht.leavesPending ha h₁).append
  apply Labelled.fork rfl
  apply ((hb h₂).frame [s₁.label]).append
  exact .place (.refl _) .nil

theorem ifThenElse_leavesPending (ht : Places Prod.fst test) (ha : Keeps Stores test) (hb : LeavesPending body)
    (ho : LeavesPending other) : LeavesPending (ifThenElse test body other) := by
  intro c s code s' h
  obtain ⟨head, v, s₁, h₁, _, first, s₂, h₂, _, second, h₃, rfl⟩ := runs_ifThenElse.1 h
  simp only [List.append_assoc, List.cons_append]
  apply (ht.leavesPending ha h₁).append
  apply Labelled.fork rfl
  apply ((hb h₂).frame [s₁.label]).append
  apply Labelled.fork rfl
  apply Labelled.place (.swap ..)
  apply ((ho h₃).frame [s₂.label]).append
  exact .place (.refl _) .nil

theorem whileLoop_leavesPending (ht : Places Prod.fst test) (ha : Keeps Stores test) (hb : LeavesPending body)
    (hg : Keeps Grows body) : LeavesPending (whileLoop test body) := by
  intro c s code s' h
  obtain ⟨_, head, v, s₁, h₁, _, inner, s₂, h₂, rfl, rfl⟩ := runs_whileLoop.1 h
  have hs : s.label ∈ Label.upTo s₁.nextLabel.ledger.labels :=
    Label.mem_upTo.2 ⟨Nat.succ_pos _, Nat.le_succ_of_le (ha h₁).labels⟩
  have hl := hb.loop hg h₂ hs
  rw [(hg h₂).breakLabel?_eq] at hl
  simp only [List.append_assoc, List.cons_append]
  apply Labelled.mark
  apply (ht.leavesPending ha h₁).append
  apply Labelled.fork rfl
  apply hl.append
  apply Labelled.mention rfl (.inr (hl.mem_upTo hs))
  exact .place (.refl _) .nil

theorem doWhile_leavesPending (ht : Places Prod.fst test) (ha : Keeps Stores test) (hb : LeavesPending body)
    (hg : Keeps Grows body) : LeavesPending (doWhile body test) := by
  intro c s code s' h
  obtain ⟨_, inner, s₁, h₁, tail, v, s₂, h₂, rfl, rfl⟩ := runs_doWhile.1 h
  have hs : s.label ∈ Label.upTo s.nextLabel.ledger.labels :=
    Label.mem_upTo.2 ⟨Nat.succ_pos _, Nat.le_refl _⟩
  have hl := hb.loop hg h₁ hs
  have ht' := (ht h₂).inside (s₁.breakLabel?.toList ++ s₁.exitLoop.pending)
  have hd : s₂.targets = s₁.targets := (ha h₂).targets
  have hd₁ : s₂.breakLabel? = s₁.breakLabel? := congrArg (fun t => t.breaks.head?.join) hd
  have hd₂ : s₂.exitLoop.pending = s₁.exitLoop.pending :=
    congrArg (fun t => (t.breaks.tail ++ t.continues.tail).filterMap id) hd
  simp only [List.append_assoc, List.cons_append]
  apply Labelled.mark
  apply hl.append
  apply ht'.append
  apply Labelled.mention rfl (.inr (ht'.mem_upTo (hl.mem_upTo hs)))
  rw [hd₁, hd₂]
  exact .place? _

theorem loopTest_places {test : Option (Lower Valued)} (ht : ∀ act ∈ test, Places Prod.fst act)
    {c : Context} {s s' : State} {x : Code × Option Label} (hr : Runs (loopTest test) c s x s')
    (pending : List Label) :
    Labelled s.ledger.labels pending x.1 s'.ledger.labels (x.2.toList ++ pending) := by
  obtain ⟨rfl, rfl, rfl⟩ | ⟨act, head, v, s₁, rfl, h₁, _, rfl, rfl⟩ := runs_loopTest.1 hr
  · exact .nil
  · exact ((ht act rfl h₁).inside pending).append (.fork rfl .nil)

theorem loopTest_targets {test : Option (Lower Valued)} (ha : ∀ act ∈ test, Keeps Stores act)
    {c : Context} {s s' : State} {x : Code × Option Label} (hr : Runs (loopTest test) c s x s') :
    s'.pending = s.pending := by
  obtain ⟨_, _, rfl⟩ | ⟨act, head, v, s₁, rfl, h₁, _, rfl, _⟩ := runs_loopTest.1 hr
  · rfl
  · rw [State.pending, State.pending, State.targets, State.targets, ← (ha act rfl h₁).targets]

theorem forLoop_leavesPending {test : Option (Lower Valued)} {hasStep : Bool} (hf : LeavesPending first)
    (ht : ∀ act ∈ test, Places Prod.fst act) (ha : ∀ act ∈ test, Keeps Stores act)
    (hb : LeavesPending body) (hg : Keeps Grows body) (hs : LeavesPending step) :
    LeavesPending (forLoop first test hasStep step body) := by
  intro c s code s' h
  obtain ⟨head, s₁, h₁, _, check, done, s₂, h₂, inner, s₃, h₃, tail, h₄, rfl⟩ := runs_forLoop.1 h
  have hcheck := loopTest_places ht h₂ s₂.pending
  have hstart : s₁.label ∈ Label.upTo s₂.ledger.labels :=
    hcheck.mem_upTo (Label.mem_upTo.2 ⟨Nat.succ_pos _, Nat.le_refl _⟩)
  have hend : s₁.label ∈ Label.upTo s'.ledger.labels := by
    have := Label.mem_upTo.1 hstart
    have : s₂.ledger.labels ≤ s₃.ledger.labels := (hg h₃).labels
    have : s₃.ledger.labels ≤ s'.ledger.labels := (hs h₄).le
    exact Label.mem_upTo.2 (by omega)
  have htail := (hs h₄).frame s₃.breakLabel?.toList
  simp only [List.append_assoc, List.cons_append]
  apply (hf h₁).append
  apply Labelled.mark
  rw [show s₁.pending = s₂.pending from (loopTest_targets ha h₂).symm]
  apply hcheck.append
  cases hasStep with
  | false =>
    apply (hb.loop hg h₃ hstart).append
    apply htail.append
    exact .mention rfl (.inr hend) (.place? _)
  | true =>
    apply (hb.loopStep hg h₃).append
    simp only [List.append_assoc, if_true]
    apply (Labelled.place? _).append
    apply htail.append
    exact .mention rfl (.inr hend) (.place? _)

theorem indexLoop_leavesPending {base bound : Operand} {item : String} {bind : Lower Unit}
    (hi : Keeps Binds bind) (hb : LeavesPending body) (hg : Keeps Grows body) :
    LeavesPending (indexLoop base bound item bind body) := by
  intro c s code s' h
  obtain ⟨_, _, _, s₁, h₁, _, _, _, _, inner, s₂, h₂, rfl, rfl⟩ := runs_indexLoop.1 h
  have hl := hb.loopStep hg h₂
  rw [(hg h₂).breakLabel?_eq] at hl
  have hs : s₁.label ∈ Label.upTo (s₁.ledger.labels + 1 + 1) :=
    Label.mem_upTo.2 ⟨Nat.succ_pos _, Nat.le_succ _⟩
  have hn : s₁.pending = s.pending := by
    rw [State.pending, State.pending, State.targets, (hi h₁).targets]
  simp only [List.append_assoc, List.cons_append, List.nil_append]
  apply Labelled.plain rfl
  apply Labelled.plain rfl
  rw [← hn, show s.ledger.labels = s₁.ledger.labels from (hi h₁).sameLabels.symm]
  apply Labelled.mark
  apply Labelled.plain rfl
  apply Labelled.fork rfl
  apply Labelled.plain rfl
  apply Labelled.plain rfl
  apply hl.append
  apply (Labelled.place? _).append
  apply Labelled.plain rfl
  apply Labelled.mention rfl (.inr (hl.mem_upTo hs))
  exact .place (.refl _) .nil

theorem caseTests_places {subject : Operand} {cases : List Case}
    (h : ∀ k ∈ cases, Places Prod.fst (k.value.lower .value)) {c : Context} {s s' : State}
    {x : Code × List Label} (hr : Runs (caseTests subject cases) c s x s') (pending : List Label) :
    Labelled s.ledger.labels pending x.1 s'.ledger.labels (x.2 ++ pending) := by
  induction cases generalizing s x pending with
  | nil =>
    obtain ⟨rfl, rfl⟩ := runs_pure.1 hr
    exact .nil
  | cons k rest ih =>
    obtain ⟨head, v, s₁, h₁, _, tests, labels, h₂, rfl⟩ := runs_caseTests_cons.1 hr
    apply ((h k (by simp) h₁).inside pending).append
    apply Labelled.fork rfl
    exact (ih (fun k hk => h k (by simp [hk])) h₂ _).perm (.refl _) List.perm_middle

theorem breakLabel_leavesPending {c : Context} {s s' : State} {l? : Option Label}
    (hr : Runs (account Ledger.breakLabel) c s l? s') :
    Labelled s.ledger.labels s.pending (l?.toList.map .goto) s'.ledger.labels s'.pending := by
  obtain ⟨_, rfl, rfl⟩ | ⟨l, rest, hl, rfl, rfl⟩ | ⟨rest, hl, _, rfl, rfl⟩ := runs_breakLabel.1 hr
  · exact .nil
  · refine .mention rfl (.inl ?_) .nil
    simp [State.pending, show s'.ledger.targets.breaks = _ from hl]
  · refine .fork rfl (Labelled.nil.perm (.refl _) ?_)
    simp [State.pending, show s.ledger.targets.breaks = _ from hl]

theorem continueLabel_leavesPending {c : Context} {s s' : State} {l? : Option Label}
    (hr : Runs (account Ledger.continueLabel) c s l? s') :
    Labelled s.ledger.labels s.pending (l?.toList.map .goto) s'.ledger.labels s'.pending := by
  obtain ⟨_, rfl, rfl⟩ | ⟨l, rest, hl, rfl, rfl⟩ | ⟨rest, hl, _, rfl, rfl⟩ :=
    runs_continueLabel.1 hr
  · exact .nil
  · refine .mention rfl (.inl ?_) .nil
    simp [State.pending, show s'.ledger.targets.continues = _ from hl]
  · refine .fork rfl (Labelled.nil.perm (.refl _) ?_)
    simp [State.pending, show s.ledger.targets.continues = _ from hl]
    exact List.perm_middle.symm

theorem gotoBreak_leavesPending : LeavesPending gotoBreak := by
  intro c s code s' h
  obtain ⟨l?, hb, rfl⟩ := runs_gotoBreak.1 h
  exact breakLabel_leavesPending hb

theorem jump_leavesPending {target : Account (Option Label)} (problem : Problem)
    (ht : ∀ ⦃c s l? s'⦄, Runs (account target) c s l? s' →
      Labelled s.ledger.labels s.pending (l?.toList.map .goto) s'.ledger.labels s'.pending) :
    LeavesPending (jump target problem) := by
  intro c s code s' h
  obtain ⟨l, hl, rfl⟩ | ⟨s₁, hl, rfl, rfl⟩ := runs_jump.1 h
  · exact ht hl
  · exact ht hl

theorem caseBody_leavesPending {l : Label} {isEmpty : Bool} (hb : LeavesPending body)
    {c : Context} {s s' : State}
    {code : Code} (hr : Runs (caseBody l isEmpty body) c s code s') :
    Labelled s.ledger.labels (l :: s.pending) code s'.ledger.labels s'.pending := by
  obtain ⟨inner, s₁, h₁, h⟩ := runs_caseBody.1 hr
  split at h
  · obtain ⟨exit, h₂, rfl⟩ := h
    exact .place (.refl _) ((hb h₁).append (gotoBreak_leavesPending h₂))
  · obtain ⟨rfl, rfl⟩ := h
    exact .place (.refl _) (hb h₁)

theorem switch_leavesPending {subject : Lower Valued} {cases : List Case}
    {bodies : List Label → Lower Code} {default : Option (Lower Code)}
    (hs : Places Prod.fst subject) (ha : Keeps Stores subject)
    (hc : ∀ k ∈ cases, Places Prod.fst (k.value.lower .value))
    (hb : ∀ labels c s code s', labels.length = cases.length → Runs (bodies labels) c s code s' →
      Labelled s.ledger.labels (labels ++ s.pending) code s'.ledger.labels s'.pending)
    (hg : ∀ labels, Keeps Grows (bodies labels)) (hd : ∀ act ∈ default, LeavesPending act)
    (hd' : ∀ act ∈ default, Keeps Grows act) : LeavesPending (switch subject cases bodies default) := by
  intro c s code s' h
  obtain ⟨head, v, s₁, h₁, copy, w, s₂, h₂, tests, labels, s₃, h₃, h⟩ := runs_switch.1 h
  have hl := length_caseTests h₃
  have hhead := (hs.leavesPending ha h₁).append ((ensureTemp_places v).leavesPending (ensureTemp_keeps v) h₂)
  have htests := hhead.append (caseTests_places hc h₃ s₂.pending)
  rw [show s₂.pending = s₃.pending by
    rw [State.pending, State.pending, State.targets, ← (caseTests_advances w cases h₃).targets]] at htests
  obtain ⟨rfl, skip, s₄, h₄, inner, s₅, h₅, rfl, rfl⟩ |
    ⟨body, rfl, _, inner, s₄, h₄, last, s₅, h₅, rfl, rfl⟩ := h
  · have hinner := hb _ _ _ _ _ hl h₅
    rw [pending_exitSwitch ((gotoBreak_grows h₄).trans (hg _ h₅))] at hinner
    rw [List.append_assoc, List.append_assoc]
    apply htests.append
    apply ((gotoBreak_leavesPending h₄).frame labels).append
    apply hinner.append
    exact .place? _
  · have hlast := hd body rfl h₅
    rw [pending_exitSwitch ((Grows.nextLabel _).trans <| (hg _ h₄).trans (hd' body rfl h₅))] at hlast
    rw [List.append_assoc, List.append_assoc]
    apply htests.append
    apply Labelled.fork rfl
    apply ((hb _ _ _ _ _ hl h₄).frame [s₃.label]).append
    apply Labelled.place (.refl _)
    apply hlast.append
    exact .place? _

theorem tryCatch_leavesPending {caught : String} (hb : LeavesPending body) (ho : LeavesPending other) :
    LeavesPending (tryCatch body caught other) := by
  intro c s code s' h
  obtain ⟨_, first, s₁, h₁, _, second, h₂, rfl⟩ := runs_tryCatch.1 h
  simp only [List.append_assoc, List.cons_append, List.nil_append]
  apply Labelled.fork rfl
  apply ((hb h₁).frame [s.label]).append
  apply Labelled.plain rfl
  apply Labelled.fork rfl
  apply Labelled.place (.swap ..)
  apply Labelled.plain rfl
  apply ((ho h₂).frame [s₁.label]).append
  exact .place (.refl _) .nil

end Forms

theorem storeElements_places {base zero : Operand} {literal : Nest (Lower Valued)} {dims : List Nat}
    (h : ∀ path, ∀ act ∈ literal.at? path, Places Prod.fst act) :
    Places (fun code => code) (storeElements base literal dims zero) := by
  intro c s code s' hr
  simp only [storeElements, runs_bind, runs_pure] at hr
  obtain ⟨stores, _, hm, rfl, rfl⟩ := hr
  have hs := mapM_places (f := fun code => code) (fun p _ => ?_) hm
  · simpa using hs
  · intro c s x s' hp
    simp only [runs_bind, runs_pure] at hp
    obtain ⟨y, _, hl, rfl, rfl⟩ := hp
    exact (leafAt_places (h p) zero hl).append (.plain rfl .nil)

theorem leaf_places (es : List Expr) (path : List Nat) :
    ∀ act ∈ (Nest.row (lowerCells es)).at? path, Places Prod.fst act := by
  intro act h
  obtain ⟨e, _, rfl⟩ := leaf_of_lowerCells h
  exact storable_places (e.lower_places .value)

theorem declareArray_places (id : SymbolId) (es : List Expr) (span : Span) :
    Places (fun code => code) (declareArray id es span) := by
  intro c s code s' h
  obtain ⟨x, s₁, _, ⟨hs, ⟨u, hb⟩, rfl⟩ | ⟨dims, size, u, s₂, hs, _, hb, he⟩⟩ := runs_declareArray h
  · have h₁ : s₁.ledger.labels = s.ledger.labels :=
      literalShape_keeps (R := State.SameLabels) _ span _ hs
    rw [← h₁, (bindStorage_binds _ _ hb).sameLabels]
    exact .nil
  · have h₁ : s₁.ledger.labels = s.ledger.labels :=
      literalShape_keeps (R := State.SameLabels) _ span _ hs
    have h₂ : s₂.ledger.labels = s₁.ledger.labels := (bindStorage_binds _ _ hb).sameLabels
    rw [← h₁, ← h₂]
    exact storeElements_places (leaf_places es) he

theorem assignArray_places (id : SymbolId) (es : List Expr) (span : Span) :
    Places (fun code => code) (assignArray id es span) := by
  intro c s code s' h
  obtain ⟨x, shape, s₁, _, hs, h⟩ := runs_assignArray h
  have h₁ : s₁.ledger.labels = s.ledger.labels :=
    literalShape_keeps (R := State.SameLabels) _ span _ hs
  rw [← h₁]
  obtain ⟨_, rfl, rfl⟩ | ⟨dims, _, he⟩ := h
  · exact .nil
  · exact storeElements_places (leaf_places es) he

theorem lowerIndices_places (es : List Expr) : Places Prod.fst (lowerIndices es) := by
  induction es with
  | nil =>
    intro c s x s' h
    obtain ⟨rfl, rfl⟩ := runs_pure.1 h
    exact .nil
  | cons e rest ih =>
    intro c s x s' h
    simp only [lowerIndices, runs_bind, runs_pure] at h
    obtain ⟨y, s₁, h₁, z, s₂, h₂, w, _, h₃, rfl, rfl⟩ := h
    exact ((e.lower_places _ h₁).append (ensureTemp_places _ h₂)).append (ih h₃)

theorem guarding_places {uses : List Use} {whole : Span} {act : Lower Code}
    (h : Places (fun code => code) act) :
    Places (fun code => code) (guarding uses whole act) := by
  intro c s code s' hr
  obtain ⟨_, hr⟩ | ⟨_, rfl, rfl⟩ := runs_guarding hr
  · exact h hr
  · exact .nil

end Lower

theorem Binding.lower_places (b : Binding) : Places (fun code => code) b.lower := by
  intro c s code s' h
  obtain ⟨_, rfl, rfl⟩ | ⟨id, es, span, _, _, h⟩ | ⟨id, x, u, s₁, _, _, hb, h⟩ := b.runs_lower h
  · exact .nil
  · exact declareArray_places id es span h
  · rw [show s.ledger.labels = s₁.ledger.labels from (bindStorage_binds _ _ hb).sameLabels.symm]
    obtain ⟨_, rfl, rfl⟩ | ⟨e, y, _, _, hy, rfl⟩ := h
    · exact .nil
    · exact (storable_places (e.lower_places _) hy).append (.plain rfl .nil)

theorem Target.assign_places (value : Expr) (span : Span) (target : Target) :
    Places (fun code => code) (target.assign value span) := by
  intro c s code s' h
  have stored := storable_places (value.lower_places .value)
  cases target with
  | ident name =>
    obtain ⟨_, rfl, rfl⟩ | ⟨id, es, at_, _, _, h⟩ | ⟨id, x, y, _, _, _, hy, rfl⟩ :=
      Target.runs_assign_ident h
    · exact .nil
    · exact assignArray_places id es at_ h
    · exact (stored hy).append (.plain rfl .nil)
  | index base indices =>
    simp only [Target.assign, runs_bind, runs_pure] at h
    obtain ⟨y, s₁, h₁, z, s₂, h₂, w, _, h₃, rfl, rfl⟩ := h
    exact (((base.lower_places _ h₁).append (lowerIndices_places _ h₂)).append (stored h₃)).append
      (.plain rfl .nil)
  | property object field =>
    simp only [Target.assign, runs_bind, runs_pure] at h
    obtain ⟨y, s₁, h₁, z, _, h₂, rfl, rfl⟩ := h
    exact ((object.lower_places _ h₁).append (stored h₂)).append (.plain rfl .nil)

theorem Stmt.lower_places {s : Stmt} (h : s.isPlain) : Places (fun code => code) s.lower := by
  cases s with
  | declare b =>
    rw [Stmt.lower]
    exact guarding_places b.lower_places
  | assign target value span =>
    rw [Stmt.lower]
    exact guarding_places (target.assign_places value span)
  | print e span =>
    rw [Stmt.lower]
    refine guarding_places fun c s code s' h => ?_
    simp only [runs_bind, runs_pure] at h
    obtain ⟨y, _, hy, rfl, rfl⟩ := h
    exact (argument_places (e.lower_places _) hy).append (.plain rfl .nil)
  | eval e span =>
    rw [Stmt.lower]
    refine guarding_places fun c s code s' h => ?_
    simp only [runs_bind, runs_pure] at h
    obtain ⟨y, _, hy, rfl, rfl⟩ := h
    exact e.lower_places _ hy
  | «return» e span =>
    cases e with
    | none =>
      rw [Stmt.lower]
      intro c s code s' h
      obtain ⟨rfl, rfl⟩ := runs_pure.1 h
      exact .plain rfl .nil
    | some e =>
      rw [Stmt.lower]
      refine guarding_places fun c s code s' h => ?_
      simp only [runs_bind, runs_pure] at h
      obtain ⟨y, _, hy, rfl, rfl⟩ := h
      exact (e.lower_places _ hy).append (.plain rfl .nil)
  | _ => simp [isPlain] at h

theorem lowerAll_leavesPending {body : List Stmt} (h : ∀ s ∈ body, LeavesPending s.lower) :
    LeavesPending (lowerAll body) := by
  induction body with
  | nil =>
    intro c s code s' hr
    rw [lowerAll] at hr
    obtain ⟨rfl, rfl⟩ := runs_pure.1 hr
    exact .nil
  | cons s rest ih =>
    intro c σ code σ' hr
    rw [lowerAll] at hr
    simp only [runs_bind, runs_pure] at hr
    obtain ⟨first, σ₁, h₁, second, _, h₂, rfl, rfl⟩ := hr
    exact (h s (by simp) h₁).append (ih (fun s hs => h s (by simp [hs])) h₂)

theorem lowerOption_leavesPending {s : Option Stmt} (h : ∀ s' ∈ s, LeavesPending s'.lower) :
    LeavesPending (lowerOption s) := by
  cases s with
  | none =>
    intro c s code s' hr
    rw [lowerOption] at hr
    obtain ⟨rfl, rfl⟩ := runs_pure.1 hr
    exact .nil
  | some s =>
    rw [lowerOption]
    exact h s rfl

theorem lowerCases_leavesPending {cases : List Case} (h : ∀ k ∈ cases, ∀ s ∈ k.body, LeavesPending s.lower)
    {labels : List Label} {c : Context} {s s' : State} {code : Code}
    (hl : labels.length = cases.length) (hr : Runs (lowerCases cases labels) c s code s') :
    Labelled s.ledger.labels (labels ++ s.pending) code s'.ledger.labels s'.pending := by
  induction cases generalizing labels s code with
  | nil =>
    obtain rfl := List.length_eq_zero_iff.1 hl
    rw [lowerCases_nil] at hr
    obtain ⟨rfl, rfl⟩ := runs_pure.1 hr
    exact .nil
  | cons k rest ih =>
    cases labels with
    | nil => simp at hl
    | cons l labels =>
      rw [lowerCases_cons] at hr
      simp only [runs_bind, runs_pure] at hr
      obtain ⟨first, s₁, h₁, second, _, h₂, rfl, rfl⟩ := hr
      have hfirst := (caseBody_leavesPending (lowerAll_leavesPending (h k (by simp))) h₁).frame labels
      have hrest := ih (fun k hk => h k (by simp [hk])) (by simpa using hl) h₂
      exact (hfirst.perm List.perm_middle (.refl _)).append hrest

theorem pending_frame {s s' : State} (h : s.enterFrame.Grows s') : s'.pending = [] := by
  rw [State.pending, show s'.targets.breaks = [] from h.breaks.nil_left,
    show s'.targets.continues = [] from h.continues.nil_left]
  rfl

theorem exitFrame_pending {c : Context} {s s' s'' : State} {size : Nat} (h : s.enterFrame.Grows s')
    (hr : Runs (account Ledger.exitFrame) c s' size s'') : s''.pending = s.pending := by
  obtain ⟨l, hl, rfl⟩ := runs_account.1 hr
  obtain ⟨_, _, rfl, _⟩ := Ledger.runs_exitFrame.1 hl
  have hs : s'.ledger.saved = (s.ledger.cursor, s.ledger.targets) :: s.ledger.saved := h.saved
  rw [State.pending, State.targets, hs]
  rfl

theorem Function.lower_leavesPending {f : Function} (h : ∀ s ∈ f.body.body, LeavesPending s.lower) :
    LeavesPending f.lower := by
  intro c s code s' hr
  rw [Function.lower_eq] at hr
  obtain ⟨_, rfl, rfl⟩ | ⟨id, x, u, s₁, inner, s₂, _, s₃, _, _, h₁, h₂, h₃, rfl, rfl⟩ :=
    runs_functionFrame hr
  · exact .nil
  · have hp := bindParams_binds f.params h₁
    have hg : s₁.Grows s₂ := lowerBody_grows _ h₂
    have hin := lowerAll_leavesPending h h₂
    rw [pending_frame hp.toGrows, pending_frame (hp.toGrows.trans hg), hp.sameLabels] at hin
    have ho := exitFrame_pending (hp.toGrows.trans hg) h₃
    change Labelled _ _ _ s₃.ledger.labels s₃.pending
    rw [ho, (exitFrame_counters h₃).2]
    exact .plain rfl ((hin.inside s.pending).append (.plain rfl .nil))

theorem lowerMembers_leavesPending {members : List Member}
    (h : ∀ f, .method f ∈ members → ∀ s ∈ f.body.body, LeavesPending s.lower) :
    LeavesPending (lowerMembers members) := by
  induction members with
  | nil =>
    intro c s code s' hr
    rw [lowerMembers] at hr
    obtain ⟨rfl, rfl⟩ := runs_pure.1 hr
    exact .nil
  | cons m rest ih =>
    intro c s code s' hr
    rw [lowerMembers] at hr
    simp only [runs_bind, runs_pure] at hr
    obtain ⟨first, s₁, h₁, second, _, h₂, rfl, rfl⟩ := hr
    refine Labelled.append ?_ (ih (fun f hf => h f (by simp [hf])) h₂)
    cases m with
    | field b =>
      rw [Member.lower] at h₁
      exact (guarding_places b.lower_places).leavesPending (guarding_stores _ _ b.lower_stores) h₁
    | method f =>
      rw [Member.lower] at h₁
      exact Function.lower_leavesPending (h f (by simp)) h₁

theorem Class.lower_leavesPending {k : Class}
    (h : ∀ f, .method f ∈ k.members → ∀ s ∈ f.body.body, LeavesPending s.lower) : LeavesPending k.lower := by
  intro c s code s' hr
  rw [Class.lower_eq] at hr
  obtain ⟨_, rfl, rfl⟩ | ⟨id, x, _, _, _, s₂, inner, s₃, _, s₄, _, _, h₁, h₂, h₃, h₄, rfl, rfl⟩ :=
    runs_classFrame hr
  · exact .nil
  · obtain ⟨rfl, _⟩ := runs_inherited h₁
    have ha := allocate_frame_grows h₂
    have hg : s₂.Grows s₃ := lowerMembers_grows _ h₃
    have hin := lowerMembers_leavesPending h h₃
    rw [pending_frame ha, pending_frame (ha.trans hg), (allocate_counters h₂).2] at hin
    have ho := exitFrame_pending (ha.trans hg) h₄
    change Labelled _ _ _ s₄.ledger.labels s₄.pending
    rw [ho, (exitFrame_counters h₄).2]
    exact .plain rfl ((hin.inside _).append (.plain rfl .nil))

theorem Stmt.lower_leavesPending (s : Stmt) : LeavesPending s.lower := by
  induction s with
  | declare b => exact fun _ _ _ _ hr => (lower_places rfl).leavesPending (lower_stores rfl) hr
  | assign target value span => exact fun _ _ _ _ hr => (lower_places rfl).leavesPending (lower_stores rfl) hr
  | print e span => exact fun _ _ _ _ hr => (lower_places rfl).leavesPending (lower_stores rfl) hr
  | eval e span => exact fun _ _ _ _ hr => (lower_places rfl).leavesPending (lower_stores rfl) hr
  | ret e span => exact fun _ _ _ _ hr => (lower_places rfl).leavesPending (lower_stores rfl) hr
  | block b ih =>
    rw [Stmt.lower, Block.lower_eq]
    exact (lowerAll_leavesPending ih).inBlock _
  | ite c yes no span ihy ihn =>
    have hc := c.lower_places .value
    have ha := (c.lower_advances .value).stores
    have hy := (lowerAll_leavesPending ihy).inBlock yes.span
    rw [Stmt.lower_ite]
    cases no with
    | none => exact ifThen_leavesPending hc ha hy
    | some no => exact ifThenElse_leavesPending hc ha hy ((lowerAll_leavesPending (ihn no rfl)).inBlock _)
  | loop c body span ih =>
    rw [Stmt.lower, Block.lower_eq]
    exact whileLoop_leavesPending (c.lower_places .value) (c.lower_advances .value).stores
      ((lowerAll_leavesPending ih).inBlock _) ((lowerBody_grows body.body).inBlock _)
  | doWhile body c span ih =>
    rw [Stmt.lower, Block.lower_eq]
    exact doWhile_leavesPending (c.lower_places .value) (c.lower_advances .value).stores
      ((lowerAll_leavesPending ih).inBlock _) ((lowerBody_grows body.body).inBlock _)
  | forLoop first test step body span ihf ihs ih =>
    rw [Stmt.lower, Block.lower_eq]
    refine LeavesPending.inBlock (forLoop_leavesPending (lowerOption_leavesPending ihf) ?_ ?_
      (lowerAll_leavesPending ih)
      (lowerBody_grows body.body) (lowerOption_leavesPending ihs)) _
    · intro act h
      obtain ⟨e, _, rfl⟩ := Option.map_eq_some_iff.1 h
      exact e.lower_places .value
    · intro act h
      obtain ⟨e, _, rfl⟩ := Option.map_eq_some_iff.1 h
      exact (e.lower_advances .value).stores
  | foreach item collection body span ih =>
    rw [Stmt.lower, Block.lower_eq]
    refine LeavesPending.inBlock (fun c s code s' h => ?_) _
    simp only [runs_bind, runs_pure] at h
    obtain ⟨y, s₁, h₁, bound, _, h₂, code, _, h₃, rfl, rfl⟩ := h
    obtain ⟨rfl, _⟩ := runs_loopBound h₂
    exact ((collection.lower_places _).leavesPending (collection.lower_advances _).stores h₁).append
      (indexLoop_leavesPending (bindLocal_binds item span) (lowerAll_leavesPending ih)
        (lowerBody_grows body.body) h₃)
  | switch subject cases default span ihc ihd =>
    rw [Stmt.lower_switch]
    refine switch_leavesPending (subject.lower_places _) (subject.lower_advances _).stores
      (fun k _ => k.value.lower_places _) (fun labels c s code s' hl h => lowerCases_leavesPending ihc hl h)
      (fun labels => lowerCases_grows _ labels) ?_ ?_
    · intro act h
      obtain ⟨body, hb, rfl⟩ := Option.map_eq_some_iff.1 h
      exact lowerAll_leavesPending (ihd body hb)
    · intro act h
      obtain ⟨body, hb, rfl⟩ := Option.map_eq_some_iff.1 h
      exact lowerBody_grows body
  | exit span =>
    rw [Stmt.lower]
    exact jump_leavesPending _ fun _ _ _ _ => breakLabel_leavesPending
  | next span =>
    rw [Stmt.lower]
    exact jump_leavesPending _ fun _ _ _ _ => continueLabel_leavesPending
  | tryCatch body caught handler span ihb ihh =>
    rw [Stmt.lower, Block.lower_eq, Block.lower_eq]
    refine tryCatch_leavesPending ((lowerAll_leavesPending ihb).inBlock _)
      (LeavesPending.inBlock (fun c s code s' h => ?_) _)
    simp only [runs_bind] at h
    obtain ⟨u, s₁, h₁, h₂⟩ := h
    exact (((bindLocal_binds caught span).places).leavesPending (bindLocal_binds caught span).bound h₁).append
      (lowerAll_leavesPending ihh h₂)
  | function f ih =>
    rw [Stmt.lower]
    exact Function.lower_leavesPending ih
  | classDef k ih =>
    rw [Stmt.lower]
    exact Class.lower_leavesPending ih

theorem lowerAll_numbers {body : List Stmt} {table : Table} {options : Options} {code : Code}
    {s : State} (hr : Runs (lowerAll body) { options } (.start table options) code s) :
    code.placed.Perm (Label.upTo s.ledger.labels) ∧ Numbered 0 code.mentions s.ledger.labels := by
  have hl := lowerAll_leavesPending (fun s _ => s.lower_leavesPending) hr
  have hg := lowerBody_grows body hr
  have ho : s.pending = [] := by
    rw [State.pending, show s.targets.breaks = [] from hg.breaks.nil_left,
      show s.targets.continues = [] from hg.continues.nil_left]
    rfl
  rw [ho] at hl
  refine ⟨?_, hl.numbered nofun⟩
  rw [List.perm_iff_count]
  intro l
  simpa [Label.upTo, State.pending] using hl.counts l

/-- Every label that is taken is placed once, nothing jumps to any other label, and labels are first
mentioned in the order of their numbers. -/
theorem Program.lower_labelled {p : Program} {table : Table} {options : Options} {out : Lowered}
    (h : p.lower table options = .ok out) :
    ∃ s, Runs (lowerAll p.statements) { options } (.start table options) out.code s ∧
      out.code.placed.Perm (Label.upTo s.ledger.labels) ∧
      (∀ l ∈ out.code.targets, l ∈ out.code.placed) ∧
      out.code.mentions.eraseDups = Label.upTo s.ledger.labels := by
  obtain ⟨s, hr, _⟩ := runs_program.1 h
  obtain ⟨hp, hn⟩ := lowerAll_numbers hr
  refine ⟨s, hr, hp, ?_, hn.eraseDups_eq⟩
  intro l hl
  exact hp.mem_iff.2 (hn.mem (Code.mem_mentions_of_mem_targets hl))

def Program.leftLoop : Program :=
  ⟨[.doWhile ⟨[.break .unplaced], .unplaced⟩ (.bool true .unplaced) .unplaced], .unplaced⟩

theorem Program.leftLoop_labelled :
    ∃ out, leftLoop.lower .empty {} = .ok out ∧ out.code.placed = [⟨1⟩, ⟨2⟩] ∧
      ∃ s, Runs (lowerAll leftLoop.statements) { options := {} } (.start .empty {}) out.code s ∧
        out.code.placed.Perm (Label.upTo s.ledger.labels) ∧
        (∀ l ∈ out.code.targets, l ∈ out.code.placed) ∧
        out.code.mentions.eraseDups = Label.upTo s.ledger.labels := by
  have h : (·.code.placed) <$> (leftLoop.lower .empty {}).toOption = some [⟨1⟩, ⟨2⟩] := by
    decide +kernel
  obtain ⟨out, ho, hp⟩ := exists_of_check h
  exact ⟨out, ho, hp, Program.lower_labelled ho⟩

end ThreeAddress
