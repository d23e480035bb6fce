import ThreeAddress.Proofs.Emission.Rules
import ThreeAddress.Proofs.Lowering.Growth

namespace ThreeAddress

open Lowering Lower

/-- Every run of the action obeys the rule `R`, which relates the temporaries taken before it, what it
yields, and the temporaries taken after it. Under `strict`, runs that report something do not count. -/
def Lower.Obeys (strict : Prop) (ragged : RaggedArrays) (R : Supply → α → Supply → Prop)
    (act : Lower α) : Prop :=
  ∀ ⦃c s a s'⦄, Runs act c s a s' → c.options.raggedArrays = ragged → (strict → s'.problems = []) →
    ∀ bases, ∃ bases', R ⟨s.ledger.temps, bases⟩ a ⟨s'.ledger.temps, bases'⟩

section Cells

variable {α β γ : Type} {c : Context} {s s' : State}

theorem Lower.runs_mapM_map {f : α → Lower β} {g : α → β → γ} {xs : List α} {zs : List γ}
    (h : Runs (xs.mapM fun a => do return g a (← f a)) c s zs s') :
    ∃ ys, Runs (xs.mapM f) c s ys s' ∧ zs = xs.zipWith g ys := by
  induction xs generalizing s zs with
  | nil =>
    obtain ⟨rfl, rfl⟩ := runs_pure.1 h
    exact ⟨[], runs_pure.2 ⟨rfl, rfl⟩, rfl⟩
  | cons a rest ih =>
    rw [List.mapM_cons] at h
    simp only [runs_bind, runs_pure] at h
    obtain ⟨_, s₁, ⟨y, _, h₁, rfl, rfl⟩, _, _, h₂, rfl, rfl⟩ := h
    obtain ⟨ys, hys, rfl⟩ := ih h₂
    refine ⟨y :: ys, ?_, rfl⟩
    rw [List.mapM_cons]
    simp only [runs_bind, runs_pure]
    exact ⟨y, _, h₁, ys, _, hys, rfl, rfl⟩

theorem Expr.at?_cell (e : Expr) (path : List Nat) :
    e.cell.at? path = (e.at? path).map fun e => storable (e.lower .value) := by
  induction path generalizing e with
  | nil => cases e <;> simp [cell, Nest.at?, at?]
  | cons i path ih =>
    cases e with
    | array es span =>
      rw [cell_array, Nest.at?, at?, List.getElem?_map, Option.map_bind]
      cases es[i]? <;> simp [ih]
    | _ => simp [cell, Nest.at?, at?]

theorem Expr.mem_leaves_of_at? {e e' : Expr} {path : List Nat} (h : e.at? path = some e') :
    e' ∈ e.leaves := by
  induction path generalizing e with
  | nil => cases e <;> simp_all [at?, leaves]
  | cons i path ih =>
    cases e with
    | array es span =>
      obtain ⟨e, he, h⟩ := Option.bind_eq_some_iff.1 h
      rw [leaves]
      exact mem_leavesAll (List.mem_of_getElem? he) (ih h)
    | _ => simp [at?] at h

end Cells

section Values

variable {strict : Prop} {ragged : RaggedArrays}

abbrev Expr.Obeys (strict : Prop) (ragged : RaggedArrays) (e : Expr) (d : Demand) : Prop :=
  Lower.Obeys strict ragged (fun n x m => e.Emits strict ragged d n x.1 x.2 m) (e.lower d)

theorem ensureTemp_copied {c : Context} {s s' : State} {v : Operand} {x : Valued}
    (h : Runs (ensureTemp v) c s x s') (bases : List Temp) :
    Copied ⟨s.ledger.temps, bases⟩ v x.1 x.2 ⟨s'.ledger.temps, bases⟩ := by
  obtain ⟨_, rfl, rfl⟩ | ⟨_, h⟩ := runs_ensureTemp.1 h
  · exact .kept
  · obtain ⟨_, rfl, rfl⟩ := runs_copyToTemp.1 h
    exact .copied

theorem storable_copied {c : Context} {s s' : State} {act : Lower Valued} {x : Valued}
    (h : Runs (storable act) c s x s') :
    ∃ y s₁ copy, Runs act c s y s₁ ∧ s'.problems = s₁.problems ∧ x.1 = y.1 ++ copy ∧
      ∀ bases, Copied ⟨s₁.ledger.temps, bases⟩ y.2 copy x.2 ⟨s'.ledger.temps, bases⟩ := by
  obtain ⟨y, s₁, h₁, ⟨name, hn, _, rfl, rfl⟩ | ⟨_, rfl, rfl⟩⟩ := runs_storable.1 h
  · exact ⟨y, s₁, _, h₁, rfl, rfl, fun _ => .copied⟩
  · exact ⟨x, _, [], h₁, rfl, by simp, fun _ => .kept⟩

theorem mapM_emits {es : List Expr} {zero : Operand} {places : List (List Nat)}
    (h : ∀ e ∈ leavesAll es, e.Obeys strict ragged .value) (hz : zero.temps = []) :
    Obeys strict ragged
      (fun n xs m => EmitsCells strict ragged (places.map (Expr.array es .unplaced).at?) n xs m)
      (places.mapM (leafAt (.row (lowerCells es)) zero)) := by
  induction places with
  | nil =>
    intro c s xs s' hr _ _ bases
    obtain ⟨rfl, rfl⟩ := runs_pure.1 hr
    exact ⟨bases, .nil⟩
  | cons p rest ih =>
    intro c s xs s' hr ho hp bases
    rw [List.mapM_cons] at hr
    simp only [runs_bind, runs_pure] at hr
    obtain ⟨x, s₁, h₁, xs, _, h₂, rfl, rfl⟩ := hr
    have hq : strict → s₁.problems = [] := fun hs =>
      (Keeps.mapM (R := State.Advances) (fun p _ => leafAt_keeps (leaf_advances es p) zero) h₂).grows.quiet
        (hp hs)
    have hat := (Expr.array es .unplaced).at?_cell p
    rw [Expr.cell] at hat
    rw [leafAt, hat] at h₁
    cases he : (Expr.array es .unplaced).at? p with
    | none =>
      rw [he] at h₁
      obtain ⟨_, rfl, rfl⟩ := runs_copyToTemp.1 h₁
      obtain ⟨bases', hrest⟩ := ih h₂ ho hp bases
      refine ⟨bases', ?_⟩
      rw [List.map_cons, he]
      exact .gap hz hrest
    | some e =>
      rw [he] at h₁
      obtain ⟨y, s₂, copy, hy, hs, hx, hc⟩ := storable_copied h₁
      have hmem : e ∈ leavesAll es := by
        have := Expr.mem_leaves_of_at? he
        rwa [Expr.leaves] at this
      obtain ⟨bases₁, hy⟩ := h e hmem hy ho (fun h => hs ▸ hq h) bases
      obtain ⟨bases', hrest⟩ := ih h₂ ho hp bases₁
      refine ⟨bases', ?_⟩
      have hcell : x = (y.1 ++ copy, x.2) := Prod.ext hx rfl
      rw [List.map_cons, he, hcell]
      exact .leaf hy (hc bases₁) hrest

theorem shaped_of_runs {c : Context} {s s' : State} {es : List Expr} {name : String} {span : Span}
    {shape : Option (List Nat)}
    (h : Runs (literalShape name span (.row (lowerCells es))) c s shape s')
    (ho : c.options.raggedArrays = ragged) (hp : strict → s'.problems = []) :
    Shaped strict ragged es ∧ positions (shape.getD []) = literalPlaces ragged es := by
  obtain ⟨rfl, h⟩ := runs_literalShape h
  rw [literalPlaces, ho]
  refine ⟨fun hs => ?_, rfl⟩
  obtain ⟨hsome, _⟩ | ⟨_, rfl⟩ := h
  · rwa [ho] at hsome
  · have := hp hs
    simp at this

theorem literalValue_emits {es : List Expr} {span : Span}
    (h : ∀ e ∈ leavesAll es, e.Obeys strict ragged .value) (d : Demand) :
    Obeys strict ragged (fun n x m => (Expr.array es span).Emits strict ragged d n x.1 x.2 m)
      (literalValue (.row (lowerCells es)) span) := by
  intro c s x s' hr ho hp bases
  simp only [literalValue, runs_bind, runs_freshTemp, runs_pure] at hr
  obtain ⟨shape, s₁, hs, xs, s₂, hl, _, _, ⟨_, rfl, rfl⟩, rfl, rfl⟩ := hr
  have ht := literalShape_temps hs
  have hq : strict → s₁.problems = [] := fun h =>
    (Keeps.mapM (R := State.Advances) (fun p _ => leafAt_keeps (leaf_advances es p) _) hl).grows.quiet
      (hp h)
  obtain ⟨hshape, hplaces⟩ := shaped_of_runs hs ho hq
  rw [hplaces] at hl ⊢
  obtain ⟨bases', hcells⟩ := mapM_emits h rfl hl ho hp bases
  rw [ht] at hcells
  exact ⟨_, .array hshape hcells⟩

theorem lowerArgs_emits {es : List Expr} (h : ∀ e ∈ es, e.Obeys strict ragged .value) :
    Obeys strict ragged (fun n x m => EmitsArgs strict ragged es n x.1 x.2 m) (lowerArgs es) := by
  induction es with
  | nil =>
    intro c s x s' hr _ _ bases
    rw [lowerArgs] at hr
    obtain ⟨rfl, rfl⟩ := runs_pure.1 hr
    exact ⟨bases, .nil⟩
  | cons e rest ih =>
    intro c s x s' hr ho hp bases
    rw [lowerArgs] at hr
    simp only [runs_bind, runs_pure, runs_argument] at hr
    obtain ⟨_, _, ⟨y, s₁, h₁, _, rfl, rfl⟩, z, _, h₂, rfl, rfl⟩ := hr
    have hq : strict → s₁.problems = [] := fun hs =>
      (lowerArgs_advances (fun e _ => e.lower_advances _) h₂).grows.quiet (hp hs)
    obtain ⟨bases₁, he⟩ := h e (by simp) h₁ ho hq bases
    obtain ⟨bases₂, hrest⟩ := ih (fun e he => h e (by simp [he])) h₂ ho hp bases₁
    exact ⟨bases₂, .cons he hrest⟩

theorem nameOperand_emits {c : Context} {s s' : State} {name : String} {span : Span} {v : Operand}
    (h : Runs (nameOperand name span) c s v s') :
    s'.ledger.temps = s.ledger.temps ∧ ∃ there, v = .var there := by
  obtain ⟨_, rfl, rfl⟩ | ⟨_, _, _, _, rfl, rfl⟩ := runs_nameOperand h
  · exact ⟨rfl, _, rfl⟩
  · exact ⟨rfl, _, rfl⟩

theorem namedCallee_emits (name : String) (span at_ : Span) :
    Obeys strict ragged
      (fun n x m => EmitsCallee strict ragged (.ident name at_) n x.code x.receiver m)
      (namedCallee name span) := by
  intro c s x s' h _ _ bases
  obtain ⟨_, rfl, rfl⟩ | ⟨_, _, _, _, ⟨_, z, hz, rfl⟩ | ⟨_, rfl, rfl⟩⟩ := runs_namedCallee h
  · exact ⟨bases, .name⟩
  · obtain ⟨_, rfl, rfl⟩ := runs_copyToTemp.1 hz
    exact ⟨bases, .own⟩
  · exact ⟨bases, .name⟩

theorem lowerCallee_emits {callee : Expr} (span : Span) (h : callee.Obeys strict ragged .value)
    (k : ∀ object method at_, callee = .property object method at_ →
      object.Obeys strict ragged .value) :
    Obeys strict ragged (fun n x m => EmitsCallee strict ragged callee n x.code x.receiver m)
      (lowerCallee span callee) := by
  unfold lowerCallee
  split
  · exact namedCallee_emits ..
  · intro c s x s' hr ho hp bases
    simp only [runs_bind, runs_argument, runs_pure] at hr
    obtain ⟨_, _, hc, _, _, ⟨y, s₁, h₁, _, rfl, rfl⟩, rfl, rfl⟩ := hr
    obtain rfl := receiverClass_keeps (R := Eq) _ hc
    obtain ⟨bases', hy⟩ := k _ _ _ rfl h₁ ho hp bases
    exact ⟨bases', .method hy⟩
  next hne =>
    intro c s x s' hr ho hp bases
    simp only [runs_bind, runs_pure] at hr
    obtain ⟨y, _, h₁, rfl, rfl⟩ := hr
    obtain ⟨bases', hy⟩ := h h₁ ho hp bases
    exact ⟨bases', .value hne hy⟩

theorem constant_emits {e : Expr} {d : Demand} {v : Operand} (hv : e.constant? = some v)
    (he : e.lower d = copyToTemp v) : e.Obeys strict ragged d := by
  intro c s x s' hr _ _ bases
  rw [he] at hr
  obtain ⟨_, rfl, rfl⟩ := runs_copyToTemp.1 hr
  exact ⟨bases, .constant hv⟩

theorem Expr.emits (e : Expr) (d : Demand) : e.Obeys strict ragged d := by
  induction e generalizing d with
  | int | str | bool | null => exact constant_emits rfl (by rw [Expr.lower])
  | ident name span =>
    intro c s x s' hr _ _ bases
    obtain ⟨v, hv, rfl⟩ := Expr.runs_ident.1 hr
    obtain ⟨ht, there, rfl⟩ := nameOperand_emits hv
    rw [ht]
    exact ⟨bases, .ident⟩
  | this span =>
    intro c s x s' hr _ _ bases
    obtain ⟨rfl, rfl⟩ := Expr.runs_this.1 hr
    exact ⟨bases, .this⟩
  | array es span ih =>
    rw [Expr.Obeys, Expr.lower]
    exact literalValue_emits (fun e he => ih e he _) d
  | binary l op r span ihl ihr =>
    intro c s x s' hr ho hp bases
    obtain ⟨y, s₁, h₁, z, s₂, h₂, _, rfl, rfl⟩ := Expr.runs_binary.1 hr
    obtain ⟨bases₁, hl⟩ := ihl _ h₁ ho ((r.lower_advances _ h₂).grows.quiet ∘ hp) bases
    obtain ⟨bases₂, hr⟩ := ihr _ h₂ ho hp bases₁
    exact ⟨bases₂, .binary hl hr⟩
  | unary op e span ih =>
    intro c s x s' hr ho hp bases
    obtain ⟨y, s₁, h₁, _, rfl, rfl⟩ := Expr.runs_unary.1 hr
    obtain ⟨bases', he⟩ := ih _ h₁ ho hp bases
    exact ⟨bases', .unary he⟩
  | logical l op r span ihl ihr =>
    intro c s x s' hr ho hp bases
    rw [Expr.lower] at hr
    obtain ⟨first, left, s₁, second, right, h₁, _, _, h₂, rfl⟩ := runs_shortCircuit.1 hr
    obtain ⟨bases₁, hl⟩ := ihl _ h₁ ho ((r.lower_advances _ h₂).grows.quiet ∘ hp) bases
    obtain ⟨bases₂, hr⟩ := ihr _ h₂ ho hp bases₁
    exact ⟨bases₂, .logical hl hr⟩
  | ternary t a b span iht iha ihb =>
    intro c s x s' hr ho hp bases
    rw [Expr.lower] at hr
    obtain ⟨head, v, s₁, h₁, _, _, first, left, s₂, h₂, _, _, second, right, h₃, rfl⟩ :=
      runs_choose.1 hr
    have hp₂ : strict → s₂.problems = [] := (b.lower_advances _ h₃).grows.quiet ∘ hp
    obtain ⟨bases₁, ht⟩ := iht _ h₁ ho ((a.lower_advances _ h₂).grows.quiet ∘ hp₂) bases
    obtain ⟨bases₂, ha⟩ := iha _ h₂ ho hp₂ bases₁
    obtain ⟨bases₃, hb⟩ := ihb _ h₃ ho hp bases₂
    exact ⟨bases₃, .ternary ht ha hb⟩
  | call callee args span ihc iho iha =>
    intro c s x s' hr ho hp bases
    obtain ⟨k, s₁, h₁, y, s₂, h₂, z, h₃, rfl⟩ := Expr.runs_call.1 hr
    have hp₂ : strict → s₂.problems = [] :=
      (finishCall_keeps (R := State.Advances) _ _ _ h₃).grows.quiet ∘ hp
    have hp₁ : strict → s₁.problems = [] :=
      (lowerArgs_advances (fun e _ => e.lower_advances _) h₂).grows.quiet ∘ hp₂
    obtain ⟨bases₁, hc⟩ :=
      lowerCallee_emits span (ihc _) (fun o m at_ he => iho o m at_ he _) h₁ ho hp₁ bases
    obtain ⟨bases₂, ha⟩ := lowerArgs_emits (fun e he => iha e he _) h₂ ho hp₂ bases₁
    cases d with
    | value =>
      simp only [finishCall, runs_bind, runs_freshTemp, runs_pure] at h₃
      obtain ⟨_, _, ⟨_, rfl, rfl⟩, rfl, rfl⟩ := h₃
      exact ⟨bases₂, .call hc ha⟩
    | effect =>
      obtain ⟨rfl, rfl⟩ := runs_pure.1 h₃
      exact ⟨bases₂, .drop hc ha⟩
  | new name args span ih =>
    intro c s x s' hr ho hp bases
    obtain ⟨y, s₁, h₁, _, rfl, rfl⟩ := Expr.runs_new.1 hr
    obtain ⟨bases', ha⟩ := lowerArgs_emits (fun e he => ih e he _) h₁ ho hp bases
    exact ⟨bases', .new ha⟩
  | index base i span ihb ihi =>
    intro c s x s' hr ho hp bases
    obtain ⟨y, s₁, h₁, z, s₂, h₂, w, s₃, h₃, _, rfl, rfl⟩ := Expr.runs_index.1 hr
    have hp₂ : strict → s₂.problems = [] :=
      (ensureTemp_keeps (R := State.Advances) _ h₃).grows.quiet ∘ hp
    obtain ⟨bases₁, hb⟩ := ihb _ h₁ ho ((i.lower_advances _ h₂).grows.quiet ∘ hp₂) bases
    obtain ⟨bases₂, hi⟩ := ihi _ h₂ ho hp₂ bases₁
    exact ⟨bases₂, .index hb hi (ensureTemp_copied h₃ bases₂)⟩
  | property object field span ih =>
    intro c s x s' hr ho hp bases
    obtain ⟨y, s₁, h₁, _, rfl, rfl⟩ := Expr.runs_property.1 hr
    obtain ⟨bases', he⟩ := ih _ h₁ ho hp bases
    exact ⟨bases', .property he⟩

end Values

end ThreeAddress
