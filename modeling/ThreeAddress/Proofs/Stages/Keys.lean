import ThreeAddress.Proofs.Lockstep.Appending
import ThreeAddress.Proofs.Lockstep.Positions
import ThreeAddress.Proofs.Stages.Walks

namespace ThreeAddress

open Lowering

def Stage.loopsAt (key : Position) : Stage → Bool
  | .stmt _ (.foreach _ _ body _) => body.span.toPosition == key
  | _ => false

section Counts

variable {t : Table} {key : Position} {body : List Stmt}

abbrev Stmt.LoopsBelow (t : Table) (key : Position) (s : Stmt) : Prop :=
  ∀ c, (Stage.stmt c s :: s.stages t c).countP (Stage.loopsAt key) ≤ s.keys.count key

theorem stagesAll_loops (h : ∀ s ∈ body, s.LoopsBelow t key) (c : Context) :
    (stagesAll t c body).countP (Stage.loopsAt key) ≤ (keysAll body).count key := by
  induction body with
  | nil => simp [stagesAll]
  | cons s rest ih =>
    have hs := h s (by simp) c
    have hrest := ih fun s hs => h s (by simp [hs])
    rw [stagesAll, keysAll, ← List.cons_append, List.countP_append, List.count_append]
    omega

theorem Block.stages_loops {b : Block} (h : ∀ s ∈ b.body, s.LoopsBelow t key) (c : Context) :
    (b.stages t c).countP (Stage.loopsAt key) + [b.span.toPosition].count key ≤ b.keys.count key := by
  have hbody := stagesAll_loops h c
  rw [stages_eq, keys_eq, List.count_cons (l := keysAll b.body), List.count_singleton]
  omega

theorem stagesCases_loops {cases : List Case} (h : ∀ k ∈ cases, ∀ s ∈ k.body, s.LoopsBelow t key)
    (c : Context) : (stagesCases t c cases).countP (Stage.loopsAt key) ≤ (keysCases cases).count key := by
  induction cases with
  | nil => simp [stagesCases]
  | cons k rest ih =>
    obtain ⟨value, body, span⟩ := k
    have hbody : (stagesAll t c body).countP (Stage.loopsAt key) ≤ (keysAll body).count key :=
      stagesAll_loops (h ⟨value, body, span⟩ (by simp)) c
    have hrest := ih fun k hk => h k (by simp [hk])
    rw [stagesCases, keysCases, Case.keys, List.countP_append, List.count_append]
    omega

theorem stagesOption_loops {s : Option Stmt} (h : ∀ s' ∈ s, s'.LoopsBelow t key) (c : Context) :
    (stagesOption t c s).countP (Stage.loopsAt key) ≤ (keysOption s).count key := by
  cases s with
  | none => simp [stagesOption]
  | some s =>
    rw [stagesOption, keysOption]
    exact h s rfl c

theorem Function.stages_loops {f : Function} (h : ∀ s ∈ f.body.body, s.LoopsBelow t key) (c : Context) :
    (f.stages t c).countP (Stage.loopsAt key) ≤ f.keys.count key := by
  obtain ⟨name, params, result, body, span⟩ := f
  rw [stages, keys]
  cases t.visible? c.scope name with
  | none => simp
  | some x =>
    have := Block.stages_loops h (c.inside x)
    dsimp only at this ⊢
    omega

theorem stagesMembers_loops {members : List Member}
    (h : ∀ f, .method f ∈ members → ∀ s ∈ f.body.body, s.LoopsBelow t key) (c : Context) :
    (stagesMembers t c members).countP (Stage.loopsAt key) ≤ (keysMembers members).count key := by
  induction members with
  | nil => simp [stagesMembers]
  | cons m rest ih =>
    have hrest := ih fun f hf => h f (by simp [hf])
    cases m with
    | field b =>
      rw [stagesMembers, keysMembers, Member.keys]
      simpa [Stage.loopsAt] using hrest
    | method f =>
      have hf := Function.stages_loops (h f (by simp)) c
      rw [stagesMembers, keysMembers, Member.keys, List.count_append]
      simp only [List.countP_cons, List.countP_append, Stage.loopsAt, Bool.false_eq_true, if_false]
      omega

theorem Stmt.loopsBelow (s : Stmt) : s.LoopsBelow t key := by
  have headers {α : Type} {c : Context} (f : α → Expr) (xs : List α) :
      (xs.map fun x => Stage.header c (f x)).countP (Stage.loopsAt key) = 0 := by
    simp [List.countP_eq_zero, Stage.loopsAt]
  induction s with
  | declare | assign | print | eval | ret | exit | next =>
    intro c
    simp [stages, keys, Stage.loopsAt]
  | block b ih =>
    intro c
    have := Block.stages_loops ih (c.within t b.span)
    simp only [stages, keys, List.countP_cons, Stage.loopsAt, Bool.false_eq_true, if_false]
    omega
  | ite e yes no span ihy ihn =>
    intro c
    have hy := Block.stages_loops ihy (c.within t yes.span)
    cases no with
    | none =>
      simp only [stages, keys, keysElse, List.countP_cons, List.append_nil, Stage.loopsAt,
        Bool.false_eq_true, if_false]
      omega
    | some no =>
      have hn := Block.stages_loops (ihn no rfl) (c.within t no.span)
      simp only [stages, keys, keysElse, List.countP_cons, List.countP_append, List.count_append,
        Stage.loopsAt, Bool.false_eq_true, if_false]
      omega
  | loop e body span ih =>
    intro c
    have := Block.stages_loops ih (c.within t body.span)
    simp only [stages, keys, List.countP_cons, Stage.loopsAt, Bool.false_eq_true, if_false]
    omega
  | doWhile body e span ih =>
    intro c
    have := Block.stages_loops ih (c.within t body.span)
    simp only [stages, keys, List.countP_cons, List.countP_append, List.countP_nil, Stage.loopsAt,
      Bool.false_eq_true, if_false]
    omega
  | forLoop first test step body span ihf ihs ih =>
    intro c
    have hf := stagesOption_loops ihf (c.within t body.span)
    have hs := stagesOption_loops ihs (c.within t body.span)
    have hbody := Block.stages_loops ih (c.within t body.span)
    have ht : (test.toList.map (Stage.header (c.within t body.span))).countP (Stage.loopsAt key) = 0 :=
      headers (fun e => e) _
    simp only [stages, keys, List.countP_cons, List.countP_append, List.count_append, Stage.loopsAt,
      Bool.false_eq_true, if_false]
    omega
  | foreach item e body span ih =>
    intro c
    have hbody := Block.stages_loops ih (c.within t body.span)
    -- the loop itself counts once, which the key of its body makes up for
    have hown : (if Stage.loopsAt key (.stmt c (.foreach item e body span)) then 1 else 0) =
        [body.span.toPosition].count key := by
      rw [List.count_singleton]
      rfl
    rw [List.countP_cons, hown, stages, keys, List.countP_cons, if_neg (by simp [Stage.loopsAt])]
    exact hbody
  | switch subject cases default span ihc ihd =>
    intro c
    have hc := stagesCases_loops ihc c
    have hv : (cases.map fun k => Stage.header c k.value).countP (Stage.loopsAt key) = 0 := headers _ _
    cases default with
    | none =>
      simp only [stages, keys, keysDefault, List.countP_cons, List.countP_append, List.append_nil,
        Stage.loopsAt, Bool.false_eq_true, if_false]
      omega
    | some body =>
      have hd := stagesAll_loops (ihd body rfl) c
      simp only [stages, keys, keysDefault, List.countP_cons, List.countP_append, List.count_append,
        Stage.loopsAt, Bool.false_eq_true, if_false]
      omega
  | tryCatch body caught handler span ihb ihh =>
    intro c
    have hb := Block.stages_loops ihb (c.within t body.span)
    have hh := Block.stages_loops ihh (c.within t handler.span)
    simp only [stages, keys, List.countP_cons, List.countP_append, List.count_append, Stage.loopsAt,
      Bool.false_eq_true, if_false]
    omega
  | function f ih =>
    intro c
    have := Function.stages_loops ih c
    simp only [stages, keys, List.countP_cons, Stage.loopsAt, Bool.false_eq_true, if_false]
    omega
  | classDef k ih =>
    intro c
    obtain ⟨name, parent, members, at_⟩ := k
    simp only [stages, keys, Class.stages, Class.keys, List.countP_cons, List.count_cons, Stage.loopsAt,
      Bool.false_eq_true, if_false]
    cases t.visible? c.scope name with
    | none => simp
    | some x =>
      have := stagesMembers_loops ih { c.inside x with className := some name }
      dsimp only at this ⊢
      omega

end Counts

/-- Lowering begins with a loop once, if the body of the loop is the only block with its key. -/
theorem Program.course_loop_unique {p : Program} {t : Table} {options : Options} (hk : p.keys.Nodup)
    (hs : (p.course t options).map (Part.stage options) = p.stages t options) {σ τ : FullState} {r : Stmt}
    {key : Position} (hr : ∀ c, Stage.loopsAt key (.stmt c r))
    (hσ : (.stmt r, σ) ∈ p.course t options) (hτ : (.stmt r, τ) ∈ p.course t options) : σ = τ := by
  let q := Stage.loopsAt key ∘ Part.stage options
  have hcount : ((p.course t options).filter q).length ≤ 1 := by
    rw [← List.countP_eq_length_filter, ← List.countP_map, hs]
    exact (stagesAll_loops (fun s _ => s.loopsBelow) _).trans (List.nodup_iff_count_le_one.1 hk key)
  have mem {τ : FullState} (h : (.stmt r, τ) ∈ p.course t options) :
      (.stmt r, τ) ∈ (p.course t options).filter q := List.mem_filter.2 ⟨h, hr _⟩
  obtain ⟨i, hi, hσ⟩ := List.getElem_of_mem (mem hσ)
  obtain ⟨j, hj, hτ⟩ := List.getElem_of_mem (mem hτ)
  obtain rfl : i = j := by omega
  cases hσ.symm.trans hτ
  rfl

end ThreeAddress
