import ThreeAddress.Proofs.Stages.Walks

namespace ThreeAddress

open Lowering Plan

namespace Stage

def context : Stage → Context
  | stmt c _ | header c _ => c

def roots (policy : RaggedArrays) : Stage → List Expr
  | stmt _ s => s.roots policy
  | header _ e => [e]

/-- `e` is evaluated in this part of a program. -/
def Evaluates (policy : RaggedArrays) (st : Stage) (e : Expr) : Prop :=
  ∃ root ∈ st.roots policy, root.Evaluates policy e

end Stage

def Part.evaluations (options : Options) : Part × FullState → List (Expr × FullState)
  | (.stmt s, d) => if s.isPlain then (s.plan options).evaluations d else []
  | (.header e, d) => (e.plan options).evaluations d

section

variable {options : Options} {last d d' : FullState} {course : List (Part × FullState)}
  {x : Part × FullState} {e : Expr}

theorem Stmt.roots_of_not_isPlain {r : Stmt} {policy : RaggedArrays} (h : ¬r.isPlain) :
    r.roots policy = [] := by
  cases r <;> simp_all [isPlain, roots]

/-- On a walk that nothing is reported on, each part begins with its own expressions. -/
theorem Trail.starts (h : Trail options last d course d') (hq : last.problems = []) (hx : x ∈ course) :
    ∃ starts : List (Expr × FullState),
      starts.map (·.1) = (Part.stage options x).roots options.raggedArrays ∧
      (∀ y ∈ starts, Starts options (x.2.context options) last y) ∧
      Part.evaluations options x = starts.flatMap fun y => (y.1.plan options).evaluations y.2 := by
  induction h with
  | rest => cases hx
  | plain _ hi hr hl _ ih =>
    obtain rfl | hx := List.mem_cons.1 hx
    · obtain ⟨starts, hes, hs, he⟩ := (Stmt.plan_evaluates hi hr rfl).2.2 (hl.quiet hq)
      refine ⟨starts, hes, fun y hy => ?_, by rw [Part.evaluations, if_pos hi, he]⟩
      obtain ⟨hc, v, σ, hrun, hσ⟩ := hs y hy
      exact ⟨hc, v, σ, hrun, hσ.trans hl⟩
    · exact ih hx
  | around _ hi _ _ _ ih =>
    obtain rfl | hx := List.mem_cons.1 hx
    · exact ⟨[], (Stmt.roots_of_not_isPlain hi).symm, nofun, by rw [Part.evaluations, if_neg hi]; rfl⟩
    · exact ih hx
  | @header _ σ σ' _ e v _ _ _ hr hl _ ih =>
    obtain rfl | hx := List.mem_cons.1 hx
    · refine ⟨[(e, σ)], rfl, fun y hy => ?_, by simp [Part.evaluations]⟩
      obtain rfl := List.mem_singleton.1 hy
      exact ⟨rfl, v, σ', hr, hl⟩
    · exact ih hx

theorem Trail.starts_of_mem (h : Trail options last d course d') (hq : last.problems = []) (hx : x ∈ course)
    {y : Expr × FullState} (hy : y ∈ Part.evaluations options x) :
    Starts options (x.2.context options) last y := by
  obtain ⟨starts, _, hs, he⟩ := h.starts hq hx
  rw [he, List.mem_flatMap] at hy
  obtain ⟨z, hz, hy⟩ := hy
  obtain ⟨hc, v, σ, hrun, hσ⟩ := hs z hz
  obtain ⟨hc', w, τ, hrun', hτ⟩ := Expr.starts_of_mem hrun (hσ.quiet hq) hy
  exact ⟨hc'.trans hc, w, τ, hrun', hτ.trans hσ⟩

theorem Trail.exists_mem (h : Trail options last d course d') (hq : last.problems = []) (hx : x ∈ course)
    (he : (Part.stage options x).Evaluates options.raggedArrays e) :
    ∃ τ, (e, τ) ∈ Part.evaluations options x := by
  obtain ⟨root, hroot, he⟩ := he
  obtain ⟨starts, hes, hs, heval⟩ := h.starts hq hx
  rw [← hes, List.mem_map] at hroot
  obtain ⟨z, hz, rfl⟩ := hroot
  obtain ⟨_, v, σ, hrun, hσ⟩ := hs z hz
  obtain ⟨τ, hτ⟩ := he.exists_mem hrun (hσ.quiet hq)
  exact ⟨τ, heval ▸ List.mem_flatMap.2 ⟨z, hz, hτ⟩⟩

end

end ThreeAddress
