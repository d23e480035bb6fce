import ThreeAddress.Proofs.Scope.Outline
import ThreeAddress.Proofs.Scope.Growth

namespace ThreeAddress

namespace Table

/-- Below the scopes `cs`, the scopes `is` belong to the frame around `cs`, in preorder. -/
inductive Regions (t : Table) : List Nat → List Nat → Prop
  | nil : Regions t [] []
  | apart : t.scopes[i]? = some s → s.kind.opensFrame → Regions t rest is →
    Regions t (i :: rest) is
  | within : t.scopes[i]? = some s → ¬s.kind.opensFrame → Regions t s.children is →
    Regions t rest is' → Regions t (i :: rest) (i :: is ++ is')

variable {t t' : Table} {cs is is' : List Nat} {i : Nat}

theorem Regions.append {cs' : List Nat} (h : t.Regions cs is) (k : t.Regions cs' is') :
    t.Regions (cs ++ cs') (is ++ is') := by
  induction h with
  | nil => exact k
  | apart hs hk _ ih => exact .apart hs hk ih
  | within hs hk hc _ _ ih =>
    rw [List.cons_append, List.append_assoc, List.cons_append]
    exact .within hs hk hc ih

theorem Regions.congr (h : t.Regions cs is)
    (hk : ∀ (i : Nat) (s : Scope), t.scopes[i]? = some s → ∃ s' : Scope, t'.scopes[i]? = some s' ∧
      s'.kind = s.kind)
    (hc : ∀ i ∈ is, ∀ s s' : Scope, t.scopes[i]? = some s → t'.scopes[i]? = some s' →
      s'.children = s.children) : t'.Regions cs is := by
  induction h with
  | nil => exact .nil
  | apart hs ho _ ih =>
    obtain ⟨s', hs', he⟩ := hk _ _ hs
    exact .apart hs' (he ▸ ho) (ih hc)
  | within hs ho _ _ ihc ihr =>
    obtain ⟨s', hs', he⟩ := hk _ _ hs
    refine .within hs' (he ▸ ho) ?_ (ihr fun i hi => hc i (by simp [hi]))
    rw [hc _ (by simp) _ _ hs hs']
    exact ihc fun i hi => hc i (by simp [hi])

def sharesFrame (t : Table) (id : Nat) : Bool := t.scopes[id]?.any fun s => !s.kind.opensFrame

theorem filterM_sharesFrame (h : ∀ c ∈ cs, (t.scopes[c]?).isSome) :
    (cs.filterM fun child => return !(← t.scope child).kind.opensFrame) =
      .ok (cs.filter t.sharesFrame) := by
  have aux (acc : List Nat) :
      cs.filterAuxM (fun child => return !(← t.scope child).kind.opensFrame) acc =
        Except.ok (ε := Fault) ((cs.filter t.sharesFrame).reverse ++ acc) := by
    induction cs generalizing acc with
    | nil => rfl
    | cons c rest ih =>
      obtain ⟨s, hs⟩ := Option.isSome_iff_exists.1 (h c (by simp))
      have hc : t.scope c = .ok s := nth_eq_ok.2 hs
      simp only [List.filterAuxM, hc, bind, Except.bind, pure, Except.pure] at ih ⊢
      rw [ih fun c hc => h c (by simp [hc])]
      cases ho : s.kind.opensFrame <;> simp [sharesFrame, hs, ho]
  rw [List.filterM, aux]
  simp [bind, Except.bind, pure, Except.pure]

theorem Regions.valid (h : t.Regions cs is) : ∀ c ∈ cs, (t.scopes[c]?).isSome := by
  induction h with
  | nil => nofun
  | apart hs _ _ ih => exact List.forall_mem_cons.2 ⟨Option.isSome_of_eq_some hs, ih⟩
  | within hs _ _ _ _ ih => exact List.forall_mem_cons.2 ⟨Option.isSome_of_eq_some hs, ih⟩

def declared (t : Table) (id : Nat) : List Symbol := (t.scopes[id]?.map (·.symbols)).getD []

theorem gather_step {s : Scope} {fuel : Nat} {pending : List Nat} {xs : List Symbol}
    (hs : t.scopes[i]? = some s) (hc : t.Regions s.children is)
    (hg : t.gather fuel (s.children.filter t.sharesFrame ++ pending) = .ok xs) :
    t.gather (fuel + 1) (i :: pending) = .ok (t.declared i ++ xs) := by
  have hi : t.scope i = .ok s := nth_eq_ok.2 hs
  have hf : t.frameChildren s = .ok (s.children.filter t.sharesFrame) :=
    filterM_sharesFrame hc.valid
  rw [gather, hi]
  simp [hf, hg, declared, hs, bind, Except.bind, pure, Except.pure]

theorem gather_eq {pending : List Nat} (h : t.Regions cs is)
    (hp : ∀ fuel, is'.length ≤ fuel → t.gather fuel pending = .ok (is'.flatMap t.declared)) :
    ∀ fuel, (is ++ is').length ≤ fuel → t.gather fuel (cs.filter t.sharesFrame ++ pending) =
      .ok ((is ++ is').flatMap t.declared) := by
  induction h generalizing pending is' with
  | nil => exact hp
  | apart hs ho _ ih =>
    rw [List.filter_cons_of_neg (by simp [sharesFrame, hs, ho])]
    exact ih hp
  | within hs ho hc _ ihc ihr =>
    intro fuel hfuel
    rw [List.filter_cons_of_pos (by simp [sharesFrame, hs, ho])]
    obtain ⟨fuel, rfl⟩ : ∃ n, fuel = n + 1 := ⟨fuel - 1, by simp at hfuel; omega⟩
    have := ihc (ihr hp) fuel (by simp at hfuel ⊢; omega)
    rw [List.cons_append, gather_step hs hc this]
    simp

theorem gather_root {s : Scope} (hs : t.scopes[i]? = some s) (hc : t.Regions s.children is)
    (hl : is.length < t.size) : t.gather t.size [i] = .ok ((i :: is).flatMap t.declared) := by
  obtain ⟨fuel, hfuel⟩ : ∃ fuel, t.size = fuel + 1 :=
    Nat.exists_eq_add_one_of_ne_zero (Nat.ne_zero_of_lt hl)
  have hnil (fuel : Nat) (_ : ([] : List Nat).length ≤ fuel) :
      t.gather fuel [] = .ok (([] : List Nat).flatMap t.declared) := by
    cases fuel <;> rfl
  have hg := gather_eq hc hnil fuel (by rw [List.append_nil]; omega)
  rw [List.append_nil, List.append_nil] at hg
  rw [hfuel, gather_step hs hc (by rwa [List.append_nil])]
  rfl

end Table

end ThreeAddress
