import ThreeAddress.Proofs.Lowering.Growth

namespace ThreeAddress

open Lowering Lower

/-- Where the jumps of a statement lead: `none` if no construct around it takes them, and `some none`
if there is one that nothing jumps to. -/
structure Exits where
  breaks : Option (Option Label) := none
  continues : Option (Option Label) := none

/-- Where a jump leads once all labels of the stack are known, seen from an earlier moment. -/
inductive Settled : Option (Option Label) → List (Option Label) → Prop
  | outside : Settled none []
  | inside : (∀ l ∈ x, l ∈ y) → Settled (some y) (x :: rest)

theorem Settled.before {o : Option (Option Label)} {slots slots' : List (Option Label)}
    (h : Settled o slots') (f : Fills slots slots') : Settled o slots := by
  cases f with
  | nil => exact h
  | cons hf _ =>
    cases h with
    | inside h => exact .inside fun l hl => h l (hf l hl)

theorem Settled.top {slots slots' : List (Option Label)} {x : Option Label}
    (f : Fills (x :: slots) slots') : Settled (some slots'.head?.join) slots' := by
  cases f with
  | cons _ _ => exact .inside fun l h => by simpa using h

structure Exits.Settles (ex : Exits) (t : Targets) : Prop where
  breaks : Settled ex.breaks t.breaks
  continues : Settled ex.continues t.continues

theorem Exits.Settles.before {ex : Exits} {s s' : State} (h : ex.Settles s'.targets)
    (hg : s.Grows s') : ex.Settles s.targets :=
  ⟨h.breaks.before hg.breaks, h.continues.before hg.continues⟩

variable {c : Context} {σ σ' : State} {ex : Exits}

theorem Settled.of_nil {o : Option (Option Label)} {slots : List (Option Label)}
    (h : Settled o slots) (hs : slots = []) : o = none := by
  subst hs
  cases h
  rfl

theorem Settled.of_cons {o : Option (Option Label)} {slots rest : List (Option Label)} {l : Label}
    (h : Settled o slots) (hs : slots = some l :: rest) : o = some (some l) := by
  subst hs
  cases h with
  | inside h => exact congrArg some (h l rfl)

theorem settled_break {l? : Option Label} (hr : Runs (account Ledger.breakLabel) c σ l? σ')
    (hs : ex.Settles σ'.targets) : σ'.problems = σ.problems ∧ ex.breaks = l?.map some := by
  obtain ⟨hl, rfl, rfl⟩ | ⟨l, rest, hl, rfl, rfl⟩ | ⟨rest, _, _, rfl, rfl⟩ := runs_breakLabel.1 hr
  · exact ⟨rfl, hs.breaks.of_nil hl⟩
  · exact ⟨rfl, hs.breaks.of_cons hl⟩
  · exact ⟨rfl, hs.breaks.of_cons rfl⟩

theorem settled_continue {l? : Option Label} (hr : Runs (account Ledger.continueLabel) c σ l? σ')
    (hs : ex.Settles σ'.targets) : σ'.problems = σ.problems ∧ ex.continues = l?.map some := by
  obtain ⟨hl, rfl, rfl⟩ | ⟨l, rest, hl, rfl, rfl⟩ | ⟨rest, _, _, rfl, rfl⟩ :=
    runs_continueLabel.1 hr
  · exact ⟨rfl, hs.continues.of_nil hl⟩
  · exact ⟨rfl, hs.continues.of_cons hl⟩
  · exact ⟨rfl, hs.continues.of_cons rfl⟩

theorem Exits.settles_outside (h : σ.Grows σ') (ho : σ.targets = {}) :
    Exits.Settles {} σ'.targets := by
  have hb : Fills σ.targets.breaks σ'.targets.breaks := h.breaks
  have hc : Fills σ.targets.continues σ'.targets.continues := h.continues
  rw [ho] at hb hc
  refine ⟨?_, ?_⟩
  · rw [hb.nil_left]
    exact .outside
  · rw [hc.nil_left]
    exact .outside

theorem Exits.settles_loop {s s' : State} {b k : Option Label}
    (h : (s.enterLoop b k).Grows s') :
    Exits.Settles ⟨some s'.breakLabel?, some s'.continueLabel?⟩ s'.targets :=
  ⟨.top h.breaks, .top h.continues⟩

theorem Exits.Settles.switch {s s' : State} (hs : ex.Settles s'.exitSwitch.targets)
    (h : s.enterSwitch.Grows s') :
    Exits.Settles ⟨some s'.breakLabel?, ex.continues⟩ s'.targets :=
  ⟨.top h.breaks, hs.continues⟩

end ThreeAddress
