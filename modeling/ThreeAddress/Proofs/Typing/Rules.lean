import ThreeAddress.Proofs.Labels.Rules
import ThreeAddress.Proofs.Temps.Rules

/-! Which temporaries have been written, along structured code. A label asks for some of them, and a
jump to it or a fall into it comes with those. A frame is typed twice, as code that is run on the way
and as code that is called, and no label outside of it can be named from inside. -/

namespace ThreeAddress

open List (Subset.trans)
open Operand (tempsAll)

namespace Operand

/-- The temporary that is written when something is stored into the operand. -/
@[simp] def defs : Operand → List Temp
  | .temp t => [t]
  | _ => []

/-- The temporaries that are read when something is stored into the operand. -/
@[simp] def reached : Operand → List Temp
  | .temp _ => []
  | o => o.temps

theorem mem_temps_iff {o : Operand} {t : Temp} : t ∈ o.temps ↔ t ∈ o.defs ∨ t ∈ o.reached := by
  cases o <;> simp [temps]

theorem tempsAll_append (os ps : List Operand) : tempsAll (os ++ ps) = tempsAll os ++ tempsAll ps := by
  induction os with
  | nil => rfl
  | cons o os ih => simp [tempsAll, ih]

end Operand

namespace Instruction

@[simp] def defs : Instruction → List Temp
  | .assign result _ | .unary result .. | .binary result .. | .callInto result .. | .new result .. =>
    result.defs
  | .label _ | .entry _ | .goto _ | .branch .. | .call .. | .return _ | .close _ | .tryBegin _
  | .tryEnd => []

@[simp] def uses : Instruction → List Temp
  | .assign result arg | .unary result _ arg => result.reached ++ arg.temps
  | .binary result left _ right => result.reached ++ left.temps ++ right.temps
  | .branch left _ right _ => left.temps ++ right.temps
  | .call _ params => tempsAll params
  | .callInto result _ params | .new result _ params => result.reached ++ tempsAll params
  | .return value => value.temps
  | .label _ | .entry _ | .goto _ | .close _ | .tryBegin _ | .tryEnd => []

theorem mem_temps_iff {i : Instruction} {t : Temp} : t ∈ i.temps ↔ t ∈ i.defs ∨ t ∈ i.uses := by
  cases i <;> simp [temps, Operand.mem_temps_iff (t := t), or_assoc]

def isPlain : Instruction → Bool
  | .assign .. | .unary .. | .binary .. | .call .. | .callInto .. | .new .. | .return _ => true
  | .label _ | .entry _ | .goto _ | .branch .. | .close _ | .tryBegin _ | .tryEnd => false

def isBracket : Instruction → Bool
  | .entry _ | .close _ | .tryBegin _ | .tryEnd => true
  | _ => false

theorem not_bracket_of_plain {i : Instruction} (h : i.isPlain) : ¬i.isBracket := by
  cases i <;> simp_all [isBracket, isPlain]

end Instruction

/-- Labels, each with the temporaries that have been written wherever control comes to it. -/
abbrev Marks := List (Label × List Temp)

def Marks.Offer (marks : Marks) (l : Label) (ts : List Temp) : Prop :=
  ∃ us, (l, us) ∈ marks ∧ us ⊆ ts

namespace Marks.Offer

variable {marks : Marks} {l : Label} {ts us : List Temp} {mark : Label × List Temp}

theorem head (h : us ⊆ ts) : Offer ((l, us) :: marks) l ts := ⟨us, .head _, h⟩

theorem tail (h : marks.Offer l ts) : Offer (mark :: marks) l ts := by
  obtain ⟨us, hm, hs⟩ := h
  exact ⟨us, .tail _ hm, hs⟩

theorem mem (h : marks.Offer l ts) : l ∈ marks.map Prod.fst := by
  obtain ⟨us, hm, _⟩ := h
  exact List.mem_map_of_mem hm

theorem mono (h : marks.Offer l ts) (hs : ts ⊆ us) : marks.Offer l us := by
  obtain ⟨vs, hm, hv⟩ := h
  exact ⟨vs, hm, Subset.trans hv hs⟩

end Marks.Offer

/-- Where the temporaries `ts` have been written the code is safe to run, and where it ends those of
the second list have been. The code behind a jump is typed as if control fell through. -/
inductive Typed (bases : List Temp) : Marks → List Temp → Code → List Temp → Prop
  | nil : Typed bases marks ts [] ts
  | step : i.isPlain → i.uses ⊆ ts → Typed bases marks ts [i] (ts ++ i.defs)
  | goto : Marks.Offer marks l ts → Typed bases marks ts [.goto l] ts
  | branch : Marks.Offer marks l ts → a.temps ++ b.temps ⊆ ts →
    Typed bases marks ts [.branch a relation b l] ts
  | append : Typed bases marks ts a us → Typed bases marks us b vs →
    Typed bases marks ts (a ++ b) vs
  | place : Typed bases ((l, us) :: marks) ts a vs → us ⊆ vs →
    Typed bases ((l, us) :: marks) us b ws → Typed bases marks ts (a ++ .label l :: b) ws
  | region : Marks.Offer marks l ts → Typed bases marks ts mid us →
    Typed bases marks ts (.tryBegin l :: mid ++ [.tryEnd]) us
  | frame : Typed bases [] ts mid us → Typed bases [] bases mid vs →
    Typed bases marks ts (.entry name :: mid ++ [.close name]) us
  | weaken : Typed bases marks ts code us → vs ⊆ us → Typed bases marks ts code vs

namespace Typed

variable {bases ts us vs : List Temp} {marks : Marks} {a b code : Code} {i : Instruction} {l : Label}

theorem reads (h : ∀ i ∈ code, i.isPlain ∧ i.defs = [] ∧ i.uses ⊆ ts) :
    Typed bases marks ts code ts := by
  induction code with
  | nil => exact .nil
  | cons i rest ih =>
    obtain ⟨hp, hd, hu⟩ := h i (by simp)
    have hi : Typed bases marks ts [i] (ts ++ i.defs) := .step hp hu
    rw [hd, List.append_nil] at hi
    exact hi.append (ih fun j hj => h j (by simp [hj]))

theorem placeEnd (h : Typed bases ((l, us) :: marks) ts a vs) (hs : us ⊆ vs) :
    Typed bases marks ts (a ++ [.label l]) us := .place h hs .nil

end Typed

end ThreeAddress
