import ThreeAddress.Code.Instruction

/-! Code in which every label is placed once and labels are first mentioned in order. Such code is
put together piece by piece: a piece starts with `n` labels handed out, some of which are still
pending, and says how many are handed out and which are pending when it ends. -/

namespace ThreeAddress

def Instruction.placed? : Instruction → Option Label
  | .label l => some l
  | _ => none

def Instruction.target? : Instruction → Option Label
  | .goto l | .tryBegin l | .branch _ _ _ l => some l
  | _ => none

namespace Code

def placed (code : Code) : List Label := code.filterMap Instruction.placed?

def targets (code : Code) : List Label := code.filterMap Instruction.target?

def mentions (code : Code) : List Label := code.filterMap Instruction.label?

theorem placed_append (a b : Code) : (a ++ b : Code).placed = a.placed ++ b.placed :=
  List.filterMap_append ..

theorem mentions_append (a b : Code) : (a ++ b : Code).mentions = a.mentions ++ b.mentions :=
  List.filterMap_append ..

section Cons

variable {i : Instruction} {l : Label}

theorem placed_plain (h : i.label? = none) (rest : Code) : placed (i :: rest) = rest.placed :=
  List.filterMap_cons_none (by cases i <;> simp_all [Instruction.label?, Instruction.placed?])

theorem mentions_plain (h : i.label? = none) (rest : Code) : mentions (i :: rest) = rest.mentions :=
  List.filterMap_cons_none h

theorem placed_jump (h : i.target? = some l) (rest : Code) : placed (i :: rest) = rest.placed :=
  List.filterMap_cons_none (by cases i <;> simp_all [Instruction.target?, Instruction.placed?])

theorem mentions_jump (h : i.target? = some l) (rest : Code) :
    mentions (i :: rest) = l :: rest.mentions :=
  List.filterMap_cons_some (by cases i <;> simp_all [Instruction.target?, Instruction.label?])

theorem placed_label (rest : Code) : placed (.label l :: rest) = l :: rest.placed :=
  List.filterMap_cons_some rfl

theorem mentions_label (rest : Code) : mentions (.label l :: rest) = l :: rest.mentions :=
  List.filterMap_cons_some rfl

end Cons

theorem mem_mentions_of_mem_targets {code : Code} {l : Label} (h : l ∈ code.targets) :
    l ∈ code.mentions := by
  obtain ⟨i, hi, hl⟩ := List.mem_filterMap.1 h
  refine List.mem_filterMap.2 ⟨i, hi, ?_⟩
  cases i <;> simp_all [Instruction.target?, Instruction.label?]

end Code

def Label.upTo (n : Nat) : List Label := (List.range n).map fun i => ⟨i + 1⟩

theorem Label.mem_upTo {n : Nat} {l : Label} : l ∈ upTo n ↔ 0 < l.number ∧ l.number ≤ n := by
  obtain ⟨k⟩ := l
  simp only [upTo, List.mem_map, List.mem_range, Label.mk.injEq]
  constructor
  · rintro ⟨i, hi, rfl⟩
    omega
  · intro h
    exact ⟨k - 1, by omega, by omega⟩

theorem Label.nodup_upTo (n : Nat) : (upTo n).Nodup :=
  List.Pairwise.map _ (fun _ _ h => by simpa using h) List.nodup_range

theorem Label.upTo_succ (n : Nat) : upTo (n + 1) = upTo n ++ [⟨n + 1⟩] := by
  simp [upTo, List.range_succ]

open Label (upTo)

/-- With the labels up to `n` mentioned before, the list mentions new ones in order, up to `n'`. -/
inductive Numbered : Nat → List Label → Nat → Prop
  | nil : Numbered n [] n
  | old : l ∈ upTo n → Numbered n ls n' → Numbered n (l :: ls) n'
  | new : Numbered (n + 1) ls n' → Numbered n (⟨n + 1⟩ :: ls) n'

namespace Numbered

variable {n m n' : Nat} {a b ls : List Label}

theorem append (h : Numbered n a m) (k : Numbered m b n') : Numbered n (a ++ b) n' := by
  induction h with
  | nil => exact k
  | old hl _ ih => exact .old hl (ih k)
  | new _ ih => exact .new (ih k)

theorem le (h : Numbered n ls n') : n ≤ n' := by
  induction h with
  | nil => exact Nat.le_refl _
  | old _ _ ih => exact ih
  | new _ ih => exact Nat.le_of_succ_le ih

theorem mem {l : Label} (h : Numbered n ls n') (hl : l ∈ ls) : l ∈ upTo n' := by
  induction h with
  | nil => simp at hl
  | old hk h ih =>
    cases hl with
    | head =>
      have := h.le
      rw [Label.mem_upTo] at hk ⊢
      omega
    | tail _ hl => exact ih hl
  | new h ih =>
    cases hl with
    | head =>
      have := h.le
      rw [Label.mem_upTo]
      exact ⟨Nat.succ_pos _, this⟩
    | tail _ hl => exact ih hl

theorem upTo_append (h : Numbered n ls n') :
    upTo n ++ (ls.filter (n < ·.number)).eraseDups = upTo n' := by
  induction h with
  | nil => simp
  | old hl _ ih =>
    rw [List.filter_cons_of_neg, ih]
    simpa using (Label.mem_upTo.1 hl).2
  | @new n ls n' _ ih =>
    rw [List.filter_cons_of_pos (by simp), List.eraseDups_cons, List.filter_filter, ← ih,
      Label.upTo_succ, List.append_assoc, List.singleton_append]
    congr 4
    funext l
    obtain ⟨k⟩ := l
    rw [Bool.eq_iff_iff]
    simp
    omega

theorem eraseDups_eq (h : Numbered 0 ls n) : ls.eraseDups = upTo n := by
  have hl : ls.filter (0 < ·.number) = ls := by
    rw [List.filter_eq_self]
    intro l hl
    simpa using (Label.mem_upTo.1 (h.mem hl)).1
  have := h.upTo_append
  rwa [hl] at this

end Numbered

/-- The code starts with `n` labels handed out and `pending` still to be placed, and ends with `n'` and
`pending'`. -/
structure Labelled (n : Nat) (pending : List Label) (code : Code) (n' : Nat) (pending' : List Label) :
    Prop where
  le : n ≤ n'
  counts : ∀ l, code.placed.count l + pending'.count l + (upTo n).count l =
    pending.count l + (upTo n').count l
  numbered : (∀ l ∈ pending, l ∈ upTo n) → Numbered n code.mentions n'

namespace Labelled

variable {n m n' : Nat} {pending pending' mid mid' : List Label} {code rest : Code} {i : Instruction}
  {l : Label}

theorem nil : Labelled n pending [] n pending where
  le := Nat.le_refl n
  counts l := by simp [Code.placed]
  numbered _ := .nil

theorem mem_upTo (h : Labelled n pending code n' pending') (hl : l ∈ upTo n) : l ∈ upTo n' := by
  have := h.le
  rw [Label.mem_upTo] at hl ⊢
  omega

theorem known (h : Labelled n pending code n' pending') (hk : ∀ l ∈ pending, l ∈ upTo n) :
    ∀ l ∈ pending', l ∈ upTo n' := by
  intro l hl
  have hc := h.counts l
  have ho := List.count_pos_iff.2 hl
  rw [← List.count_pos_iff]
  by_cases hm : l ∈ pending
  · exact List.count_pos_iff.2 (h.mem_upTo (hk l hm))
  · have := List.count_eq_zero.2 hm
    omega

theorem append (h : Labelled n pending code m mid) (k : Labelled m mid rest n' pending') :
    Labelled n pending (code ++ rest) n' pending' where
  le := Nat.le_trans h.le k.le
  counts l := by
    have := h.counts l
    have := k.counts l
    rw [Code.placed_append, List.count_append]
    omega
  numbered hk := by
    rw [Code.mentions_append]
    exact (h.numbered hk).append (k.numbered (h.known hk))

theorem frame (h : Labelled n pending code n' pending') (outside : List Label) :
    Labelled n (outside ++ pending) code n' (outside ++ pending') where
  le := h.le
  counts l := by
    have := h.counts l
    simp only [List.count_append]
    omega
  numbered hk := h.numbered fun l hl => hk l (List.mem_append_right _ hl)

theorem drop (h : Labelled n pending code n' pending') (p : pending.Perm (l :: mid))
    (p' : pending'.Perm (l :: mid')) (hl : l ∈ upTo n) : Labelled n mid code n' mid' where
  le := h.le
  counts l' := by
    have := h.counts l'
    rw [p.count_eq, p'.count_eq, List.count_cons, List.count_cons] at this
    omega
  numbered hk := by
    refine h.numbered fun l' hl' => ?_
    cases p.mem_iff.1 hl' with
    | head => exact hl
    | tail _ hl' => exact hk l' hl'

theorem perm (h : Labelled n pending code n' pending') (p : pending.Perm mid) (p' : pending'.Perm mid') :
    Labelled n mid code n' mid' where
  le := h.le
  counts l := by
    rw [← p.count_eq, ← p'.count_eq]
    exact h.counts l
  numbered hk := h.numbered fun l hl => hk l (p.mem_iff.1 hl)

theorem inside (h : Labelled n [] code n' []) (pending : List Label) :
    Labelled n pending code n' pending := by
  simpa using h.frame pending

/-! One instruction in front of the rest. -/

theorem plain (hi : i.label? = none) (h : Labelled n pending rest n' pending') :
    Labelled n pending (i :: rest) n' pending' where
  le := h.le
  counts l := by
    rw [Code.placed_plain hi]
    exact h.counts l
  numbered hk := by
    rw [Code.mentions_plain hi]
    exact h.numbered hk

theorem mem_upTo_succ (h : l ∈ upTo n) : l ∈ upTo (n + 1) := by
  rw [Label.upTo_succ]
  exact List.mem_append_left _ h

theorem fork (hi : i.target? = some ⟨n + 1⟩)
    (h : Labelled (n + 1) (⟨n + 1⟩ :: pending) rest n' pending') :
    Labelled n pending (i :: rest) n' pending' where
  le := Nat.le_of_succ_le h.le
  counts l := by
    have := h.counts l
    rw [Code.placed_jump hi]
    simp only [Label.upTo_succ, List.count_append, List.count_cons, List.count_nil] at this
    omega
  numbered hk := by
    rw [Code.mentions_jump hi]
    refine .new (h.numbered ?_)
    intro l hl
    cases hl with
    | head => simp [Label.upTo_succ]
    | tail _ hl => exact mem_upTo_succ (hk l hl)

theorem mark (h : Labelled (n + 1) pending rest n' pending') :
    Labelled n pending (.label ⟨n + 1⟩ :: rest) n' pending' where
  le := Nat.le_of_succ_le h.le
  counts l := by
    have := h.counts l
    rw [Code.placed_label]
    simp only [Label.upTo_succ, List.count_append, List.count_cons, List.count_nil] at this ⊢
    omega
  numbered hk := by
    rw [Code.mentions_label]
    exact .new (h.numbered fun l hl => mem_upTo_succ (hk l hl))

theorem mention (hi : i.target? = some l) (hl : l ∈ pending ∨ l ∈ upTo n)
    (h : Labelled n pending rest n' pending') : Labelled n pending (i :: rest) n' pending' where
  le := h.le
  counts l' := by
    rw [Code.placed_jump hi]
    exact h.counts l'
  numbered hk := by
    rw [Code.mentions_jump hi]
    exact .old (hl.elim (hk l) id) (h.numbered hk)

theorem place (p : pending.Perm (l :: mid)) (h : Labelled n mid rest n' pending') :
    Labelled n pending (.label l :: rest) n' pending' where
  le := h.le
  counts l' := by
    have := h.counts l'
    rw [Code.placed_label, p.count_eq, List.count_cons, List.count_cons]
    omega
  numbered hk := by
    rw [Code.mentions_label]
    have hk' : ∀ l' ∈ l :: mid, l' ∈ upTo n := fun l' hl => hk l' (p.mem_iff.2 hl)
    exact .old (hk' l (by simp)) (h.numbered fun l' hl => hk' l' (by simp [hl]))

theorem place? (o : Option Label) : Labelled n (o.toList ++ pending) (o.toList.map .label) n pending := by
  cases o with
  | none => exact .nil
  | some l => exact .place (.refl _) .nil

theorem plains (h : ∀ i ∈ code, i.label? = none) : Labelled n pending code n pending := by
  induction code with
  | nil => exact .nil
  | cons i rest ih => exact .plain (h i (by simp)) (ih fun j hj => h j (by simp [hj]))

end Labelled

end ThreeAddress
