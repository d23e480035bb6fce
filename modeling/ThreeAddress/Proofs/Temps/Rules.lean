import Mathlib.Data.List.Basic
import ThreeAddress.Proofs.Labels.Rules

namespace ThreeAddress

def Temp.upTo (n : Nat) : List Temp := (List.range n).map fun i => ⟨i + 1⟩

def Temp.label (t : Temp) : Label := ⟨t.number⟩

theorem Temp.label_injective : Function.Injective Temp.label := by
  rintro ⟨n⟩ ⟨m⟩ h
  simpa [label] using h

theorem Temp.map_label_upTo (n : Nat) : (upTo n).map label = Label.upTo n := by
  simp [upTo, Label.upTo, label, Function.comp_def]

theorem Temp.eraseDups_map (ts : List Temp) :
    (ts.map label).eraseDups = ts.eraseDups.map label := by
  induction hn : ts.length using Nat.strongRecOn generalizing ts with
  | ind n ih =>
    cases ts with
    | nil => rfl
    | cons t rest =>
      have hl : (rest.filter fun u => !u == t).length < n := by
        have := List.length_filter_le (fun u => !u == t) rest
        simp at hn
        omega
      have hf : (rest.map label).filter (fun l => !l == t.label) =
          (rest.filter fun u => !u == t).map label := by
        rw [List.filter_map]
        congr 2
        funext u
        simp [label_injective.eq_iff]
      rw [List.map_cons, List.eraseDups_cons, List.eraseDups_cons, List.map_cons, hf, ih _ hl _ rfl]

def Operand.Known (n : Nat) (o : Operand) : Prop := ∀ t ∈ o.temps, t.label ∈ Label.upTo n

namespace Operand

variable {n n' : Nat} {o : Operand} {os : List Operand}

theorem Known.mono (h : o.Known n) (le : n ≤ n') : o.Known n' := by
  intro t ht
  have := h t ht
  rw [Label.mem_upTo] at this ⊢
  omega

theorem mem_tempsAll {t : Temp} : t ∈ tempsAll os ↔ ∃ o ∈ os, t ∈ o.temps := by
  induction os with
  | nil => simp [tempsAll]
  | cons o rest ih => simp [tempsAll, ih]

@[simp] theorem known_temp {k : Nat} : (temp ⟨k + 1⟩).Known n ↔ k < n := by
  simp only [Known, temps, List.mem_singleton, forall_eq, Label.mem_upTo, Temp.label]
  omega

@[simp] theorem known_var (name : String) : (var name).Known n := by simp [Known, temps]

@[simp] theorem known_int (k : Int) : (int k).Known n := by simp [Known, temps]

@[simp] theorem known_bool (b : Bool) : (bool b).Known n := by simp [Known, temps]

@[simp] theorem known_str (text : String) : (str text).Known n := by simp [Known, temps]

@[simp] theorem known_null : null.Known n := by simp [Known, temps]

@[simp] theorem known_field (name : String) : (field o name).Known n ↔ o.Known n := Iff.rfl

@[simp] theorem known_element : (element o os).Known n ↔ o.Known n ∧ ∀ i ∈ os, i.Known n := by
  simp only [Known, temps, List.mem_append, mem_tempsAll]
  constructor
  · intro h
    exact ⟨fun t ht => h t (.inl ht), fun i hi t ht => h t (.inr ⟨i, hi, ht⟩)⟩
  · rintro ⟨ho, hi⟩ t (ht | ⟨i, him, ht⟩)
    · exact ho t ht
    · exact hi i him t ht

end Operand

namespace Instruction

@[simp] def operands : Instruction → List Operand
  | .assign result arg | .unary result _ arg => [result, arg]
  | .binary result left _ right => [result, left, right]
  | .branch left _ right _ => [left, right]
  | .call _ params => params
  | .callInto result _ params | .new result _ params => result :: params
  | .return value => [value]
  | .label _ | .entry _ | .goto _ | .close _ | .tryBegin _ | .tryEnd => []

theorem temps_eq (i : Instruction) : i.temps = Operand.tempsAll i.operands := by
  cases i <;> simp [temps, Operand.tempsAll]

end Instruction

def Code.temps (code : Code) : List Temp := code.flatMap Instruction.temps

/-- With `n` temporaries mentioned before, the code mentions new ones in order, up to `n'`. -/
def Counted (n : Nat) (code : Code) (n' : Nat) : Prop := Numbered n (code.temps.map Temp.label) n'

theorem Numbered.olds {n : Nat} {ls : List Label} (h : ∀ l ∈ ls, l ∈ Label.upTo n) :
    Numbered n ls n := by
  induction ls with
  | nil => exact .nil
  | cons l rest ih => exact .old (h l (by simp)) (ih fun l hl => h l (by simp [hl]))

namespace Counted

variable {n m n' : Nat} {code rest : Code} {i : Instruction}

theorem nil : Counted n [] n := Numbered.nil

theorem le (h : Counted n code n') : n ≤ n' := Numbered.le h

theorem append (h : Counted n code m) (k : Counted m rest n') : Counted n (code ++ rest) n' := by
  rw [Counted, Code.temps, List.flatMap_append, List.map_append]
  exact Numbered.append h k

theorem mention (h : ∀ o ∈ i.operands, o.Known n) (k : Counted n rest n') :
    Counted n (i :: rest) n' := by
  rw [Counted, Code.temps, List.flatMap_cons, List.map_append]
  refine (Numbered.olds fun l hl => ?_).append k
  obtain ⟨t, ht, rfl⟩ := List.mem_map.1 hl
  rw [i.temps_eq, Operand.mem_tempsAll] at ht
  obtain ⟨o, ho, ht⟩ := ht
  exact h o ho t ht

theorem take (hi : i.temps.head? = some ⟨n + 1⟩) (h : ∀ o ∈ i.operands, o.Known (n + 1))
    (k : Counted (n + 1) rest n') : Counted n (i :: rest) n' := by
  obtain ⟨ts, ht⟩ := List.head?_eq_some_iff.1 hi
  rw [Counted, Code.temps, List.flatMap_cons, ht, List.cons_append, List.map_cons, List.map_append]
  refine .new ((Numbered.olds fun l hl => ?_).append k)
  obtain ⟨t, hm, rfl⟩ := List.mem_map.1 hl
  have hm : t ∈ i.temps := ht ▸ List.mem_cons_of_mem _ hm
  rw [i.temps_eq, Operand.mem_tempsAll] at hm
  obtain ⟨o, ho, hm⟩ := hm
  exact h o ho t hm

theorem mentions (h : ∀ i ∈ code, ∀ o ∈ i.operands, o.Known n) : Counted n code n := by
  induction code with
  | nil => exact .nil
  | cons i rest ih => exact .mention (h i (by simp)) (ih fun j hj => h j (by simp [hj]))

theorem eraseDups_eq (h : Counted 0 code n) : code.temps.eraseDups = Temp.upTo n := by
  apply List.map_injective_iff.2 Temp.label_injective
  rw [Temp.map_label_upTo, ← Temp.eraseDups_map]
  exact Numbered.eraseDups_eq h

end Counted

end ThreeAddress
