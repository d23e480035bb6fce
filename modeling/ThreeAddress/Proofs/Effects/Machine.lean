import Mathlib.Logic.Relation
import ThreeAddress.Proofs.Semantics.Values

open Relation (ReflTransGen)

namespace ThreeAddress

/-- What code does to the world around it. -/
inductive Event (V : Type u)
  | call (callee : String) (args : List V)
  | new (className : String) (args : List V)
  /-- A store into an element. -/
  | put (base : V) (indices : List V) (value : V)

/-- Everything that happened, the latest last. -/
abbrev History (V : Type u) := List (Event V)

structure Meaning (V : Type u) where
  int : Int → V
  str : String → V
  null : V
  binary : BinaryOp → V → V → V
  unary : UnaryOp → V → V
  element : History V → V → List V → V
  field : History V → V → String → V
  /-- The value that an event yields, and the variables after it. -/
  answer : History V → (String → V) → Event V → V × (String → V)

namespace Meaning

def model (M : Meaning V) (past : History V) : Model V where
  int := M.int
  str := M.str
  null := M.null
  binary := M.binary
  unary := M.unary
  element := M.element past
  field := M.field past

def bool (M : Meaning V) (b : Bool) : V := M.int (if b then 1 else 0)

def Steady (M : Meaning V) : Prop := ∀ past store e, (M.answer past store e).2 = store

end Meaning

structure Memory (V : Type u) where
  temps : Temp → V
  store : String → V
  past : History V

namespace Memory

def set (a : Memory V) (t : Temp) (v : V) : Memory V := { a with temps := Function.update a.temps t v }

def answer (M : Meaning V) (a : Memory V) (e : Event V) : V := (M.answer a.past a.store e).1

def perform (M : Meaning V) (a : Memory V) (e : Event V) : Memory V :=
  { a with store := (M.answer a.past a.store e).2, past := a.past ++ [e] }

def value (M : Meaning V) (a : Memory V) (o : Operand) : V := o.read (M.model a.past) a.temps a.store

def values (M : Meaning V) (a : Memory V) (os : List Operand) : List V :=
  readAll (M.model a.past) a.temps a.store os

def Agrees (n : Nat) (a b : Memory V) : Prop := ∀ t : Temp, t.number ≤ n → b.temps t = a.temps t

section Lemmas

variable {M : Meaning V} {a b c : Memory V} {t : Temp} {v : V} {m n : Nat}

@[simp] theorem set_temps : (a.set t v).temps t = v := Function.update_self ..

@[simp] theorem set_store : (a.set t v).store = a.store := rfl

@[simp] theorem set_past : (a.set t v).past = a.past := rfl

@[simp] theorem perform_past (e : Event V) : (a.perform M e).past = a.past ++ [e] := rfl

@[simp] theorem value_temp : a.value M (.temp t) = a.temps t := rfl

@[simp] theorem values_cons (o : Operand) (os : List Operand) :
    a.values M (o :: os) = a.value M o :: a.values M os := rfl

@[simp] theorem values_append (os ps : List Operand) :
    a.values M (os ++ ps) = a.values M os ++ a.values M ps := by
  induction os with
  | nil => rfl
  | cons o os ih => simp [ih]

namespace Agrees

theorem refl (n : Nat) (a : Memory V) : Agrees n a a := fun _ _ => rfl

theorem trans (h : Agrees n a b) (k : Agrees n b c) : Agrees n a c :=
  fun t ht => (k t ht).trans (h t ht)

theorem mono (h : Agrees n a b) (hm : m ≤ n) : Agrees m a b := fun t ht => h t (Nat.le_trans ht hm)

theorem set (ht : n < t.number) : Agrees n a (a.set t v) := by
  intro u hu
  refine Function.update_of_ne ?_ v a.temps
  rintro rfl
  omega

theorem perform (e : Event V) : Agrees n a (a.perform M e) := fun _ _ => rfl

end Agrees

end Lemmas

end Memory

open Memory

def Instruction.effect (M : Meaning V) (a : Memory V) : Instruction → Option (Memory V)
  | .assign (.temp t) arg => some (a.set t (a.value M arg))
  | .assign (.element base indices) arg =>
    some (a.perform M (.put (a.value M base) (a.values M indices) (a.value M arg)))
  | .binary (.temp t) l op r => some (a.set t (M.binary op (a.value M l) (a.value M r)))
  | .unary (.temp t) op arg => some (a.set t (M.unary op (a.value M arg)))
  | .label _ => some a
  | .call callee params => some (a.perform M (.call callee (a.values M params)))
  | .callInto (.temp t) callee params =>
    let e := .call callee (a.values M params)
    some ((a.perform M e).set t (a.answer M e))
  | .new (.temp t) className params =>
    let e := .new className (a.values M params)
    some ((a.perform M e).set t (a.answer M e))
  | _ => none

def Instruction.Spares (M : Meaning V) (name : String) (i : Instruction) : Prop :=
  ∀ ⦃a b⦄, i.effect M a = some b → b.store name = a.store name

namespace Code

variable [DecidableEq V]

/-- One step of the machine, which stands still where there is nothing that it can do. -/
def step (M : Meaning V) (code : Code) (p : Nat × Memory V) : Option (Nat × Memory V) :=
  match code[p.1]? with
  | some (.goto l) => (code.position l).map (·, p.2)
  | some (.branch l relation r target) =>
    if relation.holds (M.model p.2.past) (p.2.value M l) (p.2.value M r)
      then (code.position target).map (·, p.2)
      else some (p.1 + 1, p.2)
  | some i => (i.effect M p.2).map (p.1 + 1, ·)
  | none => none

def StepIn (M : Meaning V) (code : Code) (lo hi : Nat) (p q : Nat × Memory V) : Prop :=
  lo ≤ p.1 ∧ p.1 < hi ∧ code.step M p = some q

abbrev RunsIn (M : Meaning V) (code : Code) (lo hi : Nat) (p q : Nat × Memory V) : Prop :=
  ReflTransGen (StepIn M code lo hi) p q

/-- The machine runs through the piece `seg`, which stands at `k`, without leaving it before its
end. -/
def Crosses (M : Meaning V) (code : Code) (k : Nat) (seg : Code) (a b : Memory V) : Prop :=
  RunsIn M code k (k + seg.length) (k, a) (k + seg.length, b)

/-- Wherever `seg` stands, the machine runs through it, and relates the memories before and after. -/
def Carries (M : Meaning V) (code seg : Code) (R : Memory V → Memory V → Prop) : Prop :=
  ∀ ⦃k⦄, code.At k seg → ∀ a, ∃ b, Crosses M code k seg a b ∧ R a b

variable {M : Meaning V} {code seg first second third : Code} {R S T : Memory V → Memory V → Prop}
  {lo hi j k : Nat} {p q : Nat × Memory V} {a b c : Memory V} {i : Instruction} {l : Label}

theorem step_end (a : Memory V) : code.step M (code.length, a) = none := by simp [step]

theorem step_effect (hi : code[k]? = some i) (hb : i.effect M a = some b) :
    code.step M (k, a) = some (k + 1, b) := by
  cases i <;> simp_all [step, Instruction.effect]

theorem step_goto (hn : code.placed.Nodup) (h : code[k]? = some (.goto l))
    (hl : code[j]? = some (.label l)) : code.step M (k, a) = some (j, a) := by
  simp [step, h, position_eq hn hl]

section Branch

variable {x y : Operand} {relation : Relation}

theorem step_branch_taken (hn : code.placed.Nodup) (h : code[k]? = some (.branch x relation y l))
    (hl : code[j]? = some (.label l))
    (hd : relation.holds (M.model a.past) (a.value M x) (a.value M y)) :
    code.step M (k, a) = some (j, a) := by
  simp [step, h, position_eq hn hl, hd]

theorem step_branch_falls (h : code[k]? = some (.branch x relation y l))
    (hd : ¬relation.holds (M.model a.past) (a.value M x) (a.value M y)) :
    code.step M (k, a) = some (k + 1, a) := by
  simp [step, h, hd]

end Branch

theorem memory_of_step (h : code.step M p = some q) :
    q.2 = p.2 ∨ ∃ i, code[p.1]? = some i ∧ i.effect M p.2 = some q.2 := by
  unfold step at h
  split at h
  · obtain ⟨_, _, rfl⟩ := Option.map_eq_some_iff.1 h
    exact .inl rfl
  · split at h
    · obtain ⟨_, _, rfl⟩ := Option.map_eq_some_iff.1 h
      exact .inl rfl
    · cases h
      exact .inl rfl
  next i _ _ hi =>
    obtain ⟨_, hb, rfl⟩ := Option.map_eq_some_iff.1 h
    exact .inr ⟨i, hi, hb⟩
  · cases h

namespace RunsIn

theorem one (h : code.step M p = some q) (hl : lo ≤ p.1) (hh : p.1 < hi) : RunsIn M code lo hi p q :=
  .single ⟨hl, hh, h⟩

theorem widen {lo' hi' : Nat} (h : RunsIn M code lo hi p q) (hl : lo' ≤ lo) (hh : hi ≤ hi') :
    RunsIn M code lo' hi' p q :=
  ReflTransGen.mono (fun _ _ ⟨h₁, h₂, hs⟩ => ⟨Nat.le_trans hl h₁, Nat.lt_of_lt_of_le h₂ hh, hs⟩) p q h

theorem crosses {e e' : Nat} (h : RunsIn M code k e (k, a) (e', b)) (he : e = k + seg.length)
    (he' : e' = e) : Crosses M code k seg a b := by
  rw [he', he] at h
  exact h

end RunsIn

theorem Crosses.store_eq {name : String} (h : Crosses M code k seg a b) (hs : code.At k seg)
    (hi : ∀ i ∈ seg, i.Spares M name) : b.store name = a.store name := by
  suffices hq : ∀ q, RunsIn M code k (k + seg.length) (k, a) q → q.2.store name = a.store name from
    hq _ h
  intro q hq
  induction hq with
  | refl => rfl
  | @tail p q _ hstep ih =>
    obtain ⟨hl, hh, hstep⟩ := hstep
    obtain hm | ⟨i, hp, he⟩ := memory_of_step hstep
    · rw [hm, ih]
    · obtain ⟨j, hj⟩ := Nat.exists_eq_add_of_le hl
      rw [hj, hs.getElem? (by omega)] at hp
      exact (hi i (List.mem_of_getElem? hp) he).trans ih

namespace Carries

theorem mono (h : Carries M code seg R) (hs : ∀ a b, R a b → S a b) : Carries M code seg S := by
  intro k hk a
  obtain ⟨b, hc, hr⟩ := h hk a
  exact ⟨b, hc, hs a b hr⟩

theorem nil : Carries M code [] Eq := fun _ _ a => ⟨a, .refl, rfl⟩

theorem one {f : Memory V → Memory V} (h : ∀ a, i.effect M a = some (f a)) :
    Carries M code [i] fun a b => b = f a := by
  intro k hk a
  exact ⟨f a, .one (step_effect hk.1 (h a)) (Nat.le_refl k) (Nat.lt_succ_self k), rfl⟩

theorem append (h : Carries M code first R) (k : Carries M code second S) :
    Carries M code (first ++ second) fun a c => ∃ b, R a b ∧ S b c := by
  intro j hj a
  obtain ⟨h₁, h₂⟩ := at_append.1 hj
  obtain ⟨b, hb, hr⟩ := h h₁ a
  obtain ⟨c, hc, hs⟩ := k h₂ b
  rw [Crosses, Nat.add_assoc, ← List.length_append] at hc
  exact ⟨c, (hb.widen (Nat.le_refl _) (by simp)).trans (hc.widen (by simp) (Nat.le_refl _)), b, hr, hs⟩

theorem snoc {f : Memory V → Memory V} (h : Carries M code seg R)
    (hi : ∀ a, i.effect M a = some (f a)) :
    Carries M code (seg ++ [i]) fun a c => ∃ b, R a b ∧ c = f b :=
  h.append (one hi)

theorem shortCircuit {t : Temp} {n : Int} {left right : Operand} {relation : Relation} {done : Label}
    (hn : code.placed.Nodup) (h : Carries M code first R) (k : Carries M code second S) :
    Carries M code (first ++ [.assign (.temp t) (.int n), .branch left relation (.int 0) done]
        ++ second ++ [.assign (.temp t) right, .label done])
      fun a d => ∃ b, R a b ∧
        if relation.holds (M.model b.past) ((b.set t (M.int n)).value M left) (M.int 0)
        then d = b.set t (M.int n)
        else ∃ c, S (b.set t (M.int n)) c ∧ d = c.set t (c.value M right) := by
  intro j hj a
  simp only [List.append_assoc, List.cons_append, List.nil_append, at_append, at_cons, at_nil,
    and_true] at hj
  obtain ⟨c₁, c₂, c₃, c₄, c₅, c₆⟩ := hj
  obtain ⟨b, h₁, hb⟩ := h c₁ a
  let e := j + first.length + second.length + 4
  have r₁ : RunsIn M code j e (j, a) (j + first.length, b) := h₁.widen (Nat.le_refl j) (by omega)
  have r₂ := r₁.tail ⟨by omega, by omega, step_effect c₂ rfl⟩
  -- if the left operand decides, control jumps over the right one to the end
  by_cases hd : relation.holds (M.model b.past) ((b.set t (M.int n)).value M left) (M.int 0)
  · have r₃ := r₂.tail ⟨by omega, by omega, step_branch_taken hn c₃ c₆ hd⟩
    have r₄ := r₃.tail ⟨by omega, by omega, step_effect c₆ rfl⟩
    exact ⟨_, RunsIn.crosses r₄ (by simp; omega) (by omega), b, hb, by rw [if_pos hd]; rfl⟩
  · have r₃ := r₂.tail ⟨by omega, by omega, step_branch_falls c₃ hd⟩
    obtain ⟨c, h₂, hc⟩ := k c₄ (b.set t (M.int n))
    have r₄ := r₃.trans (h₂.widen (by omega) (by omega))
    have r₅ := r₄.tail ⟨by omega, by omega, step_effect c₅ rfl⟩
    have r₆ := r₅.tail ⟨by omega, by omega, step_effect c₆ rfl⟩
    exact ⟨_, RunsIn.crosses r₆ (by simp; omega) (by omega), b, hb, by rw [if_neg hd]; exact ⟨c, hc, rfl⟩⟩

theorem choose {t : Temp} {v left right : Operand} {yes no done : Label}
    (hn : code.placed.Nodup) (h : Carries M code first R) (k : Carries M code second S)
    (k' : Carries M code third T) :
    Carries M code (first ++ [.branch v .eq (.bool true) yes, .goto no, .label yes] ++ second
        ++ [.assign (.temp t) left, .goto done, .label no] ++ third
        ++ [.assign (.temp t) right, .label done])
      fun a d => ∃ b, R a b ∧
        if b.value M v = M.bool true
        then ∃ c, S b c ∧ d = c.set t (c.value M left)
        else ∃ c, T b c ∧ d = c.set t (c.value M right) := by
  intro j hj a
  simp only [List.append_assoc, List.cons_append, List.nil_append, at_append, at_cons, at_nil,
    and_true] at hj
  obtain ⟨c₁, c₂, c₃, c₄, c₅, c₆, c₇, c₈, c₉, c₁₀, c₁₁⟩ := hj
  obtain ⟨b, h₁, hb⟩ := h c₁ a
  let e := j + first.length + second.length + third.length + 8
  have r₁ : RunsIn M code j e (j, a) (j + first.length, b) := h₁.widen (Nat.le_refl j) (by omega)
  by_cases hd : b.value M v = M.bool true
  · have r₂ := r₁.tail ⟨by omega, by omega, step_branch_taken hn c₂ c₄ (Relation.holds_eq.2 hd)⟩
    have r₃ := r₂.tail ⟨by omega, by omega, step_effect c₄ rfl⟩
    obtain ⟨c, h₂, hc⟩ := k c₅ b
    have r₄ := r₃.trans (h₂.widen (by omega) (by omega))
    have r₅ := r₄.tail ⟨by omega, by omega, step_effect c₆ rfl⟩
    have r₆ := r₅.tail ⟨by omega, by omega, step_goto hn c₇ c₁₁⟩
    have r₇ := r₆.tail ⟨by omega, by omega, step_effect c₁₁ rfl⟩
    exact ⟨_, RunsIn.crosses r₇ (by simp; omega) (by omega), b, hb,
      by rw [if_pos hd]; exact ⟨c, hc, rfl⟩⟩
  · have r₂ := r₁.tail ⟨by omega, by omega, step_branch_falls c₂ (mt Relation.holds_eq.1 hd)⟩
    have r₃ := r₂.tail ⟨by omega, by omega, step_goto hn c₃ c₈⟩
    have r₄ := r₃.tail ⟨by omega, by omega, step_effect c₈ rfl⟩
    obtain ⟨c, h₂, hc⟩ := k' c₉ b
    have r₅ := r₄.trans (h₂.widen (by omega) (by omega))
    have r₆ := r₅.tail ⟨by omega, by omega, step_effect c₁₀ rfl⟩
    have r₇ := r₆.tail ⟨by omega, by omega, step_effect c₁₁ rfl⟩
    exact ⟨_, RunsIn.crosses r₇ (by simp; omega) (by omega), b, hb,
      by rw [if_neg hd]; exact ⟨c, hc, rfl⟩⟩

end Carries

end Code

end ThreeAddress
