import ThreeAddress.Proofs.Labels.Rules
import ThreeAddress.Proofs.Semantics.Source

namespace ThreeAddress

structure Config (V : Type u) where
  pc : Nat
  temps : Temp → V
  world : World V

mutual

def Operand.read (M : Model V) (temps : Temp → V) (store : String → V) : Operand → V
  | .temp t => temps t
  | .var name => store name
  | .int n => M.int n
  | .bool b => M.bool b
  | .str s => M.str s
  | .null | .exception => M.null
  | .element base indices => M.element (base.read M temps store) (readAll M temps store indices)
  | .field base name => M.field (base.read M temps store) name

def readAll (M : Model V) (temps : Temp → V) (store : String → V) : List Operand → List V
  | [] => []
  | o :: rest => o.read M temps store :: readAll M temps store rest

end

def Code.position (code : Code) (l : Label) : Option Nat :=
  code.findIdx? (·.placed? = some l)

namespace Config

def value (M : Model V) (a : Config V) (o : Operand) : V := o.read M a.temps a.world.store

def next (a : Config V) : Config V := { a with pc := a.pc + 1 }

def write (a : Config V) (v : V) : Operand → Option (Config V)
  | .temp t => some { a with temps := Function.update a.temps t v }
  | .var name => some { a with world := a.world.set name v }
  | _ => none

def jump (code : Code) (a : Config V) (l : Label) : Option (Config V) :=
  (code.position l).map fun pc => { a with pc }

end Config

variable [DecidableEq V]

def Relation.holds (M : Model V) (a b : V) : Relation → Bool
  | .eq => a = b
  | .ne => a ≠ b
  | .lt => M.binary .lt a b ≠ M.int 0
  | .le => M.binary .le a b ≠ M.int 0
  | .gt => M.binary .gt a b ≠ M.int 0
  | .ge => M.binary .ge a b ≠ M.int 0

@[simp] theorem Relation.holds_eq {M : Model V} {a b : V} : Relation.eq.holds M a b ↔ a = b :=
  decide_eq_true_iff

@[simp] theorem Relation.holds_ne {M : Model V} {a b : V} : Relation.ne.holds M a b ↔ a ≠ b :=
  decide_eq_true_iff

/-- What one instruction does. At the end of the code the machine stands still. -/
def Config.step (M : Model V) (code : Code) (a : Config V) : Option (Config V) :=
  match code[a.pc]? with
  | none => none
  | some i => match i with
    | .assign result arg => (a.write (a.value M arg) result).map next
    | .binary result l op r => (a.write (M.binary op (a.value M l) (a.value M r)) result).map next
    | .unary result op arg => (a.write (M.unary op (a.value M arg)) result).map next
    | .label _ => some a.next
    | .goto l => a.jump code l
    | .branch l relation r target =>
      if relation.holds M (a.value M l) (a.value M r) then a.jump code target else some a.next
    | .call "print" [arg] => some { a with world := a.world.print (a.value M arg) }.next
    | _ => none

def Config.run (M : Model V) (code : Code) : Nat → Config V → Option (Config V)
  | 0, a => some a
  | n + 1, a => (a.step M code).bind (run M code n)

/-- The machine stands still at `b` in the end. -/
def Config.Halts (M : Model V) (code : Code) (a b : Config V) : Prop :=
  (∃ n, a.run M code n = some b) ∧ b.step M code = none

def Config.Survives (M : Model V) (code : Code) (n : Nat) (a : Config V) : Prop :=
  ∃ m, n ≤ m ∧ (a.run M code m).isSome

/-- The machine gets from `a` to `b` and leaves the temporaries up to `n` alone. -/
def Config.Reaches (M : Model V) (code : Code) (n : Nat) (a b : Config V) : Prop :=
  (∃ k, a.run M code k = some b) ∧ ∀ t : Temp, t.number ≤ n → b.temps t = a.temps t

open Config

section Runs

variable {M : Model V} {code : Code} {a b c : Config V} {k m n : Nat}

theorem Config.run_add (h : a.run M code m = some b) (n : Nat) :
    a.run M code (m + n) = b.run M code n := by
  induction m generalizing a with
  | zero =>
    cases h
    rw [Nat.zero_add]
  | succ m ih =>
    rw [run, Option.bind_eq_some_iff] at h
    obtain ⟨c, hc, h⟩ := h
    rw [Nat.succ_add, run, hc]
    exact ih h

theorem Config.run_stuck (h : a.step M code = none) (hn : 0 < n) : a.run M code n = none := by
  cases n with
  | zero => simp at hn
  | succ n => rw [run, h, Option.bind_none]

theorem Config.Halts.unique (h : Halts M code a b) (k : Halts M code a c) : b = c := by
  obtain ⟨⟨m, hm⟩, hb⟩ := h
  obtain ⟨⟨n, hn⟩, hc⟩ := k
  obtain ⟨d, rfl⟩ | ⟨d, rfl⟩ := Nat.le_total m n |>.imp Nat.exists_eq_add_of_le
    Nat.exists_eq_add_of_le
  · rw [run_add hm] at hn
    cases d with
    | zero => exact Option.some.inj hn
    | succ d => rw [run_stuck hb d.succ_pos] at hn; cases hn
  · rw [run_add hn] at hm
    cases d with
    | zero => exact (Option.some.inj hm).symm
    | succ d => rw [run_stuck hc d.succ_pos] at hm; cases hm

theorem Config.Halts.not_survives (h : Halts M code a b) : ∃ n, ¬Survives M code n a := by
  obtain ⟨⟨n, hn⟩, hb⟩ := h
  refine ⟨n + 1, ?_⟩
  rintro ⟨m, hm, hs⟩
  obtain ⟨d, rfl⟩ := Nat.exists_eq_add_of_le hm
  rw [Nat.add_assoc, run_add hn, run_stuck hb (by omega)] at hs
  cases hs

namespace Config.Survives

theorem mono (h : Survives M code n a) (hm : m ≤ n) : Survives M code m a := by
  obtain ⟨l, hl, hs⟩ := h
  exact ⟨l, Nat.le_trans hm hl, hs⟩

theorem step (h : a.step M code = some b) (hb : Survives M code n b) :
    Survives M code (n + 1) a := by
  obtain ⟨l, hl, hs⟩ := hb
  exact ⟨l + 1, Nat.succ_le_succ hl, by rw [run, h]; exact hs⟩

end Config.Survives

namespace Config.Reaches

theorem refl (n : Nat) (a : Config V) : Reaches M code n a a := ⟨⟨0, rfl⟩, fun _ _ => rfl⟩

theorem temps_eq {pc pc' : Nat} {ts ts' : Temp → V} {w w' : World V}
    (h : Reaches M code n ⟨pc, ts, w⟩ ⟨pc', ts', w'⟩) {t : Temp} (ht : t.number ≤ n) :
    ts' t = ts t := h.2 t ht

theorem trans (h : Reaches M code n a b) (k : Reaches M code n b c) : Reaches M code n a c := by
  obtain ⟨⟨i, hi⟩, ht⟩ := h
  obtain ⟨⟨j, hj⟩, hu⟩ := k
  exact ⟨⟨i + j, by rw [run_add hi, hj]⟩, fun t hn => (hu t hn).trans (ht t hn)⟩

theorem mono (h : Reaches M code n a b) (hm : m ≤ n) : Reaches M code m a b :=
  ⟨h.1, fun t ht => h.2 t (Nat.le_trans ht hm)⟩

theorem step (h : a.step M code = some b) (ht : ∀ t : Temp, t.number ≤ n → b.temps t = a.temps t) :
    Reaches M code n a b :=
  ⟨⟨1, by simp [run, h]⟩, ht⟩

theorem survives (h : Reaches M code n a b) (hb : Survives M code m b) : Survives M code m a := by
  obtain ⟨⟨i, hi⟩, _⟩ := h
  obtain ⟨l, hl, hs⟩ := hb
  exact ⟨i + l, by omega, by rw [run_add hi]; exact hs⟩

theorem halts {ts : Temp → V} {w : World V}
    (h : Reaches M code n a ⟨code.length, ts, w⟩) : Halts M code a ⟨code.length, ts, w⟩ :=
  ⟨h.1, by simp [Config.step]⟩

end Config.Reaches

end Runs

/-- `seg` stands in the code from position `k` on. -/
def Code.At (code : Code) : (k : Nat) → (seg : Code) → Prop
  | _, [] => True
  | k, i :: rest => code[k]? = some i ∧ code.At (k + 1) rest

namespace Code

variable {code : Code}

@[simp] theorem at_nil (k : Nat) : code.At k [] := trivial

@[simp] theorem at_cons {k : Nat} {i : Instruction} {rest : Code} :
    code.At k (i :: rest) ↔ code[k]? = some i ∧ code.At (k + 1) rest := Iff.rfl

@[simp] theorem at_append {k : Nat} {a b : Code} :
    code.At k (a ++ b) ↔ code.At k a ∧ code.At (k + a.length) b := by
  induction a generalizing k with
  | nil => simp
  | cons i a ih => simp [ih, and_assoc, Nat.add_assoc, Nat.add_comm 1]

theorem at_self (code : Code) : code.At 0 code := by
  have h (pre seg : Code) : (pre ++ seg : Code).At pre.length seg := by
    induction seg generalizing pre with
    | nil => trivial
    | cons i rest ih => exact ⟨by simp, by simpa using ih (pre ++ [i])⟩
  exact h [] code

theorem At.getElem? {seg : Code} {j k : Nat} (h : code.At k seg) (hj : j < seg.length) :
    code[k + j]? = seg[j]? := by
  induction seg generalizing k j with
  | nil => simp at hj
  | cons i rest ih =>
    cases j with
    | zero => simpa using h.1
    | succ j =>
      have hr := ih h.2 (j := j) (by simpa using hj)
      rwa [Nat.add_assoc, Nat.add_comm 1] at hr

theorem mem_placed {l : Label} {k : Nat} (h : code[k]? = some (.label l)) : l ∈ code.placed :=
  List.mem_filterMap.2 ⟨.label l, List.mem_of_getElem? h, rfl⟩

theorem position_eq {l : Label} {k : Nat} (h : code.placed.Nodup) (hk : code[k]? = some (.label l)) :
    code.position l = some k := by
  induction code generalizing k with
  | nil => simp at hk
  | cons i rest ih =>
    rw [position, List.findIdx?_cons]
    cases k with
    | zero =>
      obtain rfl : i = .label l := by simpa using hk
      simp [Instruction.placed?]
    | succ k =>
      have hk : rest[k]? = some (.label l) := by simpa using hk
      by_cases hi : i.placed? = some l
      · have hl : placed (i :: rest) = l :: placed rest := List.filterMap_cons_some hi
        rw [hl, List.nodup_cons] at h
        -- the label would be placed twice
        exact absurd (mem_placed hk) h.1
      · have hr : (placed rest).Nodup := (List.sublist_cons_self i rest).filterMap _ |>.nodup h
        have := ih hr hk
        rw [position] at this
        simp [hi, this]

section Ends

variable {i : Instruction} {a b : Code}

@[simp] theorem endsInJump_nil : endsInJump [] = false := rfl

@[simp] theorem endsInJump_singleton : endsInJump [i] = i.isJump := rfl

@[simp] theorem endsInJump_append (h : b ≠ []) : (a ++ b : Code).endsInJump = b.endsInJump := by
  rw [endsInJump, endsInJump, List.getLast?_append, List.getLast?_eq_some_getLast h, Option.some_or]

@[simp] theorem endsInJump_cons (h : b ≠ []) : endsInJump (i :: b) = b.endsInJump :=
  endsInJump_append (a := [i]) h

end Ends

end Code

section Steps

variable {M : Model V} {code : Code} {j k n : Nat} {ts : Temp → V} {w : World V} {l : Label}

theorem reaches_write {t : Temp} {v : V}
    (h : step M code ⟨k, ts, w⟩ = some ⟨k + 1, Function.update ts t v, w⟩) (ht : n < t.number) :
    Reaches M code n ⟨k, ts, w⟩ ⟨k + 1, Function.update ts t v, w⟩ := by
  refine .step h fun u hu => Function.update_of_ne ?_ v ts
  rintro rfl
  omega

theorem reaches_assign_temp {t : Temp} {o : Operand} (h : code[k]? = some (.assign (.temp t) o))
    (ht : n < t.number) :
    Reaches M code n ⟨k, ts, w⟩ ⟨k + 1, Function.update ts t (o.read M ts w.store), w⟩ :=
  reaches_write (by simp [step, h, write, next, value]) ht

theorem reaches_assign_var {name : String} {o : Operand}
    (h : code[k]? = some (.assign (.var name) o)) :
    Reaches M code n ⟨k, ts, w⟩ ⟨k + 1, ts, w.set name (o.read M ts w.store)⟩ :=
  .step (by simp [step, h, write, next, value]) fun _ _ => rfl

theorem reaches_binary {t : Temp} {x y : Operand} {op : BinaryOp}
    (h : code[k]? = some (.binary (.temp t) x op y)) (ht : n < t.number) :
    Reaches M code n ⟨k, ts, w⟩
      ⟨k + 1, Function.update ts t (M.binary op (x.read M ts w.store) (y.read M ts w.store)), w⟩ :=
  reaches_write (by simp [step, h, write, next, value]) ht

theorem reaches_unary {t : Temp} {x : Operand} {op : UnaryOp}
    (h : code[k]? = some (.unary (.temp t) op x)) (ht : n < t.number) :
    Reaches M code n ⟨k, ts, w⟩
      ⟨k + 1, Function.update ts t (M.unary op (x.read M ts w.store)), w⟩ :=
  reaches_write (by simp [step, h, write, next, value]) ht

theorem reaches_print {o : Operand} (h : code[k]? = some (.call "print" [o])) :
    Reaches M code n ⟨k, ts, w⟩ ⟨k + 1, ts, w.print (o.read M ts w.store)⟩ :=
  .step (by simp [step, h, next, value]) fun _ _ => rfl

theorem step_label (h : code[k]? = some (.label l)) :
    step M code ⟨k, ts, w⟩ = some ⟨k + 1, ts, w⟩ := by
  simp [step, h, next]

theorem reaches_label (h : code[k]? = some (.label l)) :
    Reaches M code n ⟨k, ts, w⟩ ⟨k + 1, ts, w⟩ :=
  .step (step_label h) fun _ _ => rfl

theorem reaches_goto (hn : code.placed.Nodup) (h : code[k]? = some (.goto l))
    (hl : code[j]? = some (.label l)) : Reaches M code n ⟨k, ts, w⟩ ⟨j, ts, w⟩ :=
  .step (by simp [step, h, jump, Code.position_eq hn hl]) fun _ _ => rfl

theorem reaches_branch {x y : Operand} {relation : Relation} (hn : code.placed.Nodup)
    (h : code[k]? = some (.branch x relation y l)) (hl : code[j]? = some (.label l)) :
    Reaches M code n ⟨k, ts, w⟩
      ⟨if relation.holds M (x.read M ts w.store) (y.read M ts w.store) then j else k + 1, ts, w⟩ := by
  refine .step ?_ fun _ _ => rfl
  simp only [step, h, jump, Code.position_eq hn hl, value, next]
  split <;> rfl

end Steps

end ThreeAddress
