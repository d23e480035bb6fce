import Mathlib.Algebra.Order.Group.Int
import ThreeAddress.Proofs.Operations.Values
import ThreeAddress.Proofs.Typing.Paths

namespace ThreeAddress

namespace Instruction

/-- How many more regions are open behind an instruction than before it. -/
def guard : Instruction → Int
  | .tryBegin _ => 1
  | .tryEnd => -1
  | _ => 0

/-- Where control may go on instead of falling through. A handler is no such place: it is a failure
that leads there. -/
def jump? : Instruction → Option Label
  | .goto l | .branch _ _ _ l => some l
  | _ => none

theorem guard_of_jump? {i : Instruction} {l : Label} (h : i.jump? = some l) : i.guard = 0 := by
  cases i <;> simp_all [jump?, guard]

theorem guard_of_not_bracket {i : Instruction} (h : ¬i.isBracket) : i.guard = 0 := by
  cases i <;> simp_all [isBracket, guard]

theorem target?_of_jump? {i : Instruction} {l : Label} (h : i.jump? = some l) :
    i.target? = some l := by
  cases i <;> simp_all [jump?, target?]

theorem jump?_of_plain {i : Instruction} (h : i.isPlain) : i.jump? = none := by
  cases i <;> simp_all [jump?, isPlain]

end Instruction

namespace Code

/-- The regions that the code starts, less those that it ends. -/
def guards (code : Code) : Int := code.count .tryBegin - code.count .tryEnd

variable {code a b : Code} {i : Instruction} {at? : Instruction → Option Label} {depth : Label → Int}
  {d : Int}

@[simp] theorem guards_nil : guards [] = 0 := rfl

@[simp] theorem guards_cons (i : Instruction) (code : Code) :
    guards (i :: code) = i.guard + code.guards := by
  cases i <;> simp [guards, Instruction.guard, Instruction.kind, Instruction.Kind.one] <;> omega

@[simp] theorem guards_append (a b : Code) : guards (a ++ b) = a.guards + b.guards := by
  induction a with
  | nil => simp
  | cons i rest ih => rw [List.cons_append, guards_cons, ih, guards_cons, Int.add_assoc]

theorem Bracketed.guards (h : code.Bracketed) : code.guards = 0 := by
  induction h with
  | nil => rfl
  | plain hi _ ih => simp [Instruction.guard_of_not_bracket hi, ih]
  | frame _ _ ihi ihr | region _ _ ihi ihr => simp [Instruction.guard, ihi, ihr]

/-- Along code that starts at the depth `d`, the labels that `at?` picks out are picked at the depth
that is said of them. -/
def Agrees (at? : Instruction → Option Label) (depth : Label → Int) : Int → Code → Prop
  | _, [] => True
  | d, i :: rest => (∀ l ∈ at? i, depth l = d) ∧ Agrees at? depth (d + i.guard) rest

abbrev Marked := Agrees Instruction.placed?

abbrev Level := Agrees Instruction.jump?

@[simp] theorem agrees_nil : Agrees at? depth d [] := trivial

@[simp] theorem agrees_cons : Agrees at? depth d (i :: code) ↔
    (∀ l ∈ at? i, depth l = d) ∧ Agrees at? depth (d + i.guard) code := Iff.rfl

@[simp] theorem agrees_append : Agrees at? depth d (a ++ b) ↔
    Agrees at? depth d a ∧ Agrees at? depth (d + a.guards) b := by
  induction a generalizing d with
  | nil => simp
  | cons i rest ih => simp only [List.cons_append, agrees_cons, ih, guards_cons, Int.add_assoc, and_assoc]

theorem agrees_iff : Agrees at? depth d code ↔ ∀ i x l, code[i]? = some x → at? x = some l →
    depth l = d + guards (code.take i) := by
  induction code generalizing d with
  | nil => simp
  | cons y rest ih =>
    rw [agrees_cons, ih]
    constructor
    · rintro ⟨hy, hr⟩ i x l hx hl
      cases i with
      | zero =>
        obtain rfl : y = x := by simpa using hx
        simpa using hy l hl
      | succ i =>
        rw [hr i x l (by simpa using hx) hl, List.take_succ_cons, guards_cons, Int.add_assoc]
    · intro h
      refine ⟨fun l hl => by simpa using h 0 y l rfl hl, fun i x l hx hl => ?_⟩
      rw [h (i + 1) x l (by simpa using hx) hl, List.take_succ_cons, guards_cons, Int.add_assoc]

theorem exists_marked (h : code.placed.Nodup) (d : Int) : ∃ depth, Marked depth d code := by
  have frame {code : Code} {depth : Label → Int} {l : Label} (hl : l ∉ code.placed) (d e : Int)
      (hm : Marked depth e code) : Marked (Function.update depth l d) e code := by
    rw [Marked, agrees_iff] at hm ⊢
    intro i x k hx hk
    have hne : k ≠ l := by
      rintro rfl
      exact hl (List.mem_filterMap.2 ⟨x, List.mem_of_getElem? hx, hk⟩)
    rw [Function.update_of_ne hne, hm i x k hx hk]
  induction code generalizing d with
  | nil => exact ⟨fun _ => 0, trivial⟩
  | cons i rest ih =>
    cases hi : i.placed? with
    | none =>
      have hp : placed (i :: rest) = placed rest := by simp [placed, hi]
      obtain ⟨depth, hd⟩ := ih (hp ▸ h) (d + i.guard)
      exact ⟨depth, by simp [hi], hd⟩
    | some l =>
      have hp : placed (i :: rest) = l :: placed rest := by simp [placed, hi]
      rw [hp, List.nodup_cons] at h
      obtain ⟨depth, hd⟩ := ih h.2 (d + i.guard)
      exact ⟨Function.update depth l d, by simp [hi], frame h.1 _ _ hd⟩

inductive Passes (code : Code) (i : Nat) : Nat → Prop
  | fall {x : Instruction} : code[i]? = some x → ¬x.isJump → Passes code i (i + 1)
  | jump {x : Instruction} {l : Label} {j : Nat} : code[i]? = some x → x.jump? = some l →
    code[j]? = some (.label l) → Passes code i j

theorem passes_iff {i j : Nat} : code.Passes i j ↔ ∃ x ∈ code[i]?, (¬x.isJump ∧ j = i + 1) ∨
    ∃ l ∈ x.jump?, code[j]?.bind Instruction.placed? = some l := by
  constructor
  · rintro (⟨hx, hj⟩ | ⟨hx, hl, hj⟩)
    · exact ⟨_, hx, .inl ⟨hj, rfl⟩⟩
    · exact ⟨_, hx, .inr ⟨_, hl, by rw [hj, Option.bind_some, Instruction.placed?]⟩⟩
  · rintro ⟨x, hx, ⟨hj, rfl⟩ | ⟨l, hl, hj⟩⟩
    · exact .fall hx hj
    · obtain ⟨y, hy, hk⟩ := Option.bind_eq_some_iff.1 hj
      obtain rfl : y = .label l := by cases y <;> simp_all [Instruction.placed?]
      exact .jump hx hl hy

instance (i j : Nat) : Decidable (code.Passes i j) := decidable_of_iff' _ passes_iff

/-- A way of control from the first instruction to `i`, with the instructions that are run on it. -/
inductive Route (code : Code) : Code → Nat → Prop
  | start : Route code [] 0
  | step {passed : Code} {i j : Nat} {x : Instruction} : Route code passed i → code[i]? = some x →
    code.Passes i j → Route code (passed ++ [x]) j

theorem Route.along {passed : Code} {i : Nat} {path : List Nat} (h : code.Route passed i)
    (hp : (i :: path).IsChain code.Passes) :
    code.Route (passed ++ (i :: path).dropLast.filterMap (code[·]?)) ((i :: path).getLast (by simp)) := by
  induction path generalizing passed i with
  | nil => simpa using h
  | cons j rest ih =>
    obtain ⟨hj, hr⟩ := List.isChain_cons_cons.1 hp
    obtain ⟨x, hx, _⟩ := passes_iff.1 hj
    have hx : code[i]? = some x := hx
    simpa [hx] using ih (h.step hx hj) hr

/-- The regions around an instruction: those that are open in the text before it. -/
def around (code : Code) (i : Nat) : Int := guards (code.take i)

/-- Every jump leads to a label with the same regions around it. -/
def Even (code : Code) : Prop :=
  ∀ i j x l, code[i]? = some x → x.jump? = some l → code[j]? = some (.label l) →
    code.around i = code.around j

theorem around_succ {i : Nat} {x : Instruction} (h : code[i]? = some x) :
    code.around (i + 1) = code.around i + x.guard := by
  rw [around, around, List.take_add_one, h, Option.toList_some, guards_append, guards_cons, guards_nil,
    Int.add_zero]

theorem Even.passes (h : code.Even) {i j : Nat} {x : Instruction} (hx : code[i]? = some x)
    (hp : code.Passes i j) : code.around j = code.around i + x.guard := by
  cases hp with
  | fall => exact around_succ hx
  | jump hy hl hj =>
    cases hx.symm.trans hy
    rw [← h i j x _ hx hl hj, Instruction.guard_of_jump? hl, Int.add_zero]

/-- On every way of control, the regions that have been started and not ended are those around. -/
theorem Even.route (h : code.Even) {passed : Code} {i : Nat} (hr : code.Route passed i) :
    passed.guards = code.around i := by
  induction hr with
  | start => rfl
  | step _ hx hp ih => rw [guards_append, ih, h.passes hx hp, guards_cons, guards_nil, Int.add_zero]

theorem Marked.level_iff (hm : Marked depth 0 code) (ht : ∀ l ∈ code.targets, l ∈ code.placed) :
    Level depth 0 code ↔ code.Even := by
  rw [Marked, agrees_iff] at hm
  rw [Level, agrees_iff]
  constructor
  · intro h i j x l hx hl hj
    have hi := h i x l hx hl
    rw [hm j (.label l) l hj rfl] at hi
    simpa [around] using hi.symm
  · intro h i x l hx hl
    have hp := ht l (List.mem_filterMap.2
      ⟨x, List.mem_of_getElem? hx, Instruction.target?_of_jump? hl⟩)
    obtain ⟨y, hy, hk⟩ := List.mem_filterMap.1 hp
    obtain ⟨j, hj⟩ := List.mem_iff_getElem?.1 hy
    obtain rfl : y = .label l := by cases y <;> simp_all [Instruction.placed?]
    rw [hm j (.label l) l hj rfl]
    have := h i j x l hx hl hj
    rw [around, around] at this
    rw [this]

end Code

open Code

theorem Typed.level {bases ts us : List Temp} {marks : Marks} {code : Code} {depth : Label → Int}
    {d : Int} (h : Typed bases marks ts code us) (hb : ∀ i ∈ code, ¬i.isBracket)
    (hl : ∀ l ∈ marks.map Prod.fst, depth l = d) (hm : Marked depth d code) :
    Level depth d code := by
  have guards {code : Code} (hb : ∀ i ∈ code, ¬i.isBracket) : code.guards = 0 := by
    induction code with
    | nil => rfl
    | cons i rest ih =>
      rw [List.forall_mem_cons] at hb
      rw [guards_cons, Instruction.guard_of_not_bracket hb.1, ih hb.2, Int.add_zero]
  induction h with
  | nil => trivial
  | step hp => simp [Level, Instruction.jump?_of_plain hp]
  | goto ho | branch ho => simpa [Level, Instruction.jump?] using hl _ ho.mem
  | append _ _ iha ihb =>
    obtain ⟨ha, hb⟩ := List.forall_mem_append.1 hb
    simp only [Marked, Level, agrees_append, guards ha, Int.add_zero] at hm iha ihb ⊢
    exact ⟨iha ha hl hm.1, ihb hb hl hm.2⟩
  | @place l us marks _ _ _ _ _ _ _ _ iha ihb =>
    obtain ⟨ha, hb⟩ := List.forall_mem_append.1 hb
    have hb := (List.forall_mem_cons.1 hb).2
    simp only [Marked, Level, agrees_append, agrees_cons, guards ha, Int.add_zero, Instruction.guard,
      Instruction.placed?, Instruction.jump?] at hm iha ihb ⊢
    obtain ⟨hma, hk, hmb⟩ := hm
    -- the label between the two parts is placed at this depth, so jumps to it are at their depth too
    have hl : ∀ k ∈ ((l, us) :: marks).map Prod.fst, depth k = d :=
      List.forall_mem_cons.2 ⟨hk l rfl, hl⟩
    exact ⟨iha ha hl hma, by simp, ihb hb hl hmb⟩
  | region | frame => exact absurd rfl (hb _ (List.mem_cons_self ..))
  | weaken _ _ ih => exact ih hb hl hm

section

variable {n m : Supply} {code : Code} {vs : List Operand} {ls : List Label} {given : List Temp}
  {depth : Label → Int} {d : Int}

theorem Supply.Gives.level (h : n.Gives code vs m) (hm : Marked depth d code) :
    Level depth d code := by
  have ht : Typed m.bases [] m.bases code _ := h.typed (List.Subset.refl _) (List.Subset.refl _)
  exact ht.level h.inline nofun hm

theorem Supply.Keeps.guards (h : Keeps ls given n code m) : code.guards = 0 := by
  have ht : Typed m.bases (ls.map fun l => (l, [])) (m.bases ++ given) code (m.bases ++ given) := by
    refine h.typed (List.Subset.refl _) (List.subset_append_left ..) (List.subset_append_right ..) ?_
    exact fun l hl => ⟨[], List.mem_map_of_mem hl, List.nil_subset _⟩
  exact ht.bracketed.guards

theorem Supply.Gives.guards (h : n.Gives code vs m) : code.guards = 0 := by
  have hk : Keeps [] [] n code m := .of_gives h
  exact hk.guards

end

end ThreeAddress
