import Mathlib.Algebra.BigOperators.Ring.List
import Mathlib.Algebra.Ring.Nat
import ThreeAddress.Fault
import ThreeAddress.Proofs.Literals.Elements
import ThreeAddress.Proofs.Regions.Elements

namespace ThreeAddress

/-- Turns the wheels in front of `axis`, the last of them first. There is nothing to go on with if all of
them come around. -/
def turn (dims : List Nat) : (axis : Nat) → (wheels : List Nat) → Checked (Option (List Nat))
  | 0, _ => return none
  | axis + 1, wheels => do
    let i ← addWithin word64 (← nth wheels axis) 1
    if i < (← nth dims axis) then return some (wheels.set axis i)
    else turn dims axis (wheels.set axis 0)

/-- How far the wheels are from their extents. A wheel counts for more than all those behind it. -/
def remaining : (dims wheels : List Nat) → Nat
  | d :: dims, i :: wheels => (d - i) * (dims.map (· + 1)).prod + remaining dims wheels
  | _, _ => 0

section Turns

variable {d i axis : Nat} {dims wheels next : List Nat} {r : Option (List Nat)}

theorem turn_succ : turn dims (axis + 1) wheels = .ok r ↔ ∃ i d, wheels[axis]? = some i ∧
    dims[axis]? = some d ∧ i + 1 < word64 ∧
      if i + 1 < d then r = some (wheels.set axis (i + 1))
      else turn dims axis (wheels.set axis 0) = .ok r := by
  simp only [turn, nth, addWithin]
  cases wheels[axis]? with
  | none => simp [bind, Except.bind]
  | some i =>
    cases dims[axis]? with
    | none => by_cases hw : i + 1 < word64 <;> simp [hw, bind, Except.bind]
    | some d =>
      by_cases hw : i + 1 < word64
      · by_cases hlt : i + 1 < d <;> simp [hw, hlt, bind, Except.bind, pure, Except.pure, eq_comm]
      · simp [hw, bind, Except.bind]

theorem drop_set (h : axis < wheels.length) :
    (wheels.set axis i).drop axis = i :: wheels.drop (axis + 1) := by
  rw [List.set_eq_take_cons_drop i h, List.drop_left' (List.length_take_of_le (Nat.le_of_lt h))]

/-- A first wheel is turned when those behind it have come around. -/
theorem turn_cons : turn (d :: dims) (axis + 1) (i :: wheels) = .ok r ↔
    (∃ next, turn dims axis wheels = .ok (some next) ∧ r = some (i :: next)) ∨
      turn dims axis wheels = .ok none ∧
        turn (d :: dims) 1 (i :: (List.replicate axis 0 ++ wheels.drop axis)) = .ok r := by
  induction axis generalizing wheels with
  | zero => simp [turn, pure, Except.pure]
  | succ axis ih =>
    have hs := @turn_succ axis dims wheels
    rw [turn_succ]
    simp only [hs, List.getElem?_cons_succ, List.set_cons_succ, ih]
    cases hj : wheels[axis]? with
    | none => simp
    | some j =>
      cases he : dims[axis]? with
      | none => simp
      | some e =>
        have hl : axis < wheels.length := (List.getElem?_eq_some_iff.1 hj).1
        -- The wheel in front of `axis` stops both turns, or it comes around in both.
        by_cases hlt : j + 1 < e
        · simp [hlt]
        · simp [hlt, Nat.not_lt.1 hlt, drop_set hl, List.replicate_succ', and_or_left, and_assoc]

theorem length_turn (h : turn dims axis wheels = .ok (some next)) : next.length = wheels.length := by
  induction axis generalizing wheels with
  | zero => simp [turn, pure, Except.pure] at h
  | succ axis ih =>
    obtain ⟨i, d, _, _, _, h⟩ := turn_succ.1 h
    split at h
    · cases h
      simp
    · simpa using ih h

theorem remaining_lt : remaining dims wheels < (dims.map (· + 1)).prod := by
  induction dims generalizing wheels with
  | nil => simp [remaining]
  | cons d dims ih =>
    cases wheels with
    | nil => exact Nat.mul_pos (Nat.succ_pos d) (Nat.zero_lt_of_lt (@ih []))
    | cons i wheels =>
      calc (d - i) * (dims.map (· + 1)).prod + remaining dims wheels
        _ < (d - i) * (dims.map (· + 1)).prod + (dims.map (· + 1)).prod := Nat.add_lt_add_left ih _
        _ = (d - i + 1) * (dims.map (· + 1)).prod := (Nat.succ_mul ..).symm
        _ ≤ (d + 1) * (dims.map (· + 1)).prod := Nat.mul_le_mul_right _ (by omega)

theorem remaining_turn (h : turn dims dims.length wheels = .ok (some next)) :
    remaining dims next < remaining dims wheels := by
  induction dims generalizing wheels next with
  | nil => simp [turn, pure, Except.pure] at h
  | cons d dims ih =>
    cases wheels with
    | nil => simp [turn_succ] at h
    | cons i wheels =>
      obtain ⟨_, ht, hn⟩ | ⟨_, h⟩ := turn_cons.1 h
      · cases hn
        exact Nat.add_lt_add_left (ih ht) _
      · -- What the wheels behind the first one lose is less than a single turn of it.
        obtain ⟨j, e, hj, he, _, h⟩ := turn_succ.1 h
        cases hj
        cases he
        split at h
        · next hlt =>
          cases h
          calc (d - (i + 1)) * (dims.map (· + 1)).prod + remaining dims _
            _ < (d - (i + 1)) * (dims.map (· + 1)).prod + (dims.map (· + 1)).prod :=
              Nat.add_lt_add_left remaining_lt _
            _ = (d - i) * (dims.map (· + 1)).prod := by
              rw [← Nat.succ_mul, show (d - (i + 1)).succ = d - i by omega]
            _ ≤ (d - i) * (dims.map (· + 1)).prod + remaining dims wheels := Nat.le_add_right ..
        · cases h

end Turns

/-- Turns the wheels until they have all come around, and notes how they stand before each turn. -/
def rounds (dims wheels : List Nat) : Checked (List (List Nat)) :=
  match _h : turn dims dims.length wheels with
  | .error fault => .error fault
  | .ok none => return [wheels]
  | .ok (some next) => return wheels :: (← rounds dims next)
termination_by remaining dims wheels
decreasing_by exact remaining_turn _h

def odometer (dims : List Nat) : Checked (List (List Nat)) :=
  if dims.isEmpty || dims.contains 0 then return [] else rounds dims (List.replicate dims.length 0)

section Rounds

variable {d i : Nat} {dims wheels next : List Nat} {r ps : List (List Nat)}

theorem rounds_eq_ok : rounds dims wheels = .ok r ↔
    (turn dims dims.length wheels = .ok none ∧ r = [wheels]) ∨
      ∃ next ps, turn dims dims.length wheels = .ok (some next) ∧ rounds dims next = .ok ps ∧
        r = wheels :: ps := by
  rw [rounds]
  split
  · simp [*]
  · simp [*, pure, Except.pure, eq_comm]
  · next next h =>
    cases hr : rounds dims next <;> simp [*, bind, Except.bind, pure, Except.pure, eq_comm]

theorem turn_cons_of_none (hi : i + 1 < word64) (hl : wheels.length = dims.length)
    (h : turn dims dims.length wheels = .ok none) :
    turn (d :: dims) (d :: dims).length (i :: wheels) =
      .ok (if i + 1 < d then some ((i + 1) :: List.replicate dims.length 0) else none) := by
  refine turn_cons.2 (.inr ⟨h, ?_⟩)
  rw [List.drop_of_length_le (Nat.le_of_eq hl), List.append_nil]
  refine turn_succ.2 ⟨i, d, rfl, rfl, hi, ?_⟩
  split <;> rfl

theorem rounds_cons (hd : d < word64) (hi : i < d) (hl : wheels.length = dims.length)
    (h : rounds dims wheels = .ok ps)
    (hr : if i + 1 < d then rounds (d :: dims) ((i + 1) :: List.replicate dims.length 0) = .ok r
      else r = []) :
    rounds (d :: dims) (i :: wheels) = .ok (ps.map (i :: ·) ++ r) := by
  -- All rounds but the last end in a turn of the wheels behind, and the last in one of the first wheel.
  induction ps generalizing wheels with
  | nil =>
    obtain ⟨_, h⟩ | ⟨_, _, _, _, h⟩ := rounds_eq_ok.1 h <;> cases h
  | cons p ps ih =>
    refine rounds_eq_ok.2 ?_
    obtain ⟨ht, h⟩ | ⟨_, _, ht, hn, h⟩ := rounds_eq_ok.1 h <;> cases h
    · have ht := turn_cons_of_none (d := d) (i := i) (by omega) hl ht
      split at hr
      · next hlt => exact .inr ⟨_, _, by rwa [if_pos hlt] at ht, hr, rfl⟩
      · next hge =>
        cases hr
        exact .inl ⟨by rwa [if_neg hge] at ht, rfl⟩
    · exact .inr ⟨_, _, turn_cons.2 (.inl ⟨_, ht, rfl⟩), ih ((length_turn ht).trans hl) hn, rfl⟩

theorem rounds_counted {n : Nat} (hd : d < word64) (hn : i + n + 1 = d)
    (h : rounds dims (List.replicate dims.length 0) = .ok ps) :
    rounds (d :: dims) (i :: List.replicate dims.length 0) =
      .ok ((List.range' i (n + 1)).flatMap fun j => ps.map (j :: ·)) := by
  induction n generalizing i with
  | zero =>
    rw [rounds_cons hd (by omega) (by simp) h (r := []) (by simp; omega)]
    simp
  | succ n ih =>
    rw [rounds_cons hd (by omega) (by simp) h (by rw [if_pos (by omega)]; exact ih (by omega))]
    simp [List.range'_succ]

theorem rounds_zeros (h : ∀ d ∈ dims, 0 < d ∧ d < word64) :
    rounds dims (List.replicate dims.length 0) = .ok (grid dims) := by
  induction dims with
  | nil => exact rounds_eq_ok.2 (.inl ⟨rfl, rfl⟩)
  | cons d dims ih =>
    obtain ⟨⟨hp, hd⟩, h⟩ := List.forall_mem_cons.1 h
    rw [List.length_cons, List.replicate_succ, rounds_counted hd (n := d - 1) (by omega) (ih h),
      Nat.sub_add_cancel hp, grid, List.range_eq_range']

end Rounds

theorem mem_grid {dims p : List Nat} : p ∈ grid dims ↔ List.Forall₂ (· < ·) p dims := by
  induction dims generalizing p with
  | nil => simp [grid]
  | cons d dims ih => cases p <;> simp [grid, ih]

theorem grid_eq_nil {dims : List Nat} : grid dims = [] ↔ 0 ∈ dims := by
  rw [← List.length_eq_zero_iff, length_grid, List.prod_eq_zero_iff]

theorem pairwise_grid (dims : List Nat) : (grid dims).Pairwise (· < ·) := by
  induction dims with
  | nil => simp [grid]
  | cons d dims ih =>
    rw [grid, List.pairwise_flatMap]
    refine ⟨fun i _ => List.pairwise_map.2 (ih.imp List.Lex.cons), ?_⟩
    refine List.pairwise_lt_range.imp fun hij p hp q hq => ?_
    obtain ⟨_, _, rfl⟩ := List.mem_map.1 hp
    obtain ⟨_, _, rfl⟩ := List.mem_map.1 hq
    exact .rel hij

theorem odometer_eq {dims : List Nat} (h : ∀ d ∈ dims, d < word64) :
    odometer dims = .ok (positions dims) := by
  rw [odometer, positions]
  cases dims.isEmpty with
  | true => rfl
  | false =>
    by_cases hz : 0 ∈ dims
    · simp [hz, grid_eq_nil.2 hz, pure, Except.pure]
    · rw [if_neg (by simpa using hz), if_neg Bool.false_ne_true]
      exact rounds_zeros fun d hd => ⟨Nat.pos_of_ne_zero fun h0 => hz (h0 ▸ hd), h d hd⟩

/-- Counting comes to an end for extents that are words of 64 bits, with the positions of the array. They are
all the lists of indices below the extents, in lexicographic order and each of them once. -/
theorem positions_counted (dims : List Nat) :
    ((∀ d ∈ dims, d < word64) → odometer dims = .ok (positions dims)) ∧
      (∀ p, p ∈ positions dims ↔ dims ≠ [] ∧ List.Forall₂ (· < ·) p dims) ∧
      (positions dims).Pairwise (· < ·) ∧ (positions dims).Nodup ∧
      (positions dims).length = (if dims = [] then 0 else dims.prod) ∧
      (positions dims = [] ↔ dims = [] ∨ 0 ∈ dims) := by
  refine ⟨odometer_eq, ?_⟩
  cases dims with
  | nil => simp [positions]
  | cons d dims =>
    have hp : positions (d :: dims) = grid (d :: dims) := rfl
    refine ⟨fun p => ?_, pairwise_grid _, nodup_grid _, ?_, ?_⟩
    · rw [hp, mem_grid, and_iff_right (List.cons_ne_nil _ _)]
    · rw [hp, length_grid, if_neg (List.cons_ne_nil _ _)]
    · rw [hp, grid_eq_nil, or_iff_right (List.cons_ne_nil _ _)]

theorem two_by_three_counted : (∀ d ∈ [2, 3], d < word64) ∧
    odometer [2, 3] = .ok [[0, 0], [0, 1], [0, 2], [1, 0], [1, 1], [1, 2]] :=
  have h : ∀ d ∈ [2, 3], d < word64 := by decide
  ⟨h, (positions_counted [2, 3]).1 h⟩

end ThreeAddress
