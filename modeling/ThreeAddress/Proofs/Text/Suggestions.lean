import Mathlib.Data.List.Basic
import ThreeAddress.Diagnostic
import ThreeAddress.Proofs.Text.Edits

namespace ThreeAddress

section Groups

variable {α : Type} {key : α → Nat} {xs ys : List α} {n : Nat}

theorem le_key_trans (key : α → Nat) (x y z : α) (hxy : decide (key x ≤ key y))
    (hyz : decide (key y ≤ key z)) : decide (key x ≤ key z) := by
  rw [decide_eq_true_eq] at hxy hyz ⊢
  exact Nat.le_trans hxy hyz

theorem le_key_total (key : α → Nat) (x y : α) :
    decide (key x ≤ key y) || decide (key y ≤ key x) := by
  rw [Bool.or_eq_true, decide_eq_true_eq, decide_eq_true_eq]
  exact Nat.le_total _ _

theorem pairwise_mergeSort_key (key : α → Nat) (xs : List α) :
    (xs.mergeSort fun x y => key x ≤ key y).Pairwise fun x y => key x ≤ key y := by
  simpa only [decide_eq_true_eq] using
    List.pairwise_mergeSort (le_key_trans key) (le_key_total key) xs

theorem filter_mergeSort_key (key : α → Nat) (xs : List α) (d : Nat) :
    (xs.mergeSort fun x y => key x ≤ key y).filter (key · == d) = xs.filter (key · == d) := by
  have hgroup : (xs.filter (key · == d)).Pairwise fun x y => decide (key x ≤ key y) = true := by
    refine List.pairwise_of_forall_mem_list fun x hx y hy => ?_
    rw [List.mem_filter, beq_iff_eq] at hx hy
    exact decide_eq_true (by omega)
  have hsub : (xs.filter (key · == d)).Sublist (xs.mergeSort fun x y => key x ≤ key y) :=
    List.sublist_mergeSort (le_key_trans key) (le_key_total key) hgroup List.filter_sublist
  have hfilter := hsub.filter (key · == d)
  rw [List.filter_filter, show (fun x => key x == d && key x == d) = (key · == d) by simp] at hfilter
  exact (hfilter.eq_of_length ((List.mergeSort_perm xs _).filter _).length_eq.symm).symm

theorem eq_filter_append_filter_key (h : xs.Pairwise fun x y => key x ≤ key y)
    (hn : ∀ x ∈ xs, key x < n + 1) : xs = xs.filter (key · < n) ++ xs.filter (key · == n) := by
  induction xs with
  | nil => rfl
  | cons x xs ih =>
    obtain ⟨hx, hxs⟩ := List.pairwise_cons.1 h
    have hrest := ih hxs fun y hy => hn y (List.mem_cons_of_mem x hy)
    have hle := hn x List.mem_cons_self
    obtain hlt | heq := Nat.lt_or_eq_of_le (Nat.le_of_lt_succ hle)
    · have hne : key x ≠ n := Nat.ne_of_lt hlt
      rw [List.filter_cons_of_pos (by simpa using hlt), List.filter_cons_of_neg (by simpa using hne),
        List.cons_append, ← hrest]
    · -- Nothing behind `x` is smaller, so that nothing at all is smaller than `n`.
      have hall : ∀ y ∈ x :: xs, key y = n := by
        rintro y hy
        obtain rfl | hy' := List.mem_cons.1 hy
        · exact heq
        · have := hx y hy'
          have := hn y hy
          omega
      rw [List.filter_eq_nil_iff.2 fun y hy => by simp [hall y hy],
        List.filter_eq_self.2 fun y hy => by simp [hall y hy], List.nil_append]

theorem eq_flatMap_filter_key (h : xs.Pairwise fun x y => key x ≤ key y) (hn : ∀ x ∈ xs, key x < n) :
    xs = (List.range n).flatMap fun d => xs.filter (key · == d) := by
  induction n generalizing xs with
  | zero => exact List.eq_nil_iff_forall_not_mem.2 fun x hx => Nat.not_lt_zero _ (hn x hx)
  | succ n ih =>
    have hsmall := ih (h.filter (key · < n)) fun x hx => by simpa using (List.mem_filter.1 hx).2
    have hgroups : ((List.range n).flatMap fun d => (xs.filter (key · < n)).filter (key · == d)) =
        (List.range n).flatMap fun d => xs.filter (key · == d) := by
      refine List.flatMap_congr fun d hd => ?_
      rw [List.filter_filter]
      refine List.filter_congr fun x _ => ?_
      rw [List.mem_range] at hd
      by_cases hk : key x = d <;> simp [hk, hd]
    rw [List.range_succ, List.flatMap_append, List.flatMap_singleton, ← hgroups, ← hsmall]
    exact eq_filter_append_filter_key h hn

end Groups

theorem suggestions_eq (name : String) (known : List String) :
    suggestions name known =
      ((known.filter fun other => other ≠ name ∧ editDistance name other ≤ 2).mergeSort
        fun a b => editDistance name a ≤ editDistance name b).take 3 := by
  rw [suggestions]
  generalize hnear : (known.filter fun other => other ≠ name ∧ editDistance name other ≤ 2) = near
  have hlt : ∀ other ∈ near.mergeSort fun a b => editDistance name a ≤ editDistance name b,
      editDistance name other < 3 := by
    intro other ho
    rw [List.mem_mergeSort, ← hnear, List.mem_filter, decide_eq_true_eq] at ho
    omega
  -- a stable sort by a small number is the list of its buckets, one after the other
  rw [eq_flatMap_filter_key (pairwise_mergeSort_key (editDistance name) near) hlt]
  congr 1
  refine List.flatMap_congr fun d hd => ?_
  rw [filter_mergeSort_key, ← hnear, List.filter_filter, List.filter_filter]
  have hd : d < 3 := List.mem_range.1 hd
  refine List.filter_congr fun other _ => ?_
  rw [Bool.eq_iff_iff]
  simp only [Bool.and_eq_true, beq_iff_eq, bne_iff_ne, decide_eq_true_eq]
  constructor
  · rintro ⟨hk, hn⟩
    exact ⟨hk, hn, by omega⟩
  · rintro ⟨hk, hn, -⟩
    exact ⟨hk, hn⟩

section Metric

variable {a b c : String}

theorem editDistance_le {n : Nat} (h : Edits n a.toList b.toList) : editDistance a b ≤ n :=
  (isLeast_editDistance a b).2 h

theorem edits_editDistance (a b : String) : Edits (editDistance a b) a.toList b.toList :=
  (isLeast_editDistance a b).1

theorem editDistance_comm (a b : String) : editDistance a b = editDistance b a :=
  Nat.le_antisymm (editDistance_le (edits_editDistance b a).symm)
    (editDistance_le (edits_editDistance a b).symm)

theorem editDistance_eq_zero : editDistance a b = 0 ↔ a = b := by
  constructor
  · intro h
    have hedits := edits_editDistance a b
    rw [h] at hedits
    exact String.toList_injective hedits.eq_of_zero
  · rintro rfl
    exact Nat.le_zero.1 (editDistance_le .none)

theorem editDistance_triangle (a b c : String) :
    editDistance a c ≤ editDistance a b + editDistance b c :=
  editDistance_le ((edits_editDistance a b).trans (edits_editDistance b c))

end Metric

/-- The table of distances holds the least number of edits, which is a metric. The names that may have
been meant are the near ones in stable order by it, the first three of them at most. -/
theorem Problem.suggestions_nearest :
    (∀ a b, IsLeast {n | Edits n a.toList b.toList} (editDistance a b)) ∧
    (∀ a b, editDistance a b = editDistance b a) ∧
    (∀ a b, editDistance a b = 0 ↔ a = b) ∧
    (∀ a b c, editDistance a c ≤ editDistance a b + editDistance b c) ∧
    ∀ name line known, ((Problem.unresolved name line).diagnostic known).suggestions =
      (((known.filter fun other => other ≠ name ∧ editDistance name other ≤ 2).mergeSort
        fun a b => editDistance name a ≤ editDistance name b).take 3).map
          fun other => s!"did you mean '{other}'?" := by
  refine ⟨isLeast_editDistance, editDistance_comm, fun _ _ => editDistance_eq_zero,
    editDistance_triangle, fun name line known => ?_⟩
  rw [diagnostic, help, suggestions_eq]

end ThreeAddress
