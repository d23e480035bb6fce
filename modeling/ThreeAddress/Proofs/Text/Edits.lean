import Mathlib.Order.Bounds.Basic
import Mathlib.Order.MinMax
import ThreeAddress.Text.EditDistance

namespace ThreeAddress

/-- One character is inserted, deleted or replaced. -/
inductive Edit : List Char → List Char → Prop
  | insert (before : List Char) (c : Char) (after : List Char) :
    Edit (before ++ after) (before ++ c :: after)
  | delete (before : List Char) (c : Char) (after : List Char) :
    Edit (before ++ c :: after) (before ++ after)
  | replace (before : List Char) (c d : Char) (after : List Char) :
    Edit (before ++ c :: after) (before ++ d :: after)

/-- So many edits, one after the other. -/
inductive Edits : Nat → List Char → List Char → Prop
  | none : Edits 0 as as
  | next : Edit as bs → Edits n bs cs → Edits (n + 1) as cs

section Edits

variable {as bs cs : List Char} {m n : Nat}

theorem Edit.cons (c : Char) (h : Edit as bs) : Edit (c :: as) (c :: bs) := by
  cases h with
  | insert before d after => exact .insert (c :: before) d after
  | delete before d after => exact .delete (c :: before) d after
  | replace before d e after => exact .replace (c :: before) d e after

theorem Edit.symm (h : Edit as bs) : Edit bs as := by
  cases h with
  | insert before c after => exact .delete before c after
  | delete before c after => exact .insert before c after
  | replace before c d after => exact .replace before d c after

theorem Edit.reverse (h : Edit as bs) : Edit as.reverse bs.reverse := by
  cases h with
  | insert before c after => simpa using Edit.insert after.reverse c before.reverse
  | delete before c after => simpa using Edit.delete after.reverse c before.reverse
  | replace before c d after => simpa using Edit.replace after.reverse c d before.reverse

namespace Edits

theorem one (h : Edit as bs) : Edits 1 as bs := .next h .none

theorem trans (h : Edits m as bs) (k : Edits n bs cs) : Edits (m + n) as cs := by
  induction h with
  | none =>
    rw [Nat.zero_add]
    exact k
  | next h _ ih =>
    rw [Nat.add_right_comm]
    exact .next h (ih k)

theorem cons (c : Char) (h : Edits n as bs) : Edits n (c :: as) (c :: bs) := by
  induction h with
  | none => exact .none
  | next h _ ih => exact .next (h.cons c) ih

theorem symm (h : Edits n as bs) : Edits n bs as := by
  induction h with
  | none => exact .none
  | next h _ ih => exact ih.trans (.one h.symm)

theorem reverse (h : Edits n as bs) : Edits n as.reverse bs.reverse := by
  induction h with
  | none => exact .none
  | next h _ ih => exact .next h.reverse ih

theorem reverse_iff : Edits n as.reverse bs.reverse ↔ Edits n as bs := by
  refine ⟨fun h => ?_, reverse⟩
  simpa using h.reverse

theorem eq_of_zero (h : Edits 0 as bs) : as = bs := by
  cases h with
  | none => rfl

theorem of_nil (bs : List Char) : Edits bs.length [] bs := by
  induction bs with
  | nil => exact .none
  | cons b bs ih => exact ih.trans (.one (.insert [] b bs))

end Edits

end Edits

/-- The distance of two texts, by what becomes of their first characters. -/
def distance : List Char → List Char → Nat
  | [], bs => bs.length
  | as, [] => as.length
  | a :: as, b :: bs =>
    min (min (distance as (b :: bs) + 1) (distance (a :: as) bs + 1))
      (distance as bs + if a = b then 0 else 1)
termination_by as bs => as.length + bs.length

section Distance

variable {as bs cs : List Char} {a b c : Char} {n : Nat}

@[simp] theorem distance_nil_left (bs : List Char) : distance [] bs = bs.length := by
  rw [distance]

@[simp] theorem distance_nil_right (as : List Char) : distance as [] = as.length := by
  cases as with
  | nil => rw [distance]
  | cons a as => rw [distance]; nofun

theorem distance_cons (a b : Char) (as bs : List Char) : distance (a :: as) (b :: bs) =
    min (min (distance as (b :: bs) + 1) (distance (a :: as) bs + 1))
      (distance as bs + if a = b then 0 else 1) := by
  rw [distance]

theorem distance_comm (as bs : List Char) : distance as bs = distance bs as := by
  induction as, bs using distance.induct with
  | case1 bs => simp
  | case2 as => simp
  | case3 a as b bs ih₁ ih₂ ih₃ =>
    rw [distance_cons, distance_cons, ih₁, ih₂, ih₃, min_comm (distance (b :: bs) as + 1)]
    simp only [eq_comm]

theorem distance_self (as : List Char) : distance as as = 0 := by
  induction as with
  | nil => simp
  | cons a as ih =>
    rw [distance_cons, ih, if_pos rfl]
    exact Nat.min_zero _

theorem edits_distance (as bs : List Char) : Edits (distance as bs) as bs := by
  induction as, bs using distance.induct with
  | case1 bs => simpa using Edits.of_nil bs
  | case2 as => simpa using (Edits.of_nil as).symm
  | case3 a as b bs delete insert replace =>
    have hdelete : Edits (distance as (b :: bs) + 1) (a :: as) (b :: bs) := .next (.delete [] a as) delete
    have hinsert : Edits (distance (a :: as) bs + 1) (a :: as) (b :: bs) :=
      insert.trans (.one (.insert [] b bs))
    have hreplace : Edits (distance as bs + if a = b then 0 else 1) (a :: as) (b :: bs) := by
      split
      next h => exact h ▸ replace.cons a
      next => exact (replace.cons a).trans (.one (.replace [] a b bs))
    -- each of the three ways gives so many edits, and the least of them is one of the three
    rw [distance_cons]
    obtain h | h := min_choice (min (distance as (b :: bs) + 1) (distance (a :: as) bs + 1))
      (distance as bs + if a = b then 0 else 1)
    · rw [h]
      obtain h | h := min_choice (distance as (b :: bs) + 1) (distance (a :: as) bs + 1)
      · rwa [h]
      · rwa [h]
    · rwa [h]

theorem distance_cons_le (a : Char) (as cs : List Char) : distance (a :: as) cs ≤ distance as cs + 1 := by
  cases cs with
  | nil => simp
  | cons c cs =>
    rw [distance_cons]
    omega

theorem distance_le_cons (a : Char) (as cs : List Char) : distance as cs ≤ distance (a :: as) cs + 1 := by
  induction cs with
  | nil => simp; omega
  | cons c cs ih =>
    have hc : distance as (c :: cs) ≤ distance as cs + 1 := by
      rw [distance_comm as, distance_comm as]
      exact distance_cons_le c cs as
    rw [distance_cons]
    omega

theorem distance_replace_le (a b : Char) (as cs : List Char) :
    distance (a :: as) cs ≤ distance (b :: as) cs + 1 := by
  induction cs with
  | nil => simp
  | cons c cs ih =>
    rw [distance_cons, distance_cons]
    split <;> split <;> omega

theorem distance_append_le (h : ∀ cs, distance as cs ≤ distance bs cs + 1) (before cs : List Char) :
    distance (before ++ as) cs ≤ distance (before ++ bs) cs + 1 := by
  induction before generalizing cs with
  | nil => exact h cs
  | cons a before ih =>
    rw [List.cons_append, List.cons_append]
    induction cs with
    | nil =>
      have := ih []
      simp only [distance_nil_right, List.length_cons] at this ⊢
      omega
    | cons c cs ihc =>
      have hskip := ih (c :: cs)
      have hboth := ih cs
      rw [distance_cons, distance_cons]
      omega

theorem distance_le_of_edit (h : Edit as bs) (cs : List Char) : distance as cs ≤ distance bs cs + 1 := by
  cases h with
  | insert before c after => exact distance_append_le (distance_le_cons c after) before cs
  | delete before c after => exact distance_append_le (distance_cons_le c after) before cs
  | replace before c d after => exact distance_append_le (distance_replace_le c d after) before cs

/-- No fewer edits will do. -/
theorem Edits.distance_le (h : Edits n as bs) : distance as bs ≤ n := by
  induction h with
  | none => rw [distance_self]
  | next h _ ih =>
    have := distance_le_of_edit h
    exact (this _).trans (Nat.succ_le_succ ih)

theorem isLeast_distance (as bs : List Char) : IsLeast {n | Edits n as bs} (distance as bs) :=
  ⟨edits_distance as bs, fun _ h => Edits.distance_le h⟩

end Distance

section Rows

variable {as bs seen : List Char} {a : Char}

/-- The distances of `as` to what becomes of `seen` with the characters of `bs` in front, one after the
other. -/
def farther (as seen : List Char) : List Char → List Nat
  | [] => []
  | b :: bs => distance as (b :: seen) :: farther as (b :: seen) bs

theorem farther_nil (seen bs : List Char) :
    farther [] seen bs = List.range' (seen.length + 1) bs.length := by
  induction bs generalizing seen with
  | nil => rfl
  | cons b bs ih =>
    rw [farther, ih, distance_nil_left, List.length_cons, List.length_cons, List.range'_succ]

theorem rowRest_farther (a : Char) (as seen bs : List Char) :
    rowRest a (distance (a :: as) seen) bs (distance as seen :: farther as seen bs) =
      farther (a :: as) seen bs := by
  induction bs generalizing seen with
  | nil => rfl
  | cons b bs ih => rw [farther, farther, rowRest, ← distance_cons, ih]

/-- The row of the table for a text, with a column for each start of `bs`. Both are read backwards. -/
def distances (bs as : List Char) : List Nat := distance as [] :: farther as [] bs

theorem nextRow_distances (a : Char) (as bs : List Char) :
    nextRow bs (distances bs as) a = distances bs (a :: as) := by
  have hrow := rowRest_farther a as [] bs
  rw [distance_nil_right, distance_nil_right, List.length_cons] at hrow
  rw [distances, distances, nextRow, distance_nil_right, distance_nil_right, List.length_cons, hrow]

theorem foldl_nextRow (as seen bs : List Char) :
    as.foldl (nextRow bs) (distances bs seen) = distances bs (as.reverse ++ seen) := by
  induction as generalizing seen with
  | nil => rfl
  | cons a as ih =>
    rw [List.foldl_cons, nextRow_distances, ih, List.reverse_cons, List.append_assoc,
      List.singleton_append]

theorem lastRow_eq (as bs : List Char) : lastRow as bs = distances bs as.reverse := by
  have hfirst : List.range (bs.length + 1) = distances bs [] := by
    rw [distances, farther_nil, distance_nil_left, List.range_eq_range', List.range'_succ]
    rfl
  rw [lastRow, hfirst, foldl_nextRow, List.append_nil]

theorem getLastD_farther (as seen bs : List Char) :
    (farther as seen bs).getLastD (distance as seen) = distance as (bs.reverse ++ seen) := by
  induction bs generalizing seen with
  | nil => rfl
  | cons b bs ih =>
    rw [farther, List.getLastD_cons, ih, List.reverse_cons, List.append_assoc, List.singleton_append]

theorem editDistance_eq (a b : String) :
    editDistance a b = distance a.toList.reverse b.toList.reverse := by
  rw [editDistance, lastRow_eq, distances, List.getLastD_cons, getLastD_farther, List.append_nil]

theorem isLeast_editDistance (a b : String) :
    IsLeast {n | Edits n a.toList b.toList} (editDistance a b) := by
  rw [editDistance_eq]
  simpa only [Edits.reverse_iff] using isLeast_distance a.toList.reverse b.toList.reverse

example : editDistance "cont" "count" = 1 := by decide +kernel

end Rows

end ThreeAddress
