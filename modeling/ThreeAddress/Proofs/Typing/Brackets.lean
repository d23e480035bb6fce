import ThreeAddress.Proofs.Emission.Statements
import ThreeAddress.Proofs.Labels.Program
import ThreeAddress.Proofs.Typing.Statements

namespace ThreeAddress

open Supply

namespace Instruction

def isClosing : Instruction → Bool
  | .close _ | .tryEnd => true
  | _ => false

def frames (k : Nat) (open_ : List Nat) : Instruction → List Nat
  | .entry _ => k :: open_
  | .close _ => open_.tail
  | _ => open_

variable {i : Instruction}

theorem frames_of_not_bracket (h : ¬i.isBracket) (k : Nat) (open_ : List Nat) :
    i.frames k open_ = open_ := by
  cases i <;> simp_all [isBracket, frames]

theorem not_closing (h : ¬i.isBracket) : ¬i.isClosing := by
  cases i <;> simp_all [isBracket, isClosing]

theorem placed?_of_plain (h : i.isPlain) : i.placed? = none := by
  cases i <;> simp_all [placed?, isPlain]

theorem target?_of_plain (h : i.isPlain) : i.target? = none := by
  cases i <;> simp_all [target?, isPlain]

end Instruction

namespace Code

/-- Brackets pair up and nest, and those of a frame carry the same name. -/
inductive Bracketed : Code → Prop
  | nil : Bracketed []
  | plain : ¬i.isBracket → Bracketed rest → Bracketed (i :: rest)
  | frame : Bracketed mid → Bracketed rest →
    Bracketed (.entry name :: mid ++ .close name :: rest)
  | region : Bracketed mid → Bracketed rest →
    Bracketed (.tryBegin l :: mid ++ .tryEnd :: rest)

def framed (k : Nat) (open_ : List Nat) : Code → List (List Nat × Instruction)
  | [] => []
  | i :: rest => (open_, i) :: framed (k + 1) (i.frames k open_) rest

variable {a b code : Code} {k : Nat} {open_ : List Nat}

namespace Bracketed

theorem append (h : Bracketed a) (g : Bracketed b) : Bracketed (a ++ b) := by
  induction h with
  | nil => exact g
  | plain hi _ ih => exact .plain hi ih
  | frame hi _ _ ih => simpa using hi.frame ih
  | region hi _ _ ih => simpa using hi.region ih

theorem framed_append (h : Bracketed a) (k : Nat) (open_ : List Nat) (b : Code) :
    framed k open_ (a ++ b) = framed k open_ a ++ framed (k + a.length) open_ b := by
  induction h generalizing k open_ b with
  | nil => rfl
  | plain hi _ ih =>
    simp only [List.cons_append, framed, Instruction.frames_of_not_bracket hi, ih, List.length_cons]
    rw [Nat.add_assoc, Nat.add_comm 1]
  | @frame inner rest _ _ _ ihi ihr | @region inner rest _ _ _ ihi ihr =>
    have hk : k + 1 + inner.length + 1 + rest.length = k + (inner.length + (rest.length + 1) + 1) := by
      omega
    simp only [List.cons_append, List.append_assoc, framed, Instruction.frames, List.tail_cons, ihi,
      ihr, List.length_cons, List.length_append, hk]

/-- Two bracketed stretches that start together and end at a closing bracket are the same. -/
theorem eq_of_append_eq {c d : Instruction} {x y : Code} (ha : Bracketed a) (hb : Bracketed b)
    (hc : c.isClosing) (hd : d.isClosing) (h : a ++ c :: x = b ++ d :: y) : a = b := by
  induction ha generalizing b c d x y with
  | nil =>
    cases hb with
    | nil => rfl
    | plain hi _ =>
      cases h
      exact absurd hc (Instruction.not_closing hi)
    | frame | region => cases h; cases hc
  | plain hi _ ih =>
    cases hb with
    | nil =>
      cases h
      exact absurd hd (Instruction.not_closing hi)
    | plain _ hb =>
      obtain ⟨rfl, hr⟩ := List.cons.inj h
      rw [ih hb hc hd hr]
    | frame | region =>
      obtain ⟨rfl, _⟩ := List.cons.inj h
      exact absurd rfl hi
  | frame _ _ ihi ihr =>
    cases hb with
    | nil => cases h; cases hd
    | plain hi =>
      obtain ⟨rfl, _⟩ := List.cons.inj h
      exact absurd rfl hi
    | region => cases h
    | frame hi hr =>
      simp only [List.cons_append, List.append_assoc, List.cons.injEq, Instruction.entry.injEq] at h
      obtain ⟨rfl, h⟩ := h
      -- the stretches inside end at the same bracket, so they are the same, and so is what follows
      obtain rfl := ihi hi rfl rfl h
      obtain ⟨_, h⟩ := List.cons.inj (List.append_cancel_left h)
      rw [ihr hr hc hd h]
  | region _ _ ihi ihr =>
    cases hb with
    | nil => cases h; cases hd
    | plain hi =>
      obtain ⟨rfl, _⟩ := List.cons.inj h
      exact absurd rfl hi
    | frame => cases h
    | region hi hr =>
      simp only [List.cons_append, List.append_assoc, List.cons.injEq, Instruction.tryBegin.injEq] at h
      obtain ⟨rfl, h⟩ := h
      obtain rfl := ihi hi rfl rfl h
      obtain ⟨_, h⟩ := List.cons.inj (List.append_cancel_left h)
      rw [ihr hr hc hd h]

theorem framed_frame {name : String} (h : Bracketed code) :
    framed k open_ (.entry name :: code ++ [.close name]) =
      (open_, .entry name) :: (framed (k + 1) (k :: open_) code ++ [(k :: open_, .close name)]) := by
  rw [List.cons_append, framed, h.framed_append]
  rfl

theorem framed_region {l : Label} (h : Bracketed code) :
    framed k open_ (.tryBegin l :: code ++ [.tryEnd]) =
      (open_, .tryBegin l) :: (framed (k + 1) open_ code ++ [(open_, .tryEnd)]) := by
  rw [List.cons_append, framed, h.framed_append]
  rfl

end Bracketed

end Code

open Code

namespace Typed

variable {bases ts us : List Temp} {marks : Marks} {code : Code}

theorem bracketed (h : Typed bases marks ts code us) : code.Bracketed := by
  induction h with
  | nil => exact .nil
  | step hp => exact .plain (Instruction.not_bracket_of_plain hp) .nil
  | goto | branch => exact .plain (by simp [Instruction.isBracket]) .nil
  | append _ _ ha hb => exact ha.append hb
  | place _ _ _ ha hb => exact ha.append (.plain (by simp [Instruction.isBracket]) hb)
  | region _ _ hi => exact hi.region .nil
  | frame _ _ hi => exact hi.frame .nil
  | weaken _ _ h => exact h

/-- A jump leads to a label in the same frame, or to one that is known from outside. -/
theorem confined (h : Typed bases marks ts code us) {k : Nat} {open_ frames : List Nat}
    {i : Instruction} {l : Label} (hi : (frames, i) ∈ code.framed k open_)
    (hl : i.target? = some l) :
    (frames, .label l) ∈ code.framed k open_ ∨ frames = open_ ∧ l ∈ marks.map Prod.fst := by
  induction h generalizing k open_ with
  | nil => simp [framed] at hi
  | step hp =>
    simp only [framed, List.mem_singleton, Prod.mk.injEq] at hi
    obtain ⟨rfl, rfl⟩ := hi
    rw [Instruction.target?_of_plain hp] at hl
    cases hl
  | goto ho | branch ho =>
    simp only [framed, List.mem_singleton, Prod.mk.injEq] at hi
    obtain ⟨rfl, rfl⟩ := hi
    cases hl
    exact .inr ⟨rfl, ho.mem⟩
  | append ha _ iha ihb =>
    rw [ha.bracketed.framed_append, List.mem_append] at hi ⊢
    rcases hi with hi | hi
    · exact (iha hi).imp_left .inl
    · exact (ihb hi).imp_left .inr
  | @place l' _ marks _ _ _ _ _ ha _ _ iha ihb =>
    rw [ha.bracketed.framed_append, framed, List.mem_append, List.mem_cons] at hi ⊢
    -- what both parts know from outside is known here, or it is the label between them
    have outside (ho : frames = open_ ∧ l ∈ l' :: marks.map Prod.fst) :
        (frames, Instruction.label l) = (open_, .label l') ∨
          frames = open_ ∧ l ∈ marks.map Prod.fst := by
      obtain ⟨rfl, ho⟩ := ho
      rcases List.mem_cons.1 ho with rfl | ho
      · exact .inl rfl
      · exact .inr ⟨rfl, ho⟩
    rcases hi with hi | hi | hi
    · rcases iha hi with h | h
      · exact .inl (.inl h)
      · exact (outside h).imp_left fun h => .inr (.inl h)
    · cases hi
      cases hl
    · rcases ihb hi with h | h
      · exact .inl (.inr (.inr h))
      · exact (outside h).imp_left fun h => .inr (.inl h)
  | region ho hi' ih =>
    rw [hi'.bracketed.framed_region, List.mem_cons, List.mem_append, List.mem_singleton] at hi ⊢
    rcases hi with hi | hi | hi
    · cases hi
      cases hl
      exact .inr ⟨rfl, ho.mem⟩
    · exact (ih hi).imp_left fun h => .inr (.inl h)
    · cases hi
      cases hl
  | frame hi' _ ih =>
    rw [hi'.bracketed.framed_frame, List.mem_cons, List.mem_append, List.mem_singleton] at hi ⊢
    rcases hi with hi | hi | hi
    · cases hi
      cases hl
    -- a frame knows no label from outside
    · rcases ih hi with h | ⟨_, h⟩
      · exact .inl (.inr (.inl h))
      · cases h
    · cases hi
      cases hl
  | weaken _ _ ih => exact ih hi

end Typed

theorem EmitsAll.typed {strict : Prop} {ragged : RaggedArrays} {body : List Stmt} {code : Code}
    {n : Supply} (h : EmitsAll strict ragged {} body {} code n) :
    Typed n.bases [] n.bases code n.bases :=
  h.keeps.typed (List.Subset.refl _) (List.Subset.refl _) (List.nil_subset _)
    (by simp [Exits.labels])

/-- Brackets nest, labels are placed once, and every jump leads to a label that is placed in the very
frame that the jump is in. -/
theorem Program.lower_bracketed {p : Program} {table : Table} {options : Options} {out : Lowered}
    (h : p.lower table options = .ok out) :
    out.code.Bracketed ∧ out.code.placed.Nodup ∧
      ∀ frames i l, (frames, i) ∈ out.code.framed 0 [] → i.target? = some l →
        (frames, .label l) ∈ out.code.framed 0 [] := by
  obtain ⟨n, he⟩ := lower_emits False h nofun
  obtain ⟨s, hr, _⟩ := runs_program.1 h
  refine ⟨he.typed.bracketed, (lowerAll_numbers hr).1.nodup_iff.2 (Label.nodup_upTo _), ?_⟩
  intro frames i l hi hl
  simpa using he.typed.confined hi hl

def Program.nestedLoops : Program :=
  ⟨[.while (.bool true .unplaced) ⟨[
      .function ⟨"f", [], none,
        ⟨[.while (.bool true .unplaced) ⟨[.break .unplaced], .unplaced⟩ .unplaced], .unplaced⟩,
        .unplaced⟩,
      .tryCatch ⟨[.break .unplaced], .unplaced⟩ "e" ⟨[], .unplaced⟩ .unplaced], .unplaced⟩
    .unplaced], .unplaced⟩

theorem Program.nestedLoops_bracketed :
    ∃ out, nestedLoops.lower nestedLoops.collect.table {} = .ok out ∧
      (out.code.framed 0 []).filterMap (fun x => x.2.target?.map (x.1, ·)) =
        [([], ⟨2⟩), ([3], ⟨4⟩), ([3], ⟨4⟩), ([3], ⟨3⟩), ([], ⟨5⟩), ([], ⟨2⟩), ([], ⟨6⟩), ([], ⟨1⟩)] ∧
      out.code.Bracketed ∧ out.code.placed.Nodup ∧
        ∀ frames i l, (frames, i) ∈ out.code.framed 0 [] → i.target? = some l →
          (frames, .label l) ∈ out.code.framed 0 [] := by
  have h : (fun out : Lowered => (out.code.framed 0 []).filterMap
      fun x => x.2.target?.map (x.1, ·)) <$>
        (nestedLoops.lower nestedLoops.collect.table {}).toOption =
          some [([], ⟨2⟩), ([3], ⟨4⟩), ([3], ⟨4⟩), ([3], ⟨3⟩), ([], ⟨5⟩), ([], ⟨2⟩), ([], ⟨6⟩), ([], ⟨1⟩)] := by
    decide +kernel
  obtain ⟨out, ho, hp⟩ := exists_of_check h
  exact ⟨out, ho, hp, Program.lower_bracketed ho⟩

end ThreeAddress
