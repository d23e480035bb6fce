import ThreeAddress.Proofs.Emission.Rules
import ThreeAddress.Proofs.Typing.Rules

namespace ThreeAddress

open List (Subset.trans)
open Lower
open Operand (tempsAll tempsAll_append)

/-- Whatever has been written before, the code is safe to run and the temporaries of the values have
been written at its end. The bases of array literals count as written. The code has no brackets. -/
structure Supply.Gives (n : Supply) (code : Code) (vs : List Operand) (m : Supply) : Prop where
  bases : n.bases ⊆ m.bases
  inline : ∀ i ∈ code, ¬i.isBracket
  typed : ∀ {bases ts}, m.bases ⊆ bases → bases ⊆ ts →
    ∀ {marks}, Typed bases marks ts code (ts ++ tempsAll vs)

namespace Supply.Gives

variable {n m k : Supply} {a b code : Code} {vs ws : List Operand} {i : Instruction}

theorem nil (h : tempsAll vs = []) : n.Gives [] vs n where
  bases := List.Subset.refl _
  inline := nofun
  typed _ _ _ := by
    rw [h, List.append_nil]
    exact .nil

theorem empty : n.Gives [] [] n := nil rfl

theorem append (h : n.Gives a vs m) (g : m.Gives b ws k) : n.Gives (a ++ b) (vs ++ ws) k where
  bases := Subset.trans h.bases g.bases
  inline := List.forall_mem_append.2 ⟨h.inline, g.inline⟩
  typed hb hs _ := by
    rw [tempsAll_append, ← List.append_assoc]
    exact (h.typed (Subset.trans g.bases hb) hs).append
      (g.typed hb (Subset.trans hs (List.subset_append_left ..)))

theorem weaken (h : n.Gives code vs m) (hs : tempsAll ws ⊆ tempsAll vs) : n.Gives code ws m where
  bases := h.bases
  inline := h.inline
  typed hb ht _ := (h.typed hb ht).weaken <|
    List.append_subset.2 ⟨List.subset_append_left .., Subset.trans hs (List.subset_append_right ..)⟩

theorem take (h : n.Gives code vs m) (hp : i.isPlain) (hd : i.defs = [m.next])
    (hu : i.uses ⊆ tempsAll vs) : n.Gives (code ++ [i]) [.temp m.next] m.take where
  bases := h.bases
  inline := List.forall_mem_append.2 ⟨h.inline, by simpa using Instruction.not_bracket_of_plain hp⟩
  typed hb ht _ := by
    apply ((h.typed hb ht).append (.step hp (Subset.trans hu (List.subset_append_right ..)))).weaken
    rw [hd]
    simp [tempsAll, Operand.temps]

theorem mention (h : n.Gives code vs m) (hp : i.isPlain) (hd : i.defs = [])
    (hu : i.uses ⊆ tempsAll vs) : n.Gives (code ++ [i]) [] m where
  bases := h.bases
  inline := List.forall_mem_append.2 ⟨h.inline, by simpa using Instruction.not_bracket_of_plain hp⟩
  typed hb ht _ := by
    apply ((h.typed hb ht).append (.step hp (Subset.trans hu (List.subset_append_right ..)))).weaken
    rw [hd]
    simp [tempsAll]

end Supply.Gives

open Supply

variable {n m k l : Supply} {a b c copy : Code} {v w x : Operand} {vs ws : List Operand}
  {strict : Prop} {ragged : RaggedArrays}

theorem Copied.gives (h : Copied n v copy w m) (hv : k.Gives c [v] n) : k.Gives (c ++ copy) [w] m := by
  cases h with
  | kept => simpa using hv
  | copied => exact hv.take rfl rfl (by simp [tempsAll])

theorem gives_logical {op : LogicalOp} {done : Label} (h : n.Gives a [v] m)
    (g : m.take.Gives b [w] k) :
    n.Gives (a ++ [.assign (.temp m.next) (.int (if op = .and then 0 else 1)),
        .branch v (if op = .and then .eq else .ne) (.int 0) done]
      ++ b ++ [.assign (.temp m.next) w, .label done]) [.temp m.next] k where
  bases := Subset.trans h.bases g.bases
  inline := by
    have := h.inline
    have := g.inline
    grind [Instruction.isBracket]
  typed {bases ts} hb ht marks := by
    let us := ts ++ tempsAll [v] ++ [m.next]
    have hts : ts ⊆ us := by simp [us]
    have hus : ts ++ [m.next] ⊆ us := by simp [us]
    let marks₁ : Marks := (done, ts ++ [m.next]) :: marks
    have first : Typed bases marks₁ ts
        (a ++ [.assign (.temp m.next) (.int (if op = .and then 0 else 1))]) us :=
      (h.typed (Subset.trans g.bases hb) ht).append (.step rfl (by simp [Operand.temps]))
    have test : Typed bases marks₁ us
        [.branch v (if op = .and then .eq else .ne) (.int 0) done] us :=
      .branch (.head hus) (by simp [us, tempsAll, Operand.temps])
    have second : Typed bases marks₁ us (b ++ [.assign (.temp m.next) w])
        (us ++ tempsAll [w] ++ [m.next]) :=
      (g.typed hb (Subset.trans ht hts)).append (.step rfl (by simp [tempsAll]))
    simpa [tempsAll, Operand.temps] using
      ((first.append test).append second).placeEnd (by simp [us])

theorem gives_ternary {yes no done : Label} (h : n.Gives a [v] m) (g : m.Gives b [w] k)
    (f : k.take.Gives c [x] l) :
    n.Gives (a ++ [.branch v .eq (.bool true) yes, .goto no, .label yes] ++ b
        ++ [.assign (.temp k.next) w, .goto done, .label no] ++ c
        ++ [.assign (.temp k.next) x, .label done]) [.temp k.next] l where
  bases := Subset.trans h.bases (Subset.trans g.bases f.bases)
  inline := by
    have := h.inline
    have := g.inline
    have := f.inline
    grind [Instruction.isBracket]
  typed {bases ts} hb ht marks := by
    have hk : k.bases ⊆ bases := Subset.trans f.bases hb
    let marks₁ : Marks := (done, ts ++ [k.next]) :: marks
    let marks₂ : Marks := (yes, ts) :: (no, ts) :: marks₁
    have head : Typed bases marks₂ ts (a ++ [.branch v .eq (.bool true) yes] ++ [.goto no])
        (ts ++ tempsAll [v]) :=
      ((h.typed (Subset.trans g.bases hk) ht).append
        (.branch (.head (by simp)) (by simp [tempsAll, Operand.temps]))).append
          (.goto (.tail (.head (by simp))))
    have first : Typed bases marks₂ ts (b ++ [.assign (.temp k.next) w] ++ [.goto done])
        (ts ++ tempsAll [w] ++ [k.next]) :=
      ((g.typed hk ht).append (.step rfl (by simp [tempsAll]))).append
        (.goto (.tail (.tail (.head (by simp)))))
    have second : Typed bases ((no, ts) :: marks₁) ts (c ++ [.assign (.temp k.next) x])
        (ts ++ tempsAll [x] ++ [k.next]) :=
      (f.typed hb ht).append (.step rfl (by simp [tempsAll]))
    have arms := (head.place (by simp) first).place (by simp) second
    simpa [tempsAll, Operand.temps] using arms.placeEnd (by simp)

theorem elementStore_uses (base v : Operand) (position : List Nat) :
    (elementStore base position v).uses = base.temps ++ v.temps := by
  have hi : tempsAll (position.map fun i => .int (signed i)) = [] := by
    induction position with
    | nil => rfl
    | cons i rest ih => simpa [tempsAll, Operand.temps] using ih
  simp [elementStore, Operand.temps, hi]

theorem Operand.temps_subset_tempsAll {o : Operand} {os : List Operand} (h : o ∈ os) :
    o.temps ⊆ tempsAll os := fun _ ht => Operand.mem_tempsAll.2 ⟨o, h, ht⟩

theorem gives_array {xs : List Valued} (places : List (List Nat))
    (h : n.Gives a (xs.map (·.2)) m) :
    n.Gives (a ++ places.zipWith (fun p x => elementStore (.temp m.next) p x.2) xs)
      [.temp m.next] m.takeBase where
  bases := Subset.trans h.bases (by simp)
  inline := by
    refine List.forall_mem_append.2 ⟨h.inline, fun i hi => ?_⟩
    obtain ⟨j, hj, rfl⟩ := List.mem_iff_getElem.1 hi
    rw [List.getElem_zipWith]
    exact Instruction.not_bracket_of_plain rfl
  typed {bases ts} hb ht marks := by
    obtain ⟨hm, hn⟩ := List.append_subset.1 hb
    have hn : m.next ∈ ts := ht (hn (by simp))
    refine ((h.typed hm ht).append (.reads fun i hi => ?_)).weaken ?_
    · obtain ⟨j, hj, rfl⟩ := List.mem_iff_getElem.1 hi
      rw [List.getElem_zipWith]
      refine ⟨rfl, rfl, ?_⟩
      rw [elementStore_uses]
      refine List.append_subset.2 ⟨by simp [Operand.temps, hn], ?_⟩
      exact Subset.trans (Operand.temps_subset_tempsAll (List.mem_map_of_mem (List.getElem_mem _)))
        (List.subset_append_right ..)
    · simp [tempsAll, Operand.temps, hn]

theorem Expr.constant?_temps {e : Expr} (h : e.constant? = some v) : v.temps = [] := by
  cases e <;> simp [constant?] at h <;> subst h <;> rfl

mutual

theorem Expr.Emits.gives : ∀ {d : Demand} {e : Expr} {n m : Supply} {code : Code} {v : Operand},
    e.Emits strict ragged d n code v m → n.Gives code [v] m
  | _, _, _, _, _, _, .constant h => Gives.empty.take rfl rfl (by simp [Expr.constant?_temps h])
  | _, _, _, _, _, _, .ident | _, _, _, _, _, _, .this => .nil rfl
  | _, _, _, _, _, _, .array _ hs => gives_array _ hs.gives
  | _, _, _, _, _, _, .binary hl hr => (hl.gives.append hr.gives).take rfl rfl (by simp [tempsAll])
  | _, _, _, _, _, _, .unary h => h.gives.take rfl rfl (by simp [tempsAll])
  | _, _, _, _, _, _, .logical hl hr => gives_logical hl.gives hr.gives
  | _, _, _, _, _, _, .ternary hc ha hb => gives_ternary hc.gives ha.gives hb.gives
  | _, _, _, _, _, _, .call hc ha => (hc.gives.append ha.gives).take rfl rfl (by simp)
  | _, _, _, _, _, _, .drop hc ha =>
    ((hc.gives.append ha.gives).mention rfl rfl (by simp)).weaken (by simp [tempsAll, Operand.temps])
  | _, _, _, _, _, _, .new h => h.gives.take rfl rfl (by simp)
  | _, _, _, _, _, _, .index hb hi hc => by
    simpa only [List.append_assoc] using
      (hb.gives.append (hc.gives hi.gives)).take rfl rfl (by simp [tempsAll, Operand.temps])
  | _, _, _, _, _, _, .property h => h.gives.take rfl rfl (by simp [tempsAll, Operand.temps])

theorem EmitsCells.gives : ∀ {cells : List (Option Expr)} {n m : Supply} {xs : List Valued},
    EmitsCells strict ragged cells n xs m → n.Gives (xs.flatMap (·.1)) (xs.map (·.2)) m
  | _, _, _, _, .nil => .nil rfl
  | _, _, _, _, .leaf he hc hr => (hc.gives he.gives).append hr.gives
  | _, _, _, _, .gap hz hr =>
    (Gives.empty.take rfl rfl (by simp [hz])).append hr.gives

theorem EmitsArgs.gives : ∀ {args : List Expr} {n m : Supply} {code : Code} {vs : List Operand},
    EmitsArgs strict ragged args n code vs m → n.Gives code vs m
  | _, _, _, _, _, .nil => .nil rfl
  | _, _, _, _, _, .cons he hr => (he.gives.take rfl rfl (by simp [tempsAll])).append hr.gives

theorem EmitsCallee.gives : ∀ {callee : Expr} {n m : Supply} {code : Code} {vs : List Operand},
    EmitsCallee strict ragged callee n code vs m → n.Gives code vs m
  | _, _, _, _, _, .name => .nil rfl
  | _, _, _, _, _, .own => Gives.empty.take rfl rfl (by simp [tempsAll, Operand.temps])
  | _, _, _, _, _, .method h => h.gives.take rfl rfl (by simp [tempsAll])
  | _, _, _, _, _, .value _ h => h.gives.weaken (by simp [tempsAll])

end

end ThreeAddress
