import ThreeAddress.Proofs.Lowering.Exits
import ThreeAddress.Proofs.Semantics.Machine

namespace ThreeAddress

open Config

variable [DecidableEq V]

/-- From `a` the machine comes to a jump that leads to the target `o`. -/
def Leaves (M : Model V) (code : Code) (n : Nat) (o : Option (Option Label)) (a : Config V)
    (w : World V) : Prop :=
  ∃ l k ts, o = some (some l) ∧ code[k]? = some (.goto l) ∧ Reaches M code n a ⟨k, ts, w⟩

/-- From `a` the machine does what `r` says: it comes to `k`, it comes to a jump, or it takes `fuel`
steps at least. -/
def Follows (M : Model V) (code : Code) (fuel n : Nat) (ex : Exits) (a : Config V) (k : Nat) :
    Option (Exit × World V) → Prop
  | none => Survives M code fuel a
  | some (.normal, w) => ∃ ts, Reaches M code n a ⟨k, ts, w⟩
  | some (.break, w) => Leaves M code n ex.breaks a w
  | some (.continue, w) => Leaves M code n ex.continues a w

section Flow

variable {M : Model V} {code : Code} {fuel m n k e : Nat} {ex : Exits} {a b : Config V}
  {o : Option (Option Label)} {w : World V} {r : Option (Exit × World V)} {x y : Action V}

theorem Leaves.after (h : Leaves M code n o b w) (hr : Reaches M code n a b) :
    Leaves M code n o a w := by
  obtain ⟨l, k, ts, ho, hg, hl⟩ := h
  exact ⟨l, k, ts, ho, hg, hr.trans hl⟩

theorem Leaves.mono (h : Leaves M code n o a w) (hm : m ≤ n) : Leaves M code m o a w := by
  obtain ⟨l, k, ts, ho, hg, hl⟩ := h
  exact ⟨l, k, ts, ho, hg, hl.mono hm⟩

namespace Follows

theorem after (h : Follows M code fuel n ex b k r) (hr : Reaches M code n a b) :
    Follows M code fuel n ex a k r := by
  match r with
  | none => exact hr.survives h
  | some (.normal, w) =>
    obtain ⟨ts, h⟩ := h
    exact ⟨ts, hr.trans h⟩
  | some (.break, w) => exact Leaves.after h hr
  | some (.continue, w) => exact Leaves.after h hr

theorem mono (h : Follows M code fuel n ex a k r) (hm : m ≤ n) : Follows M code fuel m ex a k r := by
  match r with
  | none => exact h
  | some (.normal, w) =>
    obtain ⟨ts, h⟩ := h
    exact ⟨ts, h.mono hm⟩
  | some (.break, w) => exact Leaves.mono h hm
  | some (.continue, w) => exact Leaves.mono h hm

theorem cast (h : Follows M code fuel n ex a k r) (hk : k = e) : Follows M code fuel n ex a e r := by
  rwa [← hk]

theorem seq (h : Follows M code fuel n ex a k (x w))
    (hy : ∀ ts w, Follows M code fuel n ex ⟨k, ts, w⟩ e (y w)) :
    Follows M code fuel n ex a e ((x.seq y) w) := by
  rw [Action.seq]
  match hx : x w with
  | none => rw [hx] at h; exact h
  | some (.normal, w) =>
    rw [hx] at h
    obtain ⟨ts, h⟩ := h
    exact (hy ts w).after h
  | some (.break, w) => rw [hx] at h; exact h
  | some (.continue, w) => rw [hx] at h; exact h

theorem seq_of_jump (h : Follows M code fuel n ex a k (x w))
    (hx : ∀ w', x w ≠ some (.normal, w')) : Follows M code fuel n ex a e ((x.seq y) w) := by
  rw [Action.seq]
  match hr : x w with
  | none => rw [hr] at h; exact h
  | some (.normal, w') => exact absurd hr (hx w')
  | some (.break, w) => rw [hr] at h; exact h
  | some (.continue, w) => rw [hr] at h; exact h

theorem extend (h : Follows M code fuel n ex a k r)
    (he : ∀ ts w, Reaches M code n ⟨k, ts, w⟩ ⟨e, ts, w⟩) : Follows M code fuel n ex a e r := by
  match r with
  | none => exact h
  | some (.normal, w) =>
    obtain ⟨ts, h⟩ := h
    exact ⟨ts, h.trans (he ts w)⟩
  | some (.break, w) => exact h
  | some (.continue, w) => exact h

end Follows

omit [DecidableEq V] in
theorem seq_eq_normal {w' : World V} (h : (x.seq y) w = some (.normal, w')) :
    ∃ w₁, x w = some (.normal, w₁) ∧ y w₁ = some (.normal, w') := by
  rw [Action.seq] at h
  split at h
  next w₁ hx => exact ⟨w₁, hx, h⟩
  next hne => exact absurd h (hne w')

/-- From `a` the machine comes to a place where `Q` holds of what `r` says, or it takes `fuel` steps
at least. -/
def Comes (M : Model V) (code : Code) (fuel n : Nat) (Q : α → Config V → Prop) (a : Config V) :
    Option α → Prop
  | none => Survives M code fuel a
  | some s => ∃ b, Reaches M code n a b ∧ Q s b

theorem Comes.after {Q : α → Config V → Prop} {r : Option α} (h : Comes M code fuel n Q b r)
    (hr : Reaches M code n a b) : Comes M code fuel n Q a r := by
  cases r with
  | none => exact hr.survives h
  | some s =>
    obtain ⟨c, hc, hq⟩ := h
    exact ⟨c, hr.trans hc, hq⟩

/-- A loop whose passes lead from `P` to `P`, or to `Q` when they were the last. Each pass takes a
step, so the machine goes on for as long as the loop does. -/
theorem comes_iterate {pass : α → Option (Bool × α)} {P Q : α → Config V → Prop}
    (h : ∀ s a, P s a → ∃ b, a.step M code = some b ∧ Reaches M code n a b ∧
      Comes M code fuel n (fun s c => if s.1 then P s.2 c else Q s.2 c) b (pass s))
    (hm : m ≤ fuel) {s : α} (ha : P s a) : Comes M code m n Q a (iterate pass m s) := by
  induction m generalizing s a with
  | zero => exact ⟨0, Nat.le_refl _, rfl⟩
  | succ m ih =>
    obtain ⟨b, hs, hb, hp⟩ := h s a ha
    match he : pass s with
    | none =>
      rw [he] at hp
      simp only [iterate, he]
      exact (hp.mono (Nat.le_of_succ_le hm)).step hs
    | some (true, t) =>
      rw [he] at hp
      obtain ⟨c, hc, hp⟩ := hp
      have := (ih (Nat.le_of_succ_le hm) (by simpa using hp)).after hc
      simp only [iterate, he]
      match hi : iterate pass m t with
      | none =>
        rw [hi] at this
        exact this.step hs
      | some u =>
        rw [hi] at this
        exact Comes.after (r := some u) this hb
    | some (false, t) =>
      rw [he] at hp
      obtain ⟨c, hc, hq⟩ := hp
      simp only [iterate, he]
      exact ⟨c, hb.trans hc, by simpa using hq⟩

theorem Leaves.comes_to_label (hn : code.placed.Nodup) (h : Leaves M code n o a w) :
    ∃ l, o = some (some l) ∧
      ∀ k, code[k]? = some (.label l) → ∃ ts, Reaches M code n a ⟨k, ts, w⟩ := by
  obtain ⟨l, j, ts, ho, hg, hr⟩ := h
  exact ⟨l, ho, fun k hk => ⟨ts, hr.trans (reaches_goto hn hg hk)⟩⟩

/-- How a loop that comes to its end is followed. A loop without a label for its end has none. -/
theorem Comes.follows {done : Option Label} {r : Option (World V)}
    (h : Comes M code fuel n (fun w a => done.isSome ∧ ∃ ts, a = ⟨e, ts, w⟩) a r) :
    Follows M code fuel n ex a e (r.map (.normal, ·)) ∧
      ∀ w, r.map (Exit.normal, ·) = some (.normal, w) → done.isSome := by
  cases r with
  | none => exact ⟨h, nofun⟩
  | some w =>
    obtain ⟨_, hr, hd, ts, rfl⟩ := h
    exact ⟨⟨ts, hr⟩, fun _ _ => hd⟩

section Loop

open Lower (place)

variable {b t : Nat} {start : Label} {done next : Option Label} {test : World V → Bool}
  {body : Action V} {f : World V → World V} {ts : Temp → V}

theorem reaches_place (hd : code.At k (place done)) :
    Reaches M code n ⟨k, ts, w⟩ ⟨k + (place done).length, ts, w⟩ := by
  cases done with
  | none => exact .refl _ _
  | some l => exact reaches_label hd.1

theorem Leaves.comes_to_end (hn : code.placed.Nodup) (h : Leaves M code n (some done) a w)
    (hd : code.At e (place done)) :
    done.isSome ∧ ∃ ts, Reaches M code n a ⟨e + (place done).length, ts, w⟩ := by
  obtain ⟨l, ho, hl⟩ := h.comes_to_label hn
  obtain rfl := Option.some.inj ho
  obtain ⟨ts, hr⟩ := hl e hd.1
  exact ⟨rfl, ts, hr.trans (reaches_place hd)⟩

theorem follows_untilBreak {x : Action V} (hn : code.placed.Nodup)
    (h : Follows M code fuel n ⟨some done, ex.continues⟩ a e (x w)) (hd : code.At e (place done)) :
    Follows M code fuel n ex a (e + (place done).length) (x.untilBreak w) := by
  rw [Action.untilBreak]
  match hx : x w with
  | none =>
    rw [hx] at h
    exact h
  | some (.normal, w₁) =>
    rw [hx] at h
    obtain ⟨ts, hr⟩ := h
    exact ⟨ts, hr.trans (reaches_place hd)⟩
  | some (.break, w₁) =>
    rw [hx] at h
    exact (Leaves.comes_to_end hn h hd).2
  | some (.continue, w₁) =>
    rw [hx] at h
    exact h

theorem untilBreak_eq_normal {x : Action V} {w' : World V}
    (h : Follows M code fuel n ⟨some done, o⟩ a e (x w))
    (hx : x.untilBreak w = some (.normal, w')) : done.isSome ∨ x w = some (.normal, w') := by
  rw [Action.untilBreak] at hx
  split at hx
  next w₁ he =>
    rw [he] at h
    obtain ⟨l, _, _, ho, _⟩ := h
    rw [Option.some.inj ho]
    exact .inl rfl
  next => exact .inr hx

theorem follows_loop (hn : code.placed.Nodup) (hk : code[k]? = some (.label start))
    (htest : ∀ ts w, ∃ ts', Reaches M code n ⟨k + 1, ts, w⟩ ⟨if test w then b else e, ts', w⟩)
    (hend : ∀ w, ¬test w → done.isSome)
    (hbody : ∀ ts w, Follows M code fuel n ⟨some done, some next⟩ ⟨b, ts, w⟩ t (body w))
    (hback : ∀ ts w, ∃ ts', Reaches M code n ⟨t, ts, w⟩ ⟨k, ts', f w⟩)
    (hdone : code.At e (place done))
    (hnext : ∀ l, next = some l →
      code[t]? = some (.label l) ∨ code[k]? = some (.label l) ∧ f = id)
    (ex : Exits) (ts : Temp → V) (w : World V) :
    Follows M code fuel n ex ⟨k, ts, w⟩ (e + (place done).length)
        (Action.loop test body (.update f) fuel w) ∧
      ∀ w', Action.loop test body (.update f) fuel w = some (.normal, w') → done.isSome := by
  -- the invariant is to stand at the label of the loop, whatever the temporaries hold
  refine (comes_iterate (P := fun w a => ∃ ts, a = ⟨k, ts, w⟩) ?_ (Nat.le_refl _) ⟨ts, rfl⟩).follows
  rintro w _ ⟨ts, rfl⟩
  refine ⟨_, step_label hk, reaches_label hk, ?_⟩
  obtain ⟨ts₁, hr⟩ := htest ts w
  refine Comes.after ?_ hr
  rw [Action.testedPass]
  by_cases ht : test w
  · rw [if_pos ht, if_pos ht]
    have hb := hbody ts₁ w
    match he : body w with
    | none =>
      rw [he] at hb
      exact hb
    | some (.normal, w) =>
      rw [he] at hb
      obtain ⟨ts₂, hb⟩ := hb
      obtain ⟨ts₃, hc⟩ := hback ts₂ w
      exact ⟨_, hb.trans hc, ts₃, rfl⟩
    | some (.break, w) =>
      rw [he] at hb
      obtain ⟨hd, ts₂, hc⟩ := Leaves.comes_to_end hn hb hdone
      exact ⟨_, hc, hd, ts₂, rfl⟩
    | some (.continue, w) =>
      rw [he] at hb
      obtain ⟨l, ho, hl⟩ := Leaves.comes_to_label hn hb
      -- `continue` leads to the step if there is one, and straight to the test if there is none
      obtain hj | ⟨hj, rfl⟩ := hnext l (Option.some.inj ho)
      · obtain ⟨ts₂, hc⟩ := hl t hj
        obtain ⟨ts₃, hd⟩ := hback ts₂ w
        exact ⟨_, hc.trans hd, ts₃, rfl⟩
      · obtain ⟨ts₂, hc⟩ := hl k hj
        exact ⟨_, hc, ts₂, rfl⟩
  · rw [if_neg ht, if_neg ht]
    exact ⟨_, reaches_place hdone, hend w ht, ts₁, rfl⟩

theorem follows_doWhile (hn : code.placed.Nodup) (hk : code[k]? = some (.label start))
    (hbody : ∀ ts w, Follows M code fuel n ⟨some done, some (some start)⟩ ⟨k + 1, ts, w⟩ t (body w))
    (htest : ∀ ts w, ∃ ts', Reaches M code n ⟨t, ts, w⟩ ⟨if test w then k else e, ts', w⟩)
    (hdone : code.At e (place done)) (ex : Exits) (ts : Temp → V) (w : World V) :
    Follows M code fuel n ex ⟨k, ts, w⟩ (e + (place done).length)
      (Action.doWhile body test fuel w) := by
  have h : Comes M code fuel n
      (fun w a => (some start).isSome ∧ ∃ ts, a = ⟨e + (place done).length, ts, w⟩) ⟨k, ts, w⟩
      (iterate (Action.bodyPass body test) fuel w) := by
    refine comes_iterate (P := fun w a => ∃ ts, a = ⟨k, ts, w⟩) ?_ (Nat.le_refl _) ⟨ts, rfl⟩
    rintro w _ ⟨ts, rfl⟩
    refine ⟨_, step_label hk, reaches_label hk, ?_⟩
    rw [Action.bodyPass]
    have hb := hbody ts w
    match he : body w with
    | none =>
      rw [he] at hb
      exact hb
    | some (.normal, w) =>
      rw [he] at hb
      obtain ⟨ts₁, hb⟩ := hb
      obtain ⟨ts₂, hr⟩ := htest ts₁ w
      by_cases ht : test w
      · rw [if_pos ht] at hr
        exact ⟨_, hb.trans hr, by simp [ht]⟩
      · rw [if_neg ht] at hr
        exact ⟨_, hb.trans (hr.trans (reaches_place hdone)), by simp [ht]⟩
    | some (.break, w) =>
      rw [he] at hb
      obtain ⟨_, ts₁, hr⟩ := Leaves.comes_to_end hn hb hdone
      exact ⟨_, hr, rfl, ts₁, rfl⟩
    | some (.continue, w) =>
      rw [he] at hb
      obtain ⟨l, ho, hl⟩ := Leaves.comes_to_label hn hb
      cases ho
      obtain ⟨ts₁, hr⟩ := hl k hk
      exact ⟨_, hr, ts₁, rfl⟩
  exact h.follows.1

theorem reaches_advance {i : Temp} (hn : code.placed.Nodup) (hi : n < i.number)
    (c₁ : code[k]? = some (.label start)) (c₂ : code.At t (place next))
    (c₃ : code[t + (place next).length]? = some (.binary (.temp i) (.temp i) .add (.int 1)))
    (c₄ : code[t + (place next).length + 1]? = some (.goto start)) :
    Reaches M code n ⟨t, ts, w⟩
      ⟨k, Function.update ts i (M.binary .add (ts i) (M.int 1)), w⟩ :=
  (reaches_place c₂).trans ((reaches_binary c₃ hi).trans (reaches_goto hn c₄ c₁))

theorem comes_foreach {i bound check value : Temp} {item collection : String} {finish : Label}
    (hn : code.placed.Nodup) (hi : n < i.number) (hib : i.number < bound.number)
    (hc : bound.number < check.number) (hv : bound.number < value.number)
    (c₁ : code[k]? = some (.label start))
    (c₂ : code[k + 1]? = some (.binary (.temp check) (.temp i) .lt (.temp bound)))
    (c₃ : code[k + 2]? = some (.branch (.temp check) .eq (.int 0) finish))
    (c₄ : code[k + 3]? = some (.assign (.temp value) (.element (.var collection) [.temp i])))
    (c₅ : code[k + 4]? = some (.assign (.var item) (.temp value)))
    (hbody : ∀ ts w, Follows M code fuel bound.number ⟨some (some finish), some next⟩
      ⟨k + 5, ts, w⟩ t (body w))
    (c₆ : code.At t (place next))
    (c₇ : code[t + (place next).length]? = some (.binary (.temp i) (.temp i) .add (.int 1)))
    (c₈ : code[t + (place next).length + 1]? = some (.goto start))
    (c₉ : code[e]? = some (.label finish)) (ts : Temp → V) (w : World V) :
    Comes M code fuel n (fun s a => ∃ ts, a = ⟨e + 1, ts, s.2⟩) ⟨k, ts, w⟩
      (iterate (Action.elementPass M item collection (ts bound) body) fuel (ts i, w)) := by
  -- the index counts along with the source, and the bound is never written again
  refine comes_iterate (P := fun s a => ∃ ts', a = ⟨k, ts', s.2⟩ ∧ ts' i = s.1 ∧ ts' bound = ts bound)
    ?_ (Nat.le_refl _) ⟨ts, rfl, rfl, rfl⟩
  rintro ⟨_, w⟩ _ ⟨ts₀, rfl, rfl, hb⟩
  refine ⟨_, step_label c₁, reaches_label c₁, ?_⟩
  have hne : bound ≠ i := by
    rintro rfl
    omega
  have hm : n ≤ bound.number := by omega
  have r₁ : Reaches M code bound.number ⟨k + 1, ts₀, w⟩ _ :=
    (reaches_binary c₂ hc).trans (reaches_branch hn c₃ c₉)
  rw [Operand.read, Operand.read, Operand.read, Operand.read, Function.update_self, hb] at r₁
  rw [Action.elementPass]
  by_cases hz : M.binary .lt (ts₀ i) (ts bound) = M.int 0
  · rw [if_pos (Relation.holds_eq.2 hz)] at r₁
    rw [if_pos hz]
    exact ⟨_, (r₁.trans (reaches_label c₉)).mono hm, _, rfl⟩
  · rw [if_neg (mt Relation.holds_eq.1 hz)] at r₁
    rw [if_neg hz]
    have r₂ := r₁.trans ((reaches_assign_temp c₄ hv).trans (reaches_assign_var c₅))
    have hic : i ≠ check := by
      rintro rfl
      omega
    simp only [Operand.read, readAll, Function.update_self, Function.update_of_ne hic] at r₂
    -- the body takes only temporaries that come after the bound, so both are what they were
    have hnext (ts₁ : Temp → V) (w₁ : World V)
        (hr : Reaches M code bound.number ⟨k + 1, ts₀, w⟩ ⟨t, ts₁, w₁⟩) :
        ∃ a, Reaches M code n ⟨k + 1, ts₀, w⟩ a ∧ ∃ ts', a = ⟨k, ts', w₁⟩ ∧
          ts' i = M.binary .add (ts₀ i) (M.int 1) ∧ ts' bound = ts bound := by
      refine ⟨_, (hr.mono hm).trans (reaches_advance hn hi c₁ c₆ c₇ c₈), _, rfl, ?_, ?_⟩
      · rw [Function.update_self, hr.temps_eq (Nat.le_of_lt hib)]
      · rw [Function.update_of_ne hne, hr.temps_eq (Nat.le_refl _), hb]
    have hf := (hbody _ _).after r₂
    match he : body (w.set item (M.element (w.store collection) [ts₀ i])) with
    | none =>
      rw [he] at hf
      exact hf
    | some (.normal, w₁) =>
      rw [he] at hf
      obtain ⟨ts₁, hr⟩ := hf
      exact hnext ts₁ w₁ hr
    | some (.break, w₁) =>
      rw [he] at hf
      obtain ⟨l, ho, hl⟩ := Leaves.comes_to_label hn hf
      cases ho
      obtain ⟨ts₁, hr⟩ := hl e c₉
      exact ⟨_, (hr.trans (reaches_label c₉)).mono hm, ts₁, rfl⟩
    | some (.continue, w₁) =>
      rw [he] at hf
      obtain ⟨l, ho, hl⟩ := Leaves.comes_to_label hn hf
      cases ho
      obtain ⟨ts₁, hr⟩ := hl t c₆.1
      exact hnext ts₁ w₁ hr

end Loop

end Flow

end ThreeAddress
