import ThreeAddress.Proofs.Effects.Evaluation
import ThreeAddress.Proofs.Normal.Program

namespace ThreeAddress

open Lowering Lower Memory

namespace Code

variable {V : Type u} [DecidableEq V] {M : Meaning V} {code seg first second third : Code}
  {m n k l : Supply} {i : Instruction}

/-- The machine runs through the piece, and leaves alone the temporaries taken before it. -/
structure Spans (M : Meaning V) (code : Code) (n : Supply) (seg : Code) (m : Supply) : Prop where
  le : n.taken ≤ m.taken
  carries : Carries M code seg (Agrees n.taken)

namespace Spans

theorem nil : Spans M code n [] n where
  le := Nat.le_refl _
  carries := Carries.nil.mono fun a _ h => h ▸ .refl _ a

theorem weaken (h : Spans M code n seg m) (hm : m.taken ≤ k.taken) : Spans M code n seg k :=
  ⟨Nat.le_trans h.le hm, h.carries⟩

theorem append (h : Spans M code n first m) (g : Spans M code m second k) :
    Spans M code n (first ++ second) k where
  le := Nat.le_trans h.le g.le
  carries := (h.carries.append g.carries).mono fun _ _ ⟨_, hb, hc⟩ => hb.trans (hc.mono h.le)

theorem one (hm : n.taken ≤ m.taken)
    (h : ∀ a, ∃ b, i.effect M a = some b ∧ Agrees n.taken a b) : Spans M code n [i] m where
  le := hm
  carries k hk a := by
    obtain ⟨b, hb, ha⟩ := h a
    exact ⟨b, .one (step_effect hk.1 hb) (Nat.le_refl k) (Nat.lt_succ_self k), ha⟩

theorem take (h : Spans M code n seg m)
    (hi : ∀ a, ∃ b v, i.effect M a = some (b.set m.next v) ∧ Agrees m.taken a b) :
    Spans M code n (seg ++ [i]) m.take := by
  refine h.append (.one (Nat.le_succ _) fun a => ?_)
  obtain ⟨b, v, hb, ha⟩ := hi a
  exact ⟨_, hb, ha.trans (.set (Nat.lt_succ_self _))⟩

theorem stores {is : List Instruction}
    (h : ∀ i ∈ is, ∀ a, ∃ b, i.effect M a = some b ∧ Agrees n.taken a b) : Spans M code n is n := by
  induction is with
  | nil => exact .nil
  | cons i rest ih =>
    exact (one (Nat.le_refl _) (h i (by simp))).append (ih fun i hi => h i (by simp [hi]))

theorem shortCircuit {left right : Operand} {relation : Relation} {j : Int} {done : Label}
    (hn : code.placed.Nodup) (h : Spans M code n first m) (g : Spans M code m.take second k) :
    Spans M code n (first ++ [.assign (.temp m.next) (.int j), .branch left relation (.int 0) done]
      ++ second ++ [.assign (.temp m.next) right, .label done]) k where
  le := Nat.le_trans h.le (Nat.le_trans (Nat.le_succ _) g.le)
  carries := by
    refine (Carries.shortCircuit hn h.carries g.carries).mono fun a d ⟨b, hb, hd⟩ => ?_
    have ht : n.taken < m.next.number := Nat.lt_succ_of_le h.le
    have hs : Agrees n.taken a (b.set m.next (M.int j)) := hb.trans (.set ht)
    split at hd
    · exact hd ▸ hs
    · obtain ⟨c, hc, rfl⟩ := hd
      exact (hs.trans (hc.mono (Nat.le_succ_of_le h.le))).trans (.set ht)

theorem choose {v left right : Operand} {yes no done : Label} (hn : code.placed.Nodup)
    (h : Spans M code n first m) (f : Spans M code m second k) (g : Spans M code k.take third l) :
    Spans M code n (first ++ [.branch v .eq (.bool true) yes, .goto no, .label yes] ++ second
      ++ [.assign (.temp k.next) left, .goto done, .label no] ++ third
      ++ [.assign (.temp k.next) right, .label done]) l where
  le := Nat.le_trans h.le (Nat.le_trans f.le (Nat.le_trans (Nat.le_succ _) g.le))
  carries := by
    have hk : n.taken ≤ k.taken := Nat.le_trans h.le f.le
    have ht : n.taken < k.next.number := Nat.lt_succ_of_le hk
    refine (Carries.choose hn h.carries f.carries g.carries).mono fun a d ⟨b, hb, hd⟩ => ?_
    split at hd
    · obtain ⟨c, hc, rfl⟩ := hd
      exact (hb.trans (hc.mono h.le)).trans (.set ht)
    · obtain ⟨c, hc, rfl⟩ := hd
      exact (hb.trans (hc.mono (Nat.le_succ_of_le hk))).trans (.set ht)

end Spans

end Code

open Code

section Emits

variable {V : Type u} [DecidableEq V] {M : Meaning V} {code : Code} {strict : Prop}
  {ragged : RaggedArrays}

theorem Copied.spans {n m : Supply} {seg : Code} {v w : Operand} (h : Copied n v seg w m) :
    Spans M code n seg m := by
  cases h with
  | kept => exact .nil
  | copied => exact Spans.nil.take fun a => ⟨a, _, rfl, .refl _ a⟩

mutual

theorem Expr.Emits.spans (hn : code.placed.Nodup) : ∀ {d : Demand} {e : Expr} {n m : Supply}
    {seg : Code} {v : Operand}, e.Emits strict ragged d n seg v m → Spans M code n seg m
  | _, _, _, _, _, _, .constant _ => Spans.nil.take fun a => ⟨a, _, rfl, .refl _ a⟩
  | _, _, _, _, _, _, .ident | _, _, _, _, _, _, .this => .nil
  | _, _, _, _, _, _, .array _ hc => by
    refine ((hc.spans hn).append (.stores fun i hi a => ?_)).weaken (Nat.le_succ _)
    obtain ⟨j, hj, rfl⟩ := List.mem_iff_getElem.1 hi
    rw [List.getElem_zipWith]
    exact ⟨_, rfl, .perform _⟩
  | _, _, _, _, _, _, .binary hl hr =>
    ((hl.spans hn).append (hr.spans hn)).take fun a => ⟨a, _, rfl, .refl _ a⟩
  | _, _, _, _, _, _, .unary h => (h.spans hn).take fun a => ⟨a, _, rfl, .refl _ a⟩
  | _, _, _, _, _, _, .logical hl hr => .shortCircuit hn (hl.spans hn) (hr.spans hn)
  | _, _, _, _, _, _, .ternary hc ha hb => .choose hn (hc.spans hn) (ha.spans hn) (hb.spans hn)
  | _, _, _, _, _, _, .call hc ha =>
    ((hc.spans hn).append (ha.spans hn)).take fun a => ⟨_, _, rfl, .perform _⟩
  | _, _, _, _, _, _, .drop hc ha =>
    ((hc.spans hn).append (ha.spans hn)).append (.one (Nat.le_refl _) fun a => ⟨_, rfl, .perform _⟩)
  | _, _, _, _, _, _, .new ha => (ha.spans hn).take fun a => ⟨_, _, rfl, .perform _⟩
  | _, _, _, _, _, _, .index hb hi hc =>
    (((hb.spans hn).append (hi.spans hn)).append hc.spans).take fun a => ⟨a, _, rfl, .refl _ a⟩
  | _, _, _, _, _, _, .property h => (h.spans hn).take fun a => ⟨a, _, rfl, .refl _ a⟩

theorem EmitsCells.spans (hn : code.placed.Nodup) : ∀ {cells : List (Option Expr)} {n m : Supply}
    {xs : List Valued}, EmitsCells strict ragged cells n xs m →
      Spans M code n (xs.flatMap (·.1)) m
  | _, _, _, _, .nil => .nil
  | _, _, _, _, .leaf h hc hr => ((h.spans hn).append hc.spans).append (hr.spans hn)
  | _, _, _, _, .gap _ hr =>
    (Spans.nil.take fun a => ⟨a, _, rfl, .refl _ a⟩).append (hr.spans hn)

theorem EmitsArgs.spans (hn : code.placed.Nodup) : ∀ {es : List Expr} {n m : Supply} {seg : Code}
    {params : List Operand}, EmitsArgs strict ragged es n seg params m → Spans M code n seg m
  | _, _, _, _, _, .nil => .nil
  | _, _, _, _, _, .cons h hr =>
    ((h.spans hn).take fun a => ⟨a, _, rfl, .refl _ a⟩).append (hr.spans hn)

theorem EmitsCallee.spans (hn : code.placed.Nodup) : ∀ {callee : Expr} {n m : Supply} {seg : Code}
    {receiver : List Operand}, EmitsCallee strict ragged callee n seg receiver m →
      Spans M code n seg m
  | _, _, _, _, _, .name => .nil
  | _, _, _, _, _, .own => Spans.nil.take fun a => ⟨a, _, rfl, .refl _ a⟩
  | _, _, _, _, _, .method h => (h.spans hn).take fun a => ⟨a, _, rfl, .refl _ a⟩
  | _, _, _, _, _, .value _ h => h.spans hn

end

def Expr.storage? (p : Viewpoint) : Expr → Option String
  | .ident name _ => some (p.place name)
  | .this _ => some "this"
  | _ => none

theorem Expr.Emits.exists_temp {e : Expr} {p : Viewpoint} {n m : Supply} {seg : Code} {v : Operand}
    (h : e.Emits strict ragged .value n seg v m) (he : e.storage? p = none) :
    ∃ t : Temp, v = .temp t ∧ t.number ≤ m.taken := by
  cases h with
  | ident | this => cases he
  | logical _ hr => exact ⟨_, rfl, hr.freshParams.le⟩
  | ternary _ _ hb => exact ⟨_, rfl, hb.freshParams.le⟩
  | _ => exact ⟨_, rfl, Nat.le_refl _⟩

end Emits

theorem Expr.storage?_var {e : Expr} {c : Context} {s s' : State} {x : Valued} {name : String}
    (h : Runs (e.lower .value) c s x s') (he : e.storage? (.of c s.table) = some name) :
    x.2 = .var name := by
  cases e with
  | ident there span =>
    obtain ⟨v, hv, rfl⟩ := Expr.runs_ident.1 h
    rw [nameOperand_var hv]
    exact congrArg _ (Option.some.inj he)
  | this span =>
    obtain ⟨rfl, rfl⟩ := Expr.runs_this.1 h
    exact congrArg _ (Option.some.inj he)
  | _ => cases he

/-- An operator is applied to the values that its operands have once both have been run. That of the
left one is the value from before the right one, unless the left one is nothing but a name, whose
storage some instruction of the right one changes. -/
theorem Expr.binary_operands {V : Type u} [DecidableEq V] {l r : Expr} {op : BinaryOp} {span : Span}
    {demand : Demand} {c : Context} {s s' : State} {code : Code} {v : Operand}
    (h : Runs ((Expr.binary l op r span).lower demand) c s (code, v) s') :
    ∃ first left s₁ second right s₂ t, Runs (l.lower .value) c s (first, left) s₁ ∧
      Runs (r.lower .value) c s₁ (second, right) s₂ ∧ v = .temp t ∧
      code = first ++ second ++ [.binary v left op right] ∧
      ∀ (M : Meaning V) (a : Memory V), ∃ b d,
        Code.RunsIn M code 0 first.length (0, a) (first.length, b) ∧
        Code.RunsIn M code first.length (first.length + second.length) (first.length, b)
          (first.length + second.length, d) ∧
        code.step M (first.length + second.length, d) =
          some (code.length, d.set t (M.binary op (d.value M left) (d.value M right))) ∧
        match l.storage? (.of c s.table) with
        | none => d.value M left = b.value M left
        | some name => left = .var name ∧
          ((∀ i ∈ second, i.Spares M name) → d.value M left = b.value M left) := by
  have hn : code.placed.Nodup := (Expr.lower_places _ _ h).nodup
  rw [Expr.lower] at h
  simp only [runs_bind, runs_freshTemp, runs_pure, Prod.exists, Prod.mk.injEq] at h
  obtain ⟨first, left, s₁, h₁, second, right, s₂, h₂, _, _, ⟨_, rfl, rfl⟩, ⟨rfl, rfl⟩, rfl⟩ := h
  refine ⟨first, left, s₁, second, right, s₂, _, h₁, h₂, rfl, rfl, fun M a => ?_⟩
  obtain ⟨_, he₁⟩ := (l.emits .value : l.Obeys False _ .value) h₁ rfl False.elim []
  obtain ⟨_, he₂⟩ := (r.emits .value : r.Obeys False _ .value) h₂ rfl False.elim []
  have hc := (first ++ second ++ [Instruction.binary (.temp s₂.temp) left op right] : Code).at_self
  simp only [at_append, at_cons, at_nil, and_true, Nat.zero_add] at hc
  obtain ⟨⟨c₁, c₂⟩, c₃⟩ := hc
  obtain ⟨b, hb, _⟩ := (he₁.spans hn).carries c₁ a
  obtain ⟨d, hd, ha⟩ := (he₂.spans hn).carries c₂ b
  rw [Crosses, Nat.zero_add] at hb
  refine ⟨b, d, hb, hd, ?_, ?_⟩
  · rw [List.length_append] at c₃
    rw [step_effect c₃ rfl]
    simp [Nat.add_assoc]
  · cases hl : l.storage? (.of c s.table) with
    | none =>
      obtain ⟨t, rfl, ht⟩ := he₁.exists_temp hl
      exact ha t ht
    | some name =>
      have hv : left = .var name := Expr.storage?_var h₁ hl
      exact ⟨hv, fun hs => hv ▸ hd.store_eq c₂ hs⟩

def Meaning.bumping : Meaning Int where
  int := id
  str _ := 0
  null := 0
  binary op x y := if op = .sub then x - y else x + y
  unary _ x := -x
  element _ _ _ := 0
  field _ _ _ := 0
  answer _ store _ := (1, Function.update store "x" 5)

def Lowering.State.bumping : State where
  ledger := { layout := .independent }
  table := ⟨[⟨.origin, .global, none, [],
    [("x", .variable), ("bump", .function)].map fun (name, kind) =>
      .ofDeclaration { name, type := .unknown, kind, span := .unplaced }⟩]⟩

def Expr.bump : Expr := .call (.ident "bump" .unplaced) [] .unplaced

theorem Expr.binary_operands_sum :
    let l : Expr := .binary (.ident "x" .unplaced) .add (.int 1 .unplaced) .unplaced
    let code : Code := [.assign (.temp ⟨1⟩) (.int 1),
      .binary (.temp ⟨2⟩) (.var "x") .add (.temp ⟨1⟩), .callInto (.temp ⟨3⟩) "bump" [],
      .binary (.temp ⟨4⟩) (.temp ⟨2⟩) .sub (.temp ⟨3⟩)]
    let a : Memory Int := ⟨fun _ => 0, fun _ => 2, []⟩
    ∃ s', Runs ((Expr.binary l .sub bump .unplaced).lower .value) { options := {} } .bumping
        (code, .temp ⟨4⟩) s' ∧
      ∃ first left second right t, code = first ++ second ++ [.binary (.temp t) left .sub right] ∧
        ∃ b d, Code.RunsIn .bumping code 0 first.length (0, a) (first.length, b) ∧
          Code.RunsIn .bumping code first.length (first.length + second.length) (first.length, b)
            (first.length + second.length, d) ∧
          code.step .bumping (first.length + second.length, d) =
            some (4, d.set t (d.value .bumping left - d.value .bumping right)) ∧
          d.value .bumping left = b.value .bumping left := by
  intro l code a
  have hf : Prod.fst <$> ((Expr.binary l .sub bump .unplaced).lower .value { options := {} }
      .bumping).toOption = some (code, .temp ⟨4⟩) := by
    rfl
  obtain ⟨⟨_, s'⟩, h, rfl⟩ := exists_of_check hf
  obtain ⟨first, left, s₁, second, right, s₂, t, _, _, hv, hc, hr⟩ :=
    Expr.binary_operands (V := Int) h
  obtain ⟨b, d, hb, hd, hs, hl⟩ := hr .bumping a
  exact ⟨s', h, first, left, second, right, t, hv ▸ hc, b, d, hb, hd, hs, hl⟩

/-- In `x - bump()`, the difference is taken from the new value of `x`. -/
theorem Expr.late_operand :
    let code : Code := [.callInto (.temp ⟨1⟩) "bump" [],
      .binary (.temp ⟨2⟩) (.var "x") .sub (.temp ⟨1⟩)]
    let a : Memory Int := ⟨fun _ => 0, fun _ => 2, []⟩
    (∃ s', Runs ((Expr.binary (.ident "x" .unplaced) .sub bump .unplaced).lower .value)
      { options := {} } .bumping (code, .temp ⟨2⟩) s') ∧
    a.value .bumping (.var "x") = 2 ∧
    ∃ d, Code.RunsIn .bumping code 0 1 (0, a) (1, d) ∧
      code.step .bumping (1, d) = some (2, d.set ⟨2⟩ (Meaning.bumping.binary .sub 5 1)) ∧
      Meaning.bumping.binary .sub 5 1 ≠ Meaning.bumping.binary .sub 2 1 := by
  intro code a
  let d := (a.perform .bumping (.call "bump" [])).set ⟨1⟩ 1
  have hd : Code.RunsIn .bumping code 0 1 (0, a) (1, d) := .one rfl (Nat.le_refl 0) Nat.one_pos
  have hf : Prod.fst <$> ((Expr.binary (.ident "x" .unplaced) .sub bump .unplaced).lower .value
      { options := {} } .bumping).toOption = some (code, .temp ⟨2⟩) := by
    rfl
  obtain ⟨⟨_, s'⟩, h, rfl⟩ := exists_of_check hf
  exact ⟨⟨s', h⟩, rfl, d, hd, rfl, by decide⟩

end ThreeAddress
