import ThreeAddress.Proofs.Normal.Statements
import ThreeAddress.Proofs.Emission.Statements
import ThreeAddress.Proofs.Typing.Rules

namespace ThreeAddress

open Lower Supply

def Instruction.params : Instruction → List Operand
  | .call _ params | .callInto _ _ params | .new _ _ params => params
  | _ => []

def Instruction.acts (i : Instruction) : Bool := !i.defs.isEmpty || !i.params.isEmpty

theorem Instruction.not_acts {i : Instruction} : i.acts = false ↔ i.defs = [] ∧ i.params = [] := by
  simp only [acts, Bool.or_eq_false_iff, Bool.not_eq_false', List.isEmpty_iff]

@[simp] theorem filter_place (l : Option Label) : (place l).filter Instruction.acts = [] := by
  cases l <;> rfl

namespace Code

def params (code : Code) : List Operand := code.flatMap Instruction.params

def writers (code : Code) (t : Temp) : Nat := code.countP (t ∈ ·.defs)

variable {a b code : Code} {t : Temp}

@[simp] theorem params_append : (a ++ b).params = a.params ++ b.params := List.flatMap_append

@[simp] theorem writers_append : (a ++ b).writers t = a.writers t + b.writers t := List.countP_append

theorem params_filter (code : Code) : Code.params (code.filter Instruction.acts) = code.params := by
  induction code with
  | nil => rfl
  | cons i rest ih =>
    have hc : params (i :: rest) = i.params ++ params rest := List.flatMap_cons
    cases hi : i.acts with
    | true =>
      rw [List.filter_cons_of_pos hi, hc, ← ih]
      exact List.flatMap_cons
    | false =>
      rw [List.filter_cons_of_neg (by simp [hi]), hc, ih, (Instruction.not_acts.1 hi).2, List.nil_append]

theorem writers_filter (code : Code) (t : Temp) :
    Code.writers (code.filter Instruction.acts) t = code.writers t := by
  rw [writers, List.countP_filter, writers]
  refine List.countP_congr fun i _ => ?_
  cases hi : i.acts with
  | true => simp only [Bool.and_true]
  | false => simp only [(Instruction.not_acts.1 hi).1, List.not_mem_nil,
      decide_false, Bool.and_false]

theorem writers_eq_zero : code.writers t = 0 ↔ ∀ i ∈ code, t ∉ i.defs := by
  simp only [writers, List.countP_eq_zero, decide_eq_true_eq]

end Code

/-- Of the temporaries that are taken from `n` to `m`, and of no others, are those that the code writes.
What it hands to calls are temporaries, each of them once and each written once; so are `ts`, which
are still to be handed over. -/
structure Supply.FreshParams (n : Supply) (code : Code) (ts : List Temp) (m : Supply) : Prop where
  le : n.taken ≤ m.taken
  own : ∀ i ∈ code, ∀ t ∈ i.defs, n.taken < t.number ∧ t.number ≤ m.taken
  params : ∃ us, code.params = us.map .temp ∧ (us ++ ts).Nodup ∧
    ∀ t ∈ us ++ ts, code.writers t = 1

namespace Supply.FreshParams

variable {n m k : Supply} {a b code : Code} {ts us : List Temp} {i j : Instruction} {t : Temp}

theorem writers (h : n.FreshParams code ts m) (ht : t.number ≤ n.taken ∨ m.taken < t.number) :
    code.writers t = 0 := by
  refine Code.writers_eq_zero.2 fun i hi hd => ?_
  have := h.own i hi t hd
  omega

theorem number (h : n.FreshParams code ts m) (ht : code.writers t = 1) :
    n.taken < t.number ∧ t.number ≤ m.taken := by
  have hw : code.writers t ≠ 0 := by omega
  rw [Ne, Code.writers_eq_zero] at hw
  push Not at hw
  obtain ⟨i, hi, hd⟩ := hw
  exact h.own i hi t hd

theorem congr (h : n.FreshParams a ts m) (he : b.filter Instruction.acts = a.filter Instruction.acts) :
    n.FreshParams b ts m := by
  have hw (t : Temp) : Code.writers b t = a.writers t := by
    rw [← Code.writers_filter, he, Code.writers_filter]
  have hp : Code.params b = a.params := by rw [← Code.params_filter, he, Code.params_filter]
  refine ⟨h.le, fun i hi t ht => ?_, by simpa only [hw, hp] using h.params⟩
  have hm : i ∈ b.filter Instruction.acts := by
    cases ha : i.acts with
    | true => exact List.mem_filter.2 ⟨hi, ha⟩
    | false =>
      rw [(Instruction.not_acts.1 ha).1] at ht
      cases ht
  rw [he] at hm
  exact h.own i (List.mem_of_mem_filter hm) t ht

theorem empty : n.FreshParams [] [] n where
  le := Nat.le_refl _
  own := nofun
  params := ⟨[], rfl, List.nodup_nil, nofun⟩

theorem plain (h : ∀ i ∈ code, i.acts = false) : n.FreshParams code [] n :=
  empty.congr (List.filter_eq_nil_iff.2 fun i hi => by simp [h i hi])

theorem mono (h : n.FreshParams code ts m) (hk : m.taken ≤ k.taken) : n.FreshParams code ts k where
  le := Nat.le_trans h.le hk
  own i hi t ht := ⟨(h.own i hi t ht).1, Nat.le_trans (h.own i hi t ht).2 hk⟩
  params := h.params

theorem append (h : n.FreshParams a ts m) (g : m.FreshParams b us k) : n.FreshParams (a ++ b) (ts ++ us) k where
  le := Nat.le_trans h.le g.le
  own i hi t ht := by
    have := h.le
    have := g.le
    obtain hi | hi := List.mem_append.1 hi
    · have := h.own i hi t ht
      omega
    · have := g.own i hi t ht
      omega
  params := by
    obtain ⟨vs, hv, hn, hc⟩ := h.params
    obtain ⟨ws, hw, hn', hc'⟩ := g.params
    refine ⟨vs ++ ws, by simp [hv, hw], ?_, ?_⟩
    · have apart : (vs ++ ts ++ (ws ++ us)).Nodup := by
        refine List.nodup_append.2 ⟨hn, hn', ?_⟩
        rintro t ht _ hu rfl
        have := h.number (hc t ht)
        have := g.number (hc' t hu)
        omega
      refine (List.Perm.nodup_iff ?_).1 apart
      rw [List.append_assoc, List.append_assoc]
      exact (List.perm_append_comm_assoc ..).append_left _
    · intro t ht
      have ht : t ∈ vs ++ ts ∨ t ∈ ws ++ us := by
        simp only [List.mem_append] at ht ⊢
        tauto
      rw [Code.writers_append]
      obtain ht | ht := ht
      · rw [hc t ht, g.writers (.inl (h.number (hc t ht)).2)]
      · rw [hc' t ht, h.writers (.inr (g.number (hc' t ht)).1)]

theorem drop (h : n.FreshParams code ts m) : n.FreshParams code [] m where
  le := h.le
  own := h.own
  params := by
    obtain ⟨us, hu, hn, hc⟩ := h.params
    refine ⟨us, hu, by simpa using (List.nodup_append.1 hn).1, fun t ht => hc t ?_⟩
    exact List.mem_append_left _ (by simpa using ht)

theorem copy (hd : i.defs = [n.next]) (hp : i.params = []) : n.FreshParams [i] [n.next] n.take where
  le := Nat.le_succ _
  own := by simp [hd, -Instruction.defs]
  params := ⟨[], by simp [Code.params, hp], by simp, by simp [Code.writers, hd, -Instruction.defs]⟩

theorem write (h : n.FreshParams code ts m) (hd : i.defs = [m.next]) (hp : i.params = []) :
    n.FreshParams (code ++ [i]) ts m.take := by
  simpa using h.append (copy hd hp).drop

theorem mention (h : n.FreshParams code ts m) (hd : i.defs = []) (hp : i.params = []) :
    n.FreshParams (code ++ [i]) ts m := by
  simpa using h.append (plain (List.forall_mem_singleton.2 (Instruction.not_acts.2 ⟨hd, hp⟩)))

theorem call (h : n.FreshParams code ts m) (hp : i.params = ts.map .temp) (hk : m.taken ≤ k.taken)
    (hd : ∀ t ∈ i.defs, m.taken < t.number ∧ t.number ≤ k.taken) : n.FreshParams (code ++ [i]) [] k where
  le := Nat.le_trans h.le hk
  own j hj t ht := by
    have := h.le
    obtain hj | hj := List.mem_append.1 hj
    · have := h.own j hj t ht
      omega
    · have := hd t (List.mem_singleton.1 hj ▸ ht)
      omega
  params := by
    obtain ⟨us, hu, hn, hc⟩ := h.params
    have hi : Code.params [i] = ts.map .temp := by simp [Code.params, hp]
    refine ⟨us ++ ts, by simp [hu, hi], by simpa using hn, fun t ht => ?_⟩
    have ht := hc t (by simpa using ht)
    have hi : Code.writers [i] t = 0 := Code.writers_eq_zero.2 fun j hj hdj => by
      have := hd t (List.mem_singleton.1 hj ▸ hdj)
      have := h.number ht
      omega
    rw [Code.writers_append, hi, ht]

theorem again (h : n.FreshParams a [] m) (g : m.take.FreshParams b [] k) (hi : i.defs = [m.next])
    (hi' : i.params = []) (hj : j.defs = [m.next]) (hj' : j.params = []) :
    n.FreshParams (a ++ [i] ++ b ++ [j]) [] k := by
  have front : n.FreshParams (a ++ [i] ++ b) [] k := by simpa using (h.write hi hi').append g
  have params : Code.params [j] = [] := by simp [Code.params, hj']
  refine ⟨front.le, ?_, ?_⟩
  · intro i' hm t ht
    obtain hm | hm := List.mem_append.1 hm
    · exact front.own i' hm t ht
    · have hn : n.taken ≤ m.taken := h.le
      have hk : m.taken + 1 ≤ k.taken := g.le
      rw [List.mem_singleton.1 hm, hj, List.mem_singleton] at ht
      rw [ht]
      exact ⟨Nat.lt_succ_of_le hn, hk⟩
  · obtain ⟨us, hu, hn, hc⟩ := front.params
    refine ⟨us, by rw [Code.params_append, params, hu, List.append_nil], hn, fun t ht => ?_⟩
    have apart : t ≠ m.next := by
      rintro rfl
      have hm : Operand.temp m.next ∈ (a ++ [i] ++ b : Code).params := by
        rw [hu]
        exact List.mem_map_of_mem (by simpa using ht)
      obtain ⟨vs, hv, _, hcv⟩ := h.params
      obtain ⟨ws, hw, _, hcw⟩ := g.params
      have hi' : Code.params [i] = [] := by simp [Code.params, hi']
      rw [Code.params_append, Code.params_append, hv, hw, hi'] at hm
      simp only [List.append_nil, List.mem_append, List.mem_map, Operand.temp.injEq,
        exists_eq_right] at hm
      obtain hm | hm := hm
      · have := h.number (hcv _ (by simpa using hm))
        dsimp only at this
        omega
      · have := g.number (hcw _ (by simpa using hm))
        dsimp only at this
        omega
    have hw : Code.writers [j] t = 0 := by simp [Code.writers, hj, apart, -Instruction.defs]
    rw [Code.writers_append, hw, hc t ht]

end Supply.FreshParams

variable {n m k l : Supply} {a b c code copy : Code} {v w x : Operand} {vs : List Operand}
  {strict : Prop} {ragged : RaggedArrays}

theorem Copied.freshParams (h : Copied n v copy w m) : n.FreshParams copy [] m := by
  cases h with
  | kept => exact .empty
  | copied => exact (FreshParams.copy rfl rfl).drop

theorem freshParams_elements (base : Operand) (places : List (List Nat)) (xs : List Valued) :
    n.FreshParams (places.zipWith (fun p x => elementStore base p x.2) xs) [] n := by
  refine .plain fun i hi => ?_
  obtain ⟨k, hk, rfl⟩ := List.mem_iff_getElem.1 hi
  rw [List.getElem_zipWith]
  rfl

theorem freshParams_logical {op : LogicalOp} {done : Label} (h : n.FreshParams a [] m)
    (g : m.take.FreshParams b [] k) :
    n.FreshParams (a ++ [.assign (.temp m.next) (.int (if op = .and then 0 else 1)),
        .branch v (if op = .and then .eq else .ne) (.int 0) done]
      ++ b ++ [.assign (.temp m.next) w, .label done]) [] k := by
  have second : m.take.FreshParams (.branch v (if op = .and then .eq else .ne) (.int 0) done :: b) [] k :=
    (FreshParams.empty.mention rfl rfl).append g
  simpa using (h.again second rfl rfl rfl rfl).mention (i := .label done) rfl rfl

theorem freshParams_ternary {yes no done : Label} (h : n.FreshParams a [] m) (g : m.FreshParams b [] k)
    (f : k.take.FreshParams c [] l) :
    n.FreshParams (a ++ [.branch v .eq (.bool true) yes, .goto no, .label yes] ++ b
        ++ [.assign (.temp k.next) w, .goto done, .label no] ++ c
        ++ [.assign (.temp k.next) x, .label done]) [] l := by
  have first : n.FreshParams (a ++ ([.branch v .eq (.bool true) yes, .goto no, .label yes] ++ b)) [] k :=
    h.append ((FreshParams.plain (by simp [Instruction.acts, Instruction.params])).append g)
  have second : k.take.FreshParams ([.goto done, .label no] ++ c) [] l :=
    (FreshParams.plain (by simp [Instruction.acts, Instruction.params])).append f
  simpa using (first.again second rfl rfl rfl rfl).mention (i := .label done) rfl rfl

mutual

theorem Expr.Emits.freshParams : ∀ {d : Demand} {e : Expr} {n m : Supply} {code : Code} {v : Operand},
    e.Emits strict ragged d n code v m → n.FreshParams code [] m
  | _, _, _, _, _, _, .constant _ => (FreshParams.copy rfl rfl).drop
  | _, _, _, _, _, _, .ident | _, _, _, _, _, _, .this => .empty
  | _, _, _, _, _, _, .array _ hs => (hs.freshParams.append (freshParams_elements ..)).mono (Nat.le_succ _)
  | _, _, _, _, _, _, .binary hl hr => (hl.freshParams.append hr.freshParams).write rfl rfl
  | _, _, _, _, _, _, .unary h => h.freshParams.write rfl rfl
  | _, _, _, _, _, _, .logical hl hr => freshParams_logical hl.freshParams hr.freshParams
  | _, _, _, _, _, _, .ternary hc ha hb => freshParams_ternary hc.freshParams ha.freshParams hb.freshParams
  | _, _, _, _, _, _, .call hc ha => by
    obtain ⟨ts, rfl, hf⟩ := hc.freshParams
    obtain ⟨us, rfl, hs⟩ := ha.freshParams
    exact (hf.append hs).call (by simp [Instruction.params]) (Nat.le_succ _) (by simp)
  | _, _, _, _, _, _, .drop hc ha => by
    obtain ⟨ts, rfl, hf⟩ := hc.freshParams
    obtain ⟨us, rfl, hs⟩ := ha.freshParams
    exact (hf.append hs).call (by simp [Instruction.params]) (Nat.le_refl _) (by simp)
  | _, _, _, _, _, _, .new h => by
    obtain ⟨ts, rfl, hs⟩ := h.freshParams
    exact hs.call rfl (Nat.le_succ _) (by simp)
  | _, _, _, _, _, _, .index hb hi hc =>
      ((hb.freshParams.append hi.freshParams).append hc.freshParams).write rfl rfl
  | _, _, _, _, _, _, .property h => h.freshParams.write rfl rfl

theorem EmitsCells.freshParams : ∀ {cells : List (Option Expr)} {n m : Supply} {xs : List Valued},
    EmitsCells strict ragged cells n xs m → n.FreshParams (xs.flatMap (·.1)) [] m
  | _, _, _, _, .nil => .empty
  | _, _, _, _, .leaf he hc hr => (he.freshParams.append hc.freshParams).append hr.freshParams
  | _, _, _, _, .gap _ hr => (FreshParams.copy rfl rfl).drop.append hr.freshParams

theorem EmitsArgs.freshParams : ∀ {args : List Expr} {n m : Supply} {code : Code} {vs : List Operand},
    EmitsArgs strict ragged args n code vs m → ∃ ts, vs = ts.map .temp ∧ n.FreshParams code ts m
  | _, _, _, _, _, .nil => ⟨[], rfl, .empty⟩
  | _, _, _, _, _, .cons he hr => by
    obtain ⟨ts, rfl, hs⟩ := hr.freshParams
    exact ⟨_ :: ts, rfl, (he.freshParams.append (.copy rfl rfl)).append hs⟩

theorem EmitsCallee.freshParams : ∀ {callee : Expr} {n m : Supply} {code : Code} {vs : List Operand},
    EmitsCallee strict ragged callee n code vs m → ∃ ts, vs = ts.map .temp ∧ n.FreshParams code ts m
  | _, _, _, _, _, .name => ⟨[], rfl, .empty⟩
  | _, _, _, _, _, .own => ⟨[_], rfl, .copy rfl rfl⟩
  | _, _, _, _, _, .method h => ⟨[_], rfl, h.freshParams.append (.copy rfl rfl)⟩
  | _, _, _, _, _, .value _ h => ⟨[], rfl, h.freshParams⟩

end

theorem freshParams_stores {there : String} {cells : List (Option Expr)} {xs : List Valued}
    (h : EmitsCells strict ragged cells n xs m) (places : List (List Nat)) :
    n.FreshParams (places.zipWith (fun p x => x.1 ++ [elementStore (.var there) p x.2]) xs).flatten []
      m := by
  induction xs generalizing places cells n with
  | nil =>
    rw [List.zipWith_nil_right]
    cases h
    exact .empty
  | cons x rest ih =>
    cases places with
    | nil => exact FreshParams.empty.mono h.freshParams.le
    | cons p places =>
      have hx : ∃ cells k, n.FreshParams x.1 [] k ∧ EmitsCells strict ragged cells k rest m := by
        cases h with
        | leaf he hc hr => exact ⟨_, _, he.freshParams.append hc.freshParams, hr⟩
        | gap _ hr => exact ⟨_, _, (FreshParams.copy rfl rfl).drop, hr⟩
      obtain ⟨_, _, hx, hr⟩ := hx
      rw [List.zipWith_cons_cons, List.flatten_cons]
      exact (hx.mention rfl rfl).append (ih hr places)

theorem EmitsStores.freshParams {there : String} {es : List Expr}
    (h : EmitsStores strict ragged there es n code m) : n.FreshParams code [] m := by
  obtain ⟨_, h⟩ := h
  exact freshParams_stores h _

theorem Binding.Emits.freshParams {b : Binding} (h : b.Emits strict ragged n code m) :
    n.FreshParams code [] m := by
  cases h with
  | stray | bare => exact .empty
  | array _ h => exact h.freshParams
  | value _ _ he hc => exact (he.freshParams.append hc.freshParams).mention rfl rfl

theorem EmitsIndices.freshParams {is : List Expr} (h : EmitsIndices strict ragged is n code vs m) :
    n.FreshParams code [] m := by
  induction h with
  | nil => exact .empty
  | cons he hc _ ih => exact (he.freshParams.append hc.freshParams).append ih

theorem Target.Emits.freshParams {target : Target} {value : Expr}
    (h : target.Emits strict ragged value n code m) : n.FreshParams code [] m := by
  cases h with
  | stray => exact .empty
  | array h => exact h.freshParams
  | ident _ he hc => exact (he.freshParams.append hc.freshParams).mention rfl rfl
  | index hb hi he hc =>
    exact ((hb.freshParams.append hi.freshParams).append (he.freshParams.append hc.freshParams)).mention rfl rfl
  | property hb he hc => exact (hb.freshParams.append (he.freshParams.append hc.freshParams)).mention rfl rfl

theorem EmitsTest.freshParams {test : Option Expr} {done : Option Label}
    (h : EmitsTest strict ragged test n code done m) : n.FreshParams code [] m := by
  cases h with
  | never => exact .empty
  | test h => exact h.freshParams.mention rfl rfl

theorem EmitsTests.freshParams {cases : List Case} {ls : List Label}
    (h : EmitsTests strict ragged w cases n code ls m) : n.FreshParams code [] m := by
  induction h with
  | nil => exact .empty
  | cons h _ ih => simpa using (h.freshParams.mention (i := .branch w .eq _ _) rfl rfl).append ih

theorem Departs.freshParams {exit : Option (Option Label)} (h : Departs exit code) :
    n.FreshParams code [] n := by
  obtain rfl | ⟨l, _, rfl⟩ := h
  · exact .empty
  · exact FreshParams.empty.mention rfl rfl

theorem freshParams_foreach {item : String} {bound : Operand} {start done : Label} {again : Option Label}
    (h : n.FreshParams a [] m) (g : m.take.take.take.take.FreshParams b [] k) :
    n.FreshParams
      (a ++ ([.assign (.temp m.next) (.int 0), .assign (.temp m.take.next) bound, .label start,
          .binary (.temp m.take.take.next) (.temp m.next) .lt (.temp m.take.next),
          .branch (.temp m.take.take.next) .eq (.int 0) done,
          .assign (.temp m.take.take.take.next) (.element v [.temp m.next]),
          .assign (.var item) (.temp m.take.take.take.next)]
        ++ b ++ place again
        ++ [.binary (.temp m.next) (.temp m.next) .add (.int 1), .goto start, .label done])) [] k := by
  have compare : m.take.FreshParams [.assign (.temp m.take.next) bound,
      .binary (.temp m.take.take.next) (.temp m.next) .lt (.temp m.take.next),
      .assign (.temp m.take.take.take.next) (.element v [.temp m.next])] [] m.take.take.take.take :=
    ((FreshParams.empty.write rfl rfl).write rfl rfl).write rfl rfl
  have loop := h.again (i := .assign (.temp m.next) (.int 0))
    (j := .binary (.temp m.next) (.temp m.next) .add (.int 1)) (compare.append g) rfl rfl rfl rfl
  exact loop.congr (by simp [Instruction.acts, Instruction.params])

mutual

theorem Stmt.Emits.freshParams : ∀ {ex : Exits} {s : Stmt} {n m : Supply} {code : Code},
    s.Emits strict ragged ex n code m → n.FreshParams code [] m
  | _, _, _, _, _, .skipped .. | _, _, _, _, _, .strayExit _ | _, _, _, _, _, .strayNext _
  | _, _, _, _, _, .strayClass _ => .empty
  | _, _, _, _, _, .declare h | _, _, _, _, _, .assign h | _, _, _, _, _, .eval h => h.freshParams
  | _, _, _, _, _, .print h => (h.freshParams.append (.copy rfl rfl)).call rfl (Nat.le_refl _) (by simp)
  | _, _, _, _, _, .leave => FreshParams.empty.mention rfl rfl
  | _, _, _, _, _, .return h => h.freshParams.mention rfl rfl
  | _, _, _, _, _, .exit h | _, _, _, _, _, .next h => FreshParams.empty.mention rfl rfl
  | _, _, _, _, _, .block h => h.freshParams
  | _, _, _, _, _, .ifThen hc hy =>
    (hc.freshParams.append hy.freshParams).congr (by simp [Instruction.acts, Instruction.params])
  | _, _, _, _, _, .ifThenElse hc hy hn =>
    ((hc.freshParams.append hy.freshParams).append hn.freshParams).congr
      (by simp [Instruction.acts, Instruction.params])
  | _, _, _, _, _, .whileLoop hc hb =>
    (hc.freshParams.append hb.freshParams).congr (by simp [Instruction.acts, Instruction.params])
  | _, _, _, _, _, .doWhile hb hc =>
    (hb.freshParams.append hc.freshParams).congr (by simp [Instruction.acts, Instruction.params])
  | _, _, _, _, _, .forLoop hf ht hb hs hm =>
    (((hf.freshParams.append ht.freshParams).append hb.freshParams).append hs.freshParams).congr (by
      obtain rfl | ⟨rfl, _⟩ := hm <;> simp [Instruction.acts, Instruction.params])
  | _, _, _, _, _, .foreach hc _ h => freshParams_foreach hc.freshParams h.freshParams
  | _, _, _, _, _, .switch hv hc ht hl hb =>
    ((((hv.freshParams.append hc.freshParams).append ht.freshParams).append hl.freshParams).append
      hb.freshParams).congr (by simp)
  | _, _, _, _, _, .switchDefault hv hc ht hb hd =>
    ((((hv.freshParams.append hc.freshParams).append ht.freshParams).append hb.freshParams).append
      hd.freshParams).congr (by simp [Instruction.acts, Instruction.params])
  | _, _, _, _, _, .tryCatch hb hh =>
    (hb.freshParams.append hh.freshParams).congr (by simp [Instruction.acts, Instruction.params])
  | _, _, _, _, _, .function h => h.freshParams
  | _, _, _, _, _, .classDef h => h.freshParams.congr (by simp [Instruction.acts, Instruction.params])

theorem EmitsAll.freshParams : ∀ {ex : Exits} {body : List Stmt} {n m : Supply} {code : Code},
    EmitsAll strict ragged ex body n code m → n.FreshParams code [] m
  | _, _, _, _, _, .nil => .empty
  | _, _, _, _, _, .cons hs hr => hs.freshParams.append hr.freshParams

theorem EmitsCases.freshParams : ∀ {ex : Exits} {cases : List Case} {labels : List Label} {n m : Supply}
    {code : Code}, EmitsCases strict ragged ex cases labels n code m → n.FreshParams code [] m
  | _, _, _, _, _, _, .nil => .empty
  | _, _, _, _, _, _, .cons hb hv hr =>
    ((hb.freshParams.append hv.freshParams).append hr.freshParams).congr
      (by simp [Instruction.acts, Instruction.params])

theorem EmitsFunction.freshParams : ∀ {f : Function} {n m : Supply} {code : Code},
    EmitsFunction strict ragged f n code m → n.FreshParams code [] m
  | _, _, _, _, .body h => h.freshParams.congr (by simp [Instruction.acts, Instruction.params])
  | _, _, _, _, .stray _ => .empty

theorem EmitsMembers.freshParams : ∀ {members : List Member} {n m : Supply} {code : Code},
    EmitsMembers strict ragged members n code m → n.FreshParams code [] m
  | _, _, _, _, .nil => .empty
  | _, _, _, _, .field hb hr => hb.freshParams.append hr.freshParams
  | _, _, _, _, .method hf hr => hf.freshParams.append hr.freshParams

end

namespace Program

/-- All code is in normal form. What calls take are temporaries that one instruction writes, and each
is taken once. -/
theorem lower_normalized {p : Program} {table : Table} {options : Options} {out : Lowered}
    (h : p.lower table options = .ok out) :
    Code.Normal p.statements out.code ∧
      (∀ o ∈ out.code.params, ∃ t, o = .temp t ∧ out.code.writers t = 1) ∧
      out.code.params.Nodup := by
  obtain ⟨s, hr, _⟩ := runs_program.1 h
  obtain ⟨m, he⟩ := lower_emits False h nofun
  obtain ⟨ts, hp, hn, hc⟩ := he.freshParams.params
  rw [List.append_nil] at hn hc
  refine ⟨lowerAll_normal (fun s hs => s.lower_normal (.here hs)) hr, fun o ho => ?_, ?_⟩
  · rw [hp] at ho
    obtain ⟨t, ht, rfl⟩ := List.mem_map.1 ho
    exact ⟨t, rfl, hc t ht⟩
  · rw [hp]
    exact List.Pairwise.map _ (fun _ _ ht he => ht (Operand.temp.inj he)) hn

def handing : Program :=
  ⟨[.class ⟨"C", none, [.method ⟨"m", [⟨"x", some .integer, .atLine 2⟩], none,
        ⟨[.return (some (.ident "x" .unplaced)) (.atLine 3)], .atLine 2⟩, .atLine 2⟩], .atLine 1⟩,
    .foreach "n" (.array [.int 3 .unplaced, .int 4 .unplaced] .unplaced)
      ⟨[.tryCatch ⟨[.print (.call (.property (.new "C" [] .unplaced) "m" .unplaced)
          [.ident "n" .unplaced] .unplaced) (.atLine 6)], .atLine 5⟩ "e" ⟨[], .atLine 7⟩ (.atLine 5)],
        .atLine 4⟩ (.atLine 4)], .unplaced⟩

theorem handing_normalized : ∃ out, handing.lower handing.collect.table {} = .ok out ∧
    out.code.params.length = 3 ∧
    Code.Normal handing.statements out.code ∧
      (∀ o ∈ out.code.params, ∃ t, o = .temp t ∧ out.code.writers t = 1) ∧
      out.code.params.Nodup := by
  have h : (·.code.params.length) <$> (handing.lower handing.collect.table {}).toOption = some 3 := by
    decide +kernel
  obtain ⟨out, ho, hl⟩ := exists_of_check h
  exact ⟨out, ho, hl, lower_normalized ho⟩

end Program

end ThreeAddress
