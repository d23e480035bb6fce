import ThreeAddress.Proofs.Effects.Machine

/-! Evaluation of expressions from left to right, with everything that happens on the way. Code
performs an evaluation piece by piece, and there is a rule for each way of putting pieces together. -/

namespace ThreeAddress

open Lowering

/-- What names mean where an expression stands. -/
structure Viewpoint where
  symbol? : String → Option Symbol
  className : Option String

namespace Viewpoint

def of (c : Context) (t : Table) : Viewpoint := ⟨t.visible? c.scope, c.className⟩

section

variable {c : Context} {t : Table} {name : String} {id : SymbolId} {x : Symbol}

theorem symbol?_eq_none (h : t.lookup c.scope name = .ok none) : (of c t).symbol? name = none := by
  simp [of, Table.visible?, h]

theorem symbol?_eq_some (h : t.lookup c.scope name = .ok (some id)) (hx : t.symbol id = .ok x) :
    (of c t).symbol? name = some x := by
  simp [of, Table.visible?, h, hx, Except.toOption]

end

variable (p : Viewpoint)

def place (name : String) : String := ((p.symbol? name).map (·.place)).getD name

def label (name : String) : String := ((p.symbol? name).map (·.qualifiedName)).getD name

def isMethod (name : String) : Bool :=
  (p.symbol? name).any fun x => x.isCallable ∧ x.owner.isSome

def owner : Expr → Option String
  | .this _ => p.className
  | .new name _ _ => some name
  | .ident name _ => (p.symbol? name).bind fun x =>
    match x.type with
    | .object name => some name
    | _ => none
  | _ => none

end Viewpoint

/-- A result that depends on what happened before it, and adds to that. -/
abbrev Outcome (V : Type u) (α : Type u) := StateM (History V) α

theorem Outcome.bind_eq {α β : Type u} {V : Type u} {x : Outcome V α} {f : α → Outcome V β} {v : α}
    {past past' : History V} (h : x past = (v, past')) : (x >>= f) past = f v past' := by
  change f (x past).1 (x past).2 = _
  rw [h]

def Meaning.perform (M : Meaning V) (store : String → V) (e : Event V) : Outcome V V :=
  fun past => ((M.answer past store e).1, past ++ [e])

/-- The value of `a && b` or `a || b` if that of `a` decides it. -/
def Meaning.decided? [DecidableEq V] (M : Meaning V) : LogicalOp → V → Option V
  | .and, v => if v = M.int 0 then some (M.int 0) else none
  | .or, v => if v = M.int 0 then none else some (M.int 1)

section

variable [DecidableEq V] (M : Meaning V) (p : Viewpoint) (store : String → V)

mutual

/-- Operands come from left to right, a receiver before its arguments, and what the value does not
depend on is not evaluated at all. Array literals have no meaning here. -/
def Expr.outcome : Expr → Outcome V V
  | .int n _ => return M.int n
  | .str text _ => return M.str text
  | .bool b _ => return M.bool b
  | .null _ | .array .. => return M.null
  | .ident name _ => return store (p.place name)
  | .this _ => return store "this"
  | .binary l op r _ => return M.binary op (← l.outcome) (← r.outcome)
  | .unary op e _ => return M.unary op (← e.outcome)
  | .logical l op r _ => do
    match M.decided? op (← l.outcome) with
    | some v => return v
    | none => r.outcome
  | .ternary c a b _ => do if (← c.outcome) = M.bool true then a.outcome else b.outcome
  | .call callee args _ => do
    let (name, receiver) ← calleeOutcome callee
    M.perform store (.call name (receiver ++ (← outcomes args)))
  | .new name args _ => do M.perform store (.new name (← outcomes args))
  | .index base i _ => do
    let base ← base.outcome
    let i ← i.outcome
    return M.element (← get) base [i]
  | .property object field _ => do
    let base ← object.outcome
    return M.field (← get) base field

def calleeOutcome : Expr → Outcome V (String × List V)
  | .ident name _ => return (p.label name, if p.isMethod name then [store "this"] else [])
  | .property object method _ => return (methodName (p.owner object) method, [← object.outcome])
  | _ => return ("", [])

def outcomes : List Expr → Outcome V (List V)
  | [] => return []
  | e :: rest => return (← e.outcome) :: (← outcomes rest)

end

variable {M p}

theorem calleeOutcome_ident {name : String} {x : Symbol} (h : p.symbol? name = some x) (at_ : Span) :
    calleeOutcome M p store (.ident name at_) =
      pure (x.qualifiedName, if x.isCallable ∧ x.owner.isSome then [store "this"] else []) := by
  simp [calleeOutcome, Viewpoint.label, Viewpoint.isMethod, h]

end

inductive Expr.Direct : Expr → Prop
  | int : Direct (.int n loc)
  | str : Direct (.str text loc)
  | bool : Direct (.bool b loc)
  | null : Direct (.null loc)
  | ident : Direct (.ident name loc)
  | this : Direct (.this loc)
  | binary : Direct l → Direct r → Direct (.binary l op r loc)
  | unary : Direct e → Direct (.unary op e loc)
  | logical : Direct l → Direct r → Direct (.logical l op r loc)
  | ternary : Direct c → Direct a → Direct b → Direct (.ternary c a b loc)
  | call : (∀ e ∈ args, Direct e) → Direct (.call (.ident name at_) args loc)
  | method : Direct object → (∀ e ∈ args, Direct e) →
    Direct (.call (.property object name at_) args loc)
  | new : (∀ e ∈ args, Direct e) → Direct (.new name args loc)
  | index : Direct base → Direct i → Direct (.index base i loc)
  | property : Direct object → Direct (.property object field loc)

namespace Memory

/-- What is read depends on variables and on temporaries up to `n` alone. -/
def Lasting (n : Nat) (read : Memory V → α) : Prop :=
  ∀ ⦃a b⦄, Agrees n a b → b.store = a.store → read b = read a

/-- From `a` to `b` happens what the outcome says, `read` finds its result at `b`, and neither
variables nor temporaries up to `n` have changed. -/
structure Yields (n : Nat) (read : Memory V → α) (f : (String → V) → Outcome V α)
    (a b : Memory V) : Prop where
  agrees : Agrees n a b
  store : b.store = a.store
  outcome : f a.store a.past = (read b, b.past)

end Memory

open Memory

section Decided

variable [DecidableEq V] {M : Meaning V} {N : Model V} {op : LogicalOp} {v : V}

theorem decided?_of_holds (h : (if op = .and then Relation.eq else .ne).holds N v (M.int 0)) :
    M.decided? op v = some (M.int (if op = .and then 0 else 1)) := by
  cases op with
  | and => exact if_pos (Relation.holds_eq.1 h)
  | or => exact if_neg (Relation.holds_ne.1 h)

theorem decided?_of_not_holds (h : ¬(if op = .and then Relation.eq else .ne).holds N v (M.int 0)) :
    M.decided? op v = none := by
  cases op with
  | and => exact if_neg (mt Relation.holds_eq.2 h)
  | or => exact if_pos (not_not.1 (mt Relation.holds_ne.2 h))

end Decided

theorem lasting_temp {n : Nat} {M : Meaning V} {t : Temp} (h : t.number ≤ n) :
    Lasting n (value M · (.temp t)) :=
  fun _ _ ha _ => ha t h

theorem lasting_var {n : Nat} {M : Meaning V} (name : String) : Lasting n (value M · (.var name)) :=
  fun _ _ _ hs => congrFun hs name

/-- The machine runs through `seg` and reaches the outcome, which lasts as long as the temporaries up
to `n` do; those up to `m` are left alone. -/
structure Evaluates [DecidableEq V] (M : Meaning V) (code : Code) (m n : Nat) (seg : Code)
    (read : Memory V → α) (f : (String → V) → Outcome V α) : Prop where
  lasting : Lasting n read
  carries : Code.Carries M code seg (Yields m read f)

namespace Evaluates

variable {α β V : Type u} [DecidableEq V] {M : Meaning V} {code first second : Code} {m n n' : Nat}
  {read : Memory V → α} {read' : Memory V → β} {f : (String → V) → Outcome V α}
  {g : (String → V) → Outcome V β}

theorem nil (hs : Lasting n read) (hf : ∀ a : Memory V, f a.store a.past = (read a, a.past)) :
    Evaluates M code m n [] read f where
  lasting := hs
  carries := Code.Carries.nil.mono fun a _ h => h ▸ ⟨.refl m a, rfl, hf a⟩

theorem var (name : String) :
    Evaluates M code m n [] (value M · (.var name)) fun store => pure (store name) :=
  nil (lasting_var name) fun _ => rfl

theorem constant {v : Operand} {w : V} (hv : ∀ a : Memory V, a.value M v = w) :
    Evaluates M code n (n + 1) [.assign (.temp ⟨n + 1⟩) v] (value M · (.temp ⟨n + 1⟩))
      fun _ => pure w where
  lasting := lasting_temp (Nat.le_refl _)
  carries := (Code.Carries.one fun _ => rfl).mono fun a _ h => by
    rw [h, hv]
    exact ⟨.set (Nat.lt_succ_self n), rfl, by rw [value_temp, set_temps]; rfl⟩

theorem map (h : Evaluates M code m n first read f) (φ : α → β) :
    Evaluates M code m n first (fun a => φ (read a)) fun store => φ <$> f store where
  lasting _ _ ha hs := congrArg φ (h.lasting ha hs)
  carries := h.carries.mono fun a b hb => by
    refine ⟨hb.agrees, hb.store, ?_⟩
    rw [← bind_pure_comp, Outcome.bind_eq hb.outcome]
    rfl

theorem append (h : Evaluates M code m n first read f) (k : Evaluates M code n n' second read' g)
    (hm : m ≤ n) (hn : n ≤ n') :
    Evaluates M code m n' (first ++ second) (fun a => (read a, read' a)) fun store => do
      let x ← f store
      return (x, ← g store) where
  lasting _ _ ha hs := Prod.ext (h.lasting (ha.mono hn) hs) (k.lasting ha hs)
  carries := by
    refine (h.carries.append k.carries).mono fun a c ⟨b, hb, hc⟩ => ?_
    refine ⟨hb.agrees.trans (hc.agrees.mono hm), hc.store.trans hb.store, ?_⟩
    have hg := hc.outcome
    rw [hb.store] at hg
    rw [Outcome.bind_eq hb.outcome, Outcome.bind_eq hg, h.lasting hc.agrees hc.store]
    rfl

theorem compute {i : Instruction} {k : History V → α → V} (h : Evaluates M code m n first read f)
    (hm : m ≤ n) (hi : ∀ a, i.effect M a = some (a.set ⟨n + 1⟩ (k a.past (read a)))) :
    Evaluates M code m (n + 1) (first ++ [i]) (value M · (.temp ⟨n + 1⟩)) fun store => do
      let x ← f store
      return k (← get) x where
  lasting := lasting_temp (Nat.le_refl _)
  carries := by
    refine (h.carries.snoc hi).mono fun a _ ⟨b, hb, hc⟩ => hc ▸ ?_
    refine ⟨hb.agrees.trans (.set (Nat.lt_succ_of_le hm)), hb.store, ?_⟩
    rw [Outcome.bind_eq hb.outcome]
    simp only [value_temp, set_temps]
    rfl

theorem copy {v : Operand} {f : (String → V) → Outcome V V}
    (h : Evaluates M code m n first (value M · v) f) (hm : m ≤ n) :
    Evaluates M code m (n + 1) (first ++ [.assign (.temp ⟨n + 1⟩) v]) (value M · (.temp ⟨n + 1⟩)) f :=
  h.compute (k := fun _ x => x) hm fun _ => rfl

theorem perform {i : Instruction} {e : α → Event V} (hM : M.Steady)
    (h : Evaluates M code m n first read f) (hm : m ≤ n)
    (hi : ∀ a, i.effect M a = some ((a.perform M (e (read a))).set ⟨n + 1⟩ (a.answer M (e (read a))))) :
    Evaluates M code m (n + 1) (first ++ [i]) (value M · (.temp ⟨n + 1⟩)) fun store => do
      let x ← f store
      M.perform store (e x) where
  lasting := lasting_temp (Nat.le_refl _)
  carries := by
    refine (h.carries.snoc hi).mono fun a _ ⟨b, hb, hc⟩ => hc ▸ ?_
    refine ⟨(hb.agrees.trans (.perform _)).trans (.set (Nat.lt_succ_of_le hm)), ?_, ?_⟩
    · exact (hM _ _ _).trans hb.store
    · rw [Outcome.bind_eq hb.outcome, ← hb.store]
      simp [Meaning.perform, answer]

theorem shortCircuit {left right : Operand} {f g : (String → V) → Outcome V V} {done : Label}
    (op : LogicalOp) (hc : code.placed.Nodup) (h : Evaluates M code m n first (value M · left) f)
    (k : Evaluates M code (n + 1) n' second (value M · right) g) (hm : m ≤ n) (hn : n + 1 ≤ n') :
    Evaluates M code m n'
      (first ++ [.assign (.temp ⟨n + 1⟩) (.int (if op = .and then 0 else 1)),
          .branch left (if op = .and then .eq else .ne) (.int 0) done]
        ++ second ++ [.assign (.temp ⟨n + 1⟩) right, .label done])
      (value M · (.temp ⟨n + 1⟩)) fun store => do
        match M.decided? op (← f store) with
        | some v => return v
        | none => g store where
  lasting := lasting_temp hn
  carries := by
    refine (Code.Carries.shortCircuit hc h.carries k.carries).mono fun a d ⟨b, hb, hd⟩ => ?_
    have ht : m < (⟨n + 1⟩ : Temp).number := Nat.lt_succ_of_le hm
    -- taking the temporary of the result leaves the left operand as it is
    have hl := h.lasting (.set (Nat.lt_succ_self n))
      (set_store (a := b) (v := M.int (if op = .and then 0 else 1)))
    rw [hl] at hd
    by_cases hs : (if op = .and then Relation.eq else .ne).holds (M.model b.past) (b.value M left)
        (M.int 0)
    · rw [if_pos hs] at hd
      subst hd
      refine ⟨hb.agrees.trans (.set ht), hb.store, ?_⟩
      rw [Outcome.bind_eq hb.outcome, decided?_of_holds hs, value_temp, set_temps]
      rfl
    · rw [if_neg hs] at hd
      obtain ⟨c, hk, rfl⟩ := hd
      refine ⟨(hb.agrees.trans (.set ht)).trans ((hk.agrees.mono (Nat.le_succ_of_le hm)).trans (.set ht)),
        hk.store.trans hb.store, ?_⟩
      have hg := hk.outcome
      rw [set_store, hb.store, set_past] at hg
      rw [Outcome.bind_eq hb.outcome, decided?_of_not_holds hs, value_temp, set_temps]
      exact hg

theorem choose {v left right : Operand} {test f g : (String → V) → Outcome V V} {k l : Nat}
    {third : Code} {yes no done : Label} (hc : code.placed.Nodup)
    (h : Evaluates M code m n first (value M · v) test)
    (hf : Evaluates M code n k second (value M · left) f)
    (hg : Evaluates M code (k + 1) l third (value M · right) g)
    (hm : m ≤ n) (hn : n ≤ k) (hk : k + 1 ≤ l) :
    Evaluates M code m l
      (first ++ [.branch v .eq (.bool true) yes, .goto no, .label yes] ++ second
        ++ [.assign (.temp ⟨k + 1⟩) left, .goto done, .label no] ++ third
        ++ [.assign (.temp ⟨k + 1⟩) right, .label done])
      (value M · (.temp ⟨k + 1⟩)) fun store => do
        if (← test store) = M.bool true then f store else g store where
  lasting := lasting_temp hk
  carries := by
    refine (Code.Carries.choose hc h.carries hf.carries hg.carries).mono fun a d ⟨b, hb, hd⟩ => ?_
    have ht : m < (⟨k + 1⟩ : Temp).number := Nat.lt_succ_of_le (Nat.le_trans hm hn)
    split at hd
    next hs =>
      obtain ⟨c, hf, rfl⟩ := hd
      refine ⟨hb.agrees.trans ((hf.agrees.mono hm).trans (.set ht)), hf.store.trans hb.store, ?_⟩
      rw [Outcome.bind_eq hb.outcome, if_pos hs, value_temp, set_temps, ← hb.store]
      exact hf.outcome
    next hs =>
      obtain ⟨c, hg, rfl⟩ := hd
      refine ⟨hb.agrees.trans ((hg.agrees.mono (by omega)).trans (.set ht)), hg.store.trans hb.store, ?_⟩
      rw [Outcome.bind_eq hb.outcome, if_neg hs, value_temp, set_temps, ← hb.store]
      exact hg.outcome

end Evaluates

end ThreeAddress
