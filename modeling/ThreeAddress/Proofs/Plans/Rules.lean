import ThreeAddress.Proofs.Plans.Plans

namespace ThreeAddress

open Lowering

/-- Where `pre` has been written already, the plan takes the action's course: it ends with the same state
or the same fault, and leaves the setting `p'`. What the action yields tells the code that is written then,
and the answer. -/
def Does (c : Context) (p p' : Setting) (pre : Code) (out : α → Code × β) (plan : Plan β)
    (act : Lower α) : Prop :=
  ∀ (code : Code) (s : State), plan.run ⟨s, p, code ++ pre⟩ =
    (fun x : α × State => ((out x.1).2, (⟨x.2, p', code ++ (out x.1).1⟩ : FullState))) <$> act c s

open Plan

namespace Does

variable {c : Context} {p p₁ p' : Setting} {pre : Code} {out : α → Code × β} {plan : Plan β}
  {act : Lower α}

theorem done {a : α} {b : β} (h : out a = (pre, b)) :
    Does c p p pre out (pure b) (pure a) := by
  intro code s
  change Except.ok (b, (⟨s, p, code ++ pre⟩ : FullState)) =
    Except.ok ((out a).2, (⟨s, p, code ++ (out a).1⟩ : FullState))
  rw [h]

theorem bind {out₁ : γ → Code × δ} {first : Plan δ} {act₁ : Lower γ} {k : δ → Plan β}
    {f : γ → Lower α} (h : Does c p p₁ pre out₁ first act₁)
    (hk : ∀ a, Does c p₁ p' (out₁ a).1 out (k (out₁ a).2) (f a)) :
    Does c p p' pre out (first >>= k) (act₁ >>= f) := by
  intro code s
  rw [run_bind, h code s]
  change _ = _ <$> (act₁ c s >>= fun x => f x.1 c x.2)
  cases act₁ c s with
  | error e => rfl
  | ok x => exact hk x.1 code x.2

theorem last {out₁ : γ → Code × β} {act₁ : Lower γ} {f : γ → Lower α}
    (h : Does c p p' pre out₁ plan act₁)
    (hk : ∀ a, Does c p' p' (out₁ a).1 out (pure (out₁ a).2) (f a)) :
    Does c p p' pre out plan (act₁ >>= f) := by
  rw [← bind_pure plan]
  exact h.bind hk

theorem finish {k : β → Plan γ} {out' : α → Code × γ} (h : Does c p p₁ pre out plan act)
    (hk : ∀ a, Does c p₁ p' (out a).1 out' (k (out a).2) (pure a)) :
    Does c p p' pre out' (plan >>= k) act := by
  rw [← bind_pure act]
  exact h.bind hk

theorem after (h : Does c p p' [] out plan act) :
    Does c p p' pre (fun a => (pre ++ (out a).1, (out a).2)) plan act := by
  intro code s
  have := h (code ++ pre) s
  simpa only [List.append_nil, List.append_assoc] using this

theorem begins {part : Part} (h : Does c p p' pre out plan act) :
    Does c p p' pre out (Plan.begins part plan) act := h

theorem valueOf {e : Expr} (h : Does c p p' pre out plan act) :
    Does c p p' pre out (Plan.valueOf e plan) act := h

theorem emit {i : Instruction} (h : Does c p p' (pre ++ [i]) out plan act) :
    Does c p p' pre out (Plan.emit i >>= fun _ => plan) act := by
  intro code s
  have := h code s
  rwa [← List.append_assoc] at this

theorem wrote {i : Instruction} {out : α → Code × Unit} {a : α} (h : out a = (pre ++ [i], ())) :
    Does c p p pre out (Plan.emit i) (pure a) := by
  intro code s
  change Except.ok ((), (⟨s, p, code ++ pre ++ [i]⟩ : FullState)) =
    Except.ok ((out a).2, (⟨s, p, code ++ (out a).1⟩ : FullState))
  rw [h, ← List.append_assoc]

theorem keep {st : FullState.Step} {step : Account st.Answer}
    (hs : ∀ d : FullState, d.step st = d.keep step) :
    Does c p p pre (fun a => (pre, a)) (of st) (Lower.account step) := by
  intro code s
  change (FullState.step _ st >>= fun x => Except.ok x) = _ <$> (step s.ledger >>= fun x => pure _)
  rw [hs, FullState.keep]
  change ((step s.ledger >>= fun x => _) >>= _) = _
  cases step s.ledger <;> rfl

theorem ask {st : FullState.Step} {act : Lower st.Answer} (x : State → Checked st.Answer)
    (hs : ∀ (s : State) (code : Code), FullState.step ⟨s, p, code⟩ st = FullState.ask ⟨s, p, code⟩ (x s))
    (ha : ∀ s, act c s = x s >>= fun a => pure (a, s)) :
    Does c p p pre (fun a => (pre, a)) (of st) act := by
  intro code s
  change (FullState.step _ st >>= fun y => Except.ok y) = _ <$> act c s
  rw [hs, ha, FullState.ask]
  cases x s <;> rfl

end Does

section Steps

variable {c : Context} {p p' : Setting} {pre : Code} {out : α → Code × β} {plan : Plan β}
  {act : Lower α}

theorem freshTemp_does : Does c p p pre (fun t => (pre, t)) (of .freshTemp) Lower.freshTemp :=
  .keep fun _ => rfl

theorem freshLabel_does : Does c p p pre (fun l => (pre, l)) (of .freshLabel) Lower.freshLabel :=
  .keep fun _ => rfl

theorem report_does (problem : Problem) :
    Does c p p pre (fun u => (pre, u)) (report problem) (Lower.report problem) := fun _ _ => rfl

theorem symbol_does (id : SymbolId) :
    Does c p p pre (fun x => (pre, x)) (of (.symbol id)) (Lower.symbol id) :=
  .ask (fun s => s.table.symbol id) (fun _ _ => rfl) fun _ => rfl

theorem lookup_does {options : Options} (name : String) :
    Does (p.context options) p p pre (fun id? => (pre, id?)) (of (.lookup name)) (Lower.lookup name) :=
  .ask (fun s => s.table.lookup p.scope name) (fun _ _ => rfl) fun _ => rfl

theorem arraySize_does (pointer leaf : Nat) (dims : List Nat) :
    Does c p p pre (fun size => (pre, size)) (of (.arraySize pointer leaf dims))
      (liftM (arraySize pointer leaf dims) : Lower Nat) :=
  .ask (fun _ => arraySize pointer leaf dims) (fun _ _ => rfl) fun _ => rfl

theorem modifySymbol_does {st : FullState.Step} {id : SymbolId} {f : Symbol → Symbol} {u : st.Answer}
    (hs : ∀ d : FullState, d.step st = .ok (u, d.modifySymbol id f)) :
    Does c p p pre (fun _ => (pre, u)) (of st) (Lower.modifySymbol id f) := by
  intro code s
  change (FullState.step _ st >>= fun x => Except.ok x) = _
  rw [hs]
  rfl

theorem bindStorage_does (id : SymbolId) (size : Nat) :
    Does c p p pre (fun u => (pre, u)) (bindStorage id size) (Lower.bindStorage id size) := by
  refine Does.bind (.keep fun _ => rfl) fun offset => ?_
  intro code s
  change ((s.table.symbol id >>= fun x => _) >>= _) =
    _ <$> ((s.table.symbol id >>= fun x => _) >>= _)
  cases s.table.symbol id with
  | error => rfl
  | ok x =>
    obtain ⟨d, taken, bytes, dimensions, params, frame, address⟩ := x
    cases taken <;> rfl

theorem Does.read {f : Context → Lower α} {plan : Plan β} (h : Does c p p' pre out plan (f c)) :
    Does c p p' pre out plan ((MonadReader.read : Lower Context) >>= f) := h

theorem Does.scope {k : Nat → Plan β} (h : Does c p p' pre out (k p.scope) act) :
    Does c p p' pre out (of .scope >>= k) act := h

theorem Does.moveTo {scope : Nat} (h : Does c { p with scope } p' pre out plan act) :
    Does c p p' pre out (of (.moveTo scope) >>= fun _ => plan) act := h

theorem Does.isWanted {k : Bool → Plan β} (h : Does c p p' pre out (k p.wanted) act) :
    Does c p p' pre out (of .isWanted >>= k) act := h

theorem Does.want {wanted : Bool} {k : Bool → Plan β}
    (h : Does c { p with wanted } p' pre out (k p.wanted) act) :
    Does c p p' pre out (of (.want wanted) >>= k) act := h

theorem Does.enterFunction {name : String} {k : Option String → Plan β}
    (h : Does c { p with function := some name } p' pre out (k p.function) act) :
    Does c p p' pre out (of (.enterFunction name) >>= k) act := h

theorem Does.enterClass {name : String} {k : Option String → Plan β}
    (h : Does c { p with className := some name } p' pre out (k p.className) act) :
    Does c p p' pre out (of (.enterClass name) >>= k) act := h

variable {done : α → Code × Unit} {a : α}

theorem moveTo_does {scope : Nat} (h : done a = (pre, ())) :
    Does c p { p with scope } pre done (of (.moveTo scope)) (pure a) :=
  fun code s => Does.done (c := c) (p := { p with scope }) h code s

theorem exitFunction_does {function : Option String} (h : done a = (pre, ())) :
    Does c p { p with function } pre done (of (.exitFunction function)) (pure a) :=
  fun code s => Does.done (c := c) (p := { p with function }) h code s

theorem exitClass_does {className : Option String} (h : done a = (pre, ())) :
    Does c p { p with className } pre done (of (.exitClass className)) (pure a) :=
  fun code s => Does.done (c := c) (p := { p with className }) h code s

end Steps

section Parts

variable (options : Options)

/-- From every setting, the plan of an expression gives its value and puts the setting back. -/
def DoesValue (plan : Plan Operand) (act : Lower Valued) : Prop :=
  ∀ p : Setting, Does (p.context options) p p [] id plan act

/-- From every setting, the plan of a statement writes its code and puts the setting back. -/
def DoesCode (plan : Plan Unit) (act : Lower Code) : Prop :=
  ∀ p : Setting, Does (p.context options) p p [] (fun code => (code, ())) plan act

end Parts

end ThreeAddress
