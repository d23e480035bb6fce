import ThreeAddress.Proofs.Frames.Lowered

/-! Lowering that gives no symbol its place twice. Where the names of a stretch of the program are
declared and not yet bound, lowering it binds them at most, and what it reports is said by the
statement: `R` below tells which problems the scope allows. -/

namespace ThreeAddress

open Lowering

structure Checked.NoRebind (x : Checked α) : Prop where
  ne : ∀ name, x ≠ .error (.boundTwice name)

namespace Checked.NoRebind

theorem ok (a : α) : NoRebind (.ok a : Checked α) := ⟨nofun⟩

theorem bind {x : Checked α} {f : α → Checked β} (h : NoRebind x) (k : ∀ a, x = .ok a → NoRebind (f a)) :
    NoRebind (x >>= f) := by
  cases x with
  | error e =>
    refine ⟨fun name hn => ?_⟩
    cases hn
    exact h.ne name rfl
  | ok a => exact k a rfl

theorem addWithin (word a b : Nat) : NoRebind (addWithin word a b) := by
  unfold ThreeAddress.addWithin
  split <;> exact ⟨nofun⟩

theorem mulWithin (word a b : Nat) : NoRebind (mulWithin word a b) := by
  unfold ThreeAddress.mulWithin
  split <;> exact ⟨nofun⟩

theorem nth (xs : List α) (i : Nat) : NoRebind (nth xs i) := by
  unfold ThreeAddress.nth
  split <;> exact ⟨nofun⟩

theorem foldlM {f : β → α → Checked β} (h : ∀ b a, NoRebind (f b a)) (xs : List α) (b : β) :
    NoRebind (xs.foldlM f b) := by
  induction xs generalizing b with
  | nil => exact .ok b
  | cons a rest ih =>
    rw [List.foldlM_cons]
    exact (h b a).bind fun b _ => ih b

theorem climb (t : Table) (name : String) (fuel scope : Nat) : NoRebind (t.climb name fuel scope) := by
  induction fuel generalizing scope with
  | zero => exact ⟨nofun⟩
  | succ fuel ih =>
    refine (nth ..).bind fun s _ => ?_
    split
    · exact .ok _
    · exact ih _
    · exact .ok _

theorem lookupLocal (t : Table) (scope : Nat) (name : String) : NoRebind (t.lookupLocal scope name) :=
  (nth ..).bind fun _ _ => .ok _

theorem symbol (t : Table) (id : SymbolId) : NoRebind (t.symbol id) :=
  (nth ..).bind fun _ _ => nth ..

theorem arraySize (pointer leaf : Nat) (dims : List Nat) : NoRebind (arraySize pointer leaf dims) :=
  (foldlM (fun _ _ => mulWithin ..) _ _).bind fun _ _ => (mulWithin ..).bind fun _ _ => addWithin ..

end Checked.NoRebind

namespace Ledger

structure NoRebind (act : Account α) : Prop where
  noRebind : ∀ l, Checked.NoRebind (act l)

theorem NoRebind.bind {act : Account α} {f : α → Account β} (h : NoRebind act) (k : ∀ a, NoRebind (f a)) :
    NoRebind (act >>= f) :=
  ⟨fun l => (h.noRebind l).bind fun p _ => (k p.1).noRebind p.2⟩

theorem NoRebind.pure (a : α) : NoRebind (Pure.pure a) := ⟨fun _ => .ok _⟩

theorem NoRebind.get : NoRebind MonadState.get := ⟨fun _ => .ok _⟩

theorem NoRebind.set (l : Ledger) : NoRebind (MonadStateOf.set l) := ⟨fun _ => .ok _⟩

theorem NoRebind.modify (f : Ledger → Ledger) : NoRebind (modify f) := ⟨fun _ => .ok _⟩

theorem NoRebind.lift {x : Checked α} (h : x.NoRebind) : NoRebind (liftM x) :=
  ⟨fun _ => h.bind fun _ _ => .ok _⟩

theorem freshTemp_noRebind : NoRebind freshTemp :=
  NoRebind.get.bind fun _ => (NoRebind.lift (.addWithin ..)).bind fun _ =>
    (NoRebind.set _).bind fun _ => .pure _

theorem freshLabel_noRebind : NoRebind freshLabel :=
  NoRebind.get.bind fun _ => (NoRebind.lift (.addWithin ..)).bind fun _ =>
    (NoRebind.set _).bind fun _ => .pure _

theorem allocate_noRebind (size : Nat) : NoRebind (allocate size) :=
  NoRebind.get.bind fun _ => (NoRebind.lift (.addWithin ..)).bind fun _ =>
    (NoRebind.set _).bind fun _ => .pure _

theorem exitLoop_noRebind : NoRebind exitLoop :=
  NoRebind.get.bind fun _ => (NoRebind.modify _).bind fun _ => .pure _

theorem exitSwitch_noRebind : NoRebind exitSwitch :=
  NoRebind.get.bind fun _ => (NoRebind.modify _).bind fun _ => .pure _

theorem request_noRebind (slots : List (Option Label)) : NoRebind (request slots) := by
  match slots with
  | [] => exact .pure _
  | some _ :: _ => exact .pure _
  | none :: _ => exact freshLabel_noRebind.bind fun _ => .pure _

theorem breakLabel_noRebind : NoRebind breakLabel :=
  NoRebind.get.bind fun _ => (request_noRebind _).bind fun _ => (NoRebind.modify _).bind fun _ => .pure _

theorem continueLabel_noRebind : NoRebind continueLabel :=
  NoRebind.get.bind fun _ => (request_noRebind _).bind fun _ => (NoRebind.modify _).bind fun _ => .pure _

theorem exitFrame_noRebind : NoRebind exitFrame := by
  refine NoRebind.get.bind fun l => ?_
  dsimp only
  split
  · exact (NoRebind.pure _).bind fun _ => (NoRebind.set _).bind fun _ => .pure _
  · exact (NoRebind.lift (.addWithin ..)).bind fun _ => (NoRebind.set _).bind fun _ => .pure _

end Ledger

namespace Lower

/-- The action gives no symbol its place twice, and `Q` holds of what it yields if it ends well. -/
structure Ensures (act : Lower α) (c : Context) (s : State) (Q : α → State → Prop) : Prop where
  noRebind : Checked.NoRebind (act c s)
  post : ∀ ⦃a s'⦄, Runs act c s a s' → Q a s'

namespace Ensures

variable {act : Lower α} {f : α → Lower β} {c : Context} {s : State} {P Q : α → State → Prop}

theorem mono (h : Ensures act c s P) (le : ∀ a s', P a s' → Q a s') : Ensures act c s Q :=
  ⟨h.noRebind, fun _ _ hr => le _ _ (h.post hr)⟩

theorem congr {act' : Lower α} {d : Context} (h : Ensures act c s Q) (he : act' d s = act c s) :
    Ensures act' d s Q where
  noRebind := he ▸ h.noRebind
  post _ _ hr := h.post (he.symm.trans hr)

theorem runs (h : Ensures act c s Q) : Ensures act c s fun a s' => Q a s' ∧ Runs act c s a s' :=
  ⟨h.noRebind, fun _ _ hr => ⟨h.post hr, hr⟩⟩

theorem pure {a : α} (h : Q a s) : Ensures (Pure.pure a) c s Q := by
  refine ⟨.ok _, fun b s' hr => ?_⟩
  obtain ⟨rfl, rfl⟩ := runs_pure.1 hr
  exact h

theorem bind {Q : β → State → Prop} (h : Ensures act c s P)
    (k : ∀ a s₁, P a s₁ → Ensures (f a) c s₁ Q) : Ensures (act >>= f) c s Q where
  noRebind := h.noRebind.bind fun p hp => (k p.1 p.2 (h.post hp)).noRebind
  post := by
    intro b s' hr
    obtain ⟨a, s₁, ha, hf⟩ := runs_bind.1 hr
    exact (k a s₁ (h.post ha)).post hf

theorem get {Q : State → State → Prop} (h : Q s s) : Ensures MonadState.get c s Q := by
  refine ⟨.ok _, fun a s' hr => ?_⟩
  obtain ⟨rfl, rfl⟩ := runs_get.1 hr
  exact h

theorem read {Q : Context → State → Prop} (h : Q c s) : Ensures MonadReader.read c s Q := by
  refine ⟨.ok _, fun a s' hr => ?_⟩
  obtain ⟨rfl, rfl⟩ := runs_read.1 hr
  exact h

theorem lift {x : Checked α} (hx : x.NoRebind) (h : ∀ a, x = .ok a → Q a s) :
    Ensures (liftM x) c s Q := by
  refine ⟨hx.bind fun _ _ => .ok _, fun a s' hr => ?_⟩
  obtain ⟨ha, rfl⟩ := runs_lift.1 hr
  exact h a ha

theorem account {act : Account α} (h : Ledger.NoRebind act)
    (hq : ∀ a l, Ledger.Runs act s.ledger a l → Q a { s with ledger := l }) :
    Ensures (account act) c s Q := by
  refine ⟨(h.noRebind _).bind fun _ _ => .ok _, fun a s' hr => ?_⟩
  obtain ⟨l, hl, rfl⟩ := runs_account.1 hr
  exact hq a l hl

theorem lookup {name : String} {Q : Option SymbolId → State → Prop}
    (h : ∀ found, s.table.lookup c.scope name = .ok found → Q found s) :
    Ensures (lookup name) c s Q := by
  refine bind (P := fun a s₁ => a = s ∧ s₁ = s) (get ⟨rfl, rfl⟩) fun a s₁ ⟨ha, hs⟩ => ?_
  rw [ha, hs]
  refine bind (P := fun a s₁ => a = c ∧ s₁ = s) (read ⟨rfl, rfl⟩) fun d s₂ ⟨hd, hs⟩ => ?_
  rw [hd, hs]
  exact lift (.climb ..) h

theorem symbol {id : SymbolId} {Q : Symbol → State → Prop}
    (h : ∀ x, s.table.symbol id = .ok x → Q x s) : Ensures (symbol id) c s Q := by
  refine bind (P := fun a s₁ => a = s ∧ s₁ = s) (get ⟨rfl, rfl⟩) fun a s₁ ⟨ha, hs⟩ => ?_
  rw [ha, hs]
  exact lift (.symbol ..) h

theorem report {p : Problem} {Q : Unit → State → Prop} (h : Q () (s.report p)) :
    Ensures (report p) c s Q := by
  refine ⟨.ok _, fun a s' hr => ?_⟩
  rw [runs_report.1 hr]
  exact h

theorem modifySymbol {id : SymbolId} {g : Symbol → Symbol} {Q : Unit → State → Prop}
    (h : Q () { s with table := s.table.modifySymbol id g }) : Ensures (modifySymbol id g) c s Q := by
  refine ⟨.ok _, fun a s' hr => ?_⟩
  rw [runs_modifySymbol.1 hr]
  exact h

end Ensures

end Lower

end ThreeAddress
