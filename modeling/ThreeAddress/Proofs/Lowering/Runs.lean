import ThreeAddress.Lowering.Control

/-! Runs of lowering that end well, taken apart step by step. Each lemma says all that one step
can do: what it yields, and the state that it leaves. -/

namespace ThreeAddress

namespace Lowering.State

abbrev label (s : State) : Label := ⟨s.ledger.labels + 1⟩

abbrev nextLabel (s : State) : State :=
  { s with ledger := { s.ledger with labels := s.ledger.labels + 1 } }

abbrev temp (s : State) : Temp := ⟨s.ledger.temps + 1⟩

abbrev nextTemp (s : State) : State :=
  { s with ledger := { s.ledger with temps := s.ledger.temps + 1 } }

abbrev targets (s : State) : Targets := s.ledger.targets

abbrev withTargets (s : State) (targets : Targets) : State :=
  { s with ledger := { s.ledger with targets } }

abbrev enterLoop (s : State) (b k : Option Label) : State :=
  s.withTargets ⟨b :: s.targets.breaks, k :: s.targets.continues⟩

abbrev exitLoop (s : State) : State :=
  s.withTargets ⟨s.targets.breaks.tail, s.targets.continues.tail⟩

abbrev enterSwitch (s : State) : State :=
  s.withTargets ⟨none :: s.targets.breaks, s.targets.continues⟩

abbrev exitSwitch (s : State) : State :=
  s.withTargets ⟨s.targets.breaks.tail, s.targets.continues⟩

abbrev breakLabel? (s : State) : Option Label := s.targets.breaks.head?.join

abbrev continueLabel? (s : State) : Option Label := s.targets.continues.head?.join

abbrev enterFrame (s : State) : State :=
  { s with ledger := { s.ledger with
      cursor := 0, targets := {}, saved := (s.ledger.cursor, s.ledger.targets) :: s.ledger.saved } }

abbrev report (s : State) (p : Problem) : State := { s with problems := s.problems ++ [p] }

end Lowering.State

open Lowering

/-- The step of the ledger ends well with the value `a` and the ledger `l'`. -/
def Ledger.Runs (act : Account α) (l : Ledger) (a : α) (l' : Ledger) : Prop :=
  act l = .ok (a, l')

/-- The action ends well with the value `a` and the state `s'`. -/
def Lower.Runs (act : Lower α) (c : Context) (s : State) (a : α) (s' : State) : Prop :=
  act c s = .ok (a, s')

namespace Ledger

variable {l l' : Ledger}

@[simp] theorem runs_pure {a b : α} : Runs (pure a) l b l' ↔ b = a ∧ l' = l := by
  constructor
  · rintro ⟨⟩
    exact ⟨rfl, rfl⟩
  · rintro ⟨rfl, rfl⟩
    rfl

@[simp] theorem runs_bind {act : Account α} {f : α → Account β} {b : β} :
    Runs (act >>= f) l b l' ↔ ∃ a l₁, Runs act l a l₁ ∧ Runs (f a) l₁ b l' := by
  change (act l >>= fun p => f p.1 p.2) = _ ↔ _
  unfold Runs
  cases act l with
  | error e => simp [bind, Except.bind]
  | ok p =>
    obtain ⟨a, l₁⟩ := p
    simp [bind, Except.bind, and_assoc]

@[simp] theorem runs_map {act : Account α} {f : α → β} {b : β} :
    Runs (f <$> act) l b l' ↔ ∃ a, Runs act l a l' ∧ b = f a := by
  rw [← bind_pure_comp, runs_bind]
  constructor
  · rintro ⟨a, _, h, rfl, rfl⟩
    exact ⟨a, h, rfl⟩
  · rintro ⟨a, h, rfl⟩
    exact ⟨a, _, h, runs_pure.2 ⟨rfl, rfl⟩⟩

@[simp] theorem runs_get {a : Ledger} : Runs get l a l' ↔ a = l ∧ l' = l := runs_pure

@[simp] theorem runs_set {m : Ledger} {a : PUnit} : Runs (set m) l a l' ↔ l' = m := by
  change Except.ok (PUnit.unit, m) = .ok (a, l') ↔ _
  simp [eq_comm]

@[simp] theorem runs_modify {f : Ledger → Ledger} {a : PUnit} :
    Runs (modify f) l a l' ↔ l' = f l := by
  change Except.ok (PUnit.unit, f l) = .ok (a, l') ↔ _
  simp [eq_comm]

@[simp] theorem runs_lift {x : Checked α} {a : α} :
    Runs (liftM x) l a l' ↔ x = .ok a ∧ l' = l := by
  change (x >>= fun a => Except.ok (a, l)) = _ ↔ _
  cases x with
  | error e => simp [bind, Except.bind]
  | ok b => simp [bind, Except.bind, eq_comm]

theorem runs_freshTemp {t : Temp} :
    Runs freshTemp l t l' ↔
      l.temps + 1 < word32 ∧ l' = { l with temps := l.temps + 1 } ∧ t = ⟨l.temps + 1⟩ := by
  simp [freshTemp, addWithin_eq_ok, and_assoc]

theorem runs_freshLabel {x : Label} :
    Runs freshLabel l x l' ↔
      l.labels + 1 < word32 ∧ l' = { l with labels := l.labels + 1 } ∧ x = ⟨l.labels + 1⟩ := by
  simp [freshLabel, addWithin_eq_ok, and_assoc]

theorem runs_allocate {size offset : Nat} :
    Runs (allocate size) l offset l' ↔
      l.cursor + size < word32 ∧ l' = { l with cursor := l.cursor + size } ∧ offset = l.cursor := by
  simp [allocate, addWithin_eq_ok, and_assoc]

theorem runs_enterLoop {b k : Option Label} {u : Unit} :
    Runs (enterLoop b k) l u l' ↔
      l' = { l with targets := ⟨b :: l.targets.breaks, k :: l.targets.continues⟩ } := by
  simp [enterLoop, modifyTargets]

theorem runs_exitLoop {x : Option Label × Option Label} :
    Runs exitLoop l x l' ↔
      l' = { l with targets := ⟨l.targets.breaks.tail, l.targets.continues.tail⟩ } ∧
      x = (l.targets.breaks.head?.join, l.targets.continues.head?.join) := by
  simp [exitLoop, modifyTargets, and_assoc]

theorem runs_enterSwitch {u : Unit} :
    Runs enterSwitch l u l' ↔
      l' = { l with targets := { l.targets with breaks := none :: l.targets.breaks } } := by
  simp [enterSwitch, modifyTargets]

theorem runs_exitSwitch {x : Option Label} :
    Runs exitSwitch l x l' ↔
      l' = { l with targets := { l.targets with breaks := l.targets.breaks.tail } } ∧
      x = l.targets.breaks.head?.join := by
  simp [exitSwitch, modifyTargets, and_assoc]

theorem runs_enterFrame {u : Unit} :
    Runs enterFrame l u l' ↔
      l' = { l with cursor := 0, targets := {}, saved := (l.cursor, l.targets) :: l.saved } := by
  simp [enterFrame]

theorem runs_exitFrame {size : Nat} :
    Runs exitFrame l size l' ↔
      ∃ cursor, (match l.layout with
          | .independent => cursor = (l.saved.head?.getD (0, {})).1
          | .folded => (l.saved.head?.getD (0, {})).1 + l.cursor < word32 ∧
            (l.saved.head?.getD (0, {})).1 + l.cursor = cursor) ∧
        l' = { l with
          cursor, targets := (l.saved.head?.getD (0, {})).2, saved := l.saved.tail } ∧
        size = l.cursor := by
  cases h : l.layout <;> simp [exitFrame, h, addWithin_eq_ok, and_assoc]

theorem runs_request {slots slots' : List (Option Label)} {x : Option Label} :
    Runs (request slots) l (x, slots') l' ↔
      (slots = [] ∧ x = none ∧ slots' = [] ∧ l' = l) ∨
      (∃ y rest, slots = some y :: rest ∧ x = some y ∧ slots' = slots ∧ l' = l) ∨
      (∃ y rest, slots = none :: rest ∧ Runs freshLabel l y l' ∧ x = some y ∧
        slots' = some y :: rest) := by
  match slots with
  | [] => simp [request, and_assoc]
  | some y :: rest => simp [request, and_assoc]
  | none :: rest =>
    simp only [request, runs_bind, runs_pure, Prod.mk.injEq]
    constructor
    · rintro ⟨y, _, hy, ⟨rfl, rfl⟩, rfl⟩
      exact .inr (.inr ⟨y, rest, rfl, hy, rfl, rfl⟩)
    · rintro (h | ⟨_, _, h, _⟩ | ⟨y, _, h, hy, rfl, rfl⟩)
      · simp at h
      · simp at h
      · cases h
        exact ⟨y, _, hy, ⟨rfl, rfl⟩, rfl⟩

theorem exists_request {slots : List (Option Label)} {x : Option Label}
    {P : List (Option Label) → Ledger → Prop} :
    (∃ slots' m, Runs (request slots) l (x, slots') m ∧ P slots' m) ↔
      (slots = [] ∧ x = none ∧ P slots l) ∨
      (∃ y rest, slots = some y :: rest ∧ x = some y ∧ P slots l) ∨
      (∃ rest, slots = none :: rest ∧ l.labels + 1 < word32 ∧ x = some ⟨l.labels + 1⟩ ∧
        P (some ⟨l.labels + 1⟩ :: rest) { l with labels := l.labels + 1 }) := by
  simp only [runs_request, runs_freshLabel]
  constructor
  · rintro ⟨_, _, ⟨rfl, rfl, rfl, rfl⟩ | ⟨y, rest, rfl, rfl, rfl, rfl⟩ |
      ⟨_, rest, rfl, ⟨hw, rfl, rfl⟩, rfl, rfl⟩, hp⟩
    · exact .inl ⟨rfl, rfl, hp⟩
    · exact .inr (.inl ⟨y, rest, rfl, rfl, hp⟩)
    · exact .inr (.inr ⟨rest, rfl, hw, rfl, hp⟩)
  · rintro (⟨rfl, rfl, hp⟩ | ⟨y, rest, rfl, rfl, hp⟩ | ⟨rest, rfl, hw, rfl, hp⟩)
    · exact ⟨_, _, .inl ⟨rfl, rfl, rfl, rfl⟩, hp⟩
    · exact ⟨_, _, .inr (.inl ⟨y, rest, rfl, rfl, rfl, rfl⟩), hp⟩
    · exact ⟨_, _, .inr (.inr ⟨_, rest, rfl, ⟨hw, rfl, rfl⟩, rfl, rfl⟩), hp⟩

theorem runs_breakLabel {x : Option Label} :
    Runs breakLabel l x l' ↔ ∃ breaks m, Runs (request l.targets.breaks) l (x, breaks) m ∧
      l' = { m with targets := { m.targets with breaks } } := by
  simp only [breakLabel, modifyTargets, runs_bind, runs_get, runs_modify, runs_pure, Prod.exists]
  constructor
  · rintro ⟨_, _, ⟨rfl, rfl⟩, _, breaks, m, hr, _, _, rfl, rfl, rfl⟩
    exact ⟨breaks, m, hr, rfl⟩
  · rintro ⟨breaks, m, hr, rfl⟩
    exact ⟨_, _, ⟨rfl, rfl⟩, _, breaks, m, hr, (), _, rfl, rfl, rfl⟩

theorem runs_continueLabel {x : Option Label} :
    Runs continueLabel l x l' ↔ ∃ continues m,
      Runs (request l.targets.continues) l (x, continues) m ∧
      l' = { m with targets := { m.targets with continues } } := by
  simp only [continueLabel, modifyTargets, runs_bind, runs_get, runs_modify, runs_pure, Prod.exists]
  constructor
  · rintro ⟨_, _, ⟨rfl, rfl⟩, _, continues, m, hr, _, _, rfl, rfl, rfl⟩
    exact ⟨continues, m, hr, rfl⟩
  · rintro ⟨continues, m, hr, rfl⟩
    exact ⟨_, _, ⟨rfl, rfl⟩, _, continues, m, hr, (), _, rfl, rfl, rfl⟩

end Ledger

namespace Lower

variable {c : Context} {s s' : State}

@[simp] theorem runs_pure {a b : α} : Runs (pure a) c s b s' ↔ b = a ∧ s' = s := by
  constructor
  · rintro ⟨⟩
    exact ⟨rfl, rfl⟩
  · rintro ⟨rfl, rfl⟩
    rfl

@[simp] theorem runs_bind {act : Lower α} {f : α → Lower β} {b : β} :
    Runs (act >>= f) c s b s' ↔ ∃ a s₁, Runs act c s a s₁ ∧ Runs (f a) c s₁ b s' := by
  change (act c s >>= fun p => f p.1 c p.2) = _ ↔ _
  unfold Runs
  cases act c s with
  | error e => simp [bind, Except.bind]
  | ok p =>
    obtain ⟨a, s₁⟩ := p
    simp [bind, Except.bind, and_assoc]

theorem bind_ok {act : Lower α} {f : α → Lower β} {a : α} (h : Runs act c s a s') :
    (act >>= f) c s = f a c s' := by
  change (act c s >>= fun p => f p.1 c p.2) = _
  rw [show act c s = .ok (a, s') from h]
  rfl

theorem bind_error {act : Lower α} {f : α → Lower β} {fault : Fault} (h : act c s = .error fault) :
    (act >>= f) c s = .error fault := by
  change (act c s >>= fun p => f p.1 c p.2) = _
  rw [h]
  rfl

@[simp] theorem runs_map {act : Lower α} {f : α → β} {b : β} :
    Runs (f <$> act) c s b s' ↔ ∃ a, Runs act c s a s' ∧ b = f a := by
  rw [← bind_pure_comp, runs_bind]
  constructor
  · rintro ⟨a, _, h, rfl, rfl⟩
    exact ⟨a, h, rfl⟩
  · rintro ⟨a, h, rfl⟩
    exact ⟨a, _, h, runs_pure.2 ⟨rfl, rfl⟩⟩

@[simp] theorem runs_read {d : Context} : Runs read c s d s' ↔ d = c ∧ s' = s := runs_pure (c := c)

@[simp] theorem runs_get {a : State} : Runs get c s a s' ↔ a = s ∧ s' = s := runs_pure (c := c)

@[simp] theorem runs_modify {f : State → State} {u : PUnit} :
    Runs (modify f) c s u s' ↔ s' = f s := by
  change Except.ok (PUnit.unit, f s) = .ok (u, s') ↔ _
  simp [eq_comm]

@[simp] theorem runs_lift {x : Checked α} {a : α} :
    Runs (liftM x) c s a s' ↔ x = .ok a ∧ s' = s := by
  change (x >>= fun a => Except.ok (a, s)) = _ ↔ _
  cases x with
  | error e => simp [bind, Except.bind]
  | ok b => simp [bind, Except.bind, eq_comm]

@[simp] theorem runs_throw {f : Fault} {a : α} : ¬Runs (throw f) c s a s' := nofun

@[simp] theorem runs_withReader {f : Context → Context} {act : Lower α} {a : α} :
    Runs (withReader f act) c s a s' ↔ Runs act (f c) s a s' := Iff.rfl

@[simp] theorem runs_inScope {scope : Nat} {act : Lower α} {a : α} :
    Runs (inScope scope act) c s a s' ↔ Runs act { c with scope } s a s' := Iff.rfl

@[simp] theorem runs_account {act : Account α} {a : α} :
    Runs (account act) c s a s' ↔
      ∃ l, Ledger.Runs act s.ledger a l ∧ s' = { s with ledger := l } := by
  change (act s.ledger >>= fun p => Except.ok (p.1, { s with ledger := p.2 })) = _ ↔ _
  unfold Ledger.Runs
  cases act s.ledger with
  | error e => simp [bind, Except.bind]
  | ok p =>
    obtain ⟨b, l⟩ := p
    simp [bind, Except.bind, and_assoc, eq_comm]

@[simp] theorem runs_report {p : Problem} {u : Unit} :
    Runs (report p) c s u s' ↔ s' = { s with problems := s.problems ++ [p] } := by
  simp [report]

@[simp] theorem runs_lookup {name : String} {found : Option SymbolId} :
    Runs (lookup name) c s found s' ↔ s.table.lookup c.scope name = .ok found ∧ s' = s := by
  simp [lookup, and_assoc]

@[simp] theorem runs_symbol {id : SymbolId} {x : Symbol} :
    Runs (symbol id) c s x s' ↔ s.table.symbol id = .ok x ∧ s' = s := by
  simp [symbol, and_assoc]

@[simp] theorem runs_modifySymbol {id : SymbolId} {f : Symbol → Symbol} {u : Unit} :
    Runs (modifySymbol id f) c s u s' ↔ s' = { s with table := s.table.modifySymbol id f } := by
  simp [modifySymbol]

def blockScope (c : Context) (s : State) (span : Span) : Nat :=
  (s.table.scopeFor span.toPosition).getD c.scope

@[simp] theorem runs_inBlock {span : Span} {act : Lower α} {a : α} :
    Runs (inBlock span act) c s a s' ↔
      Runs act { c with scope := blockScope c s span } s a s' := by
  simp [inBlock, scopeOf, blockScope, and_assoc]

theorem runs_freshTemp {t : Temp} :
    Runs freshTemp c s t s' ↔
      s.ledger.temps + 1 < word32 ∧ s' = s.nextTemp ∧ t = s.temp := by
  simp [freshTemp, Ledger.runs_freshTemp, and_assoc, and_comm]

theorem runs_freshLabel {l : Label} :
    Runs freshLabel c s l s' ↔
      s.ledger.labels + 1 < word32 ∧ s' = s.nextLabel ∧ l = s.label := by
  simp [freshLabel, Ledger.runs_freshLabel, and_assoc, and_comm]

theorem runs_breakLabel {l? : Option Label} :
    Runs (account Ledger.breakLabel) c s l? s' ↔
      (s.targets.breaks = [] ∧ l? = none ∧ s' = s) ∨
      (∃ l rest, s.targets.breaks = some l :: rest ∧ l? = some l ∧ s' = s) ∨
      (∃ rest, s.targets.breaks = none :: rest ∧ s.ledger.labels + 1 < word32 ∧
        l? = some s.label ∧
        s' = s.nextLabel.withTargets ⟨some s.label :: rest, s.targets.continues⟩) := by
  have h : Runs (account Ledger.breakLabel) c s l? s' ↔ ∃ breaks l,
      Ledger.Runs (Ledger.request s.targets.breaks) s.ledger (l?, breaks) l ∧
      s' = { s with ledger := { l with targets := { l.targets with breaks } } } := by
    simp only [runs_account, Ledger.runs_breakLabel]
    grind
  rw [h, Ledger.exists_request]

theorem runs_continueLabel {l? : Option Label} :
    Runs (account Ledger.continueLabel) c s l? s' ↔
      (s.targets.continues = [] ∧ l? = none ∧ s' = s) ∨
      (∃ l rest, s.targets.continues = some l :: rest ∧ l? = some l ∧ s' = s) ∨
      (∃ rest, s.targets.continues = none :: rest ∧ s.ledger.labels + 1 < word32 ∧
        l? = some s.label ∧
        s' = s.nextLabel.withTargets ⟨s.targets.breaks, some s.label :: rest⟩) := by
  have h : Runs (account Ledger.continueLabel) c s l? s' ↔ ∃ continues l,
      Ledger.Runs (Ledger.request s.targets.continues) s.ledger (l?, continues) l ∧
      s' = { s with ledger := { l with targets := { l.targets with continues } } } := by
    simp only [runs_account, Ledger.runs_continueLabel]
    grind
  rw [h, Ledger.exists_request]

theorem runs_copyToTemp {v : Operand} {x : Code × Operand} :
    Runs (copyToTemp v) c s x s' ↔ s.ledger.temps + 1 < word32 ∧ s' = s.nextTemp ∧
      x = ([.assign (.temp s.temp) v], .temp s.temp) := by
  simp [copyToTemp, runs_freshTemp, and_assoc]

theorem runs_ensureTemp {v : Operand} {x : Code × Operand} :
    Runs (ensureTemp v) c s x s' ↔
      (v.isTemp ∧ x = ([], v) ∧ s' = s) ∨ (¬v.isTemp ∧ Runs (copyToTemp v) c s x s') := by
  by_cases h : v.isTemp <;> simp [ensureTemp, h]

theorem runs_valueSize {id : SymbolId} {size : Nat} :
    Runs (valueSize id) c s size s' ↔
      ∃ x, s.table.symbol id = .ok x ∧ s' = s ∧ size = x.type.size c.options.pointerSize := by
  simp [valueSize, and_assoc]

theorem runs_bindStorage {id : SymbolId} {size : Nat} {u : Unit} :
    Runs (bindStorage id size) c s u s' ↔
      s.ledger.cursor + size < word32 ∧ ∃ x, s.table.symbol id = .ok x ∧ x.offset = none ∧
        s' = { s with
          ledger := { s.ledger with cursor := s.ledger.cursor + size }
          table := s.table.modifySymbol id fun x =>
            { x with offset := some s.ledger.cursor, size, address := some x.name } } := by
  simp only [bindStorage, runs_bind, runs_account, Ledger.runs_allocate, runs_symbol]
  constructor
  · rintro ⟨_, _, ⟨_, ⟨hw, rfl, rfl⟩, rfl⟩, x, _, ⟨hx, rfl⟩, h⟩
    by_cases hb : x.offset.isSome
    · simp [hb] at h
    · refine ⟨hw, x, hx, by simpa using hb, ?_⟩
      simpa [hb] using h
  · rintro ⟨hw, x, hx, hb, rfl⟩
    exact ⟨_, _, ⟨_, ⟨hw, rfl, rfl⟩, rfl⟩, x, _, ⟨hx, rfl⟩, by simp [hb]⟩

end Lower

end ThreeAddress
