import ThreeAddress.Proofs.Lockstep.Trees
import ThreeAddress.Proofs.Names.Values

/-! Two runs of lowering side by side. They start in states that are alike, each with a table of its
own, and each step leaves them alike; what is alike is chosen by a comparison. -/

namespace ThreeAddress

open Lowering

/-- Two tables of declarations, and what of two runs that go by them is compared. -/
structure Comparison where
  labels : Prop
  bytes : Prop
  lines : Prop
  /-- Nothing is compared but what the first run does without a report. -/
  quiet : Prop
  left : Table
  right : Table
  lookup : ∀ {scope name found found'}, left.lookup scope name = .ok found →
    right.lookup scope name = .ok found' → found = found' ∨
      (quiet ∧ found = none ∧ ∀ id ∈ found', ∀ x, left.symbol id ≠ .ok x)
  lookupLocal : ∀ {scope name found found'}, left.lookupLocal scope name = .ok found →
    right.lookupLocal scope name = .ok found' → found = found' ∨ (quiet ∧ found = none)

def Comparison.SameScope (κ : Comparison) (a b : Position) : Prop :=
  κ.left.scopeFor a = κ.right.scopeFor b

inductive Problem.Alike (lines : Prop) : Problem → Problem → Prop
  | unresolved : SameIf lines n m → Alike lines (.unresolved name n) (.unresolved name m)
  | breakOutside : SameIf lines n m → Alike lines (.breakOutside n) (.breakOutside m)
  | continueOutside : SameIf lines n m → Alike lines (.continueOutside n) (.continueOutside m)
  | ragged : SameIf lines n m → Alike lines (.ragged name n) (.ragged name m)

theorem Problem.Alike.eq {lines : Prop} {p p' : Problem} (h : p.Alike lines p') (hl : lines) : p = p' := by
  cases h with
  | unresolved h => rw [h hl]
  | breakOutside h => rw [h hl]
  | continueOutside h => rw [h hl]
  | ragged h => rw [h hl]

variable (κ : Comparison)

structure Symbol.Like (x x' : Symbol) : Prop where
  declared : x.toDeclaration.unplaced = x'.toDeclaration.unplaced
  address : x.address = x'.address
  dimensions : x.dimensions = x'.dimensions
  params : x.params = x'.params
  bound : x.offset.isSome = x'.offset.isSome
  offset : SameIf κ.bytes x.offset x'.offset
  size : SameIf κ.bytes x.size x'.size
  frame : SameIf κ.bytes x.frame x'.frame

structure Targets.Like (t t' : Targets) : Prop where
  breaks : List.Forall₂ (SameIf κ.labels) t.breaks t'.breaks
  continues : List.Forall₂ (SameIf κ.labels) t.continues t'.continues

structure SavedLike (p p' : Nat × Targets) : Prop where
  cursor : SameIf κ.bytes p.1 p'.1
  targets : p.2.Like κ p'.2

structure Ledger.Like (l l' : Ledger) : Prop where
  temps : l.temps = l'.temps
  labels : SameIf κ.labels l.labels l'.labels
  targets : l.targets.Like κ l'.targets
  cursor : SameIf κ.bytes l.cursor l'.cursor
  layout : SameIf κ.bytes l.layout l'.layout
  saved : List.Forall₂ (SavedLike κ) l.saved l'.saved

structure Lowering.Context.Like (c c' : Context) : Prop where
  scope : c.scope = c'.scope
  className : c.className = c'.className
  raggedArrays : c.options.raggedArrays = c'.options.raggedArrays
  pointerSize : SameIf κ.bytes c.options.pointerSize c'.options.pointerSize
  caseExit : SameIf κ.labels c.options.caseExit c'.options.caseExit

/-- What is declared is declared in both tables, apart from what the right one has besides. That has
not been lowered yet. -/
structure Lowering.State.Like (s s' : State) : Prop where
  ledger : s.ledger.Like κ s'.ledger
  left : s.table.outline = κ.left.outline
  right : s'.table.outline = κ.right.outline
  symbol : ∀ {id x x'}, s.table.symbol id = .ok x → s'.table.symbol id = .ok x' → x.Like κ x'
  beyond : ∀ {id x'}, s'.table.symbol id = .ok x' → (∀ x, κ.left.symbol id ≠ .ok x) →
    x'.frame = 0 ∧ x'.dimensions = []
  problems : List.Forall₂ (Problem.Alike κ.lines) s.problems s'.problems

variable {κ}

namespace Symbol.Like

variable {x x' : Symbol}

theorem refl (x : Symbol) : x.Like κ x := ⟨rfl, rfl, rfl, rfl, rfl, .refl _, .refl _, .refl _⟩

instance : Std.Refl (Symbol.Like κ) := ⟨refl⟩

theorem name (h : x.Like κ x') : x.name = x'.name := (congrArg Declaration.name h.declared :)

theorem type (h : x.Like κ x') : x.type = x'.type := (congrArg Declaration.type h.declared :)

theorem kind (h : x.Like κ x') : x.kind = x'.kind := (congrArg Declaration.kind h.declared :)

theorem owner (h : x.Like κ x') : x.owner = x'.owner := (congrArg Declaration.owner h.declared :)

theorem members (h : x.Like κ x') : x.members = x'.members := (congrArg Declaration.members h.declared :)

theorem storage (h : x.Like κ x') (hb : κ.bytes) : x.toStorage = x'.toStorage := by
  obtain ⟨_, offset, size, dimensions, params, frame, address⟩ := x
  obtain ⟨_, offset', size', dimensions', params', frame', address'⟩ := x'
  simp only [Storage.mk.injEq]
  exact ⟨h.offset hb, h.size hb, h.dimensions, h.params, h.frame hb, h.address⟩

theorem place (h : x.Like κ x') : x.place = x'.place := by rw [Symbol.place, h.address, h.name, Symbol.place]

theorem qualifiedName (h : x.Like κ x') : x.qualifiedName = x'.qualifiedName := by
  simp only [Symbol.qualifiedName, h.owner, h.kind, h.name]

theorem isCallable (h : x.Like κ x') : x.isCallable = x'.isCallable := by
  rw [Symbol.isCallable, h.kind, Symbol.isCallable]

end Symbol.Like

theorem Lowering.Context.Like.refl (c : Context) : c.Like κ c := ⟨rfl, rfl, rfl, .refl _, .refl _⟩

instance : Std.Refl (Context.Like κ) := ⟨Context.Like.refl⟩

theorem forall₂_head {R : α → β → Prop} {xs : List α} {ys : List β} {a : α} {b : β}
    (h : List.Forall₂ R xs ys) (hd : R a b) : R (xs.head?.getD a) (ys.head?.getD b) := by
  cases h with
  | nil => exact hd
  | cons h _ => exact h

theorem SameIf.join_head {P : Prop} {xs ys : List (Option α)} (h : List.Forall₂ (SameIf P) xs ys) :
    SameIf P xs.head?.join ys.head?.join := by
  cases h with
  | nil => exact .refl _
  | cons h _ => exact h

namespace Lowering.State.Like

variable {s s' : State}

theorem lookup {scope : Nat} {name : String} {found found' : Option SymbolId} (h : s.Like κ s')
    (hl : s.table.lookup scope name = .ok found) (hl' : s'.table.lookup scope name = .ok found') :
    found = found' ∨ (κ.quiet ∧ found = none ∧ ∀ id ∈ found', ∀ x, κ.left.symbol id ≠ .ok x) := by
  rw [← Table.lookup_outline, h.left, Table.lookup_outline] at hl
  rw [← Table.lookup_outline, h.right, Table.lookup_outline] at hl'
  exact κ.lookup hl hl'

theorem lookupLocal {scope : Nat} {name : String} {found found' : Option SymbolId} (h : s.Like κ s')
    (hl : s.table.lookupLocal scope name = .ok found)
    (hl' : s'.table.lookupLocal scope name = .ok found') :
    found = found' ∨ (κ.quiet ∧ found = none) := by
  rw [← Table.lookupLocal_outline, h.left, Table.lookupLocal_outline] at hl
  rw [← Table.lookupLocal_outline, h.right, Table.lookupLocal_outline] at hl'
  exact κ.lookupLocal hl hl'

theorem sameScope {a b : Position} (h : s.Like κ s') (hk : κ.SameScope a b) :
    s.table.scopeFor a = s'.table.scopeFor b := by
  rw [← Table.scopeFor_outline a, ← Table.scopeFor_outline b, h.left, h.right, Table.scopeFor_outline,
    Table.scopeFor_outline]
  exact hk

theorem declared {id : SymbolId} {x : Symbol} (h : s.Like κ s') (hx : s.table.symbol id = .ok x) :
    ∃ y, κ.left.symbol id = .ok y := by
  have ho : s.table.outline.symbol id = κ.left.outline.symbol id := by rw [h.left]
  rw [Table.symbol_outline, Table.symbol_outline, hx] at ho
  cases hy : κ.left.symbol id with
  | error e => simp [hy, Functor.map, Except.map] at ho
  | ok y => exact ⟨y, rfl⟩

theorem withLedger {l l' : Ledger} (h : s.Like κ s') (hl : l.Like κ l') :
    { s with ledger := l }.Like κ { s' with ledger := l' } := { h with ledger := hl }

theorem report {p p' : Problem} (h : s.Like κ s') (hp : p.Alike κ.lines p') :
    (s.report p).Like κ (s'.report p') :=
  { h with problems := List.rel_append h.problems (.cons hp .nil) }

theorem modifySymbol {id : SymbolId} {f f' : Symbol → Symbol} (h : s.Like κ s')
    (ho : ∀ x, (f x).outline = x.outline) (ho' : ∀ x, (f' x).outline = x.outline)
    (hf : ∀ x x', x.Like κ x' → (f x).Like κ (f' x'))
    (hb : (∃ x, κ.left.symbol id = .ok x) ∨
      ∀ x, (f' x).frame = x.frame ∧ (f' x).dimensions = x.dimensions) :
    { s with table := s.table.modifySymbol id f }.Like κ
      { s' with table := s'.table.modifySymbol id f' } where
  ledger := h.ledger
  left := (Table.outline_modifySymbol fun x _ => ho x).trans h.left
  right := (Table.outline_modifySymbol fun x _ => ho' x).trans h.right
  symbol hx hx' := by
    obtain ⟨hn, hx⟩ | ⟨rfl, y, hy, rfl⟩ := Table.symbol_of_modifySymbol hx
    · obtain ⟨_, hx'⟩ | ⟨rfl, _⟩ := Table.symbol_of_modifySymbol hx'
      · exact h.symbol hx hx'
      · exact absurd rfl hn
    · obtain ⟨hn, _⟩ | ⟨_, y', hy', rfl⟩ := Table.symbol_of_modifySymbol hx'
      · exact absurd rfl hn
      · exact hf y y' (h.symbol hy hy')
  -- what only the right table declares may be changed only where the left one has it too
  beyond hx' hn := by
    obtain ⟨_, hx'⟩ | ⟨rfl, y', hy', rfl⟩ := Table.symbol_of_modifySymbol hx'
    · exact h.beyond hx' hn
    · obtain ⟨x, hx⟩ | hb := hb
      · exact absurd hx (hn x)
      · rw [(hb y').1, (hb y').2]
        exact h.beyond hy' hn
  problems := h.problems

end Lowering.State.Like

/-- What both actions yield, started in states that are alike, is related by `A`, and the states are
alike again. -/
structure Lower.Lockstep (κ : Comparison) (A : α → α → Prop) (act act' : Lower α) : Prop where
  follows : Keeps State.Follows act
  agree : ∀ ⦃c c' s s' a a' s₁ s₁'⦄, c.Like κ c' → s.Like κ s' → Runs act c s a s₁ →
    Runs act' c' s' a' s₁' → (κ.quiet → s₁.problems = []) → A a a' ∧ s₁.Like κ s₁'

namespace Lower

open Lowering.State (Follows)

namespace Lockstep

variable {A : α → α → Prop} {B : β → β → Prop} {act act' : Lower α} {f f' : α → Lower β}

theorem pure {a a' : α} (h : A a a') : Lockstep κ A (Pure.pure a) (Pure.pure a') where
  follows := .pure a
  agree _ _ s s' b b' _ _ _ hs hr hr' _ := by
    obtain ⟨rfl, rfl⟩ := runs_pure.1 hr
    obtain ⟨rfl, rfl⟩ := runs_pure.1 hr'
    exact ⟨h, hs⟩

theorem bind [Std.Refl A] (h : Lockstep κ A act act')
    (k : ∀ a a', A a a' → Lockstep κ B (f a) (f' a')) : Lockstep κ B (act >>= f) (act' >>= f') where
  follows := h.follows.bind fun a => (k a a (Std.Refl.refl a)).follows
  agree _ _ _ _ _ _ _ _ hc hs hr hr' hq := by
    obtain ⟨a, s₁, ha, hf⟩ := runs_bind.1 hr
    obtain ⟨a', s₁', ha', hf'⟩ := runs_bind.1 hr'
    obtain ⟨hA, hs₁⟩ := h.agree hc hs ha ha' fun q =>
      ((k a a (Std.Refl.refl a)).follows hf).quiet (hq q)
    exact (k a a' hA).agree hc hs₁ hf hf' hq

theorem seq (h : Lockstep κ (fun _ _ => True) act act') (k : ∀ a a', Lockstep κ B (f a) (f' a')) :
    Lockstep κ B (act >>= f) (act' >>= f') :=
  have : Std.Refl fun _ _ : α => True := ⟨fun _ => trivial⟩
  h.bind fun a a' _ => k a a'

theorem bind_eq (h : Lockstep κ Eq act act') (k : ∀ a, Lockstep κ B (f a) (f' a)) :
    Lockstep κ B (act >>= f) (act' >>= f') :=
  h.bind fun a _ e => e ▸ k a

theorem withReader {g g' : Context → Context} (h : Lockstep κ A act act')
    (hg : ∀ {c c'}, c.Like κ c' → (g c).Like κ (g' c')) :
    Lockstep κ A (MonadWithReaderOf.withReader g act) (MonadWithReaderOf.withReader g' act') where
  follows := h.follows.withReader
  agree _ _ _ _ _ _ _ _ hc hs hr hr' hq := h.agree (hg hc) hs hr hr' hq

end Lockstep

theorem read_lockstep : Lockstep κ (Context.Like κ) read read where
  follows := read_keeps
  agree _ _ _ _ _ _ _ _ hc hs hr hr' _ := by
    obtain ⟨rfl, rfl⟩ := runs_read.1 hr
    obtain ⟨rfl, rfl⟩ := runs_read.1 hr'
    exact ⟨hc, hs⟩

theorem report_lockstep {p p' : Problem} (h : p.Alike κ.lines p') :
    Lockstep κ (fun _ _ => True) (report p) (report p') where
  follows := (report_grows p).follows
  agree _ _ _ _ _ _ _ _ _ hs hr hr' _ := by
    rw [runs_report.1 hr, runs_report.1 hr']
    exact ⟨trivial, hs.report h⟩

theorem account_lockstep {A : α → α → Prop} {act act' : Account α}
    (h : ∀ {l l' : Ledger} {a a' m m'}, l.Like κ l' → Ledger.Runs act l a m →
      Ledger.Runs act' l' a' m' → A a a' ∧ m.Like κ m') :
    Lockstep κ A (account act) (account act') where
  follows := account_follows act
  agree _ _ _ _ _ _ _ _ _ hs hr hr' _ := by
    obtain ⟨m, hm, rfl⟩ := runs_account.1 hr
    obtain ⟨m', hm', rfl⟩ := runs_account.1 hr'
    obtain ⟨ha, hl⟩ := h hs.ledger hm hm'
    exact ⟨ha, hs.withLedger hl⟩

theorem freshTemp_lockstep : Lockstep κ Eq freshTemp freshTemp where
  follows := freshTemp_keeps
  agree _ _ s s' _ _ _ _ _ hs hr hr' _ := by
    obtain ⟨_, rfl, rfl⟩ := runs_freshTemp.1 hr
    obtain ⟨_, rfl, rfl⟩ := runs_freshTemp.1 hr'
    have ht := hs.ledger.temps
    exact ⟨by rw [State.temp, ht], hs.withLedger { hs.ledger with temps := by rw [ht] }⟩

theorem freshLabel_lockstep : Lockstep κ (SameIf κ.labels) freshLabel freshLabel where
  follows := freshLabel_grows.follows
  agree _ _ s s' _ _ _ _ _ hs hr hr' _ := by
    obtain ⟨_, rfl, rfl⟩ := runs_freshLabel.1 hr
    obtain ⟨_, rfl, rfl⟩ := runs_freshLabel.1 hr'
    have hl := hs.ledger.labels
    exact ⟨fun h => by rw [State.label, hl h], hs.withLedger { hs.ledger with
      labels := fun h => congrArg (· + 1) (hl h) }⟩

theorem enterLoop_lockstep {b b' k k' : Option Label} (hb : SameIf κ.labels b b')
    (hk : SameIf κ.labels k k') : Lockstep κ (fun _ _ => True) (account (Ledger.enterLoop b k))
      (account (Ledger.enterLoop b' k')) :=
  account_lockstep fun hl hr hr' => by
    rw [Ledger.runs_enterLoop.1 hr, Ledger.runs_enterLoop.1 hr']
    exact ⟨trivial, { hl with
      targets := ⟨.cons hb hl.targets.breaks, .cons hk hl.targets.continues⟩ }⟩

theorem exitLoop_lockstep : Lockstep κ (SameIf κ.labels) (account Ledger.exitLoop) (account Ledger.exitLoop) :=
  account_lockstep fun hl hr hr' => by
    obtain ⟨rfl, rfl⟩ := Ledger.runs_exitLoop.1 hr
    obtain ⟨rfl, rfl⟩ := Ledger.runs_exitLoop.1 hr'
    have hb := hl.targets.breaks
    have hk := hl.targets.continues
    exact ⟨fun h => by rw [SameIf.join_head hb h, SameIf.join_head hk h],
      { hl with targets := ⟨by simpa using List.forall₂_drop 1 hb, by simpa using List.forall₂_drop 1 hk⟩ }⟩

theorem enterSwitch_lockstep :
    Lockstep κ (fun _ _ => True) (account Ledger.enterSwitch) (account Ledger.enterSwitch) :=
  account_lockstep fun hl hr hr' => by
    rw [Ledger.runs_enterSwitch.1 hr, Ledger.runs_enterSwitch.1 hr']
    exact ⟨trivial, { hl with targets := ⟨.cons (.refl _) hl.targets.breaks, hl.targets.continues⟩ }⟩

theorem exitSwitch_lockstep :
    Lockstep κ (SameIf κ.labels) (account Ledger.exitSwitch) (account Ledger.exitSwitch) :=
  account_lockstep fun hl hr hr' => by
    obtain ⟨rfl, rfl⟩ := Ledger.runs_exitSwitch.1 hr
    obtain ⟨rfl, rfl⟩ := Ledger.runs_exitSwitch.1 hr'
    have hb := hl.targets.breaks
    exact ⟨SameIf.join_head hb,
      { hl with targets := ⟨by simpa using List.forall₂_drop 1 hb, hl.targets.continues⟩ }⟩

theorem request_alike {slots slots' out out' : List (Option Label)} {x x' : Option Label}
    {l l' m m' : Ledger} (hs : List.Forall₂ (SameIf κ.labels) slots slots') (hl : l.Like κ l')
    (hr : Ledger.Runs (Ledger.request slots) l (x, out) m)
    (hr' : Ledger.Runs (Ledger.request slots') l' (x', out') m') :
    Option.Rel (SameIf κ.labels) x x' ∧ List.Forall₂ (SameIf κ.labels) out out' ∧ m.Like κ m' := by
  obtain ⟨rfl, rfl, rfl, rfl⟩ | ⟨y, rest, rfl, rfl, rfl, rfl⟩ | ⟨y, rest, rfl, hy, rfl, rfl⟩ :=
    Ledger.runs_request.1 hr
  · cases hs
    obtain ⟨_, rfl, rfl, rfl⟩ | ⟨_, _, h, _⟩ | ⟨_, _, h, _⟩ := Ledger.runs_request.1 hr'
    · exact ⟨.none, .nil, hl⟩
    · cases h
    · cases h
  · obtain ⟨h, _⟩ | ⟨y', rest', rfl, rfl, rfl, rfl⟩ | ⟨y', rest', rfl, hy', rfl, rfl⟩ :=
      Ledger.runs_request.1 hr'
    · subst h
      cases hs
    · obtain ⟨hy, hrest⟩ := List.forall₂_cons.1 hs
      exact ⟨.some fun h => Option.some.inj (hy h), hs, hl⟩
    · obtain ⟨hy, hrest⟩ := List.forall₂_cons.1 hs
      -- one run has the label already and the other takes it, which is so only if labels may differ
      have hn (h : κ.labels) : False := nomatch hy h
      obtain ⟨_, rfl, _⟩ := Ledger.runs_freshLabel.1 hy'
      exact ⟨.some fun h => (hn h).elim, .cons (fun h => (hn h).elim) hrest,
        { hl with labels := fun h => (hn h).elim }⟩
  · obtain ⟨_, rfl, rfl⟩ := Ledger.runs_freshLabel.1 hy
    obtain ⟨h, _⟩ | ⟨y', rest', rfl, rfl, rfl, rfl⟩ | ⟨y', rest', rfl, hy', rfl, rfl⟩ :=
      Ledger.runs_request.1 hr'
    · subst h
      cases hs
    · obtain ⟨hy, hrest⟩ := List.forall₂_cons.1 hs
      have hn (h : κ.labels) : False := nomatch hy h
      exact ⟨.some fun h => (hn h).elim, .cons (fun h => (hn h).elim) hrest,
        { hl with labels := fun h => (hn h).elim }⟩
    · obtain ⟨_, rfl, rfl⟩ := Ledger.runs_freshLabel.1 hy'
      obtain ⟨_, hrest⟩ := List.forall₂_cons.1 hs
      have hx : SameIf κ.labels (⟨l.labels + 1⟩ : Label) ⟨l'.labels + 1⟩ := fun h => by
        rw [hl.labels h]
      exact ⟨.some hx, .cons (fun h => congrArg some (hx h)) hrest,
        { hl with labels := fun h => congrArg (· + 1) (hl.labels h) }⟩

theorem breakLabel_lockstep : Lockstep κ (Option.Rel (SameIf κ.labels)) (account Ledger.breakLabel)
    (account Ledger.breakLabel) :=
  account_lockstep fun hl hr hr' => by
    obtain ⟨out, m, hq, rfl⟩ := Ledger.runs_breakLabel.1 hr
    obtain ⟨out', m', hq', rfl⟩ := Ledger.runs_breakLabel.1 hr'
    obtain ⟨hx, hout, hm⟩ := request_alike hl.targets.breaks hl hq hq'
    exact ⟨hx, { hm with targets := ⟨hout, hm.targets.continues⟩ }⟩

theorem continueLabel_lockstep : Lockstep κ (Option.Rel (SameIf κ.labels)) (account Ledger.continueLabel)
    (account Ledger.continueLabel) :=
  account_lockstep fun hl hr hr' => by
    obtain ⟨out, m, hq, rfl⟩ := Ledger.runs_continueLabel.1 hr
    obtain ⟨out', m', hq', rfl⟩ := Ledger.runs_continueLabel.1 hr'
    obtain ⟨hx, hout, hm⟩ := request_alike hl.targets.continues hl hq hq'
    exact ⟨hx, { hm with targets := ⟨hm.targets.breaks, hout⟩ }⟩

theorem allocate_lockstep {size size' : Nat} (h : SameIf κ.bytes size size') :
    Lockstep κ (SameIf κ.bytes) (account (Ledger.allocate size)) (account (Ledger.allocate size')) :=
  account_lockstep fun hl hr hr' => by
    obtain ⟨_, rfl, rfl⟩ := Ledger.runs_allocate.1 hr
    obtain ⟨_, rfl, rfl⟩ := Ledger.runs_allocate.1 hr'
    exact ⟨hl.cursor, { hl with cursor := fun b => by rw [hl.cursor b, h b] }⟩

theorem enterFrame_lockstep :
    Lockstep κ (fun _ _ => True) (account Ledger.enterFrame) (account Ledger.enterFrame) :=
  account_lockstep fun hl hr hr' => by
    rw [Ledger.runs_enterFrame.1 hr, Ledger.runs_enterFrame.1 hr']
    exact ⟨trivial, { hl with
      cursor := .refl _, targets := ⟨.nil, .nil⟩, saved := .cons ⟨hl.cursor, hl.targets⟩ hl.saved }⟩

theorem exitFrame_lockstep :
    Lockstep κ (SameIf κ.bytes) (account Ledger.exitFrame) (account Ledger.exitFrame) :=
  account_lockstep fun {l l' _ _ _ _} hl hr hr' => by
    obtain ⟨cursor, hc, rfl, rfl⟩ := Ledger.runs_exitFrame.1 hr
    obtain ⟨cursor', hc', rfl, rfl⟩ := Ledger.runs_exitFrame.1 hr'
    have hs := forall₂_head hl.saved (a := (0, {})) (b := (0, {})) ⟨.refl _, .nil, .nil⟩
    refine ⟨hl.cursor, { hl with
      cursor := fun b => ?_, targets := hs.targets, saved := by simpa using List.forall₂_drop 1 hl.saved }⟩
    rw [hl.layout b, hl.cursor b, hs.cursor b] at hc
    cases hn : l'.layout with
    | independent =>
      rw [hn] at hc hc'
      exact hc.trans hc'.symm
    | folded =>
      rw [hn] at hc hc'
      exact hc.2.symm.trans hc'.2

theorem modifySymbol_follows {id : SymbolId} {f : Symbol → Symbol}
    (h : ∀ x, (f x).outline = x.outline) : Keeps Follows (modifySymbol id f) := by
  intro c s u s' hr
  rw [runs_modifySymbol.1 hr]
  exact ⟨Table.outline_modifySymbol fun x _ => h x, fun hp => hp⟩

theorem symbol_lockstep (id : SymbolId) : Lockstep κ (Symbol.Like κ) (symbol id) (symbol id) where
  follows := symbol_keeps id
  agree _ _ _ _ _ _ _ _ _ hs hr hr' _ := by
    obtain ⟨hx, rfl⟩ := runs_symbol.1 hr
    obtain ⟨hx', rfl⟩ := runs_symbol.1 hr'
    exact ⟨hs.symbol hx hx', hs⟩

theorem symbol_twins_bind {B : β → β → Prop} {id : SymbolId} {f f' : Symbol → Lower β}
    (hf : Keeps Follows (symbol id >>= f))
    (k : (∃ y, κ.left.symbol id = .ok y) → ∀ x x', x.Like κ x' → Lockstep κ B (f x) (f' x')) :
    Lockstep κ B (symbol id >>= f) (symbol id >>= f') where
  follows := hf
  agree _ _ _ _ _ _ _ _ hc hs hr hr' hq := by
    obtain ⟨x, _, hx, hk⟩ := runs_bind.1 hr
    obtain ⟨x', _, hx', hk'⟩ := runs_bind.1 hr'
    obtain ⟨hx, rfl⟩ := runs_symbol.1 hx
    obtain ⟨hx', rfl⟩ := runs_symbol.1 hx'
    exact (k (hs.declared hx) x x' (hs.symbol hx hx')).agree hc hs hk hk' hq

theorem modifySymbol_lockstep {id : SymbolId} {f f' : Symbol → Symbol}
    (hid : ∃ y, κ.left.symbol id = .ok y) (ho : ∀ x, (f x).outline = x.outline)
    (ho' : ∀ x, (f' x).outline = x.outline) (hf : ∀ x x', x.Like κ x' → (f x).Like κ (f' x')) :
    Lockstep κ (fun _ _ => True) (modifySymbol id f) (modifySymbol id f') where
  follows := modifySymbol_follows ho
  agree _ _ _ _ _ _ _ _ _ hs hr hr' _ := by
    rw [runs_modifySymbol.1 hr, runs_modifySymbol.1 hr']
    exact ⟨trivial, hs.modifySymbol ho ho' hf (.inl hid)⟩

theorem lift_lockstep {P : Prop} {x x' : Checked α} (h : SameIf P x x') :
    Lockstep κ (SameIf P) (liftM x) (liftM x') where
  follows := lift_keeps x
  agree _ _ _ _ _ _ _ _ _ hs hr hr' _ := by
    obtain ⟨hx, rfl⟩ := runs_lift.1 hr
    obtain ⟨hx', rfl⟩ := runs_lift.1 hr'
    exact ⟨fun p => Except.ok.inj (hx.symm.trans ((h p).trans hx')), hs⟩

theorem valueSize_lockstep (id : SymbolId) : Lockstep κ (SameIf κ.bytes) (valueSize id) (valueSize id) :=
  (symbol_lockstep id).bind fun x x' hx => read_lockstep.bind fun c c' hc =>
    .pure fun h => by rw [hx.type, hc.pointerSize h]

theorem bindStorage_lockstep (id : SymbolId) {size size' : Nat} (h : SameIf κ.bytes size size') :
    Lockstep κ (fun _ _ => True) (bindStorage id size) (bindStorage id size') where
  follows := (bindStorage_binds id size).bound.stored.follows
  agree _ _ s s' _ _ _ _ _ hs hr hr' _ := by
    obtain ⟨_, x, _, _, rfl⟩ := runs_bindStorage.1 hr
    obtain ⟨_, x', _, _, rfl⟩ := runs_bindStorage.1 hr'
    have hl : Ledger.Like κ { s.ledger with cursor := s.ledger.cursor + size }
        { s'.ledger with cursor := s'.ledger.cursor + size' } :=
      { hs.ledger with cursor := fun b => by rw [hs.ledger.cursor b, h b] }
    refine ⟨trivial, (hs.withLedger hl).modifySymbol (fun _ => rfl) (fun _ => rfl) (fun y y' hy => ?_)
      (.inr fun _ => ⟨rfl, rfl⟩)⟩
    exact { hy with
      bound := rfl, offset := fun b => congrArg some (hs.ledger.cursor b), size := h,
      address := congrArg some hy.name }

def ReportsMissing (name : String) (act : Lower α) : Prop :=
  ∀ ⦃c s a s'⦄, Runs act c s a s' → s.table.lookup c.scope name = .ok none → s'.problems ≠ []

theorem report_reportsMissing {name : String} (p : Problem) : ReportsMissing name (report p) := by
  intro c s u s' h _
  rw [runs_report.1 h]
  simp

theorem ReportsMissing.bind {name : String} {act : Lower α} {f : α → Lower β} (h : ReportsMissing name act)
    (k : ∀ a, Keeps Follows (f a)) : ReportsMissing name (act >>= f) := by
  intro c s b s' hr hn hp
  obtain ⟨a, _, ha, hf⟩ := runs_bind.1 hr
  exact h ha hn ((k a hf).quiet hp)

theorem ReportsMissing.bind_pure {name : String} {act : Lower α} (h : ReportsMissing name act) (f : α → β) :
    ReportsMissing name (act >>= fun a => pure (f a)) :=
  h.bind fun _ => .pure _

theorem lookup_reportsMissing {name : String} {f : Option SymbolId → Lower β}
    (h : ReportsMissing name (f none)) :
    ReportsMissing name (lookup name >>= f) := by
  intro c s b s' hr hn
  obtain ⟨found, _, hl, hf⟩ := runs_bind.1 hr
  obtain ⟨hl, rfl⟩ := runs_lookup.1 hl
  cases hn.symm.trans hl
  exact h hf hn

section Lookup

variable {B : β → β → Prop} {f f' : Option SymbolId → Lower β}

/-- A name that only the right table declares counts as missing, if that is reported. -/
theorem lookup_lockstep (name : String) (hn : Lockstep κ B (f none) (f' none))
    (hq : ReportsMissing name (f none)) (hs : ∀ id, Lockstep κ B (f (some id)) (f' (some id))) :
    Lockstep κ B (lookup name >>= f) (lookup name >>= f') where
  follows := (lookup_keeps name).bind fun found => by
    cases found with
    | none => exact hn.follows
    | some id => exact (hs id).follows
  agree _ _ _ _ _ _ _ _ hc hst hr hr' quiet := by
    obtain ⟨found, _, hl, hr⟩ := runs_bind.1 hr
    obtain ⟨found', _, hl', hr'⟩ := runs_bind.1 hr'
    obtain ⟨hl, rfl⟩ := runs_lookup.1 hl
    obtain ⟨hl', rfl⟩ := runs_lookup.1 hl'
    obtain rfl | ⟨q, rfl, _⟩ := hst.lookup (hc.scope ▸ hl) hl'
    · cases found with
      | none => exact hn.agree hc hst hr hr' quiet
      | some id => exact (hs id).agree hc hst hr hr' quiet
    · exact absurd (quiet q) (hq hr hl)

end Lookup

end Lower

end ThreeAddress
