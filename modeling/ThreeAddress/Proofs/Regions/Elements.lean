import Mathlib.Algebra.BigOperators.Group.List.Basic
import ThreeAddress.Proofs.Plans.Program
import ThreeAddress.Proofs.Emission.Values

namespace ThreeAddress

open Lowering Lower

def Ledger.Draws (l l' : Ledger) : Prop :=
  l.temps ≤ l'.temps ∧ (l.temps < l'.temps → l'.temps < word32)

namespace Ledger

variable {l l' l'' : Ledger}

theorem Draws.of_eq (h : l'.temps = l.temps) : l.Draws l' := ⟨Nat.le_of_eq h.symm, fun ht => by omega⟩

theorem Draws.trans (h : l.Draws l') (k : l'.Draws l'') : l.Draws l'' := by
  refine ⟨Nat.le_trans h.1 k.1, fun ht => ?_⟩
  obtain hk | hk := Nat.lt_or_eq_of_le k.1
  · exact k.2 hk
  · rw [← hk] at ht ⊢
    exact h.2 ht

theorem freshTemp_draws {t : Temp} (h : Runs freshTemp l t l') : l.Draws l' := by
  obtain ⟨hw, rfl, _⟩ := runs_freshTemp.1 h
  exact ⟨Nat.le_succ _, fun _ => hw⟩

theorem request_draws {slots : List (Option Label)} {x : Option Label × List (Option Label)}
    (h : Runs (request slots) l x l') : l.Draws l' := by
  obtain ⟨_, _, _, rfl⟩ | ⟨_, _, _, _, _, rfl⟩ | ⟨_, _, _, hl, _⟩ := runs_request.1 h
  · exact .of_eq rfl
  · exact .of_eq rfl
  · obtain ⟨_, rfl, _⟩ := runs_freshLabel.1 hl
    exact .of_eq rfl

end Ledger

namespace FullState

variable {d d' : FullState} {s : Step} {b : s.Answer}

theorem step_draws (h : d.step s = .ok (b, d')) : d.ledger.Draws d'.ledger := by
  cases s with
  | freshTemp =>
    obtain ⟨l, hl, rfl⟩ := keep_eq_ok h
    exact Ledger.freshTemp_draws hl
  | breakLabel | continueLabel =>
    obtain ⟨l, hl, rfl⟩ := keep_eq_ok h
    simp only [Ledger.runs_breakLabel, Ledger.runs_continueLabel] at hl
    obtain ⟨_, _, hr, rfl⟩ := hl
    exact (Ledger.request_draws hr).trans (.of_eq rfl)
  | freshLabel =>
    obtain ⟨l, hl, rfl⟩ := keep_eq_ok h
    obtain ⟨_, rfl, _⟩ := Ledger.runs_freshLabel.1 hl
    exact .of_eq rfl
  | enterLoop | enterSwitch | enterFrame =>
    obtain ⟨l, hl, rfl⟩ := keep_eq_ok h
    simp only [Ledger.runs_enterLoop, Ledger.runs_enterSwitch, Ledger.runs_enterFrame] at hl
    exact .of_eq (by rw [hl])
  | exitLoop | exitSwitch =>
    obtain ⟨l, hl, rfl⟩ := keep_eq_ok h
    simp only [Ledger.runs_exitLoop, Ledger.runs_exitSwitch] at hl
    exact .of_eq (by rw [hl.1])
  | allocate =>
    obtain ⟨l, hl, rfl⟩ := keep_eq_ok h
    obtain ⟨_, rfl, _⟩ := Ledger.runs_allocate.1 hl
    exact .of_eq rfl
  | exitFrame =>
    obtain ⟨l, hl, rfl⟩ := keep_eq_ok h
    obtain ⟨_, _, rfl, _⟩ := Ledger.runs_exitFrame.1 hl
    exact .of_eq rfl
  -- questions change nothing, and the other steps do not touch the account
  | endsInJump | className | isWanted | scope | scopeFor | lookup | lookupLocal | symbol | arraySize =>
    rw [ask_eq_ok h]
    exact .of_eq rfl
  | begin | evaluate | emit | enterFunction | exitFunction | enterClass | exitClass | want | moveTo
  | report | extend | closeFunction | closeClass =>
    cases h
    exact .of_eq rfl
  | place id offset size =>
    obtain ⟨_, _, _, rfl⟩ := step_place_eq_ok.1 h
    exact .of_eq rfl

end FullState

theorem Plan.run_draws {plan : Plan α} {d d' : FullState} {a : α} (h : plan.run d = .ok (a, d')) :
    d.ledger.Draws d'.ledger := by
  induction plan generalizing d with
  | done a =>
    cases h
    exact .of_eq rfl
  | step s next ih =>
    rw [run] at h
    cases hs : d.step s with
    | error e => simp [hs, Bind.bind, Except.bind] at h
    | ok x =>
      rw [hs] at h
      exact (FullState.step_draws hs).trans (ih x.1 h)

theorem DoesCode.draws {plan : (options : Options) → Plan Unit} {act : Lower Code}
    (h : ∀ options, DoesCode options (plan options) act) :
    Keeps (fun s s' => s.ledger.Draws s'.ledger) act := by
  intro c s code s' hr
  -- Any context is that of a state.
  let d : FullState := { toState := s, scope := c.scope, className := c.className }
  have hd := (h c.options).run d
  rw [show act (d.context c.options) d.toState = .ok (code, s') from hr] at hd
  exact Plan.run_draws hd

namespace Lower

abbrev Takes (act : Lower α) : Prop := Keeps (fun s s' => s.ledger.temps < s'.ledger.temps) act

variable {act : Lower α} {f : α → Lower β}

namespace Takes

theorem first (h : Takes act) (k : ∀ a, Keeps State.Advances (f a)) : Takes (act >>= f) := by
  intro c s b s' hr
  obtain ⟨a, s₁, ha, hf⟩ := runs_bind.1 hr
  exact Nat.lt_of_lt_of_le (h ha) (k a hf).temps

theorem last (h : Keeps State.Advances act) (k : ∀ a, Takes (f a)) : Takes (act >>= f) := by
  intro c s b s' hr
  obtain ⟨a, s₁, ha, hf⟩ := runs_bind.1 hr
  exact Nat.lt_of_le_of_lt (h ha).temps (k a hf)

end Takes

theorem freshTemp_takes : Takes freshTemp := by
  intro c s t s' h
  obtain ⟨_, rfl, _⟩ := runs_freshTemp.1 h
  exact Nat.lt_succ_self _

theorem copyToTemp_takes (v : Operand) : Takes (copyToTemp v) :=
  freshTemp_takes.first fun _ => .pure _

end Lower

theorem Expr.lower_takes {e : Expr} (hn : ∀ name span, e ≠ .ident name span)
    (ht : ∀ span, e ≠ .this span) : Takes (e.lower .value) := by
  cases e with
  | int | str | bool | null =>
    rw [Expr.lower]
    exact copyToTemp_takes _
  | ident name span => exact absurd rfl (hn name span)
  | this span => exact absurd rfl (ht span)
  | array es span =>
    rw [Expr.lower]
    refine .last (literalShape_keeps ..) fun shape => .last (Keeps.mapM fun p _ => ?_) fun _ =>
      freshTemp_takes.first fun _ => .pure _
    exact leafAt_keeps (leaf_advances es p) _
  | binary l op r span =>
    rw [Expr.lower]
    exact .last (l.lower_advances _) fun _ => .last (r.lower_advances _) fun _ =>
      freshTemp_takes.first fun _ => .pure _
  | unary op e span =>
    rw [Expr.lower]
    exact .last (e.lower_advances _) fun _ => freshTemp_takes.first fun _ => .pure _
  | logical l op r span =>
    rw [Expr.lower]
    exact .last (l.lower_advances _) fun _ => freshTemp_takes.first fun _ =>
      freshLabel_advances.bind fun _ => (r.lower_advances _).bind fun _ => by cases op <;> exact .pure _
  | ternary c a b span =>
    rw [Expr.lower]
    exact .last (c.lower_advances _) fun _ => .last freshLabel_advances fun _ =>
      .last freshLabel_advances fun _ => .last (a.lower_advances _) fun _ =>
        freshTemp_takes.first fun _ => freshLabel_advances.bind fun _ =>
          (b.lower_advances _).bind fun _ => .pure _
  | call callee args span =>
    rw [Expr.lower_call]
    exact .last (lowerCallee_advances span callee) fun _ =>
      .last (lowerArgs_advances fun e _ => e.lower_advances _) fun _ =>
        Takes.first (freshTemp_takes.first fun _ => .pure _) fun _ => .pure _
  | new name args span =>
    rw [Expr.lower]
    exact .last (lowerArgs_advances fun e _ => e.lower_advances _) fun _ =>
      freshTemp_takes.first fun _ => .pure _
  | index base i span =>
    rw [Expr.lower]
    exact .last (base.lower_advances _) fun _ => .last (i.lower_advances _) fun _ =>
      .last (ensureTemp_keeps _) fun _ => freshTemp_takes.first fun _ => .pure _
  | property object field span =>
    rw [Expr.lower]
    exact .last (object.lower_advances _) fun _ => freshTemp_takes.first fun _ => .pure _

namespace Lower

theorem storable_takes (e : Expr) : Takes (storable (e.lower .value)) := by
  intro c s x s' hr
  obtain ⟨y, s₁, hy, ⟨_, _, _, rfl, _⟩ | ⟨hne, rfl, _⟩⟩ := runs_storable.1 hr
  · exact Nat.lt_succ_of_le (e.lower_advances _ hy).temps
  · refine Expr.lower_takes ?_ ?_ hy
    · rintro name span rfl
      obtain ⟨v, hv, rfl⟩ := Expr.runs_ident.1 hy
      obtain ⟨_, there, rfl⟩ := nameOperand_emits hv
      exact hne there rfl
    · rintro span rfl
      obtain ⟨rfl, _⟩ := Expr.runs_this.1 hy
      exact hne "this" rfl

theorem leafAt_takes (es : List Expr) (zero : Operand) (path : List Nat) :
    Takes (leafAt (.row (lowerCells es)) zero path) := by
  unfold leafAt
  cases ha : (Nest.row (lowerCells es)).at? path with
  | none => exact copyToTemp_takes zero
  | some act =>
    obtain ⟨e, _, rfl⟩ := leaf_of_lowerCells ha
    exact storable_takes e

theorem mapM_takes {f : α → Lower β} (xs : List α) (h : ∀ x ∈ xs, Takes (f x)) :
    Keeps (fun s s' => s.ledger.temps + xs.length ≤ s'.ledger.temps) (xs.mapM f) := by
  induction xs with
  | nil =>
    intro c s ys s' hr
    obtain ⟨_, rfl⟩ := runs_pure.1 hr
    exact Nat.le_refl _
  | cons x rest ih =>
    intro c s ys s' hr
    rw [List.mapM_cons] at hr
    simp only [runs_bind, runs_pure] at hr
    obtain ⟨_, s₁, hx, _, _, hrest, _, rfl⟩ := hr
    have hx := h x (by simp) hx
    have hrest := ih (fun y hy => h y (by simp [hy])) hrest
    rw [List.length_cons]
    omega

theorem storeElements_takes (base : Operand) (es : List Expr) (dims : List Nat) (zero : Operand) :
    Keeps (fun s s' => s.ledger.temps + (positions dims).length ≤ s'.ledger.temps)
      (storeElements base (.row (lowerCells es)) dims zero) := by
  intro c s code s' hr
  simp only [storeElements, runs_bind, runs_pure] at hr
  obtain ⟨_, _, hr, _, rfl⟩ := hr
  exact mapM_takes _ (fun p _ => (leafAt_takes es zero p).first fun _ => .pure _) hr

end Lower

theorem length_grid (dims : List Nat) : (grid dims).length = dims.prod := by
  induction dims with
  | nil => rfl
  | cons d dims ih => simp [grid, List.length_flatMap, ih]

theorem length_positions {dims : List Nat} (h : dims ≠ []) : (positions dims).length = dims.prod := by
  rw [positions, if_neg (by simpa using h), length_grid]

theorem elementCount_eq_ok {dims : List Nat} {count : Nat} (h : elementCount dims = .ok count) :
    count = dims.prod := by
  have go (dims : List Nat) (n : Nat) (h : dims.foldlM (mulWithin word64) n = .ok count) :
      count = n * dims.prod := by
    induction dims generalizing n with
    | nil =>
      cases h
      simp
    | cons d dims ih =>
      rw [List.foldlM_cons] at h
      cases hd : mulWithin word64 n d with
      | error e => simp [hd, bind, Except.bind] at h
      | ok m =>
        rw [hd] at h
        obtain ⟨_, rfl⟩ := mulWithin_eq_ok.1 hd
        rw [ih _ h, List.prod_cons, Nat.mul_assoc]
  rw [go dims 1 h, Nat.one_mul]

theorem arraySize_eq_ok {pointer leaf size : Nat} {dims : List Nat}
    (h : arraySize pointer leaf dims = .ok size) (hd : dims.prod < word32) :
    size = pointer + dims.prod * leaf := by
  rw [arraySize] at h
  cases hc : elementCount dims with
  | error e => simp [hc, bind, Except.bind] at h
  | ok count =>
    obtain rfl := elementCount_eq_ok hc
    simp only [hc, bind, Except.bind, Nat.mod_eq_of_lt hd] at h
    cases hm : mulWithin word32 dims.prod leaf with
    | error e => simp [hm] at h
    | ok bytes =>
      rw [hm] at h
      obtain ⟨_, rfl⟩ := mulWithin_eq_ok.1 hm
      exact (addWithin_eq_ok.1 h).2.symm

theorem Nest.shape?_row_ne_nil {cells : List (Nest α)} {policy : RaggedArrays} {dims : List Nat}
    (h : (Nest.row cells).shape? policy = some dims) : dims ≠ [] := by
  unfold shape? at h
  split at h
  · cases h
    simp [extents]
  · cases policy with
    | reject => cases h
    | zeroPad =>
      cases h
      simp [padded]

namespace Lower

variable {c : Context} {s s' : State} {code : Code} {id : SymbolId} {es : List Expr} {span : Span}

/-- The elements of an array that is declared can be counted by a word. -/
theorem declareArray_bounded {dims : List Nat} (h : Runs (declareArray id es span) c s code s')
    (hd : (Nest.row (lowerCells es)).shape? c.options.raggedArrays = some dims) :
    dims.prod < word32 := by
  have hdraws : s.ledger.Draws s'.ledger :=
    DoesCode.draws (fun _ => declareArray_does id es span) h
  obtain ⟨x, s₁, _, ⟨hl, _⟩ | ⟨dims', _, _, s₂, hl, _, hb, he⟩⟩ := runs_declareArray h
  · cases hd.symm.trans (runs_literalShape hl).1.symm
  · cases hd.symm.trans (runs_literalShape hl).1.symm
    have h₁ : s.ledger.temps ≤ s₁.ledger.temps :=
      (literalShape_keeps (R := State.Advances) _ _ _ hl).temps
    have h₂ := (bindStorage_binds _ _ hb).sameTemps
    have h₃ := storeElements_takes _ _ _ _ he
    rw [length_positions (Nest.shape?_row_ne_nil hd)] at h₃
    dsimp only at h₂
    have hlt := hdraws.2
    by_cases hz : s.ledger.temps < s'.ledger.temps
    · have := hlt hz
      omega
    · have : dims.prod = 0 := by omega
      rw [this]
      decide

theorem declareArray_table (h : Runs (declareArray id es span) c s code s')
    (hp : s'.problems = []) :
    ∃ x dims offset, s.table.symbol id = .ok x ∧ x.offset = none ∧
      (Nest.row (lowerCells es)).shape? c.options.raggedArrays = some dims ∧
      s'.table = (s.table.modifySymbol id ({ · with dimensions := dims })).modifySymbol id fun y =>
        { y with
          offset := some offset
          size := c.options.pointerSize +
            dims.prod * leafSize c.options.pointerSize x.type.element es
          address := some y.name } := by
  obtain ⟨x, s₁, hx, ⟨hl, ⟨_, hb⟩, _⟩ | ⟨dims, size, _, s₂, hl, hz, hb, he⟩⟩ := runs_declareArray h
  · -- A rejected literal is reported.
    obtain ⟨_, ⟨hn, _⟩ | ⟨_, rfl⟩⟩ := runs_literalShape hl
    · cases hn
    · simpa using (bindStorage_binds _ _ hb).toGrows.quiet hp
  · have hd := (runs_literalShape hl).1.symm
    obtain ⟨_, ⟨_, rfl⟩ | ⟨hn, _⟩⟩ := runs_literalShape hl
    · obtain ⟨_, y, hy, ho, rfl⟩ := runs_bindStorage.1 hb
      obtain ⟨hn, _⟩ | ⟨_, z, hz', rfl⟩ := Table.symbol_of_modifySymbol hy
      · exact absurd rfl hn
      · cases hx.symm.trans hz'
        refine ⟨x, dims, s₁.ledger.cursor, hx, ho, hd, ?_⟩
        rw [(storeElements_keeps (leaf_advances es) he).table,
          arraySize_eq_ok hz (declareArray_bounded h hd)]
    · cases hn

end Lower

end ThreeAddress
