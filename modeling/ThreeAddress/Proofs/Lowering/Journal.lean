import Mathlib.Data.List.Forall2
import Mathlib.Data.Prod.Lex
import ThreeAddress.Lowering.Journal
import ThreeAddress.Proofs.Frames.Items
import ThreeAddress.Proofs.Lowering.Runs

namespace ThreeAddress

inductive Jump
  | exit | next

def Jump.slots : Jump → Targets → List (Option Label)
  | .exit => Targets.breaks
  | .next => Targets.continues

namespace Ledger

def levels (jump : Jump) (l : Ledger) : List (List (Option Label)) :=
  jump.slots l.targets :: l.saved.map fun outer => jump.slots outer.2

/-- How deep inside of frames the innermost target of a jump is, and inside of targets there. -/
def depth (jump : Jump) (l : Ledger) : ℕ ×ₗ ℕ := toLex (l.frameDepth, (jump.slots l.targets).length)

/-- What asking for a label does if the last one that was given out has the number `n`. -/
inductive Requests (n : Nat) : (slots : List (Option Label)) → Option Label → Nat →
    (slots' : List (Option Label)) → Prop
  | stray : Requests n [] none n []
  | known : Requests n (some y :: rest) (some y) n (some y :: rest)
  | fresh : Requests n (none :: rest) (some ⟨n + 1⟩) (n + 1) (some ⟨n + 1⟩ :: rest)

theorem Requests.labels {n n' : Nat} {slots slots' : List (Option Label)} {x : Option Label}
    (h : Requests n slots x n' slots') :
    if slots.head? == some none then n' = n + 1 ∧ x = some ⟨n'⟩ else n' = n := by
  cases h with
  | stray | known => rfl
  | fresh => exact ⟨rfl, rfl⟩

theorem requests_of_runs {slots slots' : List (Option Label)} {x : Option Label} {l l' : Ledger}
    (h : Runs (request slots) l (x, slots') l') :
    ∃ n, Requests l.labels slots x n slots' ∧ l' = { l with labels := n } := by
  obtain ⟨rfl, rfl, rfl, rfl⟩ | ⟨y, rest, rfl, rfl, rfl, rfl⟩ | ⟨y, rest, rfl, hy, rfl, rfl⟩ :=
    runs_request.1 h
  · exact ⟨_, .stray, rfl⟩
  · exact ⟨_, .known, rfl⟩
  · obtain ⟨-, rfl, rfl⟩ := runs_freshLabel.1 hy
    exact ⟨_, .fresh, rfl⟩

end Ledger

namespace Journal

def Step.request : Jump → Step
  | .exit => .breakLabel
  | .next => .continueLabel

def Step.aside : Step → Bool
  | .emit _ | .last | .lines | .enterFunction _ | .exitFunction _ | .enterClass _ | .exitClass _
  | .want _ => true
  | _ => false

/-- What a step does to the ledger, all of it. -/
inductive Moves (l : Ledger) : Step → Answer → Ledger → Prop
  | freshTemp : Moves l .freshTemp (.temp ⟨l.temps + 1⟩)
      { l with temps := l.temps + 1 }
  | freshLabel : Moves l .freshLabel (.label ⟨l.labels + 1⟩)
      { l with labels := l.labels + 1 }
  | enterLoop : Moves l (.enterLoop b k) .done
      { l with targets := ⟨b :: l.targets.breaks, k :: l.targets.continues⟩ }
  | exitLoop : Moves l .exitLoop (.targets l.targets.breaks.head?.join l.targets.continues.head?.join)
      { l with targets := ⟨l.targets.breaks.tail, l.targets.continues.tail⟩ }
  | enterSwitch : Moves l .enterSwitch .done
      { l with targets := { l.targets with breaks := none :: l.targets.breaks } }
  | exitSwitch : Moves l .exitSwitch (.target l.targets.breaks.head?.join)
      { l with targets := { l.targets with breaks := l.targets.breaks.tail } }
  | breakLabel : Ledger.Requests l.labels l.targets.breaks x n breaks →
      Moves l .breakLabel (.target x) { l with labels := n, targets := { l.targets with breaks } }
  | continueLabel : Ledger.Requests l.labels l.targets.continues x n continues →
      Moves l .continueLabel (.target x)
        { l with labels := n, targets := { l.targets with continues } }
  | allocate : Moves l (.allocate size) (.bytes l.cursor) { l with cursor := l.cursor + size }
  | enterFrame : Moves l .enterFrame .done
      { l with cursor := 0, targets := {}, saved := (l.cursor, l.targets) :: l.saved }
  | exitFrame : l.saved.head?.getD (0, {}) = (outer, targets) → Moves l .exitFrame (.bytes l.cursor)
      { l with cursor := l.layout.resume outer l.cursor, targets, saved := l.saved.tail }
  | aside : s.aside → Moves l s a l

theorem keep_eq_ok {j j' : Journal} {act : Account α} {answer : α → Answer} {a : Answer} :
    j.keep act answer = .ok (a, j') ↔
      ∃ x l, Ledger.Runs act j.ledger x l ∧ a = answer x ∧ j' = { j with ledger := l } := by
  change (act j.ledger >>= fun p => Except.ok (answer p.1, { j with ledger := p.2 })) = _ ↔ _
  unfold Ledger.Runs
  cases act j.ledger with
  | error e => simp [bind, Except.bind]
  | ok p =>
    obtain ⟨x, l⟩ := p
    simp [bind, Except.bind, and_assoc, eq_comm]

theorem step_moves {j j' : Journal} {s : Step} {a : Answer} (h : j.step s = .ok (a, j')) :
    Moves j.ledger s a j'.ledger := by
  cases s with
  | emit | last | lines | enterFunction | exitFunction | enterClass | exitClass | want =>
    cases h
    exact .aside rfl
  | freshTemp =>
    simp only [step, keep_eq_ok] at h
    obtain ⟨_, _, hr, rfl, rfl⟩ := h
    obtain ⟨-, rfl, rfl⟩ := Ledger.runs_freshTemp.1 hr
    exact .freshTemp
  | freshLabel =>
    simp only [step, keep_eq_ok] at h
    obtain ⟨_, _, hr, rfl, rfl⟩ := h
    obtain ⟨-, rfl, rfl⟩ := Ledger.runs_freshLabel.1 hr
    exact .freshLabel
  | enterLoop b k =>
    simp only [step, keep_eq_ok] at h
    obtain ⟨_, _, hr, rfl, rfl⟩ := h
    obtain rfl := Ledger.runs_enterLoop.1 hr
    exact .enterLoop
  | exitLoop =>
    simp only [step, keep_eq_ok] at h
    obtain ⟨_, _, hr, rfl, rfl⟩ := h
    obtain ⟨rfl, rfl⟩ := Ledger.runs_exitLoop.1 hr
    exact .exitLoop
  | enterSwitch =>
    simp only [step, keep_eq_ok] at h
    obtain ⟨_, _, hr, rfl, rfl⟩ := h
    obtain rfl := Ledger.runs_enterSwitch.1 hr
    exact .enterSwitch
  | exitSwitch =>
    simp only [step, keep_eq_ok] at h
    obtain ⟨_, _, hr, rfl, rfl⟩ := h
    obtain ⟨rfl, rfl⟩ := Ledger.runs_exitSwitch.1 hr
    exact .exitSwitch
  | breakLabel =>
    simp only [step, keep_eq_ok] at h
    obtain ⟨_, _, hr, rfl, rfl⟩ := h
    obtain ⟨_, _, hq, rfl⟩ := Ledger.runs_breakLabel.1 hr
    obtain ⟨_, hn, rfl⟩ := Ledger.requests_of_runs hq
    exact .breakLabel hn
  | continueLabel =>
    simp only [step, keep_eq_ok] at h
    obtain ⟨_, _, hr, rfl, rfl⟩ := h
    obtain ⟨_, _, hq, rfl⟩ := Ledger.runs_continueLabel.1 hr
    obtain ⟨_, hn, rfl⟩ := Ledger.requests_of_runs hq
    exact .continueLabel hn
  | allocate size =>
    simp only [step, keep_eq_ok] at h
    obtain ⟨_, _, hr, rfl, rfl⟩ := h
    obtain ⟨-, rfl, rfl⟩ := Ledger.runs_allocate.1 hr
    exact .allocate
  | enterFrame =>
    simp only [step, keep_eq_ok] at h
    obtain ⟨_, _, hr, rfl, rfl⟩ := h
    obtain rfl := Ledger.runs_enterFrame.1 hr
    exact .enterFrame
  | exitFrame =>
    simp only [step, keep_eq_ok] at h
    obtain ⟨_, _, hr, rfl, rfl⟩ := h
    obtain ⟨cursor, hc, rfl, rfl⟩ := Ledger.runs_exitFrame.1 hr
    obtain rfl := NestedFrames.eq_resume hc
    exact .exitFrame rfl

/-! ## Frames -/

/-- How many frames are open after a step if `n` were open before, or `none` if there was no frame to
end. -/
def Step.frames (n : Nat) : Step → Option Nat
  | .enterFrame => some (n + 1)
  | .exitFrame => if n = 0 then none else some (n - 1)
  | _ => some n

/-- The steps end every frame that they enter, and no other one. -/
def Balanced (steps : List Step) : Prop := steps.foldlM Step.frames 0 = some 0

theorem Moves.layout {l l' : Ledger} {s : Step} {a : Answer} (h : Moves l s a l') :
    l'.layout = l.layout := by
  cases h <;> rfl

theorem Moves.saved {l l' : Ledger} {s : Step} {a : Answer} {m n : Nat}
    {inner outer : List (Nat × Targets)} (h : Moves l s a l') (hs : s.frames n = some m)
    (hn : inner.length = n) (hl : l.saved = inner ++ outer) :
    ∃ inner' : List (Nat × Targets), inner'.length = m ∧ l'.saved = inner' ++ outer := by
  subst hn
  cases h with
  | enterFrame =>
    cases hs
    exact ⟨_ :: inner, rfl, congrArg _ hl⟩
  | exitFrame =>
    cases inner with
    | nil => cases hs
    | cons x inner =>
      cases hs
      exact ⟨inner, rfl, congrArg List.tail hl⟩
  | aside ha =>
    cases s with
    | emit | last | lines | enterFunction | exitFunction | enterClass | exitClass | want =>
      cases hs
      exact ⟨inner, rfl, hl⟩
    | _ => cases ha
  | _ =>
    cases hs
    exact ⟨inner, rfl, hl⟩

theorem Moves.enters {l l' : Ledger} {a : Answer} (h : Moves l .enterFrame a l') :
    l' = { l with cursor := 0, targets := {}, saved := (l.cursor, l.targets) :: l.saved } := by
  cases h with
  | enterFrame => rfl
  | aside ha => cases ha

theorem Moves.leaves {l l' : Ledger} {a : Answer} {outer : Nat × Targets}
    {rest : List (Nat × Targets)} (h : Moves l .exitFrame a l') (hl : l.saved = outer :: rest) :
    a = .bytes l.cursor ∧ l' = { l with
      cursor := l.layout.resume outer.1 l.cursor, targets := outer.2, saved := rest } := by
  cases h with
  | exitFrame ho =>
    rw [hl] at ho
    cases ho
    exact ⟨rfl, by rw [hl, List.tail_cons]⟩
  | aside ha => cases ha

structure Entry where
  before : Journal
  step : Step
  answer : Answer
  after : Journal

/-- Steps that are taken one after the other, none of which goes wrong. -/
inductive Records : Journal → List Entry → Journal → Prop
  | nil : Records j [] j
  | cons (s : Step) : j.step s = .ok (a, j₁) → Records j₁ es j' → Records j (⟨j, s, a, j₁⟩ :: es) j'

namespace Records

variable {j j' : Journal} {e : Entry} {es es' : List Entry}

theorem append (h : Records j (es ++ es') j') : ∃ j₁, Records j es j₁ ∧ Records j₁ es' j' := by
  induction es generalizing j with
  | nil => exact ⟨j, .nil, h⟩
  | cons e es ih =>
    obtain _ | ⟨s, hs, hr⟩ := h
    obtain ⟨j₁, h₁, h₂⟩ := ih hr
    exact ⟨j₁, .cons s hs h₁, h₂⟩

theorem head (h : Records j (e :: es) j') :
    e.before = j ∧ Moves j.ledger e.step e.answer e.after.ledger ∧ Records e.after es j' := by
  obtain _ | ⟨s, hs, hr⟩ := h
  exact ⟨rfl, step_moves hs, hr⟩

theorem single (h : Records j [e] j') :
    e.before = j ∧ e.after = j' ∧ Moves j.ledger e.step e.answer j'.ledger := by
  obtain ⟨hj, hm, hr⟩ := h.head
  obtain _ | _ := hr
  exact ⟨hj, rfl, hm⟩

theorem layout (h : Records j es j') : j'.ledger.layout = j.ledger.layout := by
  induction h with
  | nil => rfl
  | cons _ hs _ ih => exact ih.trans (step_moves hs).layout

theorem saved {m n : Nat} {inner outer : List (Nat × Targets)} (h : Records j es j')
    (hs : (es.map (·.step)).foldlM Step.frames n = some m) (hn : inner.length = n)
    (hl : j.ledger.saved = inner ++ outer) :
    ∃ inner' : List (Nat × Targets), inner'.length = m ∧ j'.ledger.saved = inner' ++ outer := by
  induction h generalizing n inner with
  | nil =>
    cases hs
    exact ⟨inner, hn, hl⟩
  | cons _ hstep _ ih =>
    rw [List.map_cons, List.foldlM_cons, Option.bind_eq_bind, Option.bind_eq_some_iff] at hs
    obtain ⟨k, hk, hs⟩ := hs
    obtain ⟨inner₁, hn₁, hl₁⟩ := (step_moves hstep).saved hk hn hl
    exact ih hs hn₁ hl₁

theorem frame {opens closes : Entry} (h : Records j (opens :: es ++ [closes]) j')
    (ho : opens.step = .enterFrame) (hc : closes.step = .exitFrame)
    (hb : Balanced (es.map (·.step))) :
    j'.ledger.targets = j.ledger.targets ∧ j'.ledger.saved = j.ledger.saved ∧
      ∃ size, closes.answer = .bytes size ∧
        j'.ledger.cursor = j.ledger.layout.resume j.ledger.cursor size := by
  obtain ⟨-, hopen, hrest⟩ := h.head
  obtain ⟨j₂, hinner, hclose⟩ := hrest.append
  obtain ⟨-, -, hexit⟩ := hclose.single
  rw [ho] at hopen
  rw [hc] at hexit
  obtain ⟨_, hn, hsaved⟩ := hinner.saved hb List.length_nil (List.nil_append _).symm
  obtain rfl := List.length_eq_zero_iff.1 hn
  have hlayout := hinner.layout
  rw [hopen.enters] at hsaved hlayout
  obtain ⟨hanswer, hj'⟩ := hexit.leaves hsaved
  rw [hj', ← hlayout]
  exact ⟨rfl, rfl, _, hanswer, rfl⟩

end Records

/-! ## Numbers -/

def Step.takesLabel (l : Ledger) : Step → Bool
  | .freshLabel => true
  | .breakLabel => l.targets.breaks.head? == some none
  | .continueLabel => l.targets.continues.head? == some none
  | _ => false

def Step.withLabel (x : Label) : Step → Answer
  | .freshLabel => .label x
  | _ => .target (some x)

def Step.takesTemp : Step → Bool
  | .freshTemp => true
  | _ => false

theorem Moves.labels {l l' : Ledger} {s : Step} {a : Answer} (h : Moves l s a l') :
    if s.takesLabel l then l'.labels = l.labels + 1 ∧ a = s.withLabel ⟨l'.labels⟩
    else l'.labels = l.labels := by
  cases h with
  | breakLabel hr | continueLabel hr => simpa [Step.takesLabel, Step.withLabel] using hr.labels
  | aside ha => cases s <;> first | rfl | cases ha
  | freshLabel => exact ⟨rfl, rfl⟩
  | _ => rfl

theorem Moves.temps {l l' : Ledger} {s : Step} {a : Answer} (h : Moves l s a l') :
    if s.takesTemp then l'.temps = l.temps + 1 ∧ a = .temp ⟨l'.temps⟩
    else l'.temps = l.temps := by
  cases h with
  | aside ha => cases s <;> first | rfl | cases ha
  | freshTemp => exact ⟨rfl, rfl⟩
  | _ => rfl

theorem Records.numbers {j j' : Journal} {es : List Entry} {count : Ledger → Nat}
    {takes : Entry → Bool} {gives : Entry → Nat → Prop} (h : Records j es j')
    (hstep : ∀ e : Entry, Moves e.before.ledger e.step e.answer e.after.ledger →
      if takes e then count e.after.ledger = count e.before.ledger + 1 ∧ gives e (count e.after.ledger)
      else count e.after.ledger = count e.before.ledger) :
    ∃ n, count j'.ledger = count j.ledger + n ∧
      List.Forall₂ gives (es.filter takes) (List.range' (count j.ledger + 1) n) := by
  induction h with
  | nil => exact ⟨0, rfl, .nil⟩
  | cons _ hs _ ih =>
    obtain ⟨n, hn, hgives⟩ := ih
    have he := hstep ⟨_, _, _, _⟩ (step_moves hs)
    dsimp only at he
    split at he
    next ht =>
      obtain ⟨hcount, hgive⟩ := he
      refine ⟨n + 1, by omega, ?_⟩
      rw [List.filter_cons_of_pos ht, List.range'_succ, ← hcount]
      exact .cons hgive hgives
    next ht =>
      refine ⟨n, by omega, ?_⟩
      rw [List.filter_cons_of_neg ht, ← he]
      exact hgives

/-! ## Targets -/

def Filled (slots : List (Option Label)) : Prop := slots.head? ≠ some none

theorem requests_filled {n n' : Nat} {slots slots' : List (Option Label)} {x : Option Label}
    (h : Ledger.Requests n slots x n' slots') : Filled slots' ∧ x = slots'.head?.join := by
  cases h with
  | stray | known | fresh => exact ⟨nofun, rfl⟩

theorem requests_of_filled {n n' : Nat} {slots slots' : List (Option Label)} {x : Option Label}
    (h : Ledger.Requests n slots x n' slots') (hf : Filled slots) : x = slots.head?.join := by
  cases h with
  | stray | known => rfl
  | fresh => exact absurd rfl hf

theorem Moves.requests {l l' : Ledger} {a : Answer} {jump : Jump}
    (h : Moves l (.request jump) a l') : ∃ x n, a = .target x ∧
      Ledger.Requests l.labels (jump.slots l.targets) x n (jump.slots l'.targets) := by
  cases jump with
  | exit =>
    cases h with
    | breakLabel hr => exact ⟨_, _, rfl, hr⟩
    | aside ha => cases ha
  | next =>
    cases h with
    | continueLabel hr => exact ⟨_, _, rfl, hr⟩
    | aside ha => cases ha

/-- What can happen to the targets of a jump, which are given frame by frame. -/
inductive Turns : List (List (Option Label)) → List (List (Option Label)) → Prop
  | keep : Turns levels levels
  | push : Turns (slots :: levels) ((x :: slots) :: levels)
  | pop : Turns (slots :: levels) (slots.tail :: levels)
  | fill : Turns ((none :: slots) :: levels) ((some y :: slots) :: levels)
  | enter : Turns levels ([] :: levels)
  | leave : Turns (slots :: levels) levels
  | reset : Turns [slots] [[]]

theorem requests_turns {n n' : Nat} {slots slots' : List (Option Label)} {x : Option Label}
    {levels : List (List (Option Label))} (h : Ledger.Requests n slots x n' slots') :
    Turns (slots :: levels) (slots' :: levels) := by
  cases h with
  | stray | known => exact .keep
  | fresh => exact .fill

theorem Moves.turns {l l' : Ledger} {s : Step} {a : Answer} (jump : Jump) (h : Moves l s a l') :
    Turns (l.levels jump) (l'.levels jump) := by
  cases h with
  | enterLoop => cases jump <;> exact .push
  | exitLoop => cases jump <;> exact .pop
  | enterSwitch =>
    cases jump with
    | exit => exact .push
    | next => exact .keep
  | exitSwitch =>
    cases jump with
    | exit => exact .pop
    | next => exact .keep
  | breakLabel hr =>
    cases jump with
    | exit => exact requests_turns hr
    | next => exact .keep
  | continueLabel hr =>
    cases jump with
    | exit => exact .keep
    | next => exact requests_turns hr
  | enterFrame => cases jump <;> exact .enter
  | exitFrame ho =>
    rw [Ledger.levels, Ledger.levels]
    cases hs : l.saved with
    | nil =>
      rw [hs] at ho
      cases ho
      cases jump <;> exact .reset
    | cons outer rest =>
      rw [hs] at ho
      cases ho
      exact .leave
  | freshTemp | freshLabel | allocate | aside => exact .keep

/-- The targets `top` of a frame are beneath whatever was entered since, and `base` around them. -/
def Beneath (top : List (Option Label)) (base levels : List (List (Option Label))) : Prop :=
  ∃ inner above, levels = inner ++ (above ++ top) :: base

/-- Targets that have not been left stay as they are once the innermost of them has a label. -/
theorem Turns.beneath {top : List (Option Label)} {base levels levels' : List (List (Option Label))}
    (h : Turns levels levels') (ht : Filled top)
    (hd : base.length + 1 < levels'.length ∨
      base.length + 1 = levels'.length ∧ top.length ≤ (levels'.headD []).length)
    (hl : Beneath top base levels) : Beneath top base levels' := by
  -- what is entered and left changes the innermost level alone, so in each case it is asked whether
  -- that is the level of the frame
  obtain ⟨inner, above, hl⟩ := hl
  cases h with
  | keep => exact ⟨inner, above, hl⟩
  | enter => exact ⟨[] :: inner, above, congrArg _ hl⟩
  | @push slots levels x =>
    obtain ⟨rfl, he⟩ | ⟨inner, rfl, rfl⟩ := List.cons_eq_append_iff.1 hl
    · cases he
      exact ⟨[], x :: above, rfl⟩
    · exact ⟨(x :: slots) :: inner, above, rfl⟩
  | @pop slots levels =>
    obtain ⟨rfl, he⟩ | ⟨inner, rfl, rfl⟩ := List.cons_eq_append_iff.1 hl
    · cases he
      cases above with
      | nil =>
        -- a target of the frame would be left, against the bound
        have hle : top.length ≤ top.tail.length := hd.elim (absurd · (Nat.lt_irrefl _)) And.right
        rw [List.length_tail] at hle
        obtain rfl : top = [] := List.length_eq_zero_iff.1 (by omega)
        exact ⟨[], [], rfl⟩
      | cons _ above => exact ⟨[], above, rfl⟩
    · exact ⟨slots.tail :: inner, above, rfl⟩
  | @fill slots levels y =>
    obtain ⟨rfl, he⟩ | ⟨inner, rfl, rfl⟩ := List.cons_eq_append_iff.1 hl
    · rw [List.cons.injEq] at he
      obtain ⟨he, rfl⟩ := he
      cases above with
      -- the target that is asked for has its label already
      | nil => exact absurd (congrArg List.head? he) ht
      | cons _ above =>
        cases he
        exact ⟨[], some y :: above, rfl⟩
    · exact ⟨(some y :: slots) :: inner, above, rfl⟩
  | leave =>
    obtain ⟨rfl, he⟩ | ⟨inner, rfl, rfl⟩ := List.cons_eq_append_iff.1 hl
    · cases he
      omega
    · exact ⟨inner, above, rfl⟩
  | reset =>
    obtain ⟨rfl, he⟩ | ⟨inner, rfl, he⟩ := List.cons_eq_append_iff.1 hl
    · cases he
      have hle : top.length ≤ 0 := hd.elim (absurd · (Nat.lt_irrefl _)) And.right
      obtain rfl : top = [] := List.length_eq_zero_iff.1 (Nat.le_zero.1 hle)
      exact ⟨[], [], rfl⟩
    · exact absurd he.symm (List.append_ne_nil_of_right_ne_nil _ (List.cons_ne_nil _ _))

namespace Records

variable {j j' : Journal} {es : List Entry} {jump : Jump}

theorem beneath {top : List (Option Label)} {base : List (List (Option Label))}
    (h : Records j es j') (ht : Filled top)
    (hd : ∀ e ∈ es, toLex (base.length, top.length) ≤ e.after.ledger.depth jump)
    (hl : Beneath top base (j.ledger.levels jump)) : Beneath top base (j'.ledger.levels jump) := by
  induction h with
  | nil => exact hl
  | cons _ hs _ ih =>
    obtain ⟨hfirst, hrest⟩ := List.forall_mem_cons.1 hd
    refine ih hrest (((step_moves hs).turns jump).beneath ht ?_ hl)
    rw [Ledger.depth, Prod.Lex.toLex_le_toLex] at hfirst
    simpa [Ledger.levels, Ledger.frameDepth] using hfirst

theorem target {first last : Entry} (h : Records j (first :: es ++ [last]) j')
    (hf : first.step = .request jump) (hl : last.step = .request jump)
    (hd : ∀ e ∈ es, first.after.ledger.depth jump ≤ e.after.ledger.depth jump)
    (he : last.before.ledger.depth jump = first.after.ledger.depth jump) :
    last.answer = first.answer := by
  obtain ⟨-, hfirst, hrest⟩ := h.head
  obtain ⟨j₂, hinner, hlast⟩ := hrest.append
  obtain ⟨rfl, -, hlast⟩ := hlast.single
  rw [hf] at hfirst
  rw [hl] at hlast
  obtain ⟨x, _, hx, hfirst⟩ := hfirst.requests
  obtain ⟨y, _, hy, hlast⟩ := hlast.requests
  obtain ⟨hfill, hxs⟩ := requests_filled hfirst
  have hstart : Beneath (jump.slots first.after.ledger.targets)
      (first.after.ledger.saved.map fun outer => jump.slots outer.2)
      (first.after.ledger.levels jump) := ⟨[], [], rfl⟩
  obtain ⟨inner, above, hend⟩ :=
    hinner.beneath hfill (by simpa [Ledger.depth, Ledger.frameDepth] using hd) hstart
  obtain ⟨hframes, hslots⟩ := Prod.ext_iff.1 (toLex.injective he)
  simp only [Ledger.frameDepth] at hframes
  have hlen := congrArg List.length hend
  simp only [Ledger.levels, List.length_cons, List.length_append, List.length_map] at hlen
  obtain rfl : inner = [] := List.length_eq_zero_iff.1 (by omega)
  obtain ⟨htop, -⟩ := List.cons.inj hend
  simp only [htop, List.length_append] at hslots
  obtain rfl : above = [] := List.length_eq_zero_iff.1 (by omega)
  rw [hx, hy, hxs, requests_of_filled hlast (htop ▸ hfill), htop]
  rfl

end Records

/-- Over any steps that go well, labels and temporaries are given out under the numbers that follow the
last one, in order. If the steps enter a frame, end it, and are balanced in between, then everything
around the frame is as it was, apart from the bytes that the layout adds to the cursor. If they ask
for the target of a jump twice, and never leave it in between, then both get the same answer. -/
theorem records_keep_account {j j' : Journal} {es : List Entry} (h : Records j es j') :
    (∀ opens inner closes, es = opens :: inner ++ [closes] → opens.step = .enterFrame →
      closes.step = .exitFrame → Balanced (inner.map (·.step)) →
      j'.ledger.targets = j.ledger.targets ∧ j'.ledger.saved = j.ledger.saved ∧
        ∃ size, closes.answer = .bytes size ∧
          j'.ledger.cursor = j.ledger.layout.resume j.ledger.cursor size) ∧
    (∃ n, j'.ledger.labels = j.ledger.labels + n ∧
      List.Forall₂ (fun e number => e.answer = e.step.withLabel ⟨number⟩)
        (es.filter fun e => e.step.takesLabel e.before.ledger)
        (List.range' (j.ledger.labels + 1) n)) ∧
    (∃ n, j'.ledger.temps = j.ledger.temps + n ∧
      List.Forall₂ (fun e number => e.answer = .temp ⟨number⟩)
        (es.filter (·.step.takesTemp)) (List.range' (j.ledger.temps + 1) n)) ∧
    ∀ jump first between last, es = first :: between ++ [last] → first.step = .request jump →
      last.step = .request jump →
      (∀ e ∈ between, first.after.ledger.depth jump ≤ e.after.ledger.depth jump) →
      last.before.ledger.depth jump = first.after.ledger.depth jump → last.answer = first.answer := by
  refine ⟨?_, h.numbers fun e he => he.labels, h.numbers fun e he => he.temps, ?_⟩
  · rintro opens inner closes rfl ho hc hb
    exact h.frame ho hc hb
  · rintro jump first between last rfl hf hl hd he
    exact h.target hf hl hd he

def looping : Journal where
  ledger := { layout := .folded, labels := 2, cursor := 4, targets := ⟨[none], [none]⟩ }

theorem looping_keeps_account :
    (∃ es j', Records looping es j' ∧
      es.map (·.step) = [.enterFrame, .breakLabel, .exitLoop, .enterSwitch, .breakLabel, .allocate 8,
        .exitFrame] ∧
      j'.ledger.targets = ⟨[none], [none]⟩ ∧ j'.ledger.saved = [] ∧ j'.ledger.cursor = 12 ∧
      j'.ledger.labels = 3) ∧
    ∃ es j', Records looping es j' ∧
      es.map (·.step) = [.breakLabel, .enterSwitch, .breakLabel, .enterFrame, .exitLoop, .exitFrame,
        .exitSwitch, .breakLabel] ∧
      (es.getLast?.map (·.answer)) = es.head?.map (·.answer) := by
  constructor
  · have h : Records looping _ _ := .cons .enterFrame rfl <| .cons .breakLabel rfl <|
      .cons .exitLoop rfl <| .cons .enterSwitch rfl <| .cons .breakLabel rfl <|
      .cons (.allocate 8) rfl <| .cons .exitFrame rfl .nil
    obtain ⟨hframe, -, -, -⟩ := records_keep_account h
    obtain ⟨ht, hs, size, hsize, hc⟩ := hframe _ [_, _, _, _, _] _ rfl rfl rfl rfl
    cases hsize
    exact ⟨_, _, h, rfl, ht, hs, hc, rfl⟩
  · have h : Records looping _ _ := .cons .breakLabel rfl <| .cons .enterSwitch rfl <|
      .cons .breakLabel rfl <| .cons .enterFrame rfl <| .cons .exitLoop rfl <|
      .cons .exitFrame rfl <| .cons .exitSwitch rfl <| .cons .breakLabel rfl .nil
    obtain ⟨-, -, -, htarget⟩ := records_keep_account h
    have := htarget .exit _ [_, _, _, _, _, _] _ rfl rfl rfl (by decide) rfl
    exact ⟨_, _, h, rfl, congrArg some this⟩

end Journal

end ThreeAddress
