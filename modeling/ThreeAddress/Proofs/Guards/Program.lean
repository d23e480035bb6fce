import ThreeAddress.Proofs.Guards.Depth

/-! Which programs keep their guarded regions: those where no `break` and no `continue` leaves the
guarded part of a `try`. The jump of such a `break` is a plain one, and the end of the region stays
behind. -/

namespace ThreeAddress

open Code Lower

mutual

/-- No `break` and no `continue` leaves the guarded part of a `try`. The flags say whether one that
leaves the statement stays in the region around it. -/
def Stmt.stays (breaks continues : Bool) : Stmt → Bool
  | .break _ => breaks
  | .continue _ => continues
  | .block b => b.stays breaks continues
  | .ite _ yes none _ => yes.stays breaks continues
  | .ite _ yes (some no) _ => yes.stays breaks continues && no.stays breaks continues
  | .while _ body _ | .doWhile body _ _ | .foreach _ _ body _ => body.stays true true
  | .for first _ step body _ =>
    staysOption breaks continues first && body.stays true true && staysOption breaks continues step
  | .switch _ cases none _ => staysCases true continues cases
  | .switch _ cases (some body) _ => staysCases true continues cases && staysAll true continues body
  | .tryCatch body _ handler _ => body.stays false false && handler.stays breaks continues
  | .function f => f.stays
  | .class c => c.stays
  | .declare _ | .assign .. | .print .. | .eval .. | .return .. => true

def staysOption (breaks continues : Bool) : Option Stmt → Bool
  | none => true
  | some s => s.stays breaks continues

def staysAll (breaks continues : Bool) : List Stmt → Bool
  | [] => true
  | s :: rest => s.stays breaks continues && staysAll breaks continues rest

def Block.stays (breaks continues : Bool) : Block → Bool
  | ⟨body, _⟩ => staysAll breaks continues body

def staysCases (breaks continues : Bool) : List Case → Bool
  | [] => true
  | ⟨_, body, _⟩ :: rest => staysAll breaks continues body && staysCases breaks continues rest

def Function.stays : Function → Bool
  | ⟨_, _, _, body, _⟩ => body.stays true true

def staysMembers : List Member → Bool
  | [] => true
  | .field _ :: rest => staysMembers rest
  | .method f :: rest => f.stays && staysMembers rest

def Class.stays : Class → Bool
  | ⟨_, _, members, _⟩ => staysMembers members

end

def Program.stays (p : Program) : Bool := staysAll true true p.statements

section Stays

variable {breaks continues : Bool}

@[simp] theorem staysOption_eq (s : Option Stmt) :
    staysOption breaks continues s = staysAll breaks continues s.toList := by
  cases s <;> simp [staysOption, staysAll]

@[simp] theorem Block.stays_eq (b : Block) :
    b.stays breaks continues = staysAll breaks continues b.body := by
  cases b
  rw [Block.stays]

@[simp] theorem staysCases_cons (k : Case) (rest : List Case) :
    staysCases breaks continues (k :: rest) =
      (staysAll breaks continues k.body && staysCases breaks continues rest) := by
  cases k
  rw [staysCases]

@[simp] theorem Function.stays_eq (f : Function) : f.stays = staysAll true true f.body.body := by
  cases f
  rw [Function.stays, Block.stays_eq]

@[simp] theorem Class.stays_eq (c : Class) : c.stays = staysMembers c.members := by
  cases c
  rw [Class.stays]

end Stays

section

variable {strict : Prop} {ragged : RaggedArrays} {n m : Supply} {code : Code} {depth : Label → Int}
  {d : Int} {b c : Bool} {ex : Exits} {l start : Label} {done again : Option Label}

/-- The place that a jump of one kind leads to is no deeper than `d`, and at `d` just if `stays`. -/
def Leads (depth : Label → Int) (d : Int) (exit : Option (Option Label)) (stays : Bool) : Prop :=
  ∀ l, exit = some (some l) → depth l ≤ d ∧ (depth l = d ↔ stays)

theorem Leads.outside : Leads depth d none b := nofun

theorem Leads.here (h : ∀ l ∈ done, depth l = d) : Leads depth d (some done) true := by
  rintro l ⟨⟩
  simp [h l rfl]

theorem Leads.inner {exit : Option (Option Label)} (h : Leads depth d exit b) :
    Leads depth (d + 1) exit false := by
  intro l hl
  have := (h l hl).1
  constructor
  · omega
  · simp
    omega

/-- Where the jumps out of a statement lead. -/
structure Exits.Lead (ex : Exits) (depth : Label → Int) (d : Int) (breaks continues : Bool) : Prop where
  breaks : Leads depth d ex.breaks breaks
  continues : Leads depth d ex.continues continues

theorem Exits.Lead.inner (h : ex.Lead depth d b c) : ex.Lead depth (d + 1) false false :=
  ⟨h.breaks.inner, h.continues.inner⟩

theorem marked_place : Marked depth d (place done) ↔ ∀ l ∈ done, depth l = d := by
  cases done <;> simp [place, Marked, Instruction.placed?]

theorem level_place : Level depth d (place done) := by
  cases done <;> simp [place, Level, Instruction.jump?]

theorem guards_place : (place done).guards = 0 := by
  cases done <;> simp [place, Instruction.guard]

theorem Departs.guards {exit : Option (Option Label)} (h : Departs exit code) : code.guards = 0 := by
  obtain rfl | ⟨l, _, rfl⟩ := h <;> simp [Instruction.guard]

theorem Departs.level {exit : Option (Option Label)} (h : Departs exit code)
    (hd : ∀ l ∈ exit.join, depth l = d) : Level depth d code := by
  obtain rfl | ⟨l, rfl, rfl⟩ := h
  · trivial
  · simpa [Level, Instruction.jump?] using hd l rfl

theorem EmitsTest.guards {test : Option Expr} (h : EmitsTest strict ragged test n code done m) :
    code.guards = 0 := by
  have hk : Supply.Keeps done.toList [] n code m := h.keeps
  exact hk.guards

theorem EmitsTest.level {test : Option Expr} (h : EmitsTest strict ragged test n code done m)
    (hm : Marked depth d code) (hd : ∀ l ∈ done, depth l = d) : Level depth d code := by
  cases h with
  | never => trivial
  | test h =>
    simp only [Marked, Level, agrees_append, h.gives.guards] at hm ⊢
    exact ⟨h.gives.level (by simpa using hm.1), by simpa [Instruction.jump?] using hd⟩

theorem EmitsTests.guards {w : Operand} {cases : List Case} {labels : List Label}
    (h : EmitsTests strict ragged w cases n code labels m) : code.guards = 0 :=
  (h.keeps (List.Subset.refl _)).guards

theorem EmitsTests.level {w : Operand} {cases : List Case} {labels : List Label}
    (h : EmitsTests strict ragged w cases n code labels m) (hm : Marked depth d code)
    (hd : ∀ l ∈ labels, depth l = d) : Level depth d code := by
  induction h with
  | nil => trivial
  | cons h _ ih =>
    obtain ⟨hl, hd⟩ := List.forall_mem_cons.1 hd
    simp only [Marked, Level, agrees_append, agrees_cons, h.gives.guards, Instruction.guard,
      Int.add_zero] at hm ih ⊢
    exact ⟨h.gives.level hm.1, by simpa [Instruction.jump?] using hl, ih hm.2.2 hd⟩

theorem EmitsCases.guards {cases : List Case} {labels : List Label}
    (h : EmitsCases strict ragged ex cases labels n code m) (hl : labels.length = cases.length) :
    code.guards = 0 := by
  have := (h.keeps hl (List.Subset.refl _) (Supply.Keeps.empty (n := n))).guards
  simpa using this

theorem EmitsCases.labels {cases : List Case} {labels : List Label}
    (h : EmitsCases strict ragged ex cases labels n code m) (hl : labels.length = cases.length)
    (hm : Marked depth d code) : ∀ l ∈ labels, depth l = d := by
  induction cases generalizing labels n code with
  | nil =>
    rw [List.length_eq_zero_iff.1 hl]
    nofun
  | cons k rest ih =>
    cases h with
    | cons hb hv hr =>
      simp only [Marked, List.cons_append, agrees_append, agrees_cons, guards_append, hb.keeps.guards,
        hv.guards, Instruction.guard, Int.add_zero] at hm
      exact List.forall_mem_cons.2 ⟨hm.1 _ rfl, ih hr (Nat.succ.inj hl) hm.2.2⟩

theorem Copied.guards {v w : Operand} (h : Copied n v code w m) : code.guards = 0 := by
  cases h <;> simp [Instruction.guard]

theorem Copied.level {v w : Operand} (h : Copied n v code w m) : Level depth d code := by
  cases h <;> simp [Level, Instruction.jump?]

theorem mark_level {mark : Code} (h : mark = place again ∨ mark = [] ∧ again = some start)
    (hs : depth start = d) (hm : Marked depth d mark) :
    mark.guards = 0 ∧ Level depth d mark ∧ ∀ l ∈ again, depth l = d := by
  obtain rfl | ⟨rfl, rfl⟩ := h
  · exact ⟨guards_place, level_place, marked_place.1 hm⟩
  · exact ⟨rfl, trivial, by simpa using hs⟩

mutual

theorem Stmt.Emits.level_iff : ∀ {ex : Exits} {s : Stmt} {n m : Supply} {code : Code},
    s.Emits True ragged ex n code m → ∀ {d : Int} {b c : Bool}, ex.Lead depth d b c →
    Marked depth d code → (Level depth d code ↔ s.stays b c)
  | _, _, _, _, _, .skipped h _ | _, _, _, _, _, .strayExit h | _, _, _, _, _, .strayNext h
  | _, _, _, _, _, .strayClass h => absurd trivial h
  | _, _, _, _, _, .declare h | _, _, _, _, _, .assign h | _, _, _, _, _, .eval h => fun _ hm => by
    simpa [Stmt.stays] using h.gives.level hm
  | _, _, _, _, _, .print h => fun _ hm => by
    simp [Marked, Level, Instruction.jump?] at hm ⊢
    simpa [Stmt.stays] using h.gives.level hm.1
  | _, _, _, _, _, .leave => fun _ _ => by simp [Stmt.stays, Level, Instruction.jump?]
  | _, _, _, _, _, .return h => fun _ hm => by
    simp [Marked, Level, Instruction.jump?] at hm ⊢
    simpa [Stmt.stays] using h.gives.level hm.1
  | _, _, _, _, _, .exit h => fun ho _ => by
    simpa [Stmt.stays, Level, Instruction.jump?] using (ho.breaks _ h).2
  | _, _, _, _, _, .next h => fun ho _ => by
    simpa [Stmt.stays, Level, Instruction.jump?] using (ho.continues _ h).2
  | _, _, _, _, _, .block h => fun ho hm => by
    simpa [Stmt.stays] using h.level_iff ho hm
  | _, _, _, _, _, .ifThen hc hy => fun ho hm => by
    simp [Marked, Level, hc.gives.guards, hy.keeps.guards, Instruction.guard, Instruction.jump?,
      Instruction.placed?] at hm ⊢
    obtain ⟨hhead, hmid, hl⟩ := hm
    simp [Stmt.stays, hc.gives.level hhead, hl, hy.level_iff ho hmid]
  | _, _, _, _, _, .ifThenElse hc hy hn => fun ho hm => by
    simp [Marked, Level, hc.gives.guards, hy.keeps.guards, hn.keeps.guards, Instruction.guard,
      Instruction.jump?, Instruction.placed?] at hm ⊢
    obtain ⟨hhead, hfirst, hl, hsecond, hdone⟩ := hm
    simp [Stmt.stays, hc.gives.level hhead, hl, hdone, hy.level_iff ho hfirst, hn.level_iff ho hsecond]
  | _, _, _, _, _, .whileLoop hc hb => fun _ hm => by
    simp [Marked, Level, hc.gives.guards, hb.keeps.guards, Instruction.guard, Instruction.jump?,
      Instruction.placed?] at hm ⊢
    -- both labels of the loop are placed at the depth around it, so its body may jump to either
    obtain ⟨hstart, hhead, hmid, hdone⟩ := hm
    have ho : Exits.Lead ⟨some (some _), some (some _)⟩ depth _ true true :=
      ⟨.here (by simpa using hdone), .here (by simpa using hstart)⟩
    simp [Stmt.stays, hc.gives.level hhead, hstart, hdone, hb.level_iff ho hmid]
  | _, _, _, _, _, .doWhile hb hc => fun _ hm => by
    simp [Marked, Level, hc.gives.guards, hb.keeps.guards, Instruction.guard, Instruction.jump?,
      Instruction.placed?] at hm ⊢
    obtain ⟨hstart, hmid, htail, hdone⟩ := hm
    have ho : Exits.Lead ⟨some _, some (some _)⟩ depth _ true true :=
      ⟨.here (marked_place.1 hdone), .here (by simpa using hstart)⟩
    simp [Stmt.stays, hc.gives.level htail, hstart, level_place, hb.level_iff ho hmid]
  | _, _, _, _, _, .forLoop hf ht hb hs hk => fun ho hm => by
    simp [Marked, Level, hf.keeps.guards, ht.guards, hb.keeps.guards, hs.keeps.guards,
      Instruction.guard, Instruction.jump?, Instruction.placed?] at hm ⊢
    obtain ⟨hhead, hstart, hcheck, hmid, hmark, hrest⟩ := hm
    obtain ⟨hg, hlevel, hagain⟩ := mark_level hk hstart hmark
    simp only [hg, Int.add_zero] at hrest ⊢
    obtain ⟨htail, hdone⟩ := hrest
    have hdone := marked_place.1 hdone
    have hi : Exits.Lead ⟨some _, some _⟩ depth _ true true := ⟨.here hdone, .here hagain⟩
    simp [Stmt.stays, hf.level_iff ho hhead, ht.level hcheck hdone, hb.level_iff hi hmid, hlevel,
      hs.level_iff ho htail, hstart, level_place, and_assoc]
  | _, _, _, _, _, .foreach hc _ hb => fun _ hm => by
    simp [Marked, Level, hc.gives.guards, hb.keeps.guards, guards_place, Instruction.guard,
      Instruction.jump?, Instruction.placed?] at hm ⊢
    obtain ⟨hhead, hstart, hmid, hagain, hdone⟩ := hm
    have ho : Exits.Lead ⟨some (some _), some _⟩ depth _ true true :=
      ⟨.here (by simpa using hdone), .here (marked_place.1 hagain)⟩
    simp [Stmt.stays, hc.gives.level hhead, hstart, hdone, level_place, hb.level_iff ho hmid]
  | _, _, _, _, _, .switch hv hc ht hl hb => fun ho hm => by
    have hlen := ht.length_eq
    simp [Marked, Level, hv.gives.guards, hc.guards, ht.guards, hl.guards, hb.guards hlen] at hm ⊢
    obtain ⟨hhead, -, htests, -, hmid, hdone⟩ := hm
    have hdone := marked_place.1 hdone
    have ho : Exits.Lead ⟨some _, _⟩ depth _ true _ := ⟨.here hdone, ho.continues⟩
    simp [Stmt.stays, hv.gives.level hhead, hc.level, ht.level htests (hb.labels hlen hmid),
      hl.level hdone, level_place, hb.level_iff hlen ho (by simpa using hdone) hmid]
  | _, _, _, _, _, .switchDefault hv hc ht hb hd => fun ho hm => by
    have hlen := ht.length_eq
    simp [Marked, Level, hv.gives.guards, hc.guards, ht.guards, hb.guards hlen, hd.keeps.guards,
      Instruction.guard, Instruction.jump?, Instruction.placed?] at hm ⊢
    obtain ⟨hhead, -, htests, hmid, hother, hlast, hdone⟩ := hm
    have hdone := marked_place.1 hdone
    have ho : Exits.Lead ⟨some _, _⟩ depth _ true _ := ⟨.here hdone, ho.continues⟩
    simp [Stmt.stays, hv.gives.level hhead, hc.level, ht.level htests (hb.labels hlen hmid), hother,
      level_place, hb.level_iff hlen ho (by simpa using hdone) hmid, hd.level_iff ho hlast]
  | _, _, _, _, _, .tryCatch hb hh => fun ho hm => by
    simp [Marked, Level, hb.keeps.guards, hh.keeps.guards, Instruction.guard, Instruction.jump?,
      Instruction.placed?] at hm ⊢
    obtain ⟨hfirst, -, hsecond, hdone⟩ := hm
    simp [Stmt.stays, hdone, hb.level_iff ho.inner hfirst, hh.level_iff ho hsecond]
  | _, _, _, _, _, .function h => fun _ hm => by simpa [Stmt.stays] using h.level_iff hm
  | _, _, _, _, _, .classDef h => fun _ hm => by
    simp [Marked, Level, h.keeps.guards, Instruction.guard, Instruction.jump?,
      Instruction.placed?] at hm ⊢
    simpa [Stmt.stays] using h.level_iff hm

theorem EmitsAll.level_iff : ∀ {ex : Exits} {body : List Stmt} {n m : Supply} {code : Code},
    EmitsAll True ragged ex body n code m → ∀ {d : Int} {b c : Bool}, ex.Lead depth d b c →
    Marked depth d code → (Level depth d code ↔ staysAll b c body)
  | _, _, _, _, _, .nil => fun _ _ => by simp [staysAll, Level]
  | _, _, _, _, _, .cons hs hr => fun ho hm => by
    simp [Marked, Level, hs.keeps.guards] at hm ⊢
    simp [staysAll, hs.level_iff ho hm.1, hr.level_iff ho hm.2]

theorem EmitsCases.level_iff : ∀ {ex : Exits} {cases : List Case} {labels : List Label} {n m : Supply}
    {code : Code}, EmitsCases True ragged ex cases labels n code m → labels.length = cases.length →
    ∀ {d : Int} {c : Bool}, ex.Lead depth d true c → (∀ l ∈ ex.breaks.join, depth l = d) →
    Marked depth d code → (Level depth d code ↔ staysCases true c cases)
  | _, _, _, _, _, _, .nil, _ => fun _ _ _ => by simp [staysCases, Level]
  | _, _, _, _, _, _, .cons hb hv hr, hl => fun ho hd hm => by
    simp [Marked, Level, hb.keeps.guards, hv.guards, Instruction.guard, Instruction.jump?,
      Instruction.placed?] at hm ⊢
    obtain ⟨-, hmid, -, hrest⟩ := hm
    simp [hb.level_iff ho hmid, hv.level hd, hr.level_iff (Nat.succ.inj hl) ho hd hrest]

theorem EmitsFunction.level_iff : ∀ {f : Function} {n m : Supply} {code : Code},
    EmitsFunction True ragged f n code m → ∀ {d : Int}, Marked depth d code →
    (Level depth d code ↔ f.stays)
  | _, _, _, _, .body h => fun hm => by
    simp [Marked, Level, h.keeps.guards, Instruction.guard, Instruction.jump?,
      Instruction.placed?] at hm ⊢
    exact h.level_iff ⟨.outside, .outside⟩ hm
  | _, _, _, _, .stray h => absurd trivial h

theorem EmitsMembers.level_iff : ∀ {members : List Member} {n m : Supply} {code : Code},
    EmitsMembers True ragged members n code m → ∀ {d : Int}, Marked depth d code →
    (Level depth d code ↔ staysMembers members)
  | _, _, _, _, .nil => fun _ => by simp [staysMembers, Level]
  | _, _, _, _, .field hb hr => fun hm => by
    simp [Marked, Level, hb.gives.guards] at hm ⊢
    simp [staysMembers, hb.gives.level hm.1, hr.level_iff hm.2]
  | _, _, _, _, .method hf hr => fun hm => by
    have hk : Supply.Keeps [] [] _ _ _ := hf.keeps
    simp [Marked, Level, hk.guards] at hm ⊢
    simp [staysMembers, hf.level_iff hm.1, hr.level_iff hm.2]

end

end

namespace Program

/-- As many regions are ended as are started. No jump starts or ends one just if no `break` and no
`continue` leaves one in the source, and then, on every way of control, the regions that have been
started and not ended are those around the instruction. -/
theorem compile_guarded {p : Program} {options : Options} {out : Compiled}
    (h : p.compile options = .ok out) :
    out.code.guards = 0 ∧ (p.stays ↔ out.code.Even) ∧
      (p.stays → ∀ passed i, out.code.Route passed i →
        passed.guards = out.code.around i ∧ (i = out.code.length → passed.guards = 0)) := by
  obtain ⟨_, hl⟩ := compile_eq_ok.1 h
  obtain ⟨n, he⟩ := lower_emits True hl fun _ => rfl
  obtain ⟨hb, hn, _⟩ := lower_bracketed hl
  obtain ⟨_, _, _, ht, _⟩ := lower_labelled hl
  obtain ⟨depth, hm⟩ := exists_marked hn 0
  have hiff : p.stays ↔ out.code.Even :=
    (he.level_iff ⟨.outside, .outside⟩ hm).symm.trans (hm.level_iff ht)
  refine ⟨hb.guards, hiff, fun hs passed i hr => ?_⟩
  have hr := (hiff.1 hs).route hr
  refine ⟨hr, ?_⟩
  rintro rfl
  rw [hr, around, List.take_length, hb.guards]

def guardedLoop : Program :=
  ⟨[.tryCatch ⟨[.while (.bool true .unplaced) ⟨[
      .tryCatch ⟨[.print (.int 1 .unplaced) (.atLine 4)], .atLine 3⟩ "e" ⟨[], .atLine 5⟩ (.atLine 3),
      .break (.atLine 6)], .atLine 2⟩ (.atLine 2)], .atLine 1⟩ "e" ⟨[], .atLine 7⟩ (.atLine 1)],
    .unplaced⟩

theorem guardedLoop_guarded : ∃ out, guardedLoop.compile {} = .ok out ∧
    (List.range 22).map out.code.around = [0, 1, 1, 1, 1, 2, 2, 2, 2, 1, 1, 1, 1, 1, 1, 1, 1, 0, 0, 0, 0, 0] ∧
    out.code.Even ∧ ∀ passed i, out.code.Route passed i →
      passed.guards = out.code.around i ∧ (i = out.code.length → passed.guards = 0) := by
  have h : (fun out : Compiled => (List.range 22).map out.code.around) <$>
      (guardedLoop.compile {}).toOption =
        some [0, 1, 1, 1, 1, 2, 2, 2, 2, 1, 1, 1, 1, 1, 1, 1, 1, 0, 0, 0, 0, 0] := by
    decide +kernel
  obtain ⟨out, ho, hd⟩ := exists_of_check h
  obtain ⟨_, hiff, hr⟩ := compile_guarded ho
  exact ⟨out, ho, hd, hiff.1 rfl, hr rfl⟩

def guardedExit : Program :=
  ⟨[.while (.bool true .unplaced) ⟨[
      .tryCatch ⟨[.break (.atLine 3)], .atLine 2⟩ "e" ⟨[], .atLine 4⟩ (.atLine 2)],
    .atLine 1⟩ (.atLine 1)], .unplaced⟩

/-- Two ways lead to the end of the loop. On one of them, a region was started and not ended. -/
theorem guardedExit_uneven : ∃ out, guardedExit.compile {} = .ok out ∧
    ∃ passed passed', out.code.Route passed out.code.length ∧ out.code.Route passed' out.code.length ∧
      passed.guards = 0 ∧ passed'.guards = 1 := by
  -- the test fails at once, or the body is left by its jump
  have h : (fun out : Compiled => decide (out.code.length = 12 ∧
      [0, 1, 2, 11, 12].IsChain out.code.Passes ∧
      [0, 1, 2, 3, 4, 11, 12].IsChain out.code.Passes ∧
      guards ([0, 1, 2, 11].filterMap (out.code[·]?)) = 0 ∧
      guards ([0, 1, 2, 3, 4, 11].filterMap (out.code[·]?)) = 1)) <$>
        (guardedExit.compile {}).toOption = some true := by
    decide +kernel
  obtain ⟨out, ho, hd⟩ := exists_of_check h
  obtain ⟨hl, hp, hp', hg, hg'⟩ := of_decide_eq_true hd
  exact ⟨out, ho, _, _, hl ▸ .along .start hp, hl ▸ .along .start hp', hg, hg'⟩

end Program

end ThreeAddress
