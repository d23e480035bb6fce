import ThreeAddress.Proofs.Emission.Statements
import ThreeAddress.Proofs.Entries.Collected
import ThreeAddress.Proofs.Frames.Lowered
import ThreeAddress.Proofs.Typing.Statements

namespace ThreeAddress

open Lowering Lower

@[simp] def Instruction.entry? : Instruction → Option String
  | .entry name => some name
  | _ => none

namespace Code

def entries (code : Code) : List String := code.filterMap Instruction.entry?

variable {a b code : Code} {i : Instruction}

@[simp] theorem entries_nil : entries [] = [] := rfl

@[simp] theorem entries_cons : entries (i :: code) = i.entry?.toList ++ entries code := by
  rw [entries, List.filterMap_cons]
  cases i.entry? <;> rfl

@[simp] theorem entries_append : entries (a ++ b) = entries a ++ entries b := List.filterMap_append

@[simp] theorem entries_place (l : Option Label) : entries (place l) = [] := by cases l <;> rfl

theorem entries_of_inline (h : ∀ i ∈ code, ¬i.isBracket) : entries code = [] := by
  refine List.filterMap_eq_nil_iff.2 fun i hi => ?_
  have := h i hi
  cases i <;> simp_all [Instruction.isBracket]

end Code

structure Lowering.State.Stays (s s' : State) : Prop where
  outline : s'.table.outline = s.table.outline
  quiet : s'.problems = [] → s.problems = []

namespace Lowering.State

theorem Grows.stays {s s' : State} (h : s.Grows s') : s.Stays s' := ⟨h.table.outline, h.quiet⟩

instance : Std.Refl Stays := ⟨fun _ => ⟨rfl, id⟩⟩

instance : IsTrans State Stays := ⟨fun _ _ _ h k => ⟨k.outline.trans h.outline, h.quiet ∘ k.quiet⟩⟩

end Lowering.State

def Lower.Yields (t : Table) (key : Position) (P : α → Prop) (act : Lower α) : Prop :=
  ∀ ⦃c s a s'⦄, Runs act c s a s' → Stands t key c s → s.Stays s' ∧ (s'.problems = [] → P a)

abbrev Lower.Starts (t : Table) (key : Position) (labels : List String) (act : Lower Code) : Prop :=
  Yields t key (fun code => code.entries = labels) act

abbrev Lower.Plain (t : Table) (key : Position) (act : Lower Valued) : Prop :=
  Yields t key (fun x => Code.entries x.1 = []) act

section

variable {t : Table} {key : Position} {P : α → Prop} {act : Lower α} {f : α → Lower β}

namespace Lower

theorem account_stays (act : Account α) : Keeps State.Stays (account act) := by
  intro c s a s' h
  obtain ⟨_, _, rfl⟩ := runs_account.1 h
  exact ⟨rfl, id⟩

theorem freshLabel_stays : Keeps State.Stays freshLabel := account_stays _

namespace Yields

theorem of_grows (hg : Keeps State.Grows act)
    (h : ∀ ⦃c s a s'⦄, Runs act c s a s' → Stands t key c s → s'.problems = [] → P a) :
    Yields t key P act := fun _ _ _ _ hr hs => ⟨(hg hr).stays, h hr hs⟩

theorem pure {a : α} (h : P a) : Yields t key P (Pure.pure a) := by
  intro c s b s' hr _
  obtain ⟨rfl, rfl⟩ := runs_pure.1 hr
  exact ⟨Std.Refl.refl s', fun _ => h⟩

theorem bind_of_runs {Q : β → Prop} (h : Yields t key P act)
    (k : ∀ a, (∃ c s s', Runs act c s a s') → Yields t key (fun b => P a → Q b) (f a)) :
    Yields t key Q (act >>= f) := by
  intro c s b s' hr hs
  obtain ⟨a, s₁, hact, hf⟩ := runs_bind.1 hr
  obtain ⟨h₁, ha⟩ := h hact hs
  obtain ⟨h₂, hb⟩ := k a ⟨c, s, s₁, hact⟩ hf ⟨h₁.outline.trans hs.outline, hs.scope⟩
  exact ⟨IsTrans.trans _ _ _ h₁ h₂, fun hp => hb hp (ha (h₂.quiet hp))⟩

theorem bind {Q : β → Prop} (h : Yields t key P act)
    (k : ∀ a, Yields t key (fun b => P a → Q b) (f a)) : Yields t key Q (act >>= f) :=
  h.bind_of_runs fun a _ => k a

theorem after {Q : β → Prop} (h : Keeps State.Stays act) (k : ∀ a, Yields t key Q (f a)) :
    Yields t key Q (act >>= f) := by
  intro c s b s' hr hs
  obtain ⟨a, s₁, ha, hf⟩ := runs_bind.1 hr
  obtain ⟨h₂, hb⟩ := k a hf ⟨(h ha).outline.trans hs.outline, hs.scope⟩
  exact ⟨IsTrans.trans _ _ _ (h ha) h₂, hb⟩

theorem inBlock {span : Span} (h : Yields t span.toPosition P act) :
    Yields t key P (inBlock span act) :=
  fun _ _ _ _ hr hs => h (runs_inBlock.1 hr) (hs.inBlock span)

theorem guarding {P : Code → Prop} {uses : List Use} {whole : Span} {act : Lower Code}
    (h : Yields t key P act) (hg : Keeps State.Stores act) :
    Yields t key P (guarding uses whole act) :=
  .of_grows (guarding_stores _ _ hg).stored fun _ _ _ _ hr hs hp => (h (runs_of_guarding hr hp) hs).2 hp

end Yields

theorem Obeys.yields {R : RaggedArrays → Supply → α → Supply → Prop}
    (h : ∀ ragged, Obeys False ragged (R ragged) act) (hg : Keeps State.Grows act)
    (hr : ∀ {ragged n a m}, R ragged n a m → P a) : Yields t key P act := by
  refine .of_grows hg fun c s a s' hrun _ _ => ?_
  obtain ⟨_, ha⟩ := h _ hrun rfl nofun []
  exact hr ha

end Lower

theorem Expr.lower_plain (e : Expr) (d : Demand) : Plain t key (e.lower d) :=
  Obeys.yields (fun _ => e.emits d) (e.lower_advances d).grows fun h =>
    Code.entries_of_inline h.gives.inline

theorem Binding.lower_starts (b : Binding) : Starts t key [] b.lower :=
  Obeys.yields (fun _ => b.emits) b.lower_stores.stored fun h => Code.entries_of_inline h.gives.inline

theorem Target.assign_starts (target : Target) (value : Expr) (span : Span) :
    Starts t key [] (target.assign value span) :=
  Obeys.yields (fun _ => target.emits value span) (target.assign_advances value span).grows fun h =>
    Code.entries_of_inline h.gives.inline

namespace Lower

theorem copyToTemp_plain (v : Operand) : Plain t key (copyToTemp v) := by
  refine .of_grows (copyToTemp_keeps (R := State.Advances) v).grows fun c s x s' hr _ _ => ?_
  obtain ⟨_, rfl, rfl⟩ := runs_copyToTemp.1 hr
  rfl

theorem ensureTemp_plain (v : Operand) : Plain t key (ensureTemp v) := by
  unfold ensureTemp
  split
  · exact .pure rfl
  · exact copyToTemp_plain v

theorem argument_plain {act : Lower Valued} (h : Plain t key act) : Plain t key (argument act) :=
  h.bind fun (_, v) => (copyToTemp_plain v).bind fun _ => .pure <| by simp +contextual

theorem gotoBreak_starts : Starts t key [] gotoBreak := by
  refine .after (account_stays _) fun l => .pure ?_
  cases l <;> rfl

section Forms

variable {labels labels' : List String} {test : Lower Valued} {first body other step : Lower Code}

theorem ifThen_starts (ht : Plain t key test) (hb : Starts t key labels body) :
    Starts t key labels (ifThen test body) :=
  ht.bind fun _ => .after freshLabel_stays fun _ => hb.bind fun _ => .pure <| by simp +contextual

theorem ifThenElse_starts (ht : Plain t key test) (hb : Starts t key labels body)
    (ho : Starts t key labels' other) :
    Starts t key (labels ++ labels') (ifThenElse test body other) :=
  ht.bind fun _ => .after freshLabel_stays fun _ => hb.bind fun _ => .after freshLabel_stays fun _ =>
    ho.bind fun _ => .pure <| by simp +contextual

theorem whileLoop_starts (ht : Plain t key test) (hb : Starts t key labels body) :
    Starts t key labels (whileLoop test body) :=
  .after freshLabel_stays fun _ => ht.bind fun _ => .after freshLabel_stays fun _ =>
    .after (account_stays _) fun _ => hb.bind fun _ => .after (account_stays _) fun _ =>
    .pure <| by simp +contextual

theorem doWhile_starts (hb : Starts t key labels body) (ht : Plain t key test) :
    Starts t key labels (doWhile body test) :=
  .after freshLabel_stays fun _ => .after (account_stays _) fun _ => hb.bind fun _ => ht.bind fun _ =>
    .after (account_stays _) fun _ => .pure <| by simp +contextual

theorem loopTest_yields {test : Option (Lower Valued)} (ht : ∀ act ∈ test, Plain t key act) :
    Yields t key (fun x => Code.entries x.1 = []) (loopTest test) := by
  cases test with
  | none => exact .pure rfl
  | some act =>
    exact (ht act rfl).bind fun _ => .after freshLabel_stays fun _ => .pure <| by simp +contextual

theorem forLoop_starts {test : Option (Lower Valued)} {hasStep : Bool}
    (hf : Starts t key labels first) (ht : ∀ act ∈ test, Plain t key act)
    (hs : Starts t key [] step) (hb : Starts t key labels' body) :
    Starts t key (labels ++ labels') (forLoop first test hasStep step body) :=
  hf.bind fun _ => .after freshLabel_stays fun _ => (loopTest_yields ht).bind fun _ =>
    .after (account_stays _) fun _ => hb.bind fun _ => .after (account_stays _) fun _ =>
    hs.bind fun _ => .pure <| by cases hasStep <;> simp +contextual

theorem indexLoop_starts {base bound : Operand} {item : String} {bind : Lower Unit}
    (hi : Keeps State.Stays bind) (hb : Starts t key labels body) :
    Starts t key labels (indexLoop base bound item bind body) :=
  (copyToTemp_plain _).bind fun _ => (copyToTemp_plain _).bind fun _ => .after hi fun _ =>
    .after freshLabel_stays fun _ => .after (account_stays _) fun _ => .after freshLabel_stays fun _ =>
    .after (account_stays _) fun _ => .after (account_stays _) fun _ => hb.bind fun _ =>
    .after (account_stays _) fun _ => .pure <| by simp +contextual

theorem caseTests_yields (subject : Operand) (cases : List Case) :
    Yields t key (fun x => Code.entries x.1 = []) (caseTests subject cases) := by
  induction cases with
  | nil => exact .pure rfl
  | cons k rest ih =>
    exact (k.value.lower_plain _).bind fun _ => .after freshLabel_stays fun _ => ih.bind fun _ =>
      .pure <| by simp +contextual

theorem caseBody_starts (l : Label) (isEmpty : Bool) (hb : Starts t key labels body) :
    Starts t key labels (caseBody l isEmpty body) := by
  refine hb.bind fun code => .after read_keeps fun c => ?_
  split
  · exact gotoBreak_starts.bind fun _ => .pure <| by simp +contextual
  · exact .pure <| by simp +contextual

theorem switch_starts {subject : Lower Valued} {cases : List Case}
    {bodies : List Label → Lower Code} {default : Option (Lower Code)} (hs : Plain t key subject)
    (hb : ∀ ls, ls.length = cases.length → Starts t key labels (bodies ls))
    (hd : ∀ act ∈ default, Starts t key labels' act) (he : default = none → labels' = []) :
    Starts t key (labels ++ labels') (switch subject cases bodies default) := by
  refine hs.bind fun (_, v) => (ensureTemp_plain v).bind fun (_, w) =>
    (caseTests_yields w cases).bind_of_runs fun (_, ls) ⟨_, _, _, hr⟩ => .after (account_stays _) fun _ => ?_
  have hb := hb ls (length_caseTests hr)
  cases default with
  | none =>
    exact gotoBreak_starts.bind fun _ => hb.bind fun _ => .after (account_stays _) fun _ =>
      .pure <| by simp +contextual [he]
  | some act =>
    exact .after freshLabel_stays fun _ => hb.bind fun _ => (hd act rfl).bind fun _ =>
      .after (account_stays _) fun _ => .pure <| by simp +contextual

theorem tryCatch_starts {caught : String} (hb : Starts t key labels body)
    (ho : Starts t key labels' other) :
    Starts t key (labels ++ labels') (tryCatch body caught other) :=
  .after freshLabel_stays fun _ => hb.bind fun _ => .after freshLabel_stays fun _ =>
    ho.bind fun _ => .pure <| by simp +contextual

theorem jump_starts {target : Account (Option Label)} (problem : Problem) :
    Starts t key [] (jump target problem) := by
  refine .after (account_stays _) fun l => ?_
  cases l with
  | some l => exact .pure rfl
  | none => exact .after ((report_grows problem).mono State.Grows.stays) fun _ => .pure rfl

end Forms

end Lower

theorem Stands.entered {name : String} {owner : Option String} {scope : Position} {c : Context}
    {s : State} (hs : Stands t key c s) (he : t.Holds ⟨⟨key, name⟩, owner, scope⟩) :
    ∃ id, s.table.lookup c.scope name = .ok (some id) ∧ ∀ x, s.table.symbol id = .ok x →
      x.qualifiedName = Entry.label ⟨⟨key, name⟩, owner, scope⟩ ∧
        ∀ i ∈ t.scopeFor scope, x.members.getD c.scope = i := by
  obtain ⟨id, y, i, hf, hy, hl, hm, hk⟩ := he
  refine ⟨id, Table.lookup_of_find? hs.outline hf hs.scope, fun x hx => ?_⟩
  have ho : x.outline = y.outline := Table.symbol_congr hs.outline hx hy
  have hmembers : x.members = y.members := congrArg (·.members) (show x.outline = y.outline from ho)
  refine ⟨(congrArg Symbol.qualifiedName ho).trans hl, ?_⟩
  rw [hk, hmembers, hm]
  simp

theorem lowerAll_starts {body : List Stmt} (he : ∀ e ∈ entriesAll key body, t.Holds e)
    (h : ∀ s ∈ body, (∀ e ∈ s.entries key, t.Holds e) →
      Starts t key ((s.entries key).map Entry.label) s.lower) :
    Starts t key ((entriesAll key body).map Entry.label) (lowerAll body) := by
  induction body with
  | nil =>
    rw [entriesAll, lowerAll]
    exact .pure rfl
  | cons s rest ih =>
    rw [entriesAll, List.forall_mem_append] at he
    rw [entriesAll, lowerAll]
    exact (h s (by simp) he.1).bind fun _ => (ih he.2 fun s hs => h s (by simp [hs])).bind fun _ =>
      .pure <| by simp +contextual

theorem Block.lower_starts {b : Block} (he : ∀ e ∈ b.entries, t.Holds e)
    (h : ∀ s ∈ b.body, ∀ key, (∀ e ∈ s.entries key, t.Holds e) →
      Starts t key ((s.entries key).map Entry.label) s.lower) :
    Starts t key (b.entries.map Entry.label) (inBlock b.span b.lower) := by
  rw [entries_eq] at he ⊢
  rw [lower_eq]
  exact (lowerAll_starts he fun s hs => h s hs _).inBlock

theorem lowerCases_starts {cases : List Case} {labels : List Label}
    (hl : labels.length = cases.length) (he : ∀ e ∈ entriesCases key cases, t.Holds e)
    (h : ∀ k ∈ cases, ∀ s ∈ k.body, (∀ e ∈ s.entries key, t.Holds e) →
      Starts t key ((s.entries key).map Entry.label) s.lower) :
    Starts t key ((entriesCases key cases).map Entry.label) (lowerCases cases labels) := by
  induction cases generalizing labels with
  | nil =>
    rw [entriesCases, lowerCases_nil]
    exact .pure rfl
  | cons k rest ih =>
    obtain ⟨l, labels, rfl⟩ := List.exists_cons_of_length_eq_add_one hl
    rw [entriesCases_cons, List.forall_mem_append] at he
    rw [entriesCases_cons, lowerCases_cons]
    exact (caseBody_starts l _ (lowerAll_starts he.1 (h k (by simp)))).bind fun _ =>
      (ih (by simpa using hl) he.2 fun k hk => h k (by simp [hk])).bind fun _ =>
        .pure <| by simp +contextual

theorem Function.lower_starts {f : Function} {owner : Option String}
    (he : ∀ e ∈ f.entries owner key, t.Holds e)
    (h : ∀ s ∈ f.body.body, ∀ key, (∀ e ∈ s.entries key, t.Holds e) →
      Starts t key ((s.entries key).map Entry.label) s.lower) :
    Starts t key ((f.entries owner key).map Entry.label) f.lower := by
  rw [entries_eq, List.forall_mem_cons] at he
  rw [entries_eq, lower_eq]
  refine .of_grows (functionFrame_grows _ _ _ (lowerBody_grows _)) fun c s code s' hr hs hp => ?_
  obtain ⟨id, hl, hx⟩ := hs.entered he.1
  obtain ⟨hn, _⟩ | ⟨id', x, _, s₁, inner, s₂, _, s₃, hl', hx', h₁, h₂, h₃, rfl, rfl⟩ :=
    runs_functionFrame hr
  · cases hl.symm.trans hn
  cases hl.symm.trans hl'
  obtain ⟨hlabel, hmembers⟩ := hx x hx'
  have hin : Stands t f.body.span.toPosition { c with scope := x.members.getD c.scope } s₁ :=
    ⟨(bindParams_binds _ h₁).table.outline.trans hs.outline, hmembers⟩
  have hq : s₂.problems = [] := by
    rw [← exitFrame_problems h₃]
    exact hp
  have hinner := (lowerAll_starts he.2 (fun s hs => h s hs _) h₂ hin).2 hq
  simp [hlabel, hinner]

theorem lowerMembers_starts {members : List Member} {owner : String}
    (he : ∀ e ∈ entriesMembers owner key members, t.Holds e)
    (h : ∀ f, .method f ∈ members → ∀ s ∈ f.body.body, ∀ key, (∀ e ∈ s.entries key, t.Holds e) →
      Starts t key ((s.entries key).map Entry.label) s.lower) :
    Starts t key ((entriesMembers owner key members).map Entry.label) (lowerMembers members) := by
  induction members with
  | nil =>
    rw [entriesMembers, lowerMembers]
    exact .pure rfl
  | cons m rest ih =>
    rw [lowerMembers]
    cases m with
    | field b =>
      rw [entriesMembers] at he ⊢
      rw [Member.lower]
      exact (b.lower_starts.guarding b.lower_stores).bind fun _ =>
        (ih he fun f hf => h f (by simp [hf])).bind fun _ => .pure <| by simp +contextual
    | method f =>
      rw [entriesMembers, List.forall_mem_append] at he
      rw [entriesMembers, Member.lower]
      exact (Function.lower_starts he.1 (h f (by simp))).bind fun _ =>
        (ih he.2 fun f hf => h f (by simp [hf])).bind fun _ => .pure <| by simp +contextual

theorem Class.lower_starts {k : Class} (he : ∀ e ∈ k.entries key, t.Holds e)
    (h : ∀ f, .method f ∈ k.members → ∀ s ∈ f.body.body, ∀ key, (∀ e ∈ s.entries key, t.Holds e) →
      Starts t key ((s.entries key).map Entry.label) s.lower) :
    Starts t key ((k.entries key).map Entry.label) k.lower := by
  rw [entries_eq, List.forall_mem_cons] at he
  rw [entries_eq, lower_eq]
  refine .of_grows (classFrame_grows _ _ _ (lowerMembers_grows _))
    fun c s code s' hr hs hp => ?_
  obtain ⟨id, hl, hx⟩ := hs.entered he.1
  obtain ⟨hn, _⟩ | ⟨id', x, size, s₁, _, s₂, inner, s₃, _, s₄, hl', hx', h₁, h₂, h₃, h₄, rfl, rfl⟩ :=
    runs_classFrame hr
  · cases hl.symm.trans hn
  cases hl.symm.trans hl'
  obtain ⟨rfl, _⟩ := runs_inherited h₁
  have hin : Stands t k.span.toPosition
      { c with scope := x.members.getD c.scope, className := some k.name } s₂ :=
    ⟨(allocate_frame_grows h₂).table.outline.trans hs.outline, (hx x hx').2⟩
  have hq : s₃.problems = [] := by
    rw [← exitFrame_problems h₄]
    exact hp
  have hinner := (lowerMembers_starts he.2 h h₃ hin).2 hq
  simp [Entry.label, hinner]

theorem lowerOption_starts {s : Option Stmt} (hn : s = none → labels = [])
    (h : ∀ s' ∈ s, Starts t key labels s'.lower) : Starts t key labels (lowerOption s) := by
  cases s with
  | none =>
    rw [lowerOption]
    exact .pure (hn rfl).symm
  | some s =>
    rw [lowerOption]
    exact h s rfl

theorem Stmt.lower_starts {s : Stmt} (hs : s.Tidy) (key : Position)
    (he : ∀ e ∈ s.entries key, t.Holds e) :
    Starts t key ((s.entries key).map Entry.label) s.lower := by
  induction s generalizing key with
  | declare b =>
    rw [Stmt.entries, Stmt.lower]
    exact b.lower_starts.guarding b.lower_stores
  | assign target value span =>
    rw [Stmt.entries, Stmt.lower]
    exact (target.assign_starts value span).guarding (target.assign_advances value span).stores
  | print e span =>
    rw [Stmt.entries, Stmt.lower]
    refine Yields.guarding ((argument_plain (e.lower_plain _)).bind fun _ => .pure ?_) ?_
    · simp +contextual
    · exact ((argument_keeps (e.lower_advances _)).bind fun _ => .pure _).stores
  | eval e span =>
    rw [Stmt.entries, Stmt.lower]
    refine Yields.guarding ((e.lower_plain _).bind fun _ => .pure id) ?_
    exact ((e.lower_advances _).bind fun _ => .pure _).stores
  | ret e span =>
    rw [Stmt.entries]
    cases e with
    | none =>
      rw [Stmt.lower]
      exact .pure rfl
    | some e =>
      rw [Stmt.lower]
      refine Yields.guarding ((e.lower_plain _).bind fun _ => .pure ?_) ?_
      · simp +contextual
      · exact ((e.lower_advances _).bind fun _ => .pure _).stores
  | block b ih =>
    rw [Stmt.entries] at he ⊢
    rw [Stmt.lower]
    exact Block.lower_starts he fun s hm => ih s hm (hs.part s hm)
  | ite c yes no span ihy ihn =>
    have hy (he : ∀ e ∈ yes.entries, t.Holds e) :
        Starts t key (yes.entries.map Entry.label) (inBlock yes.span yes.lower) :=
      Block.lower_starts he fun s hm => ihy s hm (hs.part s (by simp [Stmt.parts, hm]))
    cases no with
    | none =>
      rw [Stmt.entries, List.append_nil] at he ⊢
      rw [Stmt.lower]
      exact ifThen_starts (c.lower_plain _) (hy he)
    | some no =>
      rw [Stmt.entries] at he ⊢
      rw [List.forall_mem_append] at he
      rw [Stmt.lower, List.map_append]
      refine ifThenElse_starts (c.lower_plain _) (hy he.1) ?_
      exact Block.lower_starts he.2 fun s hm =>
        ihn no rfl s hm (hs.part s (by simp [Stmt.parts, hm]))
  | loop c body span ih =>
    rw [Stmt.entries] at he ⊢
    rw [Stmt.lower]
    exact whileLoop_starts (c.lower_plain _) <|
      Block.lower_starts he fun s hm => ih s hm (hs.part s hm)
  | doWhile body c span ih =>
    rw [Stmt.entries] at he ⊢
    rw [Stmt.lower]
    exact doWhile_starts (Block.lower_starts he fun s hm => ih s hm (hs.part s hm)) (c.lower_plain _)
  | forLoop first test step body span ihf ihs ih =>
    -- what stands in the head of a loop and its body share one scope
    have hb (he : ∀ e ∈ body.entries, t.Holds e) :
        Starts t body.span.toPosition (body.entries.map Entry.label) (lowerAll body.body) := by
      rw [Block.entries_eq] at he ⊢
      exact lowerAll_starts he fun s hm => ih s hm (hs.part s (by simp [Stmt.parts, hm])) _
    have ht : ∀ act ∈ test.map (·.lower .value), Plain t body.span.toPosition act := by
      simpa using fun e _ => e.lower_plain .value
    -- no scope holds what the update step declares, which is nothing
    have hstep : Starts t body.span.toPosition [] (lowerOption step) :=
      lowerOption_starts (fun _ => rfl) fun s hm => by
        have hu := ihs s hm (hs.part s (by cases hm; simp [Stmt.parts])) body.span.toPosition
        rw [s.entries_eq_nil (hs.step s hm _)] at hu
        exact hu (List.forall_mem_nil _)
    rw [Stmt.lower, Block.lower_eq]
    refine Yields.inBlock ?_
    cases first with
    | none =>
      rw [Stmt.entries] at he ⊢
      exact forLoop_starts (lowerOption_starts (fun _ => rfl) (by simp)) ht hstep (hb he)
    | some s =>
      rw [Stmt.entries, List.forall_mem_append] at he
      rw [Stmt.entries, List.map_append]
      refine forLoop_starts (lowerOption_starts (by simp) ?_) ht hstep (hb he.2)
      rintro _ ⟨⟩
      exact ihf s rfl (hs.part s (by simp [Stmt.parts])) _ he.1
  | foreach item collection body span ih =>
    rw [Stmt.entries, Block.entries_eq] at he ⊢
    rw [Stmt.lower, Block.lower_eq]
    refine Yields.inBlock ((collection.lower_plain _).bind fun _ => .after (loopBound_keeps ..)
      fun _ => Yields.bind (indexLoop_starts ((bindLocal_binds ..).bound.stored.mono State.Grows.stays)
        (lowerAll_starts he fun s hm => ih s hm (hs.part s hm) _)) fun _ => .pure ?_)
    simp +contextual
  | switch subject cases default span ihc ihd =>
    have hc (he : ∀ e ∈ entriesCases key cases, t.Holds e) (labels : List Label)
        (hl : labels.length = cases.length) :
        Starts t key ((entriesCases key cases).map Entry.label) (lowerCases cases labels) :=
      lowerCases_starts hl he fun k hk s hm =>
        ihc k hk s hm (hs.part s (List.mem_append_left _ (List.mem_flatMap.2 ⟨k, hk, hm⟩))) key
    rw [Stmt.lower_switch]
    cases default with
    | none =>
      rw [Stmt.entries, List.append_nil] at he
      rw [Stmt.entries, List.map_append]
      exact switch_starts (subject.lower_plain _) (hc he) (by simp) fun _ => rfl
    | some body =>
      rw [Stmt.entries, List.forall_mem_append] at he
      rw [Stmt.entries, List.map_append]
      refine switch_starts (subject.lower_plain _) (hc he.1) ?_ (by simp)
      rintro _ ⟨⟩
      exact lowerAll_starts he.2 fun s hm =>
        ihd body rfl s hm (hs.part s (List.mem_append_right _ hm)) key
  | exit span =>
    rw [Stmt.entries, Stmt.lower]
    exact jump_starts _
  | next span =>
    rw [Stmt.entries, Stmt.lower]
    exact jump_starts _
  | tryCatch body caught handler span ihb ihh =>
    rw [Stmt.entries, List.forall_mem_append, Block.entries_eq handler] at he
    rw [Stmt.entries, Stmt.lower, List.map_append, Block.entries_eq handler, Block.lower_eq handler]
    refine tryCatch_starts (Block.lower_starts he.1 fun s hm =>
      ihb s hm (hs.part s (List.mem_append_left _ hm))) ?_
    exact Yields.inBlock (.after ((bindLocal_binds ..).bound.stored.mono State.Grows.stays) fun _ =>
      lowerAll_starts he.2 fun s hm => ihh s hm (hs.part s (List.mem_append_right _ hm)) _)
  | function f ih =>
    rw [Stmt.entries] at he ⊢
    rw [Stmt.lower]
    exact Function.lower_starts he fun s hm => ih s hm (hs.part s hm)
  | classDef c ih =>
    rw [Stmt.entries] at he ⊢
    rw [Stmt.lower]
    exact Class.lower_starts he fun f hf s hm =>
      ih f hf s hm (hs.part s (List.mem_flatMap.2 ⟨_, hf, hm⟩))

end

end ThreeAddress
