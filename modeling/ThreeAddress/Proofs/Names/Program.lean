import ThreeAddress.Proofs.Names.Values

namespace ThreeAddress

open Lowering Lower

abbrev Mention := Nat × Use

/-- The scope that a block opens; the one around it if it opens none. -/
def Table.opened (t : Table) (scope : Nat) (span : Span) : Nat :=
  (t.scopeFor span.toPosition).getD scope

/-- The scope that the members of a function or a class belong to. -/
def Table.owned (t : Table) (scope : Nat) (name : String) : Nat :=
  ((t.visible? scope name).bind (·.members)).getD scope

mutual

/-- The names in the expressions of a statement. A simple statement mentions all of its names. Which
names a header mentions, such as a condition or a subject, is told by `header`; that of a `for` or a
`foreach` belongs to the scope of the body. -/
def Stmt.mentions (t : Table) (header : Expr → List Use) (scope : Nat) : Stmt → List Mention
  | .declare b => b.uses.map (scope, ·)
  | .assign target value span => (target.uses span ++ value.uses).map (scope, ·)
  | .print e _ | .eval e _ => e.uses.map (scope, ·)
  | .return e _ => ((e.map Expr.uses).getD []).map (scope, ·)
  | .block b => b.mentions t header scope
  | .ite c yes no _ =>
    (header c).map (scope, ·) ++ (yes.mentions t header scope ++ match no with
      | none => []
      | some no => no.mentions t header scope)
  | .while c body _ => (header c).map (scope, ·) ++ body.mentions t header scope
  | .doWhile body c _ => body.mentions t header scope ++ (header c).map (scope, ·)
  | .for first test step body _ =>
    let inner := t.opened scope body.span
    (match first with
      | none => []
      | some s => s.mentions t header inner) ++
    (((test.map header).getD []).map (inner, ·) ++ (body.bodyMentions t header inner ++ match step with
      | none => []
      | some s => s.mentions t header inner))
  | .foreach _ collection body _ =>
    let inner := t.opened scope body.span
    (header collection).map (inner, ·) ++ body.bodyMentions t header inner
  | .switch subject cases default _ =>
    (header subject).map (scope, ·) ++ ((cases.flatMap (header ·.value)).map (scope, ·) ++
      (mentionsCases t header scope cases ++ match default with
        | none => []
        | some body => mentionsAll t header scope body))
  | .tryCatch body _ handler _ => body.mentions t header scope ++ handler.mentions t header scope
  | .function f => f.mentions t header scope
  | .class c => c.mentions t header scope
  | .break _ | .continue _ => []

def mentionsAll (t : Table) (header : Expr → List Use) (scope : Nat) : List Stmt → List Mention
  | [] => []
  | s :: rest => s.mentions t header scope ++ mentionsAll t header scope rest

def Block.bodyMentions (t : Table) (header : Expr → List Use) (scope : Nat) : Block → List Mention
  | ⟨body, _⟩ => mentionsAll t header scope body

def Block.mentions (t : Table) (header : Expr → List Use) (scope : Nat) : Block → List Mention
  | ⟨body, span⟩ => mentionsAll t header (t.opened scope span) body

def mentionsCases (t : Table) (header : Expr → List Use) (scope : Nat) : List Case → List Mention
  | [] => []
  | ⟨_, body, _⟩ :: rest => mentionsAll t header scope body ++ mentionsCases t header scope rest

def Function.mentions (t : Table) (header : Expr → List Use) (scope : Nat) : Function → List Mention
  | ⟨name, _, _, body, _⟩ => body.bodyMentions t header (t.owned scope name)

def Member.mentions (t : Table) (header : Expr → List Use) (scope : Nat) : Member → List Mention
  | .field b => b.uses.map (scope, ·)
  | .method f => f.mentions t header scope

def mentionsMembers (t : Table) (header : Expr → List Use) (scope : Nat) : List Member → List Mention
  | [] => []
  | m :: rest => m.mentions t header scope ++ mentionsMembers t header scope rest

def Class.mentions (t : Table) (header : Expr → List Use) (scope : Nat) : Class → List Mention
  | ⟨name, _, members, _⟩ => mentionsMembers t header (t.owned scope name) members

end

namespace Lower

open Lowering.State (Follows)

abbrev Finds (t : Table) (options : Options) (N : Nat → List Mention) (act : Lower α) : Prop :=
  Shows t options (fun scope => ∀ m ∈ N scope, t.Resolves m.1 m.2) act

variable {t : Table} {options : Options} {N N' N₁ N₂ : Nat → List Mention} {uses : List Use}
  {act : Lower α} {f : α → Lower β}

theorem Looks.finds (h : Looks t options uses act) :
    Finds t options (fun scope => uses.map (scope, ·)) act :=
  h.mono fun _ hu m hm => by
    obtain ⟨u, hu', rfl⟩ := List.mem_map.1 hm
    exact hu u hu'

theorem Keeps.finds (h : Keeps Follows act) : Finds t options (fun _ => []) act :=
  .of_keeps h fun _ => nofun

namespace Finds

theorem bind_of_runs (h : Finds t options N act)
    (k : ∀ a, (∃ c s s', Runs act c s a s') → Finds t options N' (f a)) :
    Finds t options (fun scope => N scope ++ N' scope) (act >>= f) :=
  (Shows.bind_of_runs h k).mono fun _ ⟨hm, hm'⟩ m h => (List.mem_append.1 h).elim (hm m) (hm' m)

theorem bind (h : Finds t options N act) (k : ∀ a, Finds t options N' (f a)) :
    Finds t options (fun scope => N scope ++ N' scope) (act >>= f) :=
  h.bind_of_runs fun a _ => k a

theorem congr (h : Finds t options N act) (he : ∀ scope, N' scope = N scope) :
    Finds t options N' act := by
  rwa [funext he]

theorem inBlock {span : Span} (h : Finds t options N act) :
    Finds t options (fun scope => N (t.opened scope span)) (inBlock span act) := by
  refine ⟨h.follows.inBlock span, fun c s a s' hr ho hs hp => ?_⟩
  have hb : blockScope c s span = t.opened c.scope span := by
    rw [blockScope, Table.opened, ← Table.scopeFor_outline, hs, Table.scopeFor_outline]
  have hin := h.shows (runs_inBlock.1 hr) ho hs hp
  rwa [hb] at hin

end Finds

theorem guarding_finds {whole : Span} {act : Lower Code}
    (h : Keeps State.Stores act) :
    Finds t options (fun scope => uses.map (scope, ·)) (guarding uses whole act) := by
  refine Looks.finds ⟨(guarding_stores uses whole h).stored.follows, ?_⟩
  intro c s a s' hr ho hs hp u hu
  obtain ⟨id, hl⟩ := lookup_of_guarding hr hp u hu
  rw [← Table.lookup_outline, hs, Table.lookup_outline] at hl
  exact ⟨id, hl⟩

section Forms

variable {test : Lower Valued} {first body other step : Lower Code}

theorem freshLabel_follows : Keeps Follows freshLabel := freshLabel_grows.follows

theorem ifThen_finds (ht : Finds t options N test) (hb : Finds t options N' body) :
    Finds t options (fun scope => N scope ++ N' scope) (ifThen test body) :=
  ht.bind fun _ => .last freshLabel_follows fun _ => Shows.first hb fun _ => .pure _

theorem ifThenElse_finds (ht : Finds t options N test) (hb : Finds t options N₁ body)
    (ho : Finds t options N₂ other) :
    Finds t options (fun scope => N scope ++ (N₁ scope ++ N₂ scope)) (ifThenElse test body other) :=
  ht.bind fun _ => .last freshLabel_follows fun _ => hb.bind fun _ =>
    .last freshLabel_follows fun _ => Shows.first ho fun _ => .pure _

theorem whileLoop_finds (ht : Finds t options N test) (hb : Finds t options N' body) :
    Finds t options (fun scope => N scope ++ N' scope) (whileLoop test body) :=
  .last freshLabel_follows fun _ => ht.bind fun _ => .last freshLabel_follows fun _ =>
    .last (account_follows _) fun _ => Shows.first hb fun _ => (account_follows _).bind fun _ => .pure _

theorem doWhile_finds (ht : Finds t options N' test) (hb : Finds t options N body) :
    Finds t options (fun scope => N scope ++ N' scope) (doWhile body test) :=
  .last freshLabel_follows fun _ => .last (account_follows _) fun _ => hb.bind fun _ =>
    Shows.first ht fun _ => (account_follows _).bind fun _ => .pure _

theorem forLoop_finds {test : Option (Lower Valued)} {hasStep : Bool}
    (hf : Finds t options N first) (ht : Finds t options N' (loopTest test))
    (hb : Finds t options N₁ body) (hp : Finds t options N₂ step) :
    Finds t options (fun scope => N scope ++ (N' scope ++ (N₁ scope ++ N₂ scope)))
      (forLoop first test hasStep step body) :=
  hf.bind fun _ => .last freshLabel_follows fun _ => ht.bind fun _ => .last (account_follows _) fun _ =>
    hb.bind fun _ => .last (account_follows _) fun _ => Shows.first hp fun _ => .pure _

theorem indexLoop_finds {base bound : Operand} {item : String} {bind : Lower Unit}
    (hi : Keeps Follows bind) (hb : Finds t options N body) :
    Finds t options N (indexLoop base bound item bind body) :=
  .last (copyToTemp_keeps _) fun _ => .last (copyToTemp_keeps _) fun _ => .last hi fun _ =>
    .last freshLabel_follows fun _ => .last freshTemp_keeps fun _ => .last freshLabel_follows fun _ =>
      .last freshTemp_keeps fun _ => .last (account_follows _) fun _ =>
        Shows.first hb fun _ => (account_follows _).bind fun _ => .pure _

theorem tryCatch_finds {caught : String} (hb : Finds t options N body)
    (ho : Finds t options N' other) :
    Finds t options (fun scope => N scope ++ N' scope) (tryCatch body caught other) :=
  .last freshLabel_follows fun _ => hb.bind fun _ => .last freshLabel_follows fun _ =>
    Shows.first ho fun _ => .pure _

theorem gotoBreak_follows : Keeps Follows gotoBreak := (account_follows _).bind fun _ => .pure _

theorem caseBody_finds (l : Label) (isEmpty : Bool) (hb : Finds t options N body) :
    Finds t options N (caseBody l isEmpty body) := by
  refine Shows.first hb fun _ => read_keeps.bind fun _ => ?_
  split
  · exact gotoBreak_follows.bind fun _ => .pure _
  · exact .pure _

theorem caseTests_looks (subject : Operand) (cases : List Case) :
    Looks t options (cases.flatMap (·.value.reads options.raggedArrays)) (caseTests subject cases) := by
  induction cases with
  | nil => exact Keeps.looks (.pure _)
  | cons k rest ih =>
    rw [List.flatMap_cons]
    exact (k.value.lower_looks _).bind fun _ => .last freshLabel_follows fun _ =>
      Shows.first ih fun _ => .pure _

theorem loopTest_looks (test : Option Expr) :
    Looks t options ((test.map (Expr.reads options.raggedArrays)).getD [])
      (loopTest (test.map (·.lower .value))) := by
  cases test with
  | none => exact Keeps.looks (.pure _)
  | some e => exact Shows.first (e.lower_looks _) fun _ => freshLabel_follows.bind fun _ => .pure _

theorem switch_finds {subject : Lower Valued} {cases : List Case}
    {bodies : List Label → Lower Code} {default : Option (Lower Code)}
    (hs : Finds t options N subject)
    (hb : ∀ labels, labels.length = cases.length → Finds t options N₁ (bodies labels))
    (hd : ∀ act ∈ default, Finds t options N₂ act) (he : default = none → ∀ scope, N₂ scope = []) :
    Finds t options (fun scope => N scope ++
      ((cases.flatMap (·.value.reads options.raggedArrays)).map (scope, ·) ++
        (N₁ scope ++ N₂ scope))) (switch subject cases bodies default) := by
  refine hs.bind fun (_, v) => .last (ensureTemp_keeps v) fun (_, w) =>
    (caseTests_looks w cases).finds.bind_of_runs fun (_, labels) ⟨_, _, _, hr⟩ => ?_
  have hb := hb labels (length_caseTests hr)
  refine .last (account_follows _) fun _ => ?_
  cases default with
  | none =>
    refine .last gotoBreak_follows fun _ => hb.bind fun _ => .of_keeps ?_ ?_
    · exact (account_follows _).bind fun _ => .pure _
    · intro scope m hm
      cases he rfl scope ▸ hm
  | some act =>
    refine .last freshLabel_follows fun _ => hb.bind fun _ => Shows.first (hd act rfl) fun _ => ?_
    exact (account_follows _).bind fun _ => .pure _

end Forms

section Frames

variable {name : String} {span : Span}

theorem owned_eq {c : Context} {s : State} {id : SymbolId} {x : Symbol}
    (hs : s.table.outline = t.outline) (hl : s.table.lookup c.scope name = .ok (some id))
    (hx : s.table.symbol id = .ok x) : t.owned c.scope name = x.members.getD c.scope := by
  rw [← Table.lookup_outline, hs, Table.lookup_outline] at hl
  have ho : Symbol.outline <$> t.symbol id = .ok x.outline := by
    rw [← Table.symbol_outline, ← hs, Table.symbol_outline, hx]
    rfl
  cases hy : t.symbol id with
  | error e => simp [hy, Functor.map, Except.map] at ho
  | ok y =>
    have hm : y.members = x.members :=
      congrArg (·.members) (Table.symbol_congr (t := s.table) hs.symm hy hx)
    simp [Table.owned, Table.visible?, hl, hy, Except.toOption, hm]

theorem functionFrame_finds {params : List Param} {body : Lower Code}
    (hg : Keeps State.Grows body) (hb : Finds t options N body) :
    Finds t options (fun scope => N (t.owned scope name)) (functionFrame name params span body) := by
  refine ⟨(functionFrame_grows name params span hg).follows, fun c s a s' hr ho hs hp => ?_⟩
  obtain ⟨_, _, rfl⟩ | ⟨id, x, _, s₁, _, s₂, _, s₃, hl, hx, h₁, h₂, h₃, rfl, _⟩ := runs_functionFrame hr
  · simp at hp
  · simp only [owned_eq hs hl hx]
    exact hb.shows h₂ ho ((bindParams_binds _ h₁).table.outline.trans hs)
      ((account_follows _ h₃).quiet hp)

theorem classFrame_finds {parent : Option String} {members : Lower Code}
    (hg : Keeps State.Grows members) (hb : Finds t options N members) :
    Finds t options (fun scope => N (t.owned scope name)) (classFrame name parent span members) := by
  refine ⟨(classFrame_grows name parent span hg).follows, fun c s a s' hr ho hs hp => ?_⟩
  obtain ⟨_, _, rfl⟩ | ⟨id, x, _, s₁, _, s₂, _, s₃, _, s₄, hl, hx, h₁, h₂, h₃, h₄, rfl, _⟩ :=
    runs_classFrame hr
  · simp at hp
  · obtain ⟨rfl, _⟩ := runs_inherited h₁
    simp only [owned_eq hs hl hx]
    exact hb.shows h₃ ho ((allocate_frame_grows h₂).table.outline.trans hs)
      ((account_follows _ h₄).quiet hp)

end Frames

end Lower

section Statements

variable {t : Table} {options : Options}

abbrev Stmt.found (t : Table) (options : Options) (s : Stmt) (scope : Nat) : List Mention :=
  s.mentions t (Expr.reads options.raggedArrays) scope

theorem lowerAll_finds {body : List Stmt}
    (h : ∀ s ∈ body, Finds t options (s.found t options) s.lower) :
    Finds t options (mentionsAll t (Expr.reads options.raggedArrays) · body) (lowerAll body) := by
  induction body with
  | nil =>
    simp only [lowerAll, mentionsAll]
    exact Keeps.finds (.pure _)
  | cons s rest ih =>
    simp only [lowerAll, mentionsAll]
    exact (h s (by simp)).bind fun _ =>
      Shows.first (ih fun s hs => h s (by simp [hs])) fun _ => .pure _

theorem Block.mentions_eq (header : Expr → List Use) (scope : Nat) (b : Block) :
    b.mentions t header scope = mentionsAll t header (t.opened scope b.span) b.body := by
  cases b
  rw [mentions]

theorem Block.bodyMentions_eq (header : Expr → List Use) (scope : Nat) (b : Block) :
    b.bodyMentions t header scope = mentionsAll t header scope b.body := by
  cases b
  rw [bodyMentions]

theorem Block.lower_finds {b : Block}
    (h : ∀ s ∈ b.body, Finds t options (s.found t options) s.lower) :
    Finds t options (b.mentions t (Expr.reads options.raggedArrays)) (inBlock b.span b.lower) := by
  rw [Block.lower_eq]
  exact (Finds.inBlock (lowerAll_finds h)).congr fun scope => b.mentions_eq _ scope

theorem Block.body_finds {b : Block}
    (h : ∀ s ∈ b.body, Finds t options (s.found t options) s.lower) :
    Finds t options (b.bodyMentions t (Expr.reads options.raggedArrays)) b.lower := by
  rw [Block.lower_eq]
  exact Finds.congr (lowerAll_finds h) fun scope => b.bodyMentions_eq _ scope

theorem lowerCases_finds {cases : List Case} {labels : List Label}
    (hl : labels.length = cases.length)
    (h : ∀ k ∈ cases, ∀ s ∈ k.body, Finds t options (s.found t options) s.lower) :
    Finds t options (mentionsCases t (Expr.reads options.raggedArrays) · cases)
      (lowerCases cases labels) := by
  induction cases generalizing labels with
  | nil =>
    simp only [lowerCases_nil, mentionsCases]
    exact Keeps.finds (.pure _)
  | cons k rest ih =>
    obtain ⟨l, labels, rfl⟩ := List.exists_cons_of_length_eq_add_one hl
    have hk (scope : Nat) : mentionsCases t (Expr.reads options.raggedArrays) scope (k :: rest) =
        mentionsAll t (Expr.reads options.raggedArrays) scope k.body ++
          mentionsCases t (Expr.reads options.raggedArrays) scope rest := by
      cases k
      rw [mentionsCases]
    simp only [lowerCases_cons, hk]
    refine (caseBody_finds l _ (lowerAll_finds (h k (by simp)))).bind fun _ => ?_
    exact Shows.first (ih (by simpa using hl) fun k hk => h k (by simp [hk])) fun _ => .pure _

theorem Function.lower_finds {f : Function}
    (h : ∀ s ∈ f.body.body, Finds t options (s.found t options) s.lower) :
    Finds t options (f.mentions t (Expr.reads options.raggedArrays)) f.lower := by
  rw [Function.lower_eq]
  refine Finds.congr (functionFrame_finds (lowerBody_grows _) (lowerAll_finds h)) fun scope => ?_
  cases f
  simp only [mentions, Block.bodyMentions_eq]

theorem lowerMembers_finds {members : List Member}
    (h : ∀ f, .method f ∈ members → ∀ s ∈ f.body.body, Finds t options (s.found t options) s.lower) :
    Finds t options (mentionsMembers t (Expr.reads options.raggedArrays) · members)
      (lowerMembers members) := by
  induction members with
  | nil =>
    simp only [lowerMembers, mentionsMembers]
    exact Keeps.finds (.pure _)
  | cons m rest ih =>
    have hm : Finds t options (m.mentions t (Expr.reads options.raggedArrays)) m.lower := by
      cases m with
      | field b =>
        simp only [Member.lower]
        exact (guarding_finds b.lower_stores).congr fun _ => by simp only [Member.mentions]
      | method f =>
        simp only [Member.lower]
        exact (f.lower_finds (h f (by simp))).congr fun _ => by simp only [Member.mentions]
    simp only [lowerMembers, mentionsMembers]
    exact hm.bind fun _ => Shows.first (ih fun f hf => h f (by simp [hf])) fun _ => .pure _

theorem Class.lower_finds {c : Class}
    (h : ∀ f, .method f ∈ c.members → ∀ s ∈ f.body.body, Finds t options (s.found t options) s.lower) :
    Finds t options (c.mentions t (Expr.reads options.raggedArrays)) c.lower := by
  rw [Class.lower_eq]
  refine Finds.congr (classFrame_finds (lowerMembers_grows _)
    (lowerMembers_finds h)) fun scope => ?_
  cases c
  simp only [mentions]

theorem Stmt.lower_finds (s : Stmt) : Finds t options (s.found t options) s.lower := by
  induction s with
  | declare b =>
    rw [Stmt.lower]
    exact (guarding_finds b.lower_stores).congr fun _ => by simp only [mentions]
  | assign target value span =>
    rw [Stmt.lower]
    exact (guarding_finds (target.assign_advances value span).stores).congr fun _ => by
      simp only [mentions]
  | print e span =>
    rw [Stmt.lower]
    -- the guard looks the names up; what it guards has nothing to find but them
    have hk : Keeps State.Advances (do
        let x ← argument (e.lower .value)
        return x.1 ++ [.call "print" [x.2]]) :=
      (argument_keeps (e.lower_advances _)).bind fun _ => .pure _
    exact (guarding_finds hk.stores).congr fun _ => by simp only [mentions]
  | eval e span =>
    rw [Stmt.lower]
    have hk : Keeps State.Advances (do return (← e.lower .effect).1) :=
      (e.lower_advances _).bind fun _ => .pure _
    exact (guarding_finds hk.stores).congr fun _ => by simp only [mentions]
  | ret e span =>
    cases e with
    | none =>
      rw [Stmt.lower]
      exact (Keeps.finds (.pure _)).congr fun _ => by simp [mentions]
    | some e =>
      rw [Stmt.lower]
      have hk : Keeps State.Advances (do
          let x ← e.lower .value
          return x.1 ++ [.return x.2]) :=
        (e.lower_advances _).bind fun _ => .pure _
      exact (guarding_finds hk.stores).congr fun _ => by simp [mentions]
  | block b ih =>
    rw [Stmt.lower]
    exact (Block.lower_finds ih).congr fun _ => by simp only [mentions]
  | ite c yes no span ihy ihn =>
    -- a condition is not guarded: its names are those that its code looks up
    have hc : Finds t options (fun scope => (c.reads options.raggedArrays).map (scope, ·))
        (c.lower .value) := (c.lower_looks .value).finds
    cases no with
    | none =>
      rw [Stmt.lower]
      exact (ifThen_finds hc (Block.lower_finds ihy)).congr fun _ => by simp [mentions]
    | some no =>
      rw [Stmt.lower]
      exact (ifThenElse_finds hc (Block.lower_finds ihy) (Block.lower_finds (ihn no rfl))).congr
        fun _ => by simp only [mentions]
  | loop c body span ih =>
    rw [Stmt.lower]
    exact (whileLoop_finds (c.lower_looks _).finds (Block.lower_finds ih)).congr fun _ => by
      simp only [mentions]
  | doWhile body c span ih =>
    rw [Stmt.lower]
    exact (doWhile_finds (c.lower_looks _).finds (Block.lower_finds ih)).congr fun _ => by
      simp only [mentions]
  | forLoop first test step body span ihf ihs ih =>
    have hoption (o : Option Stmt) (h : ∀ s ∈ o, Finds t options (s.found t options) s.lower) :
        Finds t options (fun scope => (o.map (Stmt.found t options · scope)).getD [])
          (lowerOption o) := by
      cases o with
      | none =>
        rw [lowerOption]
        exact Keeps.finds (.pure _)
      | some s =>
        rw [lowerOption]
        exact h s rfl
    rw [Stmt.lower]
    refine Finds.congr (Finds.inBlock (forLoop_finds (hoption first ihf) (loopTest_looks test).finds
      (Block.body_finds ih) (hoption step ihs))) fun scope => ?_
    cases first <;> cases step <;> simp [mentions]
  | foreach item collection body span ih =>
    rw [Stmt.lower]
    have hloop (head : Code) (base : Operand) : Finds t options
        (body.bodyMentions t (Expr.reads options.raggedArrays)) (do
          let bound ← loopBound collection base
          return head ++ (← indexLoop base bound item (bindLocal item span) body.lower)) :=
      .last (loopBound_keeps ..) fun _ => Shows.first
        (indexLoop_finds (bindLocal_binds item span).bound.stored.follows (Block.body_finds ih))
        fun _ => .pure _
    have hwhole := Finds.bind (collection.lower_looks .value).finds fun y => hloop y.1 y.2
    exact (Finds.inBlock hwhole).congr fun _ => by simp only [mentions]
  | switch subject cases default span ihc ihd =>
    rw [Stmt.lower_switch]
    have hdefault : ∀ act ∈ default.map lowerAll, Finds t options (fun scope =>
        (default.map (mentionsAll t (Expr.reads options.raggedArrays) scope)).getD []) act := by
      intro act hact
      obtain ⟨body, hb, rfl⟩ := Option.map_eq_some_iff.1 hact
      rw [hb]
      exact lowerAll_finds (ihd body hb)
    refine Finds.congr (switch_finds (subject.lower_looks _).finds
      (fun labels hl => lowerCases_finds hl ihc) hdefault ?_) fun scope => ?_
    · intro hd scope
      rw [Option.map_eq_none_iff.1 hd]
      rfl
    · cases default <;> simp [mentions]
  | exit span =>
    rw [Stmt.lower]
    exact (Keeps.finds (jump_grows _ breakLabel_grows).follows).congr fun _ => by simp only [mentions]
  | next span =>
    rw [Stmt.lower]
    exact (Keeps.finds (jump_grows _ continueLabel_grows).follows).congr fun _ => by
      simp only [mentions]
  | tryCatch body caught handler span ihb ihh =>
    rw [Stmt.lower]
    refine Finds.congr (tryCatch_finds (Block.lower_finds ihb) (Finds.inBlock (.last
      (bindLocal_binds caught span).bound.stored.follows fun _ => Block.body_finds ihh)))
      fun scope => ?_
    simp only [mentions, Block.mentions_eq, Block.bodyMentions_eq]
  | function f ih =>
    rw [Stmt.lower]
    exact (Function.lower_finds ih).congr fun _ => by simp only [mentions]
  | classDef c ih =>
    rw [Stmt.lower]
    exact (Class.lower_finds ih).congr fun _ => by simp only [mentions]

end Statements

namespace Program

variable {p : Program} {options : Options} {out : Compiled}

/-- If a program compiles, then the names that its statements mention are declared where they stand.
Headers are told by what is looked up in them. -/
theorem compile_resolves (h : p.compile options = .ok out) : ∃ table, p.scopes = .ok table ∧
    ∀ m ∈ mentionsAll table (Expr.reads options.raggedArrays) Table.global p.statements,
      table.Resolves m.1 m.2 := by
  obtain ⟨hc, hl⟩ := compile_eq_ok.1 h
  obtain ⟨s, hr, _, _, _, hp⟩ := runs_program.1 hl
  refine ⟨p.collect.table, scopes_eq_ok.2 ⟨hc, rfl⟩, ?_⟩
  exact (lowerAll_finds fun s _ => s.lower_finds).shows hr rfl rfl hp.symm

def naming : Program :=
  ⟨[.declare ⟨"n", none, some (.int 1 .unplaced), false, .atLine 1⟩,
    .function ⟨"f", [⟨"a", none, .atLine 2⟩], none,
      ⟨[.return (some (.ident "a" .unplaced)) (.atLine 3)], .atLine 4⟩, .atLine 2⟩,
    .ite (.call (.ident "f" .unplaced) [.ident "n" .unplaced] .unplaced) ⟨[], .atLine 5⟩ none .unplaced,
    .for (some (.declare ⟨"i", none, some (.ident "n" .unplaced), false, .atLine 6⟩))
      (some (.ident "i" .unplaced)) none ⟨[], .atLine 7⟩ .unplaced], .unplaced⟩

theorem naming_resolves : ∃ out, naming.compile {} = .ok out ∧ ∃ table, naming.scopes = .ok table ∧
    ∀ m ∈ mentionsAll table (Expr.reads .reject) Table.global naming.statements,
      table.Resolves m.1 m.2 := by
  have h : (·.code.length) <$> (naming.compile {}).toOption = some 15 := by decide +kernel
  obtain ⟨out, ho, _⟩ := exists_of_check h
  exact ⟨out, ho, compile_resolves ho⟩

example : naming.scopes.toOption.map (fun table =>
    (mentionsAll table (Expr.reads .reject) Table.global naming.statements).map fun m => (m.1, m.2.1)) =
    some [(0, "n"), (1, "a"), (0, "f"), (0, "n"), (3, "i"), (3, "n"), (3, "i")] := by
  decide +kernel

def conjuring : Program :=
  ⟨[.ite (.new "Ghost" [] .unplaced) ⟨[], .atLine 1⟩ none (.atLine 2)], .unplaced⟩

def padding : Program :=
  ⟨[.ite (.array [.ident "ghost" .unplaced, .array [.int 1 .unplaced] .unplaced] .unplaced)
    ⟨[], .atLine 1⟩ none (.atLine 2)], .unplaced⟩

/-- The class of a new object and the leaves of a literal that is padded are not looked up in a
condition, and both programs compile. -/
theorem conjuring_unresolved :
    ((∃ out, conjuring.compile {} = .ok out) ∧ ∃ table, conjuring.scopes = .ok table ∧
      ∃ m ∈ mentionsAll table Expr.uses Table.global conjuring.statements, ¬table.Resolves m.1 m.2) ∧
    (∃ out, padding.compile { raggedArrays := .zeroPad } = .ok out) ∧ ∃ table, padding.scopes = .ok table ∧
      ∃ m ∈ mentionsAll table Expr.uses Table.global padding.statements, ¬table.Resolves m.1 m.2 := by
  have hc : (fun _ => ()) <$> (conjuring.compile {}).toOption = some () := by decide +kernel
  have hp : (fun _ => ()) <$> (padding.compile { raggedArrays := .zeroPad }).toOption = some () := by
    decide +kernel
  have hc' : (fun table => decide (∃ m ∈ mentionsAll table Expr.uses Table.global conjuring.statements,
      ¬table.Resolves m.1 m.2)) <$> conjuring.scopes.toOption = some true := by
    decide +kernel
  have hp' : (fun table => decide (∃ m ∈ mentionsAll table Expr.uses Table.global padding.statements,
      ¬table.Resolves m.1 m.2)) <$> padding.scopes.toOption = some true := by
    decide +kernel
  obtain ⟨out, ho, _⟩ := exists_of_check hc
  obtain ⟨out', ho', _⟩ := exists_of_check hp
  obtain ⟨table, ht, hm⟩ := exists_of_check hc'
  obtain ⟨table', ht', hm'⟩ := exists_of_check hp'
  exact ⟨⟨⟨out, ho⟩, table, ht, of_decide_eq_true hm⟩, ⟨out', ho'⟩, table', ht', of_decide_eq_true hm'⟩

end Program

end ThreeAddress
