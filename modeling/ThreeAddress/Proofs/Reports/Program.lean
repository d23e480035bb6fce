import ThreeAddress.Proofs.Frames.Program
import ThreeAddress.Proofs.Reports.Forms

namespace ThreeAddress

open Lowering Lower Reporting

mutual

/-- What lowering a statement may report. The names that it declares are declared by the scope that
it is lowered in. -/
def Stmt.reporting (t : Table) : Stmt → Reporting
  | .declare b => declaring t [b.name] (concerning t (optionUses b.value))
  | .assign target value span => concerning t (target.uses span ++ value.uses)
  | .print e _ | .eval e _ => concerning t e.uses
  | .return e _ => concerning t (optionUses e)
  | .block b => b.reporting t
  | .ite c yes no _ => (concerning t c.uses).andThen <| (yes.reporting t).andThen <| match no with
    | none => nothing
    | some no => no.reporting t
  | .while c body _ => (concerning t c.uses).andThen (body.reporting t)
  | .doWhile body c _ => (body.reporting t).andThen (concerning t c.uses)
  | .for first test step body _ => within t body.span.toPosition <|
    (match first with
      | none => nothing
      | some s => s.reporting t).andThen <|
    (concerning t (optionUses test)).andThen <| (body.inside t).andThen <|
    match step with
    | none => nothing
    | some s => s.reporting t
  | .foreach item collection body _ => within t body.span.toPosition <|
    (concerning t collection.uses).andThen <| declaring t [item] (body.inside t)
  | .switch subject cases default _ => (concerning t subject.uses).andThen <|
    (concerning t (cases.flatMap (·.value.uses))).andThen <| (reportingCases t cases).andThen <|
    match default with
    | none => nothing
    | some body => reportingAll t body
  | .break span => fun _ ps => ∀ p ∈ ps, p = .breakOutside span.line
  | .continue span => fun _ ps => ∀ p ∈ ps, p = .continueOutside span.line
  | .tryCatch body caught handler _ => (body.reporting t).andThen <|
    within t handler.span.toPosition <| declaring t [caught] (handler.inside t)
  | .function f => f.reporting t
  | .class c => c.reporting t

def reportingAll (t : Table) : List Stmt → Reporting
  | [] => nothing
  | s :: rest => (s.reporting t).andThen (reportingAll t rest)

def Block.inside (t : Table) : Block → Reporting
  | ⟨body, _⟩ => reportingAll t body

def Block.reporting (t : Table) : Block → Reporting
  | ⟨body, span⟩ => within t span.toPosition (reportingAll t body)

def reportingCases (t : Table) : List Case → Reporting
  | [] => nothing
  | ⟨_, body, _⟩ :: rest => (reportingAll t body).andThen (reportingCases t rest)

def Function.reporting (t : Table) : Function → Reporting
  | ⟨name, params, _, body, _⟩ => declaring t [name] <| within t body.span.toPosition <|
    declaring t (params.map (·.name)) (body.inside t)

def Member.reporting (t : Table) : Member → Reporting
  | .field b => declaring t [b.name] (concerning t (optionUses b.value))
  | .method f => f.reporting t

def reportingMembers (t : Table) : List Member → Reporting
  | [] => nothing
  | m :: rest => (m.reporting t).andThen (reportingMembers t rest)

def Class.reporting (t : Table) : Class → Reporting
  | ⟨name, _, members, span⟩ => declaring t [name] <| within t span.toPosition <|
    reportingMembers t members

end

section Statements

variable {t : Table} {key : Position} {lo : Nat}

theorem Block.reporting_eq (t : Table) (b : Block) :
    b.reporting t = within t b.span.toPosition (reportingAll t b.body) := by
  cases b
  rw [reporting]

theorem Block.inside_eq (t : Table) (b : Block) : b.inside t = reportingAll t b.body := by
  cases b
  rw [inside]

theorem lowerAll_sound {body : List Stmt} (ha : Arranged lo t (itemsAll key body))
    (h : ∀ s ∈ body, Arranged lo t (s.items key) → Sound t key (s.items key) (s.reporting t) s.lower) :
    Sound t key (itemsAll key body) (reportingAll t body) (lowerAll body) := by
  induction body with
  | nil =>
    rw [itemsAll, lowerAll, reportingAll]
    exact .of_keepsRecords (.pure _) fun _ => rfl
  | cons s rest ih =>
    rw [itemsAll] at ha ⊢
    rw [lowerAll, reportingAll]
    exact (h s (by simp) ha.left).bind
      (fun _ => (ih ha.right fun s hs => h s (by simp [hs])).first fun _ => .pure _) ha.nodup

theorem Block.lower_sound {b : Block} (ha : Arranged lo t b.items)
    (h : ∀ s ∈ b.body, ∀ key, Arranged lo t (s.items key) →
      Sound t key (s.items key) (s.reporting t) s.lower) :
    Sound t key b.items (b.reporting t) (inBlock b.span b.lower) := by
  rw [items_eq] at ha ⊢
  rw [lower_eq, reporting_eq]
  exact (lowerAll_sound ha fun s hs => h s hs _).inBlock

theorem Block.inside_sound {b : Block} (ha : Arranged lo t b.items)
    (h : ∀ s ∈ b.body, ∀ key, Arranged lo t (s.items key) →
      Sound t key (s.items key) (s.reporting t) s.lower) :
    Sound t b.span.toPosition b.items (b.inside t) b.lower := by
  rw [items_eq] at ha ⊢
  rw [lower_eq, inside_eq]
  exact lowerAll_sound ha fun s hs => h s hs _

theorem lowerCases_sound {cases : List Case} {labels : List Label}
    (hl : labels.length = cases.length) (ha : Arranged lo t (itemsCases key cases))
    (h : ∀ k ∈ cases, ∀ s ∈ k.body, Arranged lo t (s.items key) →
      Sound t key (s.items key) (s.reporting t) s.lower) :
    Sound t key (itemsCases key cases) (reportingCases t cases) (lowerCases cases labels) := by
  induction cases generalizing labels with
  | nil =>
    rw [itemsCases, lowerCases_nil, reportingCases]
    exact .of_keepsRecords (.pure _) fun _ => rfl
  | cons k rest ih =>
    obtain ⟨l, labels, rfl⟩ := List.exists_cons_of_length_eq_add_one hl
    have hk : itemsCases key (k :: rest) = itemsAll key k.body ++ itemsCases key rest := by
      cases k
      rw [itemsCases]
    have hr : reportingCases t (k :: rest) =
        (reportingAll t k.body).andThen (reportingCases t rest) := by
      cases k
      rw [reportingCases]
    rw [hk] at ha ⊢
    rw [lowerCases_cons, hr]
    refine (caseBody_sound l _ (lowerAll_sound ha.left (h k (by simp)))).bind (fun _ => ?_) ha.nodup
    exact (ih (by simpa using hl) ha.right fun k hk => h k (by simp [hk])).first fun _ => .pure _

theorem Function.lower_sound {f : Function} (ha : Arranged lo t [f.item key])
    (h : ∀ s ∈ f.body.body, ∀ key, Arranged lo t (s.items key) →
      Sound t key (s.items key) (s.reporting t) s.lower) :
    Sound t key [f.item key] (f.reporting t) f.lower := by
  have hr : f.reporting t = declaring t [f.name] (within t f.body.span.toPosition
      (declaring t (f.params.map (·.name)) (reportingAll t f.body.body))) := by
    cases f
    rw [reporting, Block.inside_eq]
  rw [item_eq] at ha ⊢
  rw [lower_eq, hr]
  exact functionFrame_sound ha (lowerAll_sound ha.inside.right fun s hs => h s hs _)

theorem lowerMembers_sound {members : List Member} (ha : Arranged lo t (itemsMembers key members))
    (h : ∀ f, .method f ∈ members → ∀ s ∈ f.body.body, ∀ key, Arranged lo t (s.items key) →
      Sound t key (s.items key) (s.reporting t) s.lower) :
    Sound t key (itemsMembers key members) (reportingMembers t members) (lowerMembers members) := by
  induction members with
  | nil =>
    rw [itemsMembers, lowerMembers, reportingMembers]
    exact .of_keepsRecords (.pure _) fun _ => rfl
  | cons m rest ih =>
    rw [itemsMembers] at ha ⊢
    rw [lowerMembers, reportingMembers]
    have hm : Sound t key [m.item key] (m.reporting t) m.lower := by
      have ha' : Arranged lo t ([m.item key] ++ itemsMembers key rest) := ha
      cases m with
      | field b =>
        rw [Member.item] at ha ⊢
        rw [Member.lower, Member.reporting]
        obtain ⟨id, hf⟩ := ha.slot
        exact b.guarded_sound hf
      | method f =>
        rw [Member.item] at ha' ⊢
        rw [Member.lower, Member.reporting]
        exact Function.lower_sound ha'.left (h f (by simp))
    exact hm.bind (fun _ => (ih ha.tail fun f hf => h f (by simp [hf])).first fun _ => .pure _) ha.nodup

theorem Class.lower_sound {c : Class} (ha : Arranged lo t [c.item key])
    (h : ∀ f, .method f ∈ c.members → ∀ s ∈ f.body.body, ∀ key, Arranged lo t (s.items key) →
      Sound t key (s.items key) (s.reporting t) s.lower) :
    Sound t key [c.item key] (c.reporting t) c.lower := by
  have hr : c.reporting t = declaring t [c.name] (within t c.span.toPosition
      (reportingMembers t c.members)) := by
    cases c
    rw [reporting]
  rw [item_eq] at ha ⊢
  rw [lower_eq, hr]
  exact classFrame_sound ha (lowerMembers_sound ha.inside h)

theorem Stmt.items_for (key : Position) (first : Option Stmt) (test : Option Expr)
    (step : Option Stmt) (body : Block) (span : Span) :
    (Stmt.for first test step body span).items key =
      (first.map (Stmt.items body.span.toPosition)).getD [] ++ body.items := by
  cases first <;> rw [items] <;> rfl

theorem Stmt.items_switch (key : Position) (subject : Expr) (cases : List Case)
    (default : Option (List Stmt)) (span : Span) :
    (Stmt.switch subject cases default span).items key =
      itemsCases key cases ++ (default.map (itemsAll key)).getD [] := by
  cases default <;> rw [items] <;> rfl

theorem Stmt.reporting_for (first : Option Stmt) (test : Option Expr) (step : Option Stmt)
    (body : Block) (span : Span) :
    (Stmt.for first test step body span).reporting t = within t body.span.toPosition
      (((first.map (Stmt.reporting t)).getD nothing).andThen <| (concerning t (optionUses test)).andThen <|
        (body.inside t).andThen ((step.map (Stmt.reporting t)).getD nothing)) := by
  cases first <;> cases step <;> rw [reporting] <;> rfl

theorem Stmt.reporting_switch (subject : Expr) (cases : List Case) (default : Option (List Stmt))
    (span : Span) :
    (Stmt.switch subject cases default span).reporting t = (concerning t subject.uses).andThen
      ((concerning t (cases.flatMap (·.value.uses))).andThen <| (reportingCases t cases).andThen
        ((default.map (reportingAll t)).getD nothing)) := by
  cases default <;> rw [reporting] <;> rfl

theorem returned_sound (e : Option Expr) (span : Span) :
    Sound t key [] (concerning t (optionUses e)) (Stmt.return e span).lower := by
  cases e with
  | none =>
    rw [Stmt.lower]
    exact KeepsRecords.reads (.pure _)
  | some e =>
    rw [Stmt.lower]
    exact guarding_sound <| Sound.first (e.lower_reads _) fun _ => .pure _

theorem Stmt.lower_sound {s : Stmt} (hs : s.Tidy) (key : Position)
    (ha : Arranged lo t (s.items key)) : Sound t key (s.items key) (s.reporting t) s.lower := by
  induction s generalizing key with
  | declare b =>
    rw [Stmt.items] at ha ⊢
    rw [Stmt.lower, Stmt.reporting]
    obtain ⟨id, hf⟩ := ha.slot
    exact b.guarded_sound hf
  | assign target value span =>
    rw [Stmt.items, Stmt.lower, Stmt.reporting]
    exact guarding_sound (target.assign_reads value span)
  | print e span =>
    rw [Stmt.items, Stmt.lower, Stmt.reporting]
    exact guarding_sound <| Sound.first (argument_reads (e.lower_reads _)) fun _ => .pure _
  | eval e span =>
    rw [Stmt.items, Stmt.lower, Stmt.reporting]
    exact guarding_sound <| Sound.first (e.lower_reads _) fun _ => .pure _
  | ret e span =>
    rw [Stmt.items, Stmt.reporting]
    exact returned_sound e span
  | block b ih =>
    rw [Stmt.items] at ha ⊢
    rw [Stmt.lower, Stmt.reporting]
    exact Block.lower_sound ha fun s hm => ih s hm (hs.part s hm)
  | ite c yes no span ihy ihn =>
    have hy (ha : Arranged lo t yes.items) :
        Sound t key yes.items (yes.reporting t) (inBlock yes.span yes.lower) :=
      Block.lower_sound ha fun s hm => ihy s hm (hs.part s (by simp [Stmt.parts, hm]))
    cases no with
    | none =>
      rw [Stmt.items, List.append_nil] at ha ⊢
      rw [Stmt.lower, Stmt.reporting, andThen_nothing]
      exact ifThen_sound (c.lower_reads _) (hy ha)
    | some no =>
      rw [Stmt.items] at ha ⊢
      rw [Stmt.lower, Stmt.reporting]
      refine ifThenElse_sound (c.lower_reads _) (hy ha.left) ?_ ha.nodup
      exact Block.lower_sound ha.right fun s hm =>
        ihn no rfl s hm (hs.part s (by simp [Stmt.parts, hm]))
  | loop c body span ih =>
    rw [Stmt.items] at ha ⊢
    rw [Stmt.lower, Stmt.reporting]
    exact whileLoop_sound (c.lower_reads _) <|
      Block.lower_sound ha fun s hm => ih s hm (hs.part s hm)
  | doWhile body c span ih =>
    rw [Stmt.items] at ha ⊢
    rw [Stmt.lower, Stmt.reporting]
    exact doWhile_sound (c.lower_reads _) <|
      Block.lower_sound ha fun s hm => ih s hm (hs.part s hm)
  | forLoop first test step body span ihf ihs ih =>
    have hb (ha : Arranged lo t body.items) :
        Sound t body.span.toPosition body.items (body.inside t) body.lower :=
      Block.inside_sound ha fun s hm => ih s hm (hs.part s (by simp [Stmt.parts, hm]))
    -- nothing of the step has been collected, and a tidy step declares nothing either
    have hstep : Sound t body.span.toPosition []
        ((step.map (Stmt.reporting t)).getD nothing) (lowerOption step) := by
      cases step with
      | none =>
        rw [lowerOption]
        exact .of_keepsRecords (.pure _) fun _ => rfl
      | some s =>
        have hitems := hs.step s rfl body.span.toPosition
        have hsound := ihs s rfl (hs.part s (by simp [Stmt.parts])) body.span.toPosition
        rw [hitems] at hsound
        rw [lowerOption]
        exact hsound ⟨by simp, List.nodup_nil⟩
    rw [Stmt.items_for] at ha ⊢
    rw [Stmt.lower, Stmt.reporting_for]
    refine Sound.inBlock (forLoop_sound ?_ (loopTest_reads test) (hb ha.right) hstep ha.nodup)
    cases first with
    | none =>
      rw [lowerOption]
      exact .of_keepsRecords (.pure _) fun _ => rfl
    | some s =>
      rw [lowerOption]
      exact ihf s rfl (hs.part s (by simp [Stmt.parts])) _ ha.left
  | foreach item collection body span ih =>
    rw [Stmt.items] at ha ⊢
    rw [Stmt.lower, Stmt.reporting]
    obtain ⟨id, hf⟩ := ha.slot
    have hb : Sound t body.span.toPosition body.items (body.inside t) body.lower :=
      Block.inside_sound ha.tail fun s hm => ih s hm (hs.part s hm)
    refine Sound.inBlock (Sound.before (collection.lower_reads _) ?_)
    rintro ⟨_, base⟩
    -- the item is declared with no initializer, so nothing is missing for it
    refine .last (loopBound_keepsRecords ..) fun _ => Sound.declaring ?_ (by simpa using ⟨id, hf⟩)
    simpa using (indexLoop_sound (bindLocal_sound span hf) hb ha.nodup).first fun _ => .pure _
  | switch subject cases default span ihc ihd =>
    have hc (ha : Arranged lo t (itemsCases key cases)) (labels : List Label)
        (hl : labels.length = cases.length) :
        Sound t key (itemsCases key cases) (reportingCases t cases) (lowerCases cases labels) :=
      lowerCases_sound hl ha fun k hk s hm =>
        ihc k hk s hm (hs.part s (List.mem_append_left _ (List.mem_flatMap.2 ⟨k, hk, hm⟩))) key
    rw [Stmt.items_switch] at ha ⊢
    rw [Stmt.lower_switch, Stmt.reporting_switch]
    refine switch_sound (subject.lower_reads _) (hc ha.left) ?_ ?_ ha.nodup
    · intro act hact
      cases default with
      | none => cases hact
      | some body =>
        cases hact
        exact lowerAll_sound ha.right fun s hm =>
          ihd body rfl s hm (hs.part s (List.mem_append_right _ hm)) key
    · rintro hn scope
      cases default with
      | none => rfl
      | some body => cases hn
  | exit span =>
    rw [Stmt.items, Stmt.lower, Stmt.reporting]
    exact jump_sound Ledger.breakLabel_noRebind
  | next span =>
    rw [Stmt.items, Stmt.lower, Stmt.reporting]
    exact jump_sound Ledger.continueLabel_noRebind
  | tryCatch body caught handler span ihb ihh =>
    rw [Stmt.items] at ha ⊢
    rw [Stmt.lower, Stmt.reporting]
    obtain ⟨id, hf⟩ := ha.right.slot
    have hh : Sound t handler.span.toPosition handler.items (handler.inside t) handler.lower :=
      Block.inside_sound ha.right.tail fun s hm =>
        ihh s hm (hs.part s (List.mem_append_right _ hm))
    refine tryCatch_sound (Block.lower_sound ha.left fun s hm =>
      ihb s hm (hs.part s (List.mem_append_left _ hm))) (Sound.inBlock ?_) ha.nodup
    refine Sound.declaring ?_ (by simpa using ⟨id, hf⟩)
    simpa using (bindLocal_sound span hf).bind (fun _ => hh) ha.right.nodup
  | function f ih =>
    rw [Stmt.items] at ha ⊢
    rw [Stmt.lower, Stmt.reporting]
    exact Function.lower_sound ha fun s hm => ih s hm (hs.part s hm)
  | classDef c ih =>
    rw [Stmt.items] at ha ⊢
    rw [Stmt.lower, Stmt.reporting]
    exact Class.lower_sound ha fun f hf s hm =>
      ih f hf s hm (hs.part s (List.mem_flatMap.2 ⟨_, hf, hm⟩))

end Statements

namespace Program

variable {p : Program} {table : Table} {options : Options}

/-- If no step of a loop declares anything, then what the declarations of a program are collected
into is what it is lowered against: no symbol is given two places, and every name of a declaration
resolves where it is declared. What is reported concerns other names. -/
theorem lower_agrees (h : p.scopes = .ok table) (hs : ∀ s ∈ p.statements, s.Tidy) (options : Options) :
    (∀ name, p.lower table options ≠ .error (.boundTwice name)) ∧
      ∀ out, p.lower table options = .ok out →
        reportingAll table p.statements Table.global out.problems := by
  obtain ⟨hc, rfl⟩ := scopes_eq_ok.1 h
  have hsound : Sound p.collect.table .origin p.items (reportingAll p.collect.table p.statements)
      (lowerAll p.statements) :=
    lowerAll_sound (arranged_collect hc) fun s hm => s.lower_sound (hs s hm) _
  have hawaits : p.collect.table.Awaits (slotsAll p.items) p.collect.table := by
    intro s _ id _ x hx
    obtain ⟨d, params, rfl⟩ := p.collect_fresh hx
    rfl
  have hrun := hsound (stands_start hc options) hawaits
  refine ⟨(hrun.noRebind.bind fun (_, s) _ => ?_).ne, fun out ho => ?_⟩
  · dsimp only
    split <;> split <;> exact ⟨nofun⟩
  · obtain ⟨s, hr, _, _, _, hp⟩ := runs_program.1 ho
    obtain ⟨ps, hps, hreports⟩ := (hrun.post hr).reports
    rw [hp, hps]
    exact hreports

def bringing : Program :=
  ⟨[.declare ⟨"n", none, some (.ident "m" (.atLine 1)), false, .atLine 1⟩,
    .foreach "e" (.ident "n" (.atLine 2)) ⟨[.break (.atLine 3)], .atLine 4⟩ (.atLine 2),
    .tryCatch ⟨[], .atLine 5⟩ "failure" ⟨[.break (.atLine 6)], .atLine 7⟩ (.atLine 5)], .unplaced⟩

theorem bringing_tidy : ∀ s ∈ bringing.statements, s.Tidy := by
  simp only [bringing, List.mem_cons, List.not_mem_nil, or_false, forall_eq_or_imp, forall_eq]
  refine ⟨.mk (by simp) (by simp [Stmt.parts]), .mk (by simp) ?_, .mk (by simp) ?_⟩
  all_goals
    simp only [Stmt.parts, List.nil_append, List.mem_singleton, forall_eq]
    exact .mk (by simp) (by simp [Stmt.parts])

theorem bringing_sound : ∃ table, bringing.scopes = .ok table ∧
    (∀ name, bringing.lower table {} ≠ .error (.boundTwice name)) ∧
      ∀ out, bringing.lower table {} = .ok out →
        reportingAll table bringing.statements Table.global out.problems := by
  have h : (·.size) <$> bringing.scopes.toOption = some 4 := by decide +kernel
  obtain ⟨table, ht, _⟩ := exists_of_check h
  exact ⟨table, ht, lower_agrees ht bringing_tidy {}⟩

def stepping (first : Option Stmt) (name : String) : Program :=
  ⟨[.for first none (some (.declare ⟨name, none, some (.int 1 .unplaced), false, .atLine 1⟩))
    ⟨[], .atLine 2⟩ (.atLine 3)], .unplaced⟩

def restepping : Program :=
  stepping (some (.declare ⟨"i", none, some (.int 0 .unplaced), false, .atLine 1⟩)) "i"

/-- The step of a loop is not collected. What it declares does not resolve, or it is a variable that
has its place already. -/
theorem stepping_unsound :
    (∃ table out, (stepping none "x").scopes = .ok table ∧ (stepping none "x").lower table {} = .ok out ∧
      out.problems = [.unresolved "x" 1]) ∧
    ∃ table, restepping.scopes = .ok table ∧ restepping.lower table {} = .error (.boundTwice "i") := by
  constructor
  · have h : (fun table => (·.problems) <$> ((stepping none "x").lower table {}).toOption) <$>
        (stepping none "x").scopes.toOption = some (some [.unresolved "x" 1]) := by
      decide +kernel
    obtain ⟨table, ht, hl⟩ := exists_of_check h
    obtain ⟨out, ho, hp⟩ := exists_of_check hl
    exact ⟨table, out, ht, ho, hp⟩
  · have h : (fun table => restepping.lower table {} matches .error (.boundTwice "i")) <$>
        restepping.scopes.toOption = some true := by
      decide +kernel
    obtain ⟨table, ht, hl⟩ := exists_of_check h
    refine ⟨table, ht, ?_⟩
    split at hl
    · assumption
    · cases hl

end Program

end ThreeAddress
