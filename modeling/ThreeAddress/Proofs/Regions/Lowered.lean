import ThreeAddress.Proofs.Frames.Program
import ThreeAddress.Proofs.Regions.Collected
import ThreeAddress.Proofs.Regions.Stored

namespace ThreeAddress

open Lowering Lower

namespace Lower

variable {t : Table} {key : Position} {names names' : List Naming} {inner inner' : List Region}

section Forms

variable {test : Lower Valued} {first body other step : Lower Code}

theorem ifThen_furnishes (ht : Keeps State.Advances test) (hb : Furnishes t key names inner body) :
    Furnishes t key names inner (ifThen test body) :=
  .last ht fun _ => .last freshLabel_advances fun _ => hb.first fun _ => .pure _

theorem ifThenElse_furnishes (ht : Keeps State.Advances test) (hb : Furnishes t key names inner body)
    (ho : Furnishes t key names' inner' other) :
    Furnishes t key (names ++ names') (inner ++ inner') (ifThenElse test body other) :=
  .last ht fun _ => .last freshLabel_advances fun _ => hb.bind fun _ =>
    .last freshLabel_advances fun _ => ho.first fun _ => .pure _

theorem whileLoop_furnishes (ht : Keeps State.Advances test) (hb : Furnishes t key names inner body) :
    Furnishes t key names inner (whileLoop test body) := by
  intro hp c s code s' hr hs
  obtain ⟨_, _, _, s₁, h₁, _, _, s₂, h₂, rfl, _⟩ := runs_whileLoop.1 hr
  exact (hb.behind hp h₂ hs (ht h₁).idles).after ⟨rfl, fun h => h⟩

theorem doWhile_furnishes (ht : Keeps State.Advances test) (hb : Furnishes t key names inner body) :
    Furnishes t key names inner (doWhile body test) := by
  intro hp c s code s' hr hs
  obtain ⟨_, _, s₁, h₁, _, _, s₂, h₂, rfl, _⟩ := runs_doWhile.1 hr
  exact (hb.behind hp h₁ hs ⟨rfl, fun h => h⟩).after (ht h₂).idles

theorem forLoop_furnishes {test : Option (Lower Valued)} {hasStep : Bool}
    (hf : Furnishes t key names inner first) (ht : Keeps State.Advances (loopTest test))
    (hp : Keeps State.Advances step) (hb : Furnishes t key names' inner' body) :
    Furnishes t key (names ++ names') (inner ++ inner') (forLoop first test hasStep step body) := by
  intro hn c s code s' hr hs
  obtain ⟨hn, hn'⟩ := Throughout.append.1 hn
  obtain ⟨_, s₁, h₁, _, _, _, s₂, h₂, _, s₃, h₃, _, h₄, _⟩ := runs_forLoop.1 hr
  have h₁ := hf hn h₁ hs
  have h₃ := hb.behind hn' h₃ (hs.furnishes h₁) (ht h₂).idles
  exact (h₁.append h₃).after (hp h₄).idles

theorem indexLoop_furnishes {base bound : Operand} {item : String} {bind : Lower Unit}
    (hi : Furnishes t key names inner bind) (hb : Furnishes t key names' inner' body) :
    Furnishes t key (names ++ names') (inner ++ inner') (indexLoop base bound item bind body) := by
  intro hp c s code s' hr hs
  obtain ⟨hn, hn'⟩ := Throughout.append.1 hp
  obtain ⟨_, _, _, s₁, h₁, _, _, _, _, _, s₂, h₂, rfl, _⟩ := runs_indexLoop.1 hr
  have h₁ := hi.behind hn h₁ hs ⟨rfl, fun h => h⟩
  have h₂ := hb.behind hn' h₂ (hs.furnishes h₁) ⟨rfl, fun h => h⟩
  exact (h₁.append h₂).after ⟨rfl, fun h => h⟩

theorem jump_furnishes {target : Account (Option Label)} (problem : Problem)
    (h : ∀ ⦃c s l? s'⦄, Runs (account target) c s l? s' → s.Rests s') :
    Furnishes t key [] [] (jump target problem) := by
  intro _ c s code s' hr _
  obtain ⟨_, hl, _⟩ | ⟨s₁, hl, rfl, _⟩ := runs_jump.1 hr
  · exact (h hl).idles.furnishes
  · exact ((h hl).trans (.report s₁ problem)).idles.furnishes

theorem caseBody_furnishes (l : Label) (isEmpty : Bool) (hb : Furnishes t key names inner body) :
    Furnishes t key names inner (caseBody l isEmpty body) := by
  intro hp c s code s' hr hs
  obtain ⟨_, s₁, h₁, h⟩ := runs_caseBody.1 hr
  split at h
  · obtain ⟨_, he, _⟩ := h
    exact (hb hp h₁ hs).after (gotoBreak_rests he).idles
  · obtain ⟨_, rfl⟩ := h
    exact hb hp h₁ hs

theorem switch_furnishes {subject : Lower Valued} {cases : List Case}
    {bodies : List Label → Lower Code} {default : Option (Lower Code)}
    (hs : Keeps State.Advances subject)
    (hb : ∀ labels, labels.length = cases.length → Furnishes t key names inner (bodies labels))
    (hd : ∀ act ∈ default, Furnishes t key names' inner' act)
    (he : default = none → names' = [] ∧ inner' = []) :
    Furnishes t key (names ++ names') (inner ++ inner') (switch subject cases bodies default) := by
  intro hp c s code s' hr ht
  obtain ⟨hn, hn'⟩ := Throughout.append.1 hp
  obtain ⟨_, _, s₁, h₁, _, _, s₂, h₂, _, labels, s₃, h₃, hr⟩ := runs_switch.1 hr
  have hl : labels.length = cases.length := length_caseTests h₃
  have hs₃ : s.Idles s₃ := (hs h₁).idles.trans <|
    (ensureTemp_keeps (R := State.Advances) _ h₂).idles.trans (caseTests_advances _ _ h₃).idles
  obtain ⟨hd', _, s₄, h₄, _, s₅, h₅, rfl, _⟩ | ⟨_, hd', _, _, s₄, h₄, _, s₅, h₅, rfl, _⟩ := hr
  · obtain ⟨rfl, rfl⟩ := he hd'
    rw [List.append_nil, List.append_nil]
    have h₄ : s₃.Idles s₄ := (gotoBreak_rests h₄).idles
    exact ((hb labels hl).behind hn h₅ ht (hs₃.trans h₄)).after ⟨rfl, fun h => h⟩
  · have h₄ := (hb labels hl).behind hn h₄ ht hs₃
    exact (h₄.append (hd _ hd' hn' h₅ (ht.furnishes h₄))).after ⟨rfl, fun h => h⟩

theorem tryCatch_furnishes {caught : String} (hb : Furnishes t key names inner body)
    (ho : Furnishes t key names' inner' other) :
    Furnishes t key (names ++ names') (inner ++ inner') (tryCatch body caught other) :=
  .last freshLabel_advances fun _ => hb.bind fun _ => .last freshLabel_advances fun _ =>
    ho.first fun _ => .pure _

end Forms

end Lower

section Frames

variable {t : Table} {key scope : Position} {n : Naming} {id : SymbolId} {x : Symbol}

theorem Naming.Placed.members_eq {t' : Table} (hn : n.Placed t key) (hm : n.members = some scope)
    (hf : t.find? ⟨key, n.name⟩ = some id) (ho : t'.outline = t.outline)
    (hx : t'.symbol id = .ok x) : x.members = t.scopeFor scope := by
  obtain ⟨id', y, hf', hy, _, hrel⟩ := hn
  cases hf.symm.trans hf'
  have hxy := congrArg (fun z : Symbol => z.members) (Table.symbol_congr ho hx hy)
  refine Eq.trans (show x.members = y.members from hxy) ?_
  rw [hm] at hrel
  generalize y.members = i at hrel
  cases hrel with
  | some hk => exact hk.symm

variable {names : List Naming} {inner : List Region} {r : Region} {c : Context} {s s₁ s₂ s₃ : State}

theorem Stands.members_of_placed (hs : Stands t key c s) (hn : n.Placed t key)
    (hm : n.members = some scope) (hf : t.find? ⟨key, n.name⟩ = some id)
    (hx : s.table.symbol id = .ok x) : ∀ i ∈ t.scopeFor scope, x.members.getD c.scope = i := by
  intro i hi
  rw [hn.members_eq hm hf hs.outline hx, show t.scopeFor scope = some i from hi, Option.getD_some]

theorem Lowering.State.Furnishes.ended {options : Options} {g : Symbol → Symbol} {size : Nat}
    (h : Furnishes options t r.key r.names inner s₁ s₂) (h₁ : s.Idles s₁)
    (hr : Runs (account Ledger.exitFrame) c s₂ size s₃) (hg : ∀ x : Symbol, x.Stays (g x))
    (hn : ∀ n ∈ names, ¬n.kind.isStored) :
    Furnishes options t key names (r :: inner) s
      { s₃ with table := s₃.table.modifySymbol id g } := by
  obtain ⟨l, _, rfl⟩ := runs_account.1 hr
  have ho : ∀ x : Symbol, (g x).outline = x.outline := fun x =>
    congrArg Symbol.ofDeclaration (hg x).toDeclaration
  have hl : s₂.table.Lasts (s₂.table.modifySymbol id g) := .modifySymbol fun x _ _ => hg x
  have hw : Furnishes options t key names (r :: inner) s₁
      { s₂ with table := s₂.table.modifySymbol id g } := by
    refine .within ⟨?_, h.quiet, fun hp => (h.lasts hp).trans hl, fun hp => ?_⟩ hn
    · exact .trans (Table.outline_modifySymbol fun x _ => ho x) h.outline
    · exact (h.furnished hp).mono fun _ _ hn => hn.lasts hl
  exact (hw.before h₁).after ⟨rfl, fun h => h⟩

variable {kind : ScopeKind} {outer : Option Position} {owner : Option String} {body : Lower Code}
  {span : Span}

theorem Lower.functionFrame_furnishes {params : List Param} (hm : n.members = some scope)
    (hk : ¬n.kind.isStored) (hb : Furnishes t scope names inner body) :
    Furnishes t key [n] (⟨scope, kind, outer, owner, params.map Param.naming ++ names⟩ :: inner)
      (functionFrame n.name params span body) := by
  intro hp c s code s' hr hs
  obtain ⟨hn, hin⟩ := Throughout.within.1 hp
  have hn := hn n (by simp)
  obtain ⟨id, _, hf, _⟩ := id hn
  have hlook := Table.lookup_of_find? hs.outline hf hs.scope
  obtain ⟨hnone, _⟩ | ⟨id', x, _, s₁, _, s₂, _, s₃, hlook', hx, h₁, h₂, h₃, rfl, _⟩ :=
    runs_functionFrame hr
  · cases hlook.symm.trans hnone
  cases hlook.symm.trans hlook'
  have hst : Stands t scope { c with scope := x.members.getD c.scope } s.enterFrame :=
    ⟨hs.outline, hs.members_of_placed hn hm hf hx⟩
  obtain ⟨hps, hbs⟩ := Throughout.append.1 (show Throughout _ _ _ ([] ++ inner) from hin)
  have h₁ := bindParams_furnishes params hps h₁ hst
  have h₂ := h₁.append (hb hbs h₂ (hst.furnishes h₁))
  exact h₂.ended (r := ⟨scope, kind, outer, owner, params.map Param.naming ++ names⟩)
    ⟨rfl, fun h => h⟩ h₃ (fun _ => ⟨rfl, rfl, rfl, rfl, rfl⟩) (by simpa using hk)

theorem Lower.classFrame_furnishes {parent : Option String} (hm : n.members = some scope)
    (hk : ¬n.kind.isStored) (hb : Furnishes t scope names inner body) :
    Furnishes t key [n] (⟨scope, kind, outer, owner, names⟩ :: inner)
      (classFrame n.name parent span body) := by
  intro hp c s code s' hr hs
  obtain ⟨hn, hin⟩ := Throughout.within.1 hp
  have hn := hn n (by simp)
  obtain ⟨id, _, hf, _⟩ := id hn
  have hlook := Table.lookup_of_find? hs.outline hf hs.scope
  obtain ⟨hnone, _⟩ | ⟨id', x, size, s₁, _, s₂, _, s₃, _, s₄, hlook', hx, h₁, h₂, h₃, h₄, rfl, _⟩ :=
    runs_classFrame hr
  · cases hlook.symm.trans hnone
  cases hlook.symm.trans hlook'
  obtain ⟨rfl, _⟩ := runs_inherited h₁
  obtain ⟨l, _, rfl⟩ := runs_account.1 h₂
  have hst : Stands t scope { c with scope := x.members.getD c.scope, className := some n.name }
      { s₁.enterFrame with ledger := l } :=
    ⟨hs.outline, hs.members_of_placed hn hm hf hx⟩
  have h₃ := hb hin h₃ hst
  exact h₃.ended (r := ⟨scope, kind, outer, owner, names⟩) ⟨rfl, fun h => h⟩ h₄
    (fun _ => ⟨rfl, rfl, rfl, rfl, rfl⟩) (by simpa using hk)

end Frames

section Statements

variable {t : Table} {key : Position}

abbrev Stmt.Provides (t : Table) (s : Stmt) : Prop :=
  ∀ key, Lower.Furnishes t key s.names (s.regions key) s.lower

theorem lowerAll_furnishes {body : List Stmt} (h : ∀ s ∈ body, s.Provides t) :
    Furnishes t key (namesAll body) (regionsAll key body) (lowerAll body) := by
  induction body with
  | nil =>
    rw [namesAll, regionsAll, lowerAll]
    exact (Keeps.pure _).furnishes
  | cons s rest ih =>
    rw [namesAll, regionsAll, lowerAll]
    exact (h s (by simp) key).bind fun _ => (ih fun s hs => h s (by simp [hs])).first fun _ => .pure _

theorem Block.lower_furnishes {b : Block} (h : ∀ s ∈ b.body, s.Provides t) :
    Furnishes t key [] (b.regions .block [] [] key) (inBlock b.span b.lower) := by
  rw [regions_eq, lower_eq]
  exact (lowerAll_furnishes h).inBlock

theorem lowerCases_furnishes {cases : List Case} {labels : List Label}
    (hl : labels.length = cases.length) (h : ∀ k ∈ cases, ∀ s ∈ k.body, s.Provides t) :
    Furnishes t key (namesCases cases) (regionsCases key cases) (lowerCases cases labels) := by
  induction cases generalizing labels with
  | nil =>
    rw [namesCases, regionsCases, lowerCases_nil]
    exact (Keeps.pure _).furnishes
  | cons k rest ih =>
    obtain ⟨l, labels, rfl⟩ := List.exists_cons_of_length_eq_add_one hl
    rw [namesCases_cons, regionsCases_cons, lowerCases_cons]
    refine (caseBody_furnishes l _ (lowerAll_furnishes (h k (by simp)))).bind fun _ => ?_
    exact (ih (by simpa using hl) fun k hk => h k (by simp [hk])).first fun _ => .pure _

theorem Function.lower_furnishes {f : Function} (h : ∀ s ∈ f.body.body, s.Provides t) :
    Furnishes t key [f.naming] (f.regions key) f.lower := by
  rw [regions_eq, Block.regions_eq, lower_eq]
  exact functionFrame_furnishes (n := f.naming) rfl (by simp [naming, SymbolKind.isStored])
    (lowerAll_furnishes h)

theorem lowerMembers_furnishes {members : List Member}
    (h : ∀ f, .method f ∈ members → ∀ s ∈ f.body.body, s.Provides t) :
    Furnishes t key (members.map Member.naming) (regionsMembers key members)
      (lowerMembers members) := by
  induction members with
  | nil =>
    rw [regionsMembers, lowerMembers]
    exact (Keeps.pure _).furnishes
  | cons m rest ih =>
    have hrest := ih fun f hf => h f (by simp [hf])
    rw [lowerMembers]
    cases m with
    | field b =>
      rw [regionsMembers, Member.lower]
      have hb : Furnishes t key [b.naming .field] [] (guarding b.uses b.span b.lower) :=
        guarding_furnishes (b.lower_furnishes rfl) b.lower_stores
      exact hb.bind fun _ => hrest.first fun _ => .pure _
    | method f =>
      rw [regionsMembers, Member.lower]
      exact (Function.lower_furnishes (h f (by simp))).bind fun _ => hrest.first fun _ => .pure _

theorem Class.lower_furnishes {c : Class}
    (h : ∀ f, .method f ∈ c.members → ∀ s ∈ f.body.body, s.Provides t) :
    Furnishes t key [c.naming] (c.regions key) c.lower := by
  rw [regions_eq, lower_eq]
  exact classFrame_furnishes (n := c.naming) rfl (by simp [naming, SymbolKind.isStored])
    (lowerMembers_furnishes h)

theorem Stmt.lower_furnishes {s : Stmt} (hs : s.Steady) : s.Provides t := by
  intro key
  induction s generalizing key with
  | declare b =>
    rw [names, regions, Stmt.lower]
    exact guarding_furnishes (b.lower_furnishes rfl) b.lower_stores
  | assign | print | eval | ret =>
    simp only [names, regions]
    exact (lower_advances rfl).furnishes
  | block b ih =>
    rw [names, regions, Stmt.lower]
    exact Block.lower_furnishes fun s hm => ih s hm (hs.part s hm)
  | ite c yes no span ihy ihn =>
    have hc := c.lower_advances .value
    have hy : Furnishes t key [] (yes.regions .block [] [] key) (inBlock yes.span yes.lower) :=
      Block.lower_furnishes fun s hm => ihy s hm (hs.part s (by simp [Stmt.parts, hm]))
    cases no with
    | none =>
      rw [names, regions, List.append_nil, Stmt.lower]
      exact ifThen_furnishes hc hy
    | some no =>
      rw [names, regions, Stmt.lower]
      refine ifThenElse_furnishes hc hy (Block.lower_furnishes fun s hm => ?_)
      exact ihn no rfl s hm (hs.part s (by simp [Stmt.parts, hm]))
  | loop c body span ih =>
    rw [names, regions, Stmt.lower]
    exact whileLoop_furnishes (c.lower_advances .value) <|
      Block.lower_furnishes fun s hm => ih s hm (hs.part s hm)
  | doWhile body c span ih =>
    rw [names, regions, Stmt.lower]
    exact doWhile_furnishes (c.lower_advances .value) <|
      Block.lower_furnishes fun s hm => ih s hm (hs.part s hm)
  | forLoop first test step body span ihf _ ih =>
    have hb : Furnishes t body.span.toPosition (namesAll body.body)
        (regionsAll body.span.toPosition body.body) (lowerAll body.body) :=
      lowerAll_furnishes fun s hm => ih s hm (hs.part s (by simp [Stmt.parts, hm]))
    rw [Stmt.lower, Block.lower_eq]
    cases first with
    | none =>
      rw [names, regions, Block.regions_eq, lowerOption]
      exact .inBlock <| forLoop_furnishes (Keeps.pure _).furnishes (loopTest_advances test)
        hs.step_advances hb
    | some s =>
      rw [names, regions, Block.regions_eq, lowerOption]
      exact .inBlock <| forLoop_furnishes (ihf s rfl (hs.part s (by simp [Stmt.parts])) _)
        (loopTest_advances test) hs.step_advances hb
  | foreach item collection body span ih =>
    rw [names, regions, Stmt.lower, Block.lower_eq, Block.regions_eq]
    have hb : Furnishes t body.span.toPosition (namesAll body.body)
        (regionsAll body.span.toPosition body.body) (lowerAll body.body) :=
      lowerAll_furnishes fun s hm => ih s hm (hs.part s hm)
    -- the collection and the bound are lowered in the scope of the body, and add nothing to it
    refine Furnishes.inBlock (.last (collection.lower_advances _) ?_)
    rintro ⟨_, base⟩
    refine .last (loopBound_keeps ..) fun _ => ?_
    exact (indexLoop_furnishes (bindLocal_furnishes (.item item span) rfl rfl span) hb).first
      fun _ => .pure _
  | switch subject cases default span ihc ihd =>
    have hc (labels : List Label) (hl : labels.length = cases.length) :
        Furnishes t key (namesCases cases) (regionsCases key cases) (lowerCases cases labels) :=
      lowerCases_furnishes hl fun k hk s hm =>
        ihc k hk s hm (hs.part s (List.mem_append_left _ (List.mem_flatMap.2 ⟨k, hk, hm⟩)))
    cases default with
    | none =>
      rw [names, regions, Stmt.lower_switch]
      exact switch_furnishes (subject.lower_advances .value) hc (by simp) fun _ => ⟨rfl, rfl⟩
    | some body =>
      rw [names, regions, Stmt.lower_switch]
      refine switch_furnishes (subject.lower_advances .value) hc ?_ (by simp)
      rintro _ ⟨⟩
      exact lowerAll_furnishes fun s hm => ihd body rfl s hm (hs.part s (List.mem_append_right _ hm))
  | exit span =>
    simp only [names, regions, Stmt.lower]
    exact jump_furnishes _ fun _ _ _ _ => breakLabel_rests
  | next span =>
    simp only [names, regions, Stmt.lower]
    exact jump_furnishes _ fun _ _ _ _ => continueLabel_rests
  | tryCatch body caught handler span ihb ihh =>
    rw [names, regions, Stmt.lower, Block.lower_eq handler, Block.regions_eq handler]
    have hh : Furnishes t handler.span.toPosition (namesAll handler.body)
        (regionsAll handler.span.toPosition handler.body) (lowerAll handler.body) :=
      lowerAll_furnishes fun s hm => ihh s hm (hs.part s (List.mem_append_right _ hm))
    refine tryCatch_furnishes (Block.lower_furnishes fun s hm =>
      ihb s hm (hs.part s (List.mem_append_left _ hm))) ?_
    exact .inBlock <| (bindLocal_furnishes (.caught caught span) rfl rfl span).bind fun _ => hh
  | function f ih =>
    rw [names, regions, Stmt.lower]
    exact Function.lower_furnishes fun s hm => ih s hm (hs.part s hm)
  | classDef c ih =>
    rw [names, regions, Stmt.lower]
    exact Class.lower_furnishes fun f hf s hm =>
      ih f hf s hm (hs.part s (List.mem_flatMap.2 ⟨_, hf, hm⟩))

end Statements

/-- The symbol is what a region has under the name, and it has storage just if it is there for a value. -/
structure Naming.Stored (options : Options) (n : Naming) (x : Symbol) : Prop where
  name : x.name = n.name
  kind : x.kind = n.kind
  type : ∀ type ∈ n.type, x.type = type
  offset : x.offset.isSome = x.kind.isStored
  address : x.address = if x.kind.isStored then some x.name else none
  sized : x.kind.isStored → n.Sized options x

theorem Table.Has.placed {t : Table} {rs : List Region} {r : Region} {n : Naming} (h : t.Has rs)
    (hw : WellDeclared rs) (hr : r ∈ rs) (hn : n ∈ r.names) : n.Placed t r.key := by
  obtain ⟨i, hr⟩ := List.mem_iff_getElem?.1 hr
  obtain ⟨j, hn⟩ := List.mem_iff_getElem?.1 hn
  obtain ⟨x, hf, hx, hrec⟩ := h.find? hw hr hn
  exact ⟨_, x, hf, hx, hrec.kind, hrec.members⟩

theorem Naming.Records.stored {options : Options} {t t' : Table} {key : Position}
    {owner : Option String} {n : Naming} {id : SymbolId} {x y : Symbol} (hrec : n.Records t owner x)
    (hx : t.symbol id = .ok x) (hf : t.find? ⟨key, n.name⟩ = some id) (hfresh : t.Fresh)
    (ho : t'.outline = t.outline) (hl : t.Lasts t') (hn : n.Furnished options t t' key)
    (hy : t'.symbol id = .ok y) : n.Stored options y := by
  have hd : y.toDeclaration = x.toDeclaration :=
    congrArg (fun z => z.toDeclaration) (show y.outline = x.outline from Table.symbol_congr ho hy hx)
  have hkind : y.kind = n.kind := by rw [hd, hrec.kind]
  have hstorage : y.offset.isSome = y.kind.isStored ∧
      y.address = (if y.kind.isStored then some y.name else none) ∧
      (y.kind.isStored → n.Sized options y) := by
    rw [hkind]
    by_cases hk : n.kind.isStored
    · obtain ⟨_, z, hf', hz, hoff, haddr, hsize⟩ := hn hk
      cases hf.symm.trans hf'
      cases hy.symm.trans hz
      exact ⟨by rw [hk, hoff], by rw [if_pos hk, haddr], fun _ => hsize⟩
    · obtain ⟨z, hz, hxz⟩ := hl hx (.inr (by rwa [hrec.kind]))
      cases hy.symm.trans hz
      obtain ⟨d, params, rfl⟩ := hfresh hx
      refine ⟨?_, ?_, fun hk' => absurd hk' hk⟩
      · rw [hxz.offset, Bool.eq_false_iff.2 hk]
        rfl
      · rw [hxz.address, if_neg hk]
        rfl
  exact ⟨by rw [hd, hrec.name], hkind, fun type ht => by rw [hd, hrec.type type ht], hstorage.1,
    hstorage.2.1, hstorage.2.2⟩

namespace Program

variable {p : Program} {options : Options} {out : Compiled}

/-- The table of a compiled program has the names of every region in their order. Each variable,
parameter and field has its storage, and functions and classes have none. -/
theorem compile_stores (h : p.compile options = .ok out) (hs : ∀ s ∈ p.statements, s.Steady) :
    List.Forall₂ (fun r s => s.key = r.key ∧
      List.Forall₂ (Naming.Stored options) r.names s.symbols) p.regions out.table.scopes := by
  obtain ⟨hc, hl⟩ := compile_eq_ok.1 h
  obtain ⟨s, hr, _, _, ht, hp⟩ := runs_program.1 hl
  have hhas := p.collect_fits.has hc
  have hw := p.collect_fits.accepts.1 hc
  have hplaced : Throughout (Naming.Placed p.collect.table) .origin (namesAll p.statements) p.inner :=
    ⟨fun n hn => hhas.placed hw List.mem_cons_self hn,
      fun r hr n hn => hhas.placed hw (List.mem_cons_of_mem _ hr) hn⟩
  have hfur := lowerAll_furnishes (fun s hm => Stmt.lower_furnishes (hs s hm)) hplaced hr
    (stands_start hc options)
  obtain ⟨hglobal, hinner⟩ := hfur.furnished hp.symm
  have ht : out.table = s.table := ht
  have hall : ∀ r ∈ p.regions, ∀ n ∈ r.names,
      n.Furnished options p.collect.table out.table r.key := by
    rw [ht]
    exact List.forall_mem_cons.2 ⟨hglobal, hinner⟩
  have ho : out.table.outline = p.collect.table.outline := by rw [ht, hfur.outline]
  have hlasts : p.collect.table.Lasts out.table := by
    rw [ht]
    exact hfur.lasts hp.symm
  have hsize : out.table.scopes.length = p.regions.length :=
    (Table.size_of_outline ho).trans hhas.size
  refine List.forall₂_iff_get.2 ⟨hsize.symm, fun i hi hi' => ?_⟩
  have hr : p.regions[i]? = some (p.regions.get ⟨i, hi⟩) := List.getElem?_eq_getElem hi
  have hs : out.table.scopes[i]? = some (out.table.scopes.get ⟨i, hi'⟩) := List.getElem?_eq_getElem hi'
  generalize p.regions.get ⟨i, hi⟩ = r at hr ⊢
  generalize out.table.scopes.get ⟨i, hi'⟩ = s' at hs ⊢
  obtain ⟨s₀, hs₀, hh⟩ := hhas.scopes hr
  obtain ⟨_, hs'', hso⟩ := Table.scope_of_outline ho hs₀
  cases hs.symm.trans hs''
  have hkey := congrArg Scope.key hso
  have hlen : s'.symbols.length = s₀.symbols.length := by
    simpa [Scope.outline] using congrArg (fun s => s.symbols.length) hso
  refine ⟨Eq.trans hkey hh.key, List.forall₂_iff_get.2 ⟨by rw [hlen, hh.names.length_eq], ?_⟩⟩
  intro j hj hj'
  obtain ⟨x, hf, hx, hrec⟩ := hhas.find? hw hr (List.getElem?_eq_getElem hj)
  exact hrec.stored hx hf p.collect_fresh ho hlasts
    (hall r (List.mem_of_getElem? hr) _ (List.getElem_mem hj))
    (Table.symbol_eq_ok.2 ⟨s', hs, List.getElem?_eq_getElem hj'⟩)

def stocked : Program :=
  ⟨[.declare ⟨"xs", none, some (.array [.array [.int 1 .unplaced, .int 2 .unplaced] .unplaced,
      .array [.int 3 .unplaced, .int 4 .unplaced] .unplaced] .unplaced), false, .atLine 1⟩,
    .foreach "row" (.ident "xs" .unplaced) ⟨[], .atLine 2⟩ .unplaced,
    .tryCatch ⟨[], .atLine 3⟩ "e" ⟨[], .atLine 4⟩ .unplaced,
    .class ⟨"C", none, [.field ⟨"a", none, some (.bool true .unplaced), false, .atLine 5⟩,
      .method ⟨"m", [⟨"n", none, .atLine 6⟩], none, ⟨[], .atLine 7⟩, .atLine 8⟩], .atLine 9⟩],
    .unplaced⟩

theorem stocked_stores :
    ∃ out, stocked.compile {} = .ok out ∧
      out.table.symbols.map (fun x => (x.name, x.offset, x.size, x.dimensions)) =
        [("xs", some 0, 24, [2, 2]), ("C", none, 0, []), ("row", some 24, 8, []), ("e", some 32, 8, []),
          ("a", some 0, 1, []), ("m", none, 0, []), ("n", some 0, 4, [])] ∧
      List.Forall₂ (fun r s => s.key = r.key ∧ List.Forall₂ (Naming.Stored {}) r.names s.symbols)
        stocked.regions out.table.scopes := by
  have h : (fun out : Compiled =>
      out.table.symbols.map fun x => (x.name, x.offset, x.size, x.dimensions)) <$>
      (stocked.compile {}).toOption =
      some [("xs", some 0, 24, [2, 2]), ("C", none, 0, []), ("row", some 24, 8, []),
        ("e", some 32, 8, []), ("a", some 0, 1, []), ("m", none, 0, []), ("n", some 0, 4, [])] := by
    decide +kernel
  have hs : ∀ s ∈ stocked.statements, s.Steady := by
    simp only [stocked, List.mem_cons, List.not_mem_nil, or_false, forall_eq_or_imp, forall_eq]
    exact ⟨.mk (by simp) (by simp [Stmt.parts]), .mk (by simp) (by simp [Stmt.parts]),
      .mk (by simp) (by simp [Stmt.parts]), .mk (by simp) (by simp [Stmt.parts])⟩
  obtain ⟨out, ho, hf⟩ := exists_of_check h
  exact ⟨out, ho, hf, compile_stores ho hs⟩

end Program

end ThreeAddress
