import ThreeAddress.Proofs.Extents.Loops
import ThreeAddress.Proofs.Headers.Loops
import ThreeAddress.Proofs.Headers.Passes
import ThreeAddress.Proofs.Stages.Keys

namespace ThreeAddress

open Lowering Lower Plan

/-- Lowering begins with the statement in the state `σ`, and in no other. -/
def Program.Begins (p : Program) (options : Options) (s : Stmt) (σ : FullState) : Prop :=
  ∀ τ, (.stmt s, τ) ∈ p.course p.collect.table options ↔ τ = σ

namespace Loop

section Lowers

variable (l : Loop) (options : Options) (body : List Stmt) (σ : FullState)

/-- What the header of the loop is lowered in, if the loop is lowered from the state `σ`: the scope of the
body. -/
def context : Context :=
  { σ.context options with scope := blockScope (σ.context options) σ.toState l.at_ }

/-- From the state `σ`, lowering writes the code `head` of the collection, which has the operand `base`, and
then the loop over `base`, which compares with `bound`. -/
def Lowers (out head : Code) (base bound : Operand) : Prop :=
  ∃ loop s s', Runs (l.stmt body).lower (σ.context options) σ.toState (head ++ loop) s' ∧
    Runs (l.collection.lower .value) (l.context options σ) σ.toState (head, base) s ∧
    Runs (loopBound l.collection base) (l.context options σ) s bound s ∧
    loop.Loops l.item base bound ∧ σ.code ++ (head ++ loop) <+: out

end Lowers

variable {l : Loop} {body body' before after : List Stmt} {b : Binding} {options : Options}
  {σ σ₁ d : FullState}

theorem exists_lowers (hr : ((l.stmt body).plan options).run σ = .ok ((), σ₁)) (hp : σ₁.Precedes d) :
    ∃ head base bound, l.Lowers options body σ d.code head base bound := by
  obtain ⟨code, hr, _, hcode⟩ := Stmt.runs_of_plan hr
  obtain ⟨head, base, s, bound, loop, he, hb, rfl, hl⟩ := Stmt.foreach_loops hr
  exact ⟨head, base, bound, loop, s, _, hr, he, hb, hl, hcode ▸ hp.code⟩

/-- Where two tables have the same to show for the names of the header, it is lowered alike by both, whatever
the body is. -/
theorem lowers_alike {T T' τ : Table} {v : View T T'} {out out' head head' : Code}
    {base base' bound bound' : Operand} (hn : ∀ u ∈ l.collection.uses, v.names u.1)
    (hv : FullState.Seen v { σ with scope := (l.context options σ).scope } τ)
    (hs : τ.scopeFor l.at_.toPosition = σ.table.scopeFor l.at_.toPosition)
    (h : l.Lowers options body σ out head base bound)
    (h' : l.Lowers options body' (σ.withTable τ) out' head' base' bound') :
    head' = head ∧ base' = base ∧ bound' = bound := by
  obtain ⟨_, s, _, _, he, hb, _⟩ := h
  obtain ⟨_, s', _, _, he', hb', _⟩ := h'
  have hc : l.context options (σ.withTable τ) = l.context options σ :=
    congrArg (fun i? => { σ.context options with scope := i?.getD σ.scope }) hs
  rw [hc] at he' hb'
  -- the plan of the header takes the same course by both tables
  let d : FullState := { σ with scope := (l.context options σ).scope }
  have hd : (value (l.collection.headerPlan options)).run d = .ok (base, ⟨s, d.toSetting, d.code ++ head⟩) :=
    (l.collection.headerPlan_does d.toSetting).run_of_runs he
  have hd' : (value (l.collection.headerPlan options)).run (d.withTable τ) =
      .ok (base', ⟨s', d.toSetting, d.code ++ head'⟩) :=
    (l.collection.headerPlan_does d.toSetting).run_of_runs (d := d.withTable τ) he'
  obtain ⟨t, ht, hv, _⟩ := (value_keepsTo (Expr.headerPlan_keepsTo hn)).run hd hv
  rw [hd'] at ht
  injection ht with ht
  injection ht with hbase hlast
  injection hlast with hs' _ hcode
  obtain rfl := List.append_cancel_left hcode
  subst hbase hs'
  let e : FullState := ⟨s, d.toSetting, d.code ++ head'⟩
  have hb : (Plan.loopBound l.collection base').run e = Except.ok (bound, _) :=
    (loopBound_does l.collection base').run_of_runs (d := e) hb
  have hb' : (Plan.loopBound l.collection base').run (e.withTable t) = Except.ok (bound', _) :=
    (loopBound_does l.collection base').run_of_runs (d := e.withTable t) hb'
  obtain ⟨_, ht, _⟩ := (loopBound_keepsTo hn base').run hb hv
  cases hb'.symm.trans ht
  exact ⟨rfl, rfl, rfl⟩

theorem begins_of_mem {out : Compiled} (hk : (l.fill body).WellKeyed)
    (ho : (l.fill body).compile options = .ok out)
    (hm : (.stmt (l.stmt body), σ) ∈ (l.fill body).course (l.fill body).collect.table options) :
    (l.fill body).Begins options (l.stmt body) σ := by
  obtain ⟨_, _, hs, _⟩ := Program.compile_walk ho
  have hat (c : Context) : Stage.loopsAt l.at_.toPosition (.stmt c (l.stmt body)) := by
    simp [stmt, Stage.loopsAt]
  exact fun τ => ⟨fun hτ => Program.course_loop_unique hk.1 hs hat hτ hm, fun h => h ▸ hm⟩

theorem exists_begins {hidden : Position → Prop} {out out' : Compiled}
    (hk : (l.fill body).WellKeyed) (hk' : (l.fill body').WellKeyed)
    (ho : (l.fill body).compile options = .ok out) (ho' : (l.fill body').compile options = .ok out')
    (hh : ∀ key, hidden key → key ∈ l.at_.toPosition :: keysAll body)
    (hb : (l.fill body).collect.table.Beside hidden (l.fill body').collect.table) :
    ∃ σ τ head base bound head' base' bound', σ.Seen hb.plain τ ∧
      (l.fill body).Begins options (l.stmt body) σ ∧
      (l.fill body').Begins options (l.stmt body') (σ.withTable τ) ∧
      l.Lowers options body σ out.code head base bound ∧
      l.Lowers options body' (σ.withTable τ) out'.code head' base' bound' := by
  obtain ⟨d, hr, hcode, hq⟩ := Program.compile_run ho
  obtain ⟨d', hr', hcode', _⟩ := Program.compile_run ho'
  obtain ⟨_, horigin, hd⟩ := wellKeyed hk
  have hstart : (FullState.start (l.fill body).collect.table options).Seen hb.plain
      (l.fill body').collect.table :=
    ⟨.start _, Program.collect_shows fun h => horigin (hh _ h)⟩
  obtain ⟨σ, τ, σ₁, σ₁', hσ, h₁, h₁', hp, hp', hc, hc'⟩ :=
    Hole.passes (v := hb.plain) (h := l.hole) (fun _ => trivial) (fun _ => trivial)
      (fun key hm h => hd key hm (hh key h)) hstart hr hr' hq
  obtain ⟨head, base, bound, hl⟩ := exists_lowers h₁ hp
  obtain ⟨head', base', bound', hl'⟩ := exists_lowers h₁' hp'
  exact ⟨σ, τ, head, base, bound, head', base', bound', hσ, begins_of_mem hk ho (hc.subset (.head _)),
    begins_of_mem hk' ho' (hc'.subset (.head _)), hcode ▸ hl, hcode' ▸ hl'⟩

/-- The header of the loop is lowered in the scope of the body, if that has one (what stands in the step of a
`for` has no scopes). There, a name of the collection that is not the item's and that the body does not declare
means what it means around the loop. It is what the item was typed by just if it had been collected by then. And
unless it has one of these names, a further declaration in the body changes neither the code of the collection
nor its operand nor the bound. -/
theorem compile_header {out : Compiled} (hk : (l.fill body).WellKeyed)
    (ho : (l.fill body).compile options = .ok out) :
    let t := (l.fill body).collect.table
    ∃ σ head base bound, (l.fill body).Begins options (l.stmt body) σ ∧
      l.Lowers options body σ out.code head base bound ∧
      (t.scopeFor l.at_.toPosition = none → (l.context options σ).scope = σ.scope) ∧
      (∀ k, t.scopeFor l.at_.toPosition = some k → (l.context options σ).scope = k ∧
        ∃ j, t.scopeFor l.hole.around = some j ∧ ∀ u ∈ l.collection.uses, ¬l.Hides body u.1 →
          σ.table.lookup k u.1 = t.lookup j u.1) ∧
      ((∀ layer ∈ l.hole.layers, layer.IsCollected) → ∃ i k c, l.Typed t i k c ∧
        ∀ u ∈ l.collection.uses, ¬l.Hides body u.1 →
          (c.table.lookup i u.1 = σ.table.lookup k u.1 ↔
            ∀ id, σ.table.lookup k u.1 = .ok (some id) → ∃ x, c.table.symbol id = .ok x)) ∧
      ∀ before after b out', body = before ++ after →
        (∀ u ∈ l.collection.uses, ¬l.Hides (before ++ .declare b :: after) u.1) →
        (l.fill (before ++ .declare b :: after)).compile options = .ok out' →
        ∃ σ', (l.fill (before ++ .declare b :: after)).Begins options
            (l.stmt (before ++ .declare b :: after)) σ' ∧ σ'.code = σ.code ∧
          l.Lowers options (before ++ .declare b :: after) σ' out'.code head base bound := by
  intro t
  have hc : (l.fill body).collect.conflicts = [] := (Program.compile_eq_ok.1 ho).1
  have hlinked : t.Linked := Program.collect_linked hc
  have hself : t.Beside (fun _ => False) t :=
    Program.collect_beside (fun h => h) (stmts_same fun _ _ => .rfl) hc hc
  -- the state before the loop is what a walk of the program next to itself finds
  obtain ⟨σ, _, head, base, bound, _, _, _, hσ, hbegins, _, hlowers, _⟩ :=
    exists_begins hk hk ho ho (fun _ h => h.elim) hself
  have hscope (key : Position) : σ.table.scopeFor key = t.scopeFor key := by
    rw [← Table.scopeFor_outline, hσ.table.left, Table.scopeFor_outline]
  have hlook (i : Nat) (name : String) : σ.table.lookup i name = t.lookup i name := by
    rw [← Table.lookup_outline, hσ.table.left, Table.lookup_outline]
  have hinner : (l.context options σ).scope = (t.scopeFor l.at_.toPosition).getD σ.scope :=
    congrArg (fun i? => i?.getD σ.scope) (hscope _)
  refine ⟨σ, head, base, bound, hbegins, hlowers, fun hn => ?_, fun k hs => ?_, fun hl => ?_, ?_⟩
  · rw [hinner, hn, Option.getD_none]
  · obtain ⟨r, j, hr, hj, hp, hslot⟩ := scope_of_body hk hc hs
    refine ⟨by rw [hinner, hs, Option.getD_some], j, hj, fun u _ hu => ?_⟩
    rw [hlook]
    exact hlinked.lookup_parent hr (hslot u.1 hu) hp
  · obtain ⟨i, k, c, htyped, hcont, hi⟩ := exists_typed hl hc
    refine ⟨i, k, c, htyped, fun u _ hu => ?_⟩
    obtain ⟨r, j, hr, hj, hp, hslot⟩ := scope_of_body hk hc htyped.body
    cases htyped.around.symm.trans hj
    rw [hlook, hlinked.lookup_parent hr (hslot u.1 hu) hp]
    exact hcont.lookup_eq_iff hlinked hi
  · rintro before after b out' rfl hn ho'
    have hc' := (Program.compile_eq_ok.1 ho').1
    have hb : t.Beside (· ∈ l.at_.toPosition :: keysAll (before ++ after))
        (l.fill (before ++ .declare b :: after)).collect.table :=
      beside hk (fun _ => .rfl) hc hc'
    obtain ⟨σ₁, τ, _, _, _, head', base', bound', hσ', hbegins₁, hbegins', _, hlowers'⟩ :=
      exists_begins hk (wellKeyed_declare hk) ho ho' (fun _ h => h) hb
    -- lowering begins with the loop once, so the new pair of walks stops in the same state
    obtain rfl : σ₁ = σ := (hbegins σ₁).1 ((hbegins₁ σ₁).2 rfl)
    -- inside the loop, the tables have the same to show for the names of the header alone
    let names := fun name => ∃ u ∈ l.collection.uses, u.1 = name
    have hview : FullState.Seen (hb.names names) { σ₁ with scope := (l.context options σ₁).scope } τ := by
      refine ⟨⟨hσ'.table.left, hσ'.table.right, hσ'.table.symbol⟩, ?_⟩
      change (hb.names names).scopes (l.context options σ₁).scope
      rw [hinner]
      cases hs : t.scopeFor l.at_.toPosition with
      | none => exact fun name _ => ⟨σ₁.scope, hσ'.scope, rfl, rfl⟩
      | some k =>
        refine shows_header hk (fun _ => .rfl) hc hc' hb ?_ hs
        rintro _ ⟨u, hu, rfl⟩
        exact hn u hu
    have hτ : τ.scopeFor l.at_.toPosition = σ₁.table.scopeFor l.at_.toPosition := by
      rw [hscope, ← Table.scopeFor_outline, hσ'.table.right, Table.scopeFor_outline, hb.scopeFor]
    have hnames : ∀ u ∈ l.collection.uses, (hb.names names).names u.1 := fun u hu => ⟨u, hu, rfl⟩
    obtain ⟨rfl, rfl, rfl⟩ := lowers_alike hnames hview hτ hlowers hlowers'
    exact ⟨_, hbegins', rfl, hlowers'⟩

def doubling : Loop where
  hole :=
    ⟨⟨[.declare ⟨"xs", none, some (.array [.int 1 .unplaced, .int 2 .unplaced] .unplaced), false, .atLine 1⟩],
      []⟩, [.block ⟨[], []⟩ (.atLine 4)], .unplaced⟩
  item := "x"
  collection := .ident "xs" .unplaced
  at_ := .atLine 3
  span := .atLine 2

def further (name : String) : Binding := ⟨name, none, some (.int 3 .unplaced), false, .atLine 5⟩

theorem doubling_header : ∃ out out', (doubling.fill []).compile {} = .ok out ∧
    (doubling.fill [.declare (further "y")]).compile {} = .ok out' ∧
    ∃ σ σ' head base bound, (doubling.fill []).Begins {} (doubling.stmt []) σ ∧
      (doubling.fill [.declare (further "y")]).Begins {} (doubling.stmt [.declare (further "y")]) σ' ∧
      doubling.Lowers {} [] σ out.code head base bound ∧
      doubling.Lowers {} [.declare (further "y")] σ' out'.code head base bound ∧
      ∃ i k c, doubling.Typed (doubling.fill []).collect.table i k c ∧
        c.table.lookup i "xs" = σ.table.lookup k "xs" := by
  have hc : (fun _ => ()) <$> ((doubling.fill []).compile {}).toOption = some () := by decide +kernel
  have hc' : (fun _ => ()) <$> ((doubling.fill [.declare (further "y")]).compile {}).toOption = some () := by
    decide +kernel
  obtain ⟨out, ho, -⟩ := exists_of_check hc
  obtain ⟨out', ho', -⟩ := exists_of_check hc'
  have hn : ∀ u ∈ doubling.collection.uses, ¬doubling.Hides [.declare (further "y")] u.1 := by
    intro u hu hh
    obtain rfl : u = ("xs", .unplaced) := by simpa [doubling, Expr.uses] using hu
    simp [Hides, doubling, namesAll, Stmt.names, Binding.naming, further] at hh
  have hn₀ : ¬doubling.Hides [] "xs" := by
    intro hh
    simp [Hides, doubling, namesAll] at hh
  obtain ⟨σ, head, base, bound, hbegins, hlowers, _, hnames, htyped, hfurther⟩ :=
    compile_header (by decide +kernel) ho
  obtain ⟨σ', hbegins', _, hlowers'⟩ := hfurther [] [] _ out' rfl hn ho'
  obtain ⟨i, k, c, ht, hlook⟩ := htyped (by simp [doubling, Layer.IsCollected])
  refine ⟨out, out', ho, ho', σ, σ', head, base, bound, hbegins, hbegins', hlowers, hlowers', i, k, c, ht, ?_⟩
  have hxs : ("xs", Span.unplaced) ∈ doubling.collection.uses := .head _
  refine (hlook _ hxs hn₀).2 fun id hid => ?_
  obtain ⟨_, j, hj, houter⟩ := hnames k ht.body
  have hj' : (doubling.fill []).collect.table.scopeFor doubling.hole.around = some 1 := by decide +kernel
  have hxs' : (doubling.fill []).collect.table.lookup 1 "xs" = .ok (some ⟨0, 0⟩) := by decide +kernel
  cases hj.symm.trans hj'
  rw [houter _ hxs hn₀, hxs'] at hid
  cases hid
  cases ht.typing
  exact ⟨_, rfl⟩

/-- If the body declares another `xs`, the loop goes as far as the length of that one. -/
theorem doubling_hides :
    (·.code.lines) <$> ((doubling.fill []).compile {}).toOption = some
      ["t1 = 1", "xs[0] = t1", "t2 = 2", "xs[1] = t2", "t3 = 0", "t4 = 2", "L1:", "t5 = t3 < t4",
        "if t5 == 0 goto L2", "t6 = xs[t3]", "x = t6", "t3 = t3 + 1", "goto L1", "L2:"] ∧
    (·.code.lines) <$> ((doubling.fill [.declare (further "xs")]).compile {}).toOption = some
      ["t1 = 1", "xs[0] = t1", "t2 = 2", "xs[1] = t2", "t3 = 0", "t4 = xs.length", "L1:", "t5 = t3 < t4",
        "if t5 == 0 goto L2", "t6 = xs[t3]", "x = t6", "t7 = 3", "xs = t7", "t3 = t3 + 1",
        "goto L1", "L2:"] := by
  decide +kernel

end Loop

end ThreeAddress
