import ThreeAddress.Proofs.Headers.Collected
import ThreeAddress.Proofs.Regions.Names

/-! Programs with a hole for a statement, at any depth: a layer is a statement around the hole, and the
hole of a program is under one layer after the other. -/

namespace ThreeAddress

structure Gap where
  before : List Stmt
  after : List Stmt

namespace Gap

def fill (g : Gap) (s : Stmt) : List Stmt := g.before ++ s :: g.after

def keys (g : Gap) : List Position := keysAll g.before ++ keysAll g.after

end Gap

/-- A statement with a hole right inside of it. -/
inductive Layer
  | block (g : Gap) (at_ : Span)
  | yes (test : Expr) (g : Gap) (at_ : Span) (other : Option Block) (span : Span)
  | no (test : Expr) (body : Block) (g : Gap) (at_ span : Span)
  | loop (test : Expr) (g : Gap) (at_ span : Span)
  | doWhile (g : Gap) (at_ : Span) (test : Expr) (span : Span)
  | first (test : Option Expr) (next : Option Stmt) (body : Block) (span : Span)
  | step (lead : Option Stmt) (test : Option Expr) (body : Block) (span : Span)
  | pass (lead : Option Stmt) (test : Option Expr) (next : Option Stmt) (g : Gap) (at_ span : Span)
  | foreach (item : String) (e : Expr) (g : Gap) (at_ span : Span)
  | case (subject : Expr) (front : List Case) (value : Expr) (g : Gap) (at_ : Span) (back : List Case)
      (last : Option (List Stmt)) (span : Span)
  | default (subject : Expr) (cases : List Case) (g : Gap) (span : Span)
  | attempt (g : Gap) (at_ : Span) (caught : String) (rescue : Block) (span : Span)
  | handler (body : Block) (caught : String) (g : Gap) (at_ span : Span)
  | function (name : String) (params : List Param) (result : Option TypeExpr) (g : Gap) (at_ span : Span)
  | method (owner : String) (parent : Option String) (front : List Member) (name : String)
      (params : List Param) (result : Option TypeExpr) (g : Gap) (at_ span : Span) (back : List Member)
      (whole : Span)

namespace Layer

def fill (s : Stmt) : Layer → Stmt
  | .block g at_ => .block ⟨g.fill s, at_⟩
  | .yes test g at_ other span => .ite test ⟨g.fill s, at_⟩ other span
  | .no test body g at_ span => .ite test body (some ⟨g.fill s, at_⟩) span
  | .loop test g at_ span => .while test ⟨g.fill s, at_⟩ span
  | .doWhile g at_ test span => .doWhile ⟨g.fill s, at_⟩ test span
  | .first test next body span => .for (some s) test next body span
  | .step lead test body span => .for lead test (some s) body span
  | .pass lead test next g at_ span => .for lead test next ⟨g.fill s, at_⟩ span
  | .foreach item e g at_ span => .foreach item e ⟨g.fill s, at_⟩ span
  | .case subject front value g at_ back last span =>
    .switch subject (front ++ ⟨value, g.fill s, at_⟩ :: back) last span
  | .default subject cases g span => .switch subject cases (some (g.fill s)) span
  | .attempt g at_ caught rescue span => .tryCatch ⟨g.fill s, at_⟩ caught rescue span
  | .handler body caught g at_ span => .tryCatch body caught ⟨g.fill s, at_⟩ span
  | .function name params result g at_ span => .function ⟨name, params, result, ⟨g.fill s, at_⟩, span⟩
  | .method owner parent front name params result g at_ span back whole =>
    .class ⟨owner, parent, front ++ .method ⟨name, params, result, ⟨g.fill s, at_⟩, span⟩ :: back, whole⟩

def keys : Layer → List Position
  | .block g at_ | .loop _ g at_ _ | .doWhile g at_ _ _ | .foreach _ _ g at_ _ | .function _ _ _ g at_ _ =>
    at_.toPosition :: g.keys
  | .yes _ g at_ other _ => at_.toPosition :: g.keys ++ keysElse other
  | .no _ body g at_ _ => body.keys ++ at_.toPosition :: g.keys
  | .first _ next body _ => keysOption next ++ body.keys
  | .step lead _ body _ => keysOption lead ++ body.keys
  | .pass lead _ next g at_ _ => keysOption lead ++ keysOption next ++ at_.toPosition :: g.keys
  | .case _ front _ g _ back last _ => keysCases front ++ g.keys ++ keysCases back ++ keysDefault last
  | .default _ cases g _ => keysCases cases ++ g.keys
  | .attempt g at_ _ rescue _ => at_.toPosition :: g.keys ++ rescue.keys
  | .handler body _ g at_ _ => body.keys ++ at_.toPosition :: g.keys
  | .method _ _ front _ _ _ g at_ _ back whole =>
    whole.toPosition :: keysMembers front ++ at_.toPosition :: g.keys ++ keysMembers back

/-- The key of the region that the hole stands in, if the layer stands in `outer`. -/
def around (outer : Position) : Layer → Position
  | .block _ at_ | .yes _ _ at_ _ _ | .no _ _ _ at_ _ | .loop _ _ at_ _ | .doWhile _ at_ _ _
  | .pass _ _ _ _ at_ _ | .foreach _ _ _ at_ _ | .attempt _ at_ _ _ _ | .handler _ _ _ at_ _
  | .function _ _ _ _ at_ _ | .method _ _ _ _ _ _ _ at_ _ _ _ => at_.toPosition
  | .first _ _ body _ | .step _ _ body _ => body.span.toPosition
  | .case .. | .default .. => outer

end Layer

/-- A program with a hole, under layers from the outermost to the innermost. -/
structure Hole where
  top : Gap
  layers : List Layer
  span : Span

namespace Hole

def inside (layers : List Layer) (s : Stmt) : Stmt := layers.foldr (fun layer s => layer.fill s) s

def fill (h : Hole) (s : Stmt) : Program := ⟨h.top.fill (inside h.layers s), h.span⟩

def keys (h : Hole) : List Position := h.top.keys ++ h.layers.flatMap Layer.keys

def around (h : Hole) : Position := h.layers.foldl Layer.around .origin

end Hole

section Keys

theorem keysAll_append (xs ys : List Stmt) : keysAll (xs ++ ys) = keysAll xs ++ keysAll ys := by
  simp only [keysAll_eq, List.flatMap_append]

theorem Gap.keys_fill (g : Gap) (s : Stmt) : (keysAll (g.fill s)).Perm (g.keys ++ s.keys) := by
  rw [fill, keys, keysAll_append, keysAll, List.append_assoc]
  exact List.perm_append_comm.append_left _

theorem Layer.keys_fill (layer : Layer) (s : Stmt) : (layer.fill s).keys.Perm (layer.keys ++ s.keys) := by
  rw [List.perm_iff_count]
  intro key
  have hg (g : Gap) : (keysAll (g.fill s)).count key = g.keys.count key + s.keys.count key := by
    rw [(g.keys_fill s).count_eq, List.count_append]
  have hcases (xs ys : List Case) : keysCases (xs ++ ys) = keysCases xs ++ keysCases ys := by
    simp only [keysCases_eq, List.flatMap_append]
  have hmembers (xs ys : List Member) : keysMembers (xs ++ ys) = keysMembers xs ++ keysMembers ys := by
    simp only [keysMembers_eq, List.flatMap_append]
  cases layer <;>
    simp only [fill, keys, Stmt.keys, Block.keys_eq, keysOption, keysElse, keysDefault, Function.keys,
      Class.keys, keysCases, Case.keys, keysMembers, Member.keys, hcases, hmembers, List.count_append,
      List.count_cons, hg] <;> omega

theorem Hole.keys_inside (layers : List Layer) (s : Stmt) :
    (inside layers s).keys.Perm (layers.flatMap Layer.keys ++ s.keys) := by
  induction layers with
  | nil => exact .refl _
  | cons layer rest ih =>
    rw [inside, List.foldr_cons, List.flatMap_cons, List.append_assoc]
    exact (layer.keys_fill _).trans (ih.append_left _)

theorem Hole.keys_fill (h : Hole) (s : Stmt) : (h.fill s).keys.Perm (h.keys ++ s.keys) := by
  rw [keys, List.append_assoc]
  exact (h.top.keys_fill _).trans ((keys_inside h.layers s).append_left _)

theorem Layer.around_mem (layer : Layer) (outer : Position) :
    layer.around outer = outer ∨ layer.around outer ∈ layer.keys := by
  cases layer <;> simp [around, keys, Block.keys_eq]

theorem Hole.around_mem (h : Hole) : h.around = .origin ∨ h.around ∈ h.keys := by
  have inside (layers : List Layer) (outer : Position) : layers.foldl Layer.around outer = outer ∨
      layers.foldl Layer.around outer ∈ layers.flatMap Layer.keys := by
    induction layers generalizing outer with
    | nil => exact .inl rfl
    | cons layer rest ih =>
      rw [List.foldl_cons, List.flatMap_cons, List.mem_append]
      obtain he | hm := ih (layer.around outer)
      · rw [he]
        exact (layer.around_mem outer).imp_right .inl
      · exact .inr (.inr hm)
  rw [keys, List.mem_append]
  exact (inside h.layers .origin).imp_right .inr

end Keys

section Regions

variable {outer : Position} {r : Region} {body : List Stmt} {kind : ScopeKind} {lead : List Naming}
  {before : List Region}

theorem regionsAll_eq (outer : Position) (body : List Stmt) :
    regionsAll outer body = body.flatMap (·.regions outer) := by
  induction body with
  | nil => rw [regionsAll, List.flatMap_nil]
  | cons s rest ih => rw [regionsAll, ih, List.flatMap_cons]

theorem regionsCases_eq (outer : Position) (cases : List Case) :
    regionsCases outer cases = cases.flatMap fun k => regionsAll outer k.body := by
  induction cases with
  | nil => rw [regionsCases, List.flatMap_nil]
  | cons k rest ih => rw [regionsCases_cons, ih, List.flatMap_cons]

theorem Member.regions_eq (outer : Position) (members : List Member) :
    regionsMembers outer members = members.flatMap fun
      | .field _ => []
      | .method f => f.regions outer := by
  induction members with
  | nil => rw [regionsMembers, List.flatMap_nil]
  | cons m rest ih => cases m <;> simp [regionsMembers, ih]

abbrev Stmt.Keyed (s : Stmt) : Prop := ∀ ⦃outer r⦄, r ∈ s.regions outer → r.key ∈ s.keys

theorem regionsAll_keyed (h : ∀ s ∈ body, s.Keyed) (hr : r ∈ regionsAll outer body) :
    r.key ∈ keysAll body := by
  rw [regionsAll_eq, List.mem_flatMap] at hr
  rw [keysAll_eq, List.mem_flatMap]
  obtain ⟨s, hs, hr⟩ := hr
  exact ⟨s, hs, h s hs hr⟩

theorem Block.mem_regions {b : Block} (hr : r ∈ b.regions kind lead before outer) :
    r.key = b.span.toPosition ∨ r ∈ before ∨ r ∈ regionsAll b.span.toPosition b.body := by
  rw [Block.regions_eq, List.mem_cons, List.mem_append] at hr
  exact hr.imp_left fun h => by rw [h]

theorem Block.regions_keyed {b : Block} (h : ∀ s ∈ b.body, s.Keyed)
    (hr : r ∈ b.regions kind lead [] outer) : r.key ∈ b.keys := by
  rw [Block.keys_eq, List.mem_cons]
  exact (Block.mem_regions hr).imp_right fun hr => regionsAll_keyed h (hr.resolve_left nofun)

theorem Function.regions_keyed {f : Function} (h : ∀ s ∈ f.body.body, s.Keyed) (hr : r ∈ f.regions outer) :
    r.key ∈ f.keys := by
  obtain ⟨name, params, result, body, span⟩ := f
  rw [Function.regions] at hr
  rw [Function.keys]
  exact Block.regions_keyed h hr

theorem Stmt.regions_keyed (s : Stmt) : s.Keyed := by
  induction s with
  | declare | assign | print | eval | ret | exit | next =>
    intro outer r hr
    simp [regions] at hr
  | block b ih =>
    intro outer r hr
    rw [regions] at hr
    rw [keys]
    exact Block.regions_keyed ih hr
  | ite c yes no span ihy ihn =>
    intro outer r hr
    rw [keys, List.mem_append]
    cases no with
    | none =>
      rw [regions, List.append_nil] at hr
      exact .inl (Block.regions_keyed ihy hr)
    | some no =>
      rw [regions, List.mem_append] at hr
      exact hr.imp (Block.regions_keyed ihy) (Block.regions_keyed (ihn no rfl))
  | loop c body span ih =>
    intro outer r hr
    rw [regions] at hr
    rw [keys]
    exact Block.regions_keyed ih hr
  | doWhile body c span ih =>
    intro outer r hr
    rw [regions] at hr
    rw [keys]
    exact Block.regions_keyed ih hr
  | forLoop first test step body span ihf _ ih =>
    intro outer r hr
    rw [keys, List.mem_append, List.mem_append, Block.keys_eq, List.mem_cons]
    -- the step has keys, but no regions: it is not collected
    cases first with
    | none =>
      rw [regions] at hr
      obtain hr | hr | hr := Block.mem_regions hr
      · exact .inr (.inl hr)
      · cases hr
      · exact .inr (.inr (regionsAll_keyed ih hr))
    | some s =>
      rw [regions] at hr
      obtain hr | hr | hr := Block.mem_regions hr
      · exact .inr (.inl hr)
      · exact .inl (.inl (ihf s rfl hr))
      · exact .inr (.inr (regionsAll_keyed ih hr))
  | foreach item e body span ih =>
    intro outer r hr
    rw [regions] at hr
    rw [keys]
    exact Block.regions_keyed ih hr
  | switch subject cases default span ihc ihd =>
    intro outer r hr
    have hcases (hr : r ∈ regionsCases outer cases) : r.key ∈ keysCases cases := by
      rw [regionsCases_eq, List.mem_flatMap] at hr
      rw [keysCases_eq, List.mem_flatMap]
      obtain ⟨k, hk, hr⟩ := hr
      exact ⟨k, hk, regionsAll_keyed (ihc k hk) hr⟩
    rw [keys, List.mem_append]
    cases default with
    | none =>
      rw [regions, List.append_nil] at hr
      exact .inl (hcases hr)
    | some body =>
      rw [regions, List.mem_append] at hr
      exact hr.imp hcases (regionsAll_keyed (ihd body rfl))
  | tryCatch body caught handler span ihb ihh =>
    intro outer r hr
    rw [regions, List.mem_append] at hr
    rw [keys, List.mem_append]
    exact hr.imp (Block.regions_keyed ihb) (Block.regions_keyed ihh)
  | function f ih =>
    intro outer r hr
    rw [regions] at hr
    rw [keys]
    exact Function.regions_keyed ih hr
  | classDef c ih =>
    intro outer r hr
    obtain ⟨name, parent, members, span⟩ := c
    rw [regions, Class.regions, List.mem_cons, Member.regions_eq, List.mem_flatMap] at hr
    rw [keys, Class.keys, List.mem_cons, keysMembers_eq, List.mem_flatMap]
    obtain rfl | ⟨m, hm, hr⟩ := hr
    · exact .inl rfl
    · cases m with
      | field b => cases hr
      | method f =>
        refine .inr ⟨_, hm, ?_⟩
        rw [Member.keys]
        exact Function.regions_keyed (ih f hm) hr

theorem body_keyed (hr : r ∈ regionsAll outer body) : r.key ∈ keysAll body :=
  regionsAll_keyed (fun s _ => s.regions_keyed) hr

theorem Gap.mem_regions {g : Gap} {s : Stmt} (hr : r ∈ regionsAll outer (g.fill s)) :
    r ∈ s.regions outer ∨ r.key ∈ g.keys := by
  rw [fill, regionsAll_eq, List.flatMap_append, List.flatMap_cons, ← regionsAll_eq, ← regionsAll_eq,
    List.mem_append, List.mem_append] at hr
  rw [keys, List.mem_append]
  obtain hr | hr | hr := hr
  · exact .inr (.inl (body_keyed hr))
  · exact .inl hr
  · exact .inr (.inr (body_keyed hr))

theorem Block.mem_keys_of_regions {b : Block} (hr : r ∈ b.regions kind lead [] outer) : r.key ∈ b.keys :=
  Block.regions_keyed (fun s _ => s.regions_keyed) hr

theorem Gap.mem_block {g : Gap} {s : Stmt} {at_ : Span}
    (hr : r ∈ (⟨g.fill s, at_⟩ : Block).regions kind lead before outer) :
    r ∈ before ∨ r ∈ s.regions at_.toPosition ∨ r.key ∈ at_.toPosition :: g.keys := by
  rw [List.mem_cons]
  obtain hr | hr | hr := Block.mem_regions hr
  · exact .inr (.inr (.inl hr))
  · exact .inl hr
  · exact .inr ((Gap.mem_regions hr).imp_right .inr)

theorem mem_keysCases {cases : List Case} (hr : r ∈ regionsCases outer cases) :
    r.key ∈ keysCases cases := by
  rw [regionsCases_eq, List.mem_flatMap] at hr
  rw [keysCases_eq, List.mem_flatMap]
  obtain ⟨k, hk, hr⟩ := hr
  exact ⟨k, hk, body_keyed hr⟩

theorem mem_keysMembers {members : List Member} (hr : r ∈ regionsMembers outer members) :
    r.key ∈ keysMembers members := by
  rw [Member.regions_eq, List.mem_flatMap] at hr
  rw [keysMembers_eq, List.mem_flatMap]
  obtain ⟨m, hm, hr⟩ := hr
  cases m with
  | field b => cases hr
  | method f => exact ⟨_, hm, Function.regions_keyed (fun s _ => s.regions_keyed) hr⟩

theorem Layer.mem_regions {layer : Layer} {s : Stmt} (hr : r ∈ (layer.fill s).regions outer) :
    r ∈ s.regions (layer.around outer) ∨ r.key ∈ layer.keys := by
  cases layer with
  | block g at_ | loop test g at_ span | doWhile g at_ test span | foreach item e g at_ span =>
    rw [fill, Stmt.regions] at hr
    exact (Gap.mem_block hr).resolve_left (by simp)
  | function name params result g at_ span =>
    rw [fill, Stmt.regions, Function.regions] at hr
    exact (Gap.mem_block hr).resolve_left (by simp)
  | yes test g at_ other span =>
    rw [keys, List.mem_append]
    cases other with
    | none =>
      rw [fill, Stmt.regions, List.append_nil] at hr
      exact ((Gap.mem_block hr).resolve_left (by simp)).imp_right .inl
    | some other =>
      rw [fill, Stmt.regions, List.mem_append] at hr
      obtain hr | hr := hr
      · exact ((Gap.mem_block hr).resolve_left (by simp)).imp_right .inl
      · exact .inr (.inr (Block.mem_keys_of_regions hr))
  | no test body g at_ span =>
    rw [fill, Stmt.regions, List.mem_append] at hr
    rw [keys, List.mem_append]
    obtain hr | hr := hr
    · exact .inr (.inl (Block.mem_keys_of_regions hr))
    · exact ((Gap.mem_block hr).resolve_left (by simp)).imp_right .inr
  | first test next body span =>
    rw [fill, Stmt.regions] at hr
    rw [keys, List.mem_append, Block.keys_eq, List.mem_cons]
    obtain hr | hr | hr := Block.mem_regions hr
    · exact .inr (.inr (.inl hr))
    · exact .inl hr
    · exact .inr (.inr (.inr (body_keyed hr)))
  | step lead test body span =>
    -- a hole in the step has no regions, so these are those of the loop without its step
    have hlead (hr : r ∈ (Stmt.for lead test none body span).regions outer) :
        r.key ∈ (Layer.step lead test body span).keys := by
      have := (Stmt.for lead test none body span).regions_keyed hr
      rwa [Stmt.keys, keysOption, List.append_nil] at this
    cases lead with
    | none =>
      rw [fill, Stmt.regions] at hr
      rw [Stmt.regions] at hlead
      exact .inr (hlead hr)
    | some lead =>
      rw [fill, Stmt.regions] at hr
      rw [Stmt.regions] at hlead
      exact .inr (hlead hr)
  | pass lead test next g at_ span =>
    rw [keys, List.mem_append, List.mem_append]
    cases lead with
    | none =>
      rw [fill, Stmt.regions] at hr
      exact ((Gap.mem_block hr).resolve_left (by simp)).imp_right .inr
    | some lead =>
      rw [fill, Stmt.regions] at hr
      obtain hr | hr := Gap.mem_block hr
      · exact .inr (.inl (.inl (lead.regions_keyed hr)))
      · exact hr.imp_right .inr
  | case subject front value g at_ back last span =>
    -- a region of the cases is of one in front of the hole, of the one around it, or of one behind
    have hcases (hr : r ∈ regionsCases outer (front ++ ⟨value, g.fill s, at_⟩ :: back)) :
        r ∈ s.regions outer ∨ r.key ∈ keysCases front ++ g.keys ++ keysCases back := by
      rw [regionsCases_eq, List.flatMap_append, List.flatMap_cons, ← regionsCases_eq, ← regionsCases_eq,
        List.mem_append, List.mem_append] at hr
      rw [List.mem_append, List.mem_append]
      obtain hr | hr | hr := hr
      · exact .inr (.inl (.inl (mem_keysCases hr)))
      · exact (Gap.mem_regions hr).imp_right fun hr => .inl (.inr hr)
      · exact .inr (.inr (mem_keysCases hr))
    rw [keys, List.mem_append]
    cases last with
    | none =>
      rw [fill, Stmt.regions, List.append_nil] at hr
      exact (hcases hr).imp_right .inl
    | some last =>
      rw [fill, Stmt.regions, List.mem_append] at hr
      obtain hr | hr := hr
      · exact (hcases hr).imp_right .inl
      · exact .inr (.inr (body_keyed hr))
  | default subject cases g span =>
    rw [fill, Stmt.regions, List.mem_append] at hr
    rw [keys, List.mem_append]
    obtain hr | hr := hr
    · exact .inr (.inl (mem_keysCases hr))
    · exact (Gap.mem_regions hr).imp_right .inr
  | attempt g at_ caught rescue span =>
    rw [fill, Stmt.regions, List.mem_append] at hr
    rw [keys, List.mem_append]
    obtain hr | hr := hr
    · exact ((Gap.mem_block hr).resolve_left (by simp)).imp_right .inl
    · exact .inr (.inr (Block.mem_keys_of_regions hr))
  | handler body caught g at_ span =>
    rw [fill, Stmt.regions, List.mem_append] at hr
    rw [keys, List.mem_append]
    obtain hr | hr := hr
    · exact .inr (.inl (Block.mem_keys_of_regions hr))
    · exact ((Gap.mem_block hr).resolve_left (by simp)).imp_right .inr
  | method owner parent front name params result g at_ span back whole =>
    rw [fill, Stmt.regions, Class.regions, List.mem_cons, Member.regions_eq, List.flatMap_append,
      List.flatMap_cons, ← Member.regions_eq, ← Member.regions_eq, List.mem_append, List.mem_append] at hr
    rw [keys, List.mem_append, List.mem_append, List.mem_cons]
    obtain rfl | hr | hr | hr := hr
    · exact .inr (.inl (.inl (.inl rfl)))
    · exact .inr (.inl (.inl (.inr (mem_keysMembers hr))))
    · dsimp only at hr
      rw [Function.regions] at hr
      exact ((Gap.mem_block hr).resolve_left (by simp)).imp_right fun hr => .inl (.inr hr)
    · exact .inr (.inr (mem_keysMembers hr))

theorem Hole.mem_inside {layers : List Layer} {s : Stmt} (hr : r ∈ (inside layers s).regions outer) :
    r ∈ s.regions (layers.foldl Layer.around outer) ∨ r.key ∈ layers.flatMap Layer.keys := by
  induction layers generalizing outer with
  | nil => exact .inl hr
  | cons layer rest ih =>
    rw [List.flatMap_cons, List.mem_append]
    obtain hr | hr := Layer.mem_regions hr
    · exact (ih hr).imp_right .inr
    · exact .inr (.inl hr)

theorem Hole.mem_regions {h : Hole} {s : Stmt} (hr : r ∈ (h.fill s).regions) :
    r ∈ s.regions h.around ∨ r.key = .origin ∨ r.key ∈ h.keys := by
  rw [Program.regions, List.mem_cons] at hr
  obtain rfl | hr := hr
  · exact .inr (.inl rfl)
  · rw [keys, List.mem_append]
    obtain hr | hr := Gap.mem_regions hr
    · exact (mem_inside hr).imp_right fun hr => .inr (.inr hr)
    · exact .inr (.inr (.inl hr))

end Regions

end ThreeAddress
