import ThreeAddress.Proofs.Literals.Elements
import ThreeAddress.Proofs.Lowering.Growth

namespace ThreeAddress

open Lowering Lower

/-- The name is declared in the scope, or in one around it. -/
def Table.Resolves (t : Table) (scope : Nat) (u : Use) : Prop :=
  ∃ id, t.lookup scope u.1 = .ok (some id)

instance (t : Table) (scope : Nat) (u : Use) : Decidable (t.Resolves scope u) :=
  match h : t.lookup scope u.1 with
  | .ok (some id) => isTrue ⟨id, h⟩
  | .ok none => isFalse fun ⟨_, h'⟩ => by cases h.symm.trans h'
  | .error _ => isFalse fun ⟨_, h'⟩ => by cases h.symm.trans h'

mutual

/-- The names that are looked up when an expression is lowered. The class of a new object is not one
of them. A literal that is padded looks up those of the leaves that are as deep as its shape, since the
others stand at no position. -/
def Expr.reads (policy : RaggedArrays) : Expr → List Use
  | .ident name span => [(name, span)]
  | .array es _ => match policy with
    | .reject => readsAll policy es
    | .zeroPad => readsAt policy es (Nest.paddedAll (lowerCells es)).length
  | .new _ args _ => readsAll policy args
  | .binary l _ r _ | .logical l _ r _ | .index l r _ => l.reads policy ++ r.reads policy
  | .unary _ e _ | .property e _ _ => e.reads policy
  | .ternary c a b _ => c.reads policy ++ a.reads policy ++ b.reads policy
  | .call callee args _ => callee.reads policy ++ readsAll policy args
  | .int .. | .str .. | .bool .. | .null _ | .this _ => []

def readsAll (policy : RaggedArrays) : List Expr → List Use
  | [] => []
  | e :: rest => e.reads policy ++ readsAll policy rest

/-- The names that are looked up in the leaves that have that many more rows around them. -/
def readsAt (policy : RaggedArrays) : List Expr → Nat → List Use
  | [], _ => []
  | .array es _ :: rest, depth + 1 => readsAt policy es depth ++ readsAt policy rest (depth + 1)
  | .array _ _ :: rest, 0 => readsAt policy rest 0
  | _ :: rest, depth + 1 => readsAt policy rest (depth + 1)
  | e :: rest, 0 => e.reads policy ++ readsAt policy rest 0

end

namespace Lowering.State

structure Follows (s s' : State) : Prop where
  outline : s'.table.outline = s.table.outline
  quiet : s'.problems = [] → s.problems = []

theorem Grows.follows {s s' : State} (h : s.Grows s') : s.Follows s' := ⟨h.table.outline, h.quiet⟩

instance : Steady Follows where
  refl _ := ⟨rfl, id⟩
  trans _ _ _ h k := ⟨k.outline.trans h.outline, h.quiet ∘ k.quiet⟩
  nextTemp _ := ⟨rfl, id⟩
  report s p _ := (Grows.report s p).follows

end Lowering.State

/-- A run of the action that ends without problems shows that `P` holds of the scope. -/
structure Lower.Shows (t : Table) (options : Options) (P : Nat → Prop) (act : Lower α) : Prop where
  follows : Keeps State.Follows act
  shows : ∀ ⦃c s a s'⦄, Runs act c s a s' → c.options = options → s.table.outline = t.outline →
    s'.problems = [] → P c.scope

namespace Lower

open Lowering.State (Follows)

theorem Keeps.follows {act : Lower α} (h : Keeps State.Grows act) : Keeps Follows act :=
  h.mono State.Grows.follows

theorem account_follows (act : Account α) : Keeps Follows (account act) := by
  intro c s a s' h
  obtain ⟨_, _, rfl⟩ := runs_account.1 h
  exact ⟨rfl, id⟩

namespace Shows

variable {t : Table} {options : Options} {P P' : Nat → Prop} {act : Lower α} {f : α → Lower β}

theorem mono (h : Shows t options P act) (le : ∀ scope, P scope → P' scope) :
    Shows t options P' act :=
  ⟨h.follows, fun _ _ _ _ hr ho hs hp => le _ (h.shows hr ho hs hp)⟩

theorem of_keeps (h : Keeps Follows act) (hP : ∀ scope, P scope) : Shows t options P act :=
  ⟨h, fun _ _ _ _ _ _ _ _ => hP _⟩

theorem bind_of_runs (h : Shows t options P act)
    (k : ∀ a, (∃ c s s', Runs act c s a s') → Shows t options P' (f a)) :
    Shows t options (fun scope => P scope ∧ P' scope) (act >>= f) := by
  constructor
  · intro c s b s' hr
    obtain ⟨a, s₁, ha, hf⟩ := runs_bind.1 hr
    exact IsTrans.trans _ _ _ (h.follows ha) ((k a ⟨_, _, _, ha⟩).follows hf)
  · intro c s b s' hr ho hs hp
    obtain ⟨a, s₁, ha, hf⟩ := runs_bind.1 hr
    have hk := k a ⟨_, _, _, ha⟩
    exact ⟨h.shows ha ho hs ((hk.follows hf).quiet hp),
      hk.shows hf ho ((h.follows ha).outline.trans hs) hp⟩

theorem bind (h : Shows t options P act) (k : ∀ a, Shows t options P' (f a)) :
    Shows t options (fun scope => P scope ∧ P' scope) (act >>= f) :=
  h.bind_of_runs fun a _ => k a

theorem last (h : Keeps Follows act) (k : ∀ a, Shows t options P (f a)) :
    Shows t options P (act >>= f) :=
  ((of_keeps (P := fun _ => True) h fun _ => trivial).bind k).mono fun _ => And.right

theorem first (h : Shows t options P act) (k : ∀ a, Keeps Follows (f a)) :
    Shows t options P (act >>= f) :=
  (h.bind fun a => of_keeps (P := fun _ => True) (k a) fun _ => trivial).mono fun _ => And.left

theorem mapM {f : α → Lower β} {xs : List α} {a : α} (hk : ∀ a ∈ xs, Keeps Follows (f a))
    (ha : a ∈ xs) (h : Shows t options P (f a)) : Shows t options P (xs.mapM f) := by
  induction xs with
  | nil => cases ha
  | cons b rest ih =>
    rw [List.mapM_cons]
    have hrest : Keeps Follows (rest.mapM f) := .mapM fun b hb => hk b (by simp [hb])
    obtain rfl | ha := List.mem_cons.1 ha
    · exact h.first fun _ => hrest.bind fun _ => .pure _
    · exact .last (hk b (by simp)) fun _ =>
        (ih (fun b hb => hk b (by simp [hb])) ha).first fun _ => .pure _

end Shows

/-- A run of the action that ends without problems shows that the names are declared. -/
abbrev Looks (t : Table) (options : Options) (uses : List Use) (act : Lower α) : Prop :=
  Shows t options (fun scope => ∀ u ∈ uses, t.Resolves scope u) act

variable {t : Table} {options : Options} {uses uses' : List Use} {act : Lower α} {f : α → Lower β}

theorem Looks.bind (h : Looks t options uses act) (k : ∀ a, Looks t options uses' (f a)) :
    Looks t options (uses ++ uses') (act >>= f) :=
  (Shows.bind h k).mono fun _ ⟨hu, hu'⟩ u hm => (List.mem_append.1 hm).elim (hu u) (hu' u)

theorem Keeps.looks (h : Keeps Follows act) : Looks t options [] act := .of_keeps h fun _ => nofun

theorem lookup_looks {name : String} {span : Span} {line : Nat} {f : Option SymbolId → Lower β} {b : β}
    (hn : f none = report (.unresolved name line) >>= fun _ => pure b)
    (hs : ∀ id, Keeps Follows (f (some id))) :
    Looks t options [(name, span)] (lookup name >>= f) := by
  constructor
  · refine (lookup_keeps name).bind fun found => ?_
    cases found with
    | none =>
      rw [hn]
      exact (report_grows _).follows.bind fun _ => .pure _
    | some id => exact hs id
  · intro c s a s' hr ho hs hp
    obtain ⟨found, _, hl, hr⟩ := runs_bind.1 hr
    obtain ⟨hl, rfl⟩ := runs_lookup.1 hl
    cases found with
    | none =>
      rw [hn] at hr
      obtain ⟨_, _, hr, hq⟩ := runs_bind.1 hr
      obtain rfl := runs_report.1 hr
      obtain ⟨_, rfl⟩ := runs_pure.1 hq
      -- a missing name is reported, against `hp`
      simp at hp
    | some id =>
      rw [← Table.lookup_outline, hs, Table.lookup_outline] at hl
      simpa using ⟨id, hl⟩

section Valued

variable {act : Lower Valued}

theorem storable_looks (h : Looks t options uses act) : Looks t options uses (storable act) := by
  refine Shows.first h fun (code, value) => ?_
  cases value with
  | var name => exact (copyToTemp_keeps _).bind fun _ => .pure _
  | _ => exact .pure _

theorem argument_looks (h : Looks t options uses act) : Looks t options uses (argument act) :=
  Shows.first h fun _ => (copyToTemp_keeps _).bind fun _ => .pure _

end Valued

theorem namedCallee_looks (name : String) (span at_ : Span) :
    Looks t options [(name, at_)] (namedCallee name span) := by
  refine lookup_looks rfl fun id => (symbol_keeps id).bind fun x => ?_
  split
  · exact (copyToTemp_keeps _).bind fun _ => .pure _
  · exact .pure _

end Lower

mutual

theorem Expr.exists_leaf_of_reads {u : Use} :
    ∀ e : Expr, u ∈ e.reads .reject → ∃ e' ∈ e.leaves, u ∈ e'.reads .reject
  | .array es _ => by
    simp only [Expr.reads, Expr.leaves]
    exact ThreeAddress.exists_leaf_of_reads es
  | .int .. | .str .. | .bool .. | .null _ | .ident .. | .this _ | .binary .. | .unary ..
  | .logical .. | .ternary .. | .call .. | .new .. | .index .. | .property .. => by
    simp [Expr.leaves]

theorem exists_leaf_of_reads {u : Use} :
    ∀ es : List Expr, u ∈ readsAll .reject es → ∃ e ∈ leavesAll es, u ∈ e.reads .reject
  | [] => nofun
  | e :: rest => by
    rw [readsAll, leavesAll, List.mem_append]
    rintro (h | h)
    · obtain ⟨e', he, hu⟩ := e.exists_leaf_of_reads h
      exact ⟨e', List.mem_append_left _ he, hu⟩
    · obtain ⟨e', he, hu⟩ := exists_leaf_of_reads rest h
      exact ⟨e', List.mem_append_right _ he, hu⟩

end

theorem Nest.conforms_of_shape? {n : Nest α} {dims : List Nat} (h : n.shape? .reject = some dims) :
    n.conforms dims := by
  by_cases hn : n.conforms n.extents
  · simp only [shape?, hn, if_true, Option.some.injEq] at h
    rwa [← h]
  · simp [shape?, hn] at h

theorem ne_nil_of_mem_elementsFrom {i : Nat} {es : List Expr} {l : List Nat × Expr}
    (h : l ∈ elementsFrom i es) : l.1 ≠ [] := by
  induction es generalizing i with
  | nil => cases h
  | cons e rest ih =>
    obtain h | h := List.mem_append.1 h
    · obtain ⟨l, _, rfl⟩ := List.mem_map.1 h
      exact List.cons_ne_nil _ _
    · exact ih h

theorem readsAt_eq {policy : RaggedArrays} : ∀ (es : List Expr) (depth i : Nat),
    readsAt policy es depth = ((elementsFrom i es).filter fun l => l.1.length = depth + 1).flatMap
      fun l => l.2.reads policy
  | [], _, _ => by rw [readsAt]; rfl
  | e :: rest, depth, i => by
    rw [elementsFrom, List.filter_append, List.flatMap_append, ← readsAt_eq rest depth (i + 1)]
    have hrow (l : List Nat × Expr) :
        decide ((Prod.map (i :: ·) id l).1.length = depth + 1) = decide (l.1.length = depth) := by
      simp
    rw [List.filter_map, List.flatMap_map]
    simp only [Function.comp_def, hrow]
    cases e with
    | array es =>
      cases depth with
      | zero =>
        have hnone : (elementsFrom 0 es).filter (fun l => l.1.length = 0) = [] := by
          simpa using fun p e h => ne_nil_of_mem_elementsFrom h
        rw [readsAt, Expr.elements, hnone]
        rfl
      | succ depth =>
        rw [readsAt, Expr.elements, readsAt_eq es depth 0]
        rfl
    | _ => cases depth <;> simp [readsAt, Expr.elements]

/-- A literal that is padded looks up the names of the leaves that stand at a position. -/
theorem Expr.reads_array (es : List Expr) (at_ : Span) :
    (Expr.array es at_).reads .zeroPad = ((Expr.array es at_).elements.filter fun l =>
      l.1.length = (Nest.row (lowerCells es)).padded.length).flatMap fun l => l.2.reads .zeroPad := by
  simp only [Expr.reads, Nest.padded, List.length_cons]
  exact readsAt_eq es _ 0

example : (Expr.array [.array [.ident "ghost" .unplaced] .unplaced, .array [.int 1 .unplaced,
      .int 2 .unplaced] .unplaced] .unplaced).reads .zeroPad = [("ghost", .unplaced)] ∧
    (Expr.array [.ident "ghost" .unplaced, .array [.int 1 .unplaced] .unplaced] .unplaced).reads
      .zeroPad = [] := by
  decide +kernel

theorem Expr.exists_position_of_reads {es : List Expr} {at_ : Span} {policy : RaggedArrays}
    {dims : List Nat} {u : Use} (hd : (Nest.row (lowerCells es)).shape? policy = some dims)
    (hu : u ∈ (Expr.array es at_).reads policy) : ∃ e ∈ leavesAll es, u ∈ e.reads policy ∧
    ∃ path ∈ positions dims, (Nest.row (lowerCells es)).at? path = some (storable (e.lower .value)) := by
  cases policy with
  | reject =>
    -- a literal that was accepted is a rectangle, so every leaf has its position
    obtain ⟨e, he, hu⟩ := ThreeAddress.exists_leaf_of_reads es hu
    have hc : (Nest.row (lowerCells es)).conforms dims := Nest.conforms_of_shape? hd
    obtain ⟨path, hpath, hat⟩ := (Expr.array es at_).exists_position he hc
    refine ⟨e, he, hu, path, ?_, hat⟩
    cases dims with
    | nil => simp [Nest.conforms] at hc
    | cons => exact hpath
  | zeroPad =>
    obtain rfl : _ = dims := Option.some.inj (Nest.shape?_zeroPad.symm.trans hd)
    rw [reads_array, List.mem_flatMap] at hu
    obtain ⟨l, hl, hu⟩ := hu
    have he : l.2 ∈ leavesAll es := by
      rw [leavesAll_eq 0]
      exact List.mem_map_of_mem (List.mem_of_mem_filter hl)
    have hcell := List.mem_map_of_mem (f := storing) hl
    rw [← filterMap_positions, List.mem_filterMap] at hcell
    obtain ⟨path, hpath, hat⟩ := hcell
    obtain ⟨act, hat, h⟩ := Option.map_eq_some_iff.1 hat
    exact ⟨l.2, he, hu, path, hpath, hat.trans (congrArg some (Prod.mk.inj h).2)⟩

section Expressions

variable {t : Table} {options : Options}

theorem lowerArgs_looks {es : List Expr}
    (h : ∀ e ∈ es, Looks t options (e.reads options.raggedArrays) (e.lower .value)) :
    Looks t options (readsAll options.raggedArrays es) (lowerArgs es) := by
  induction es with
  | nil =>
    rw [lowerArgs, readsAll]
    exact Keeps.looks (.pure _)
  | cons e rest ih =>
    rw [lowerArgs, readsAll]
    exact (argument_looks (h e (by simp))).bind fun _ =>
      Shows.first (ih fun e he => h e (by simp [he])) fun _ => .pure _

theorem lowerCallee_looks {callee : Expr} (span : Span)
    (h : Looks t options (callee.reads options.raggedArrays) (callee.lower .value))
    (ho : ∀ object method at_, callee = .property object method at_ →
      Looks t options (object.reads options.raggedArrays) (object.lower .value)) :
    Looks t options (callee.reads options.raggedArrays) (lowerCallee span callee) := by
  unfold lowerCallee
  split
  next name at_ =>
    rw [Expr.reads]
    exact namedCallee_looks name span at_
  next object method at_ =>
    rw [Expr.reads]
    exact .last (receiverClass_keeps _) fun _ =>
      Shows.first (argument_looks (ho _ _ _ rfl)) fun _ => .pure _
  next => exact Shows.first h fun _ => .pure _

theorem literalValue_looks {es : List Expr} (span : Span)
    (h : ∀ e ∈ leavesAll es, Looks t options (e.reads options.raggedArrays) (e.lower .value)) :
    Looks t options ((Expr.array es span).reads options.raggedArrays)
      (literalValue (.row (lowerCells es)) span) := by
  have hleaf (path : List Nat) : Keeps State.Follows
      (leafAt (.row (lowerCells es)) Ty.unknown.zero path) := by
    refine leafAt_keeps (fun act ha => ?_) _
    obtain ⟨e, he, rfl⟩ := leaf_of_lowerCells ha
    exact (storable_looks (h e he)).follows
  constructor
  · exact (literalShape_keeps ..).bind fun _ => (Keeps.mapM fun path _ => hleaf path).bind fun _ =>
      freshTemp_keeps.bind fun _ => .pure _
  · intro c s a s' hr ho hs hp u hu
    obtain ⟨shape, s₁, h₁, hr⟩ := runs_bind.1 hr
    obtain ⟨xs, s₂, h₂, hr⟩ := runs_bind.1 hr
    have hp₂ : s₂.problems = [] :=
      (Keeps.bind freshTemp_keeps (fun _ => .pure _) (R := State.Follows) hr).quiet hp
    have hp₁ := (Keeps.mapM (fun path _ => hleaf path) h₂).quiet hp₂
    -- a literal that is rejected is reported, and then nothing is claimed of its names
    obtain ⟨hshape, ⟨hsome, rfl⟩ | ⟨_, rfl⟩⟩ := runs_literalShape h₁
    · obtain ⟨dims, rfl⟩ := Option.isSome_iff_exists.1 hsome
      obtain ⟨e, he, hu, path, hpath, hat⟩ := Expr.exists_position_of_reads (ho ▸ hshape.symm) hu
      have hrun : leafAt (.row (lowerCells es)) Ty.unknown.zero path = storable (e.lower .value) := by
        rw [leafAt, hat, Option.getD_some]
      have hlooks := storable_looks (h e he)
      rw [← hrun] at hlooks
      exact (Shows.mapM (fun path _ => hleaf path) hpath hlooks).shows h₂ ho hs hp₂ u hu
    · simp at hp₁

theorem Expr.lower_looks (e : Expr) (demand : Demand) :
    Looks t options (e.reads options.raggedArrays) (e.lower demand) := by
  induction e generalizing demand with
  | int | str | bool | null =>
    rw [Expr.lower, Expr.reads]
    exact (copyToTemp_keeps _).looks
  | this =>
    rw [Expr.lower, Expr.reads]
    exact Keeps.looks (.pure _)
  | ident name span =>
    rw [Expr.lower, Expr.reads]
    refine Shows.first (lookup_looks rfl fun id => ?_) fun _ => .pure _
    exact (symbol_keeps id).bind fun _ => .pure _
  | array es span ih =>
    rw [Expr.lower]
    exact literalValue_looks span fun e he => ih e he _
  | binary l op r span ihl ihr =>
    rw [Expr.lower, Expr.reads]
    exact (ihl _).bind fun _ => Shows.first (ihr _) fun _ => freshTemp_keeps.bind fun _ => .pure _
  | unary op e span ih =>
    rw [Expr.lower, Expr.reads]
    exact Shows.first (ih _) fun _ => freshTemp_keeps.bind fun _ => .pure _
  | logical l op r span ihl ihr =>
    rw [Expr.lower, Expr.reads]
    refine (ihl _).bind fun _ => .last freshTemp_keeps fun _ => .last freshLabel_grows.follows fun _ => ?_
    refine Shows.first (ihr _) fun _ => ?_
    cases op <;> exact Keeps.pure _
  | ternary c a b span ihc iha ihb =>
    rw [Expr.lower, Expr.reads, List.append_assoc]
    refine (ihc _).bind fun _ => .last freshLabel_grows.follows fun _ =>
      .last freshLabel_grows.follows fun _ => ?_
    refine (iha _).bind fun _ => .last freshTemp_keeps fun _ => .last freshLabel_grows.follows fun _ => ?_
    exact Shows.first (ihb _) fun _ => .pure _
  | call callee args span ihc iho iha =>
    rw [Expr.lower_call, Expr.reads]
    refine (lowerCallee_looks span (ihc _) fun o m at_ he => iho o m at_ he _).bind fun _ => ?_
    exact Shows.first (lowerArgs_looks fun e he => iha e he _) fun _ =>
      (finishCall_keeps ..).bind fun _ => .pure _
  | new name args span ih =>
    rw [Expr.lower, Expr.reads]
    exact Shows.first (lowerArgs_looks fun e he => ih e he _) fun _ =>
      freshTemp_keeps.bind fun _ => .pure _
  | index base i span ihb ihi =>
    rw [Expr.lower, Expr.reads]
    exact (ihb _).bind fun _ => Shows.first (ihi _) fun _ => (ensureTemp_keeps _).bind fun _ =>
      freshTemp_keeps.bind fun _ => .pure _
  | property object field span ih =>
    rw [Expr.lower, Expr.reads]
    exact Shows.first (ih _) fun _ => freshTemp_keeps.bind fun _ => .pure _

end Expressions

end ThreeAddress
