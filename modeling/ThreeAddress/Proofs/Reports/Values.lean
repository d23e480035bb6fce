import ThreeAddress.Proofs.Reports.Sound

namespace ThreeAddress

open Lowering Lower

mutual

theorem Expr.uses_of_leaf : ∀ e : Expr, ∀ e' ∈ e.leaves, ∀ u ∈ e'.uses, u ∈ e.uses
  | .array es _ => by
    rw [Expr.leaves, Expr.uses]
    exact usesAll_of_leaf es
  | .int .. | .str .. | .bool .. | .null _ | .ident .. | .this _ | .binary .. | .unary ..
  | .logical .. | .ternary .. | .call .. | .new .. | .index .. | .property .. => by
    simp [Expr.leaves]

theorem usesAll_of_leaf : ∀ es : List Expr, ∀ e' ∈ leavesAll es, ∀ u ∈ e'.uses, u ∈ usesAll es
  | [] => nofun
  | e :: rest => by
    intro e' he u hu
    rw [leavesAll, List.mem_append] at he
    rw [usesAll, List.mem_append]
    exact he.imp (fun he => e.uses_of_leaf e' he u hu) fun he => usesAll_of_leaf rest e' he u hu

end

namespace Lower

variable {t : Table} {key : Position} {uses uses' : List Use}

abbrev Reads (t : Table) (key : Position) (uses : List Use) (act : Lower α) : Prop :=
  Sound t key [] (.concerning t uses) act

variable {act : Lower α} {f : α → Lower β}

theorem Reads.mono (h : Reads t key uses act) (hu : ∀ u ∈ uses, u ∈ uses') :
    Reads t key uses' act :=
  Sound.mono h fun _ _ hr p hp => (hr p hp).mono hu

theorem KeepsRecords.reads (h : KeepsRecords act) : Reads t key uses act := .of_keepsRecords h fun _ => nofun

theorem Reads.lookup {name : String} {line : Nat} {f : Option SymbolId → Lower β} {b : β}
    (hu : ∃ u ∈ uses, u.1 = name)
    (hn : f none = report (.unresolved name line) >>= fun _ => pure b)
    (hs : ∀ id, Reads t key uses (f (some id))) : Reads t key uses (lookup name >>= f) := by
  intro c s hst ha
  refine Ensures.bind (P := fun found s' => s' = s ∧ s.table.lookup c.scope name = .ok found)
    (.lookup fun _ hl => ⟨rfl, hl⟩) ?_
  rintro (_ | id) _ ⟨rfl, hl⟩
  · rw [hn]
    refine Ensures.bind (P := fun _ s' => s' = State.report _ (.unresolved name line))
      (.report rfl) ?_
    rintro _ _ rfl
    refine .pure ⟨rfl, fun _ _ => rfl, [.unresolved name line], rfl, ?_⟩
    obtain ⟨u, hu, rfl⟩ := hu
    rw [← Table.lookup_outline, hst.outline, Table.lookup_outline] at hl
    intro p hp
    obtain rfl := List.mem_singleton.1 hp
    exact .inl ⟨u, hu, hl, line, rfl⟩
  · exact hs id hst ha

theorem literalShape_reads (name : String) (span : Span) (literal : Nest α) :
    Reads t key uses (literalShape name span literal) := by
  refine .last .read fun c => ?_
  dsimp only
  split
  · refine .first (fun c s _ _ => .report ⟨rfl, fun _ _ => rfl, [.ragged name span.line], rfl, ?_⟩)
      fun _ => .pure _
    intro p hp
    obtain rfl := List.mem_singleton.1 hp
    exact .inr ⟨name, _, rfl⟩
  · exact KeepsRecords.reads (.pure _)

section Valued

variable {act : Lower Valued}

theorem storable_reads (h : Reads t key uses act) : Reads t key uses (storable act) := by
  refine Sound.also h fun (code, value) => KeepsRecords.reads ?_
  cases value with
  | var name => exact (KeepsRecords.copyToTemp _).bind fun _ => .pure _
  | _ => exact .pure _

theorem argument_reads (h : Reads t key uses act) : Reads t key uses (argument act) :=
  Sound.first h fun _ => (KeepsRecords.copyToTemp _).bind fun _ => .pure _

theorem leafAt_reads {literal : Nest (Lower Valued)} {position : List Nat}
    (h : ∀ act ∈ literal.at? position, Reads t key uses act) (zero : Operand) :
    Reads t key uses (leafAt literal zero position) := by
  unfold leafAt
  cases ha : literal.at? position with
  | none => exact (KeepsRecords.copyToTemp zero).reads
  | some act => exact h act ha

end Valued

theorem receiverClass_keepsRecords (e : Expr) : KeepsRecords (receiverClass e) := by
  cases e with
  | this => exact KeepsRecords.read.bind fun _ => .pure _
  | ident name span =>
    refine (KeepsRecords.lookup name).bind fun found => ?_
    cases found with
    | none => exact .pure _
    | some id =>
      refine (KeepsRecords.symbol id).bind fun x => ?_
      cases x.type <;> exact .pure _
  | _ => exact .pure _

theorem finishCall_keepsRecords (demand : Demand) (callee : String) (params : List Operand) :
    KeepsRecords (finishCall demand callee params) := by
  cases demand with
  | value => exact KeepsRecords.freshTemp.bind fun _ => .pure _
  | effect => exact .pure _

theorem storeElements_reads {base zero : Operand} {literal : Nest (Lower Valued)} {dims : List Nat}
    (h : ∀ path, ∀ act ∈ literal.at? path, Reads t key uses act) :
    Reads t key uses (storeElements base literal dims zero) :=
  Sound.first (.mapM fun p _ => Sound.first (leafAt_reads (h p) zero) fun _ => .pure _) fun _ => .pure _

end Lower

section Expressions

variable {t : Table} {key : Position}

theorem lowerArgs_reads {es : List Expr} (h : ∀ e ∈ es, Reads t key e.uses (e.lower .value)) :
    Reads t key (usesAll es) (lowerArgs es) := by
  induction es with
  | nil =>
    rw [lowerArgs]
    exact KeepsRecords.reads (.pure _)
  | cons e rest ih =>
    rw [lowerArgs, usesAll]
    refine Sound.also ((argument_reads (h e (by simp))).mono (by simp +contextual)) fun _ => ?_
    exact Sound.first ((ih fun e he => h e (by simp [he])).mono (by simp +contextual)) fun _ => .pure _

theorem lowerCallee_reads {callee : Expr} (span : Span)
    (h : Reads t key callee.uses (callee.lower .value))
    (ho : ∀ object method at_, callee = .property object method at_ →
      Reads t key object.uses (object.lower .value)) :
    Reads t key callee.uses (lowerCallee span callee) := by
  unfold lowerCallee
  split
  next name at_ =>
    refine Reads.lookup ⟨(name, at_), by simp [Expr.uses], rfl⟩ rfl fun id => ?_
    refine KeepsRecords.reads ((KeepsRecords.symbol id).bind fun x => ?_)
    split
    · exact (KeepsRecords.copyToTemp _).bind fun _ => .pure _
    · exact .pure _
  next object method at_ =>
    rw [Expr.uses]
    exact .last (receiverClass_keepsRecords _) fun _ =>
      Sound.first (argument_reads (ho _ _ _ rfl)) fun _ => .pure _
  next => exact Sound.first h fun _ => .pure _

theorem Expr.lower_reads (e : Expr) (demand : Demand) : Reads t key e.uses (e.lower demand) := by
  induction e generalizing demand with
  | int n => rw [Expr.lower]; exact (KeepsRecords.copyToTemp _).reads
  | str text => rw [Expr.lower]; exact (KeepsRecords.copyToTemp _).reads
  | bool b => rw [Expr.lower]; exact (KeepsRecords.copyToTemp _).reads
  | null => rw [Expr.lower]; exact (KeepsRecords.copyToTemp _).reads
  | ident name span =>
    rw [Expr.lower]
    refine Sound.first (Reads.lookup ⟨(name, span), by simp [Expr.uses], rfl⟩ rfl fun id => ?_)
      fun _ => .pure _
    exact KeepsRecords.reads ((KeepsRecords.symbol id).bind fun _ => .pure _)
  | this => rw [Expr.lower]; exact KeepsRecords.reads (.pure _)
  | array es span ih =>
    rw [Expr.lower, Expr.uses]
    refine Sound.also (literalShape_reads ..) fun shape => Sound.first (.mapM fun p _ => ?_)
      fun _ => KeepsRecords.freshTemp.bind fun _ => .pure _
    refine leafAt_reads (fun act h => ?_) _
    obtain ⟨e, he, rfl⟩ := leaf_of_lowerCells h
    exact (storable_reads (ih e he _)).mono (usesAll_of_leaf es e he)
  | binary l op r span ihl ihr =>
    rw [Expr.lower, Expr.uses]
    refine Sound.also ((ihl _).mono (by simp +contextual)) fun _ => ?_
    exact Sound.first ((ihr _).mono (by simp +contextual)) fun _ => KeepsRecords.freshTemp.bind fun _ => .pure _
  | unary op e span ih =>
    rw [Expr.lower, Expr.uses]
    exact Sound.first (ih _) fun _ => KeepsRecords.freshTemp.bind fun _ => .pure _
  | logical l op r span ihl ihr =>
    rw [Expr.lower, Expr.uses]
    refine Sound.also ((ihl _).mono (by simp +contextual)) fun _ => ?_
    refine .last .freshTemp fun _ => .last .freshLabel fun _ => ?_
    exact Sound.first ((ihr _).mono (by simp +contextual)) fun _ => by
      cases op <;> exact KeepsRecords.pure _
  | ternary c a b span ihc iha ihb =>
    rw [Expr.lower, Expr.uses]
    refine Sound.also ((ihc _).mono (by simp +contextual)) fun _ => ?_
    refine .last .freshLabel fun _ => .last .freshLabel fun _ => ?_
    refine Sound.also ((iha _).mono (by simp +contextual)) fun _ => ?_
    refine .last .freshTemp fun _ => .last .freshLabel fun _ => ?_
    exact Sound.first ((ihb _).mono (by simp +contextual)) fun _ => .pure _
  | call callee args span ihc iho iha =>
    rw [Expr.lower_call, Expr.uses]
    refine Sound.also ((lowerCallee_reads span (ihc _) fun o m at_ he => iho o m at_ he _).mono
      (by simp +contextual)) fun _ => ?_
    exact Sound.first ((lowerArgs_reads fun e he => iha e he _).mono (by simp +contextual))
      fun _ => (finishCall_keepsRecords ..).bind fun _ => KeepsRecords.pure _
  | new name args span ih =>
    rw [Expr.lower, Expr.uses]
    exact Sound.first ((lowerArgs_reads fun e he => ih e he _).mono (by simp +contextual))
      fun _ => KeepsRecords.freshTemp.bind fun _ => .pure _
  | index base i span ihb ihi =>
    rw [Expr.lower, Expr.uses]
    refine Sound.also ((ihb _).mono (by simp +contextual)) fun _ => ?_
    exact Sound.first ((ihi _).mono (by simp +contextual)) fun _ => (KeepsRecords.ensureTemp _).bind fun _ =>
      KeepsRecords.freshTemp.bind fun _ => .pure _
  | property object field span ih =>
    rw [Expr.lower, Expr.uses]
    exact Sound.first (ih _) fun _ => KeepsRecords.freshTemp.bind fun _ => .pure _

theorem leaf_reads (es : List Expr) (path : List Nat) :
    ∀ act ∈ (Nest.row (lowerCells es)).at? path, Reads t key (usesAll es) act := by
  intro act h
  obtain ⟨e, he, rfl⟩ := leaf_of_lowerCells h
  exact (storable_reads (e.lower_reads .value)).mono (usesAll_of_leaf es e he)

theorem lowerIndices_reads (es : List Expr) : Reads t key (usesAll es) (lowerIndices es) := by
  induction es with
  | nil => exact KeepsRecords.reads (.pure _)
  | cons e rest ih =>
    rw [usesAll]
    refine Sound.also ((e.lower_reads _).mono (by simp +contextual)) fun _ =>
      .last (.ensureTemp _) fun _ => ?_
    exact Sound.first (ih.mono (by simp +contextual)) fun _ => .pure _

theorem assignArray_reads (id : SymbolId) (es : List Expr) (span : Span) :
    Reads t key (usesAll es) (assignArray id es span) := by
  refine .last (.symbol id) fun x => Sound.also (literalShape_reads ..) fun shape => ?_
  cases shape with
  | none => exact KeepsRecords.reads (.pure _)
  | some dims => exact storeElements_reads (leaf_reads es)

theorem Target.assign_reads (value : Expr) (span : Span) (target : Target) :
    Reads t key (target.uses span ++ value.uses) (target.assign value span) := by
  have stored : Reads t key (target.uses span ++ value.uses) (storable (value.lower .value)) :=
    (storable_reads (value.lower_reads _)).mono (by simp +contextual)
  cases target with
  | ident name =>
    refine Reads.lookup ⟨(name, span), by simp [Target.uses], rfl⟩ rfl fun id => ?_
    cases value with
    | array es span =>
      exact (assignArray_reads ..).mono (by simp +contextual [Expr.uses])
    | _ => exact .last (.symbol id) fun _ => Sound.first stored fun _ => .pure _
  | index base indices =>
    refine Sound.also ((base.lower_reads _).mono (by simp +contextual [Target.uses])) fun _ => ?_
    refine Sound.also ((lowerIndices_reads _).mono (by simp +contextual [Target.uses])) fun _ => ?_
    exact Sound.first stored fun _ => .pure _
  | property object field =>
    refine Sound.also ((object.lower_reads _).mono (by simp +contextual [Target.uses])) fun _ => ?_
    exact Sound.first stored fun _ => .pure _

theorem Lower.caseTests_reads (subject : Operand) (cases : List Case) :
    Reads t key (cases.flatMap (·.value.uses)) (caseTests subject cases) := by
  induction cases with
  | nil => exact KeepsRecords.reads (.pure _)
  | cons k rest ih =>
    rw [List.flatMap_cons]
    refine Sound.also ((k.value.lower_reads _).mono (by simp +contextual)) fun _ => ?_
    exact .last .freshLabel fun _ => Sound.first (ih.mono (by simp +contextual)) fun _ => .pure _

def optionUses (test : Option Expr) : List Use := (test.map Expr.uses).getD []

theorem Lower.loopTest_reads (test : Option Expr) :
    Reads t key (optionUses test) (loopTest (test.map (·.lower .value))) := by
  cases test with
  | none => exact KeepsRecords.reads (.pure _)
  | some e => exact Sound.first (e.lower_reads _) fun _ => KeepsRecords.freshLabel.bind fun _ => .pure _

end Expressions

end ThreeAddress
