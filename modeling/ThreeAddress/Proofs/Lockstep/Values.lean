import ThreeAddress.Proofs.Literals.Shapes
import ThreeAddress.Proofs.Lockstep.States

namespace ThreeAddress

open Lowering Lower

/-- The instruction without the number of its label, and nothing if all that it does is to place a
label or to go to one. -/
def Instruction.unlabeled? : Instruction → Option Instruction
  | .label _ | .goto _ => none
  | .branch left relation right _ => some (.branch left relation right ⟨0⟩)
  | .tryBegin _ => some (.tryBegin ⟨0⟩)
  | i => some i

/-- What is left of code when labels do not count. -/
def Code.skeleton (code : Code) : Code := code.filterMap Instruction.unlabeled?

namespace Code

theorem skeleton_append (a b : Code) : (a ++ b).skeleton = a.skeleton ++ b.skeleton :=
  List.filterMap_append

theorem skeleton_cons (i : Instruction) (code : Code) :
    skeleton (i :: code) = i.unlabeled?.toList ++ code.skeleton := by
  rw [skeleton, List.filterMap_cons, skeleton]
  cases i.unlabeled? <;> rfl

end Code

variable (κ : Comparison)

structure Instruction.Like (i i' : Instruction) : Prop where
  skeleton : i.unlabeled? = i'.unlabeled?
  whole : SameIf κ.labels i i'

structure Code.Like (code code' : Code) : Prop where
  skeleton : code.skeleton = code'.skeleton
  whole : SameIf κ.labels code code'

/-- Code that comes with something else. -/
structure Coded (B : β → β → Prop) (x x' : Code × β) : Prop where
  code : x.1.Like κ x'.1
  rest : B x.2 x'.2

structure Callee.Like (x x' : Callee) : Prop where
  code : x.code.Like κ x'.code
  name : x.name = x'.name
  receiver : x.receiver = x'.receiver

variable {κ}

namespace Instruction.Like

theorem refl (i : Instruction) : i.Like κ i := ⟨rfl, .refl i⟩

variable {l l' : Label} (h : SameIf κ.labels l l')
include h

theorem label : (Instruction.label l).Like κ (.label l') := ⟨rfl, fun p => by rw [h p]⟩

theorem goto : (Instruction.goto l).Like κ (.goto l') := ⟨rfl, fun p => by rw [h p]⟩

theorem branch {x y : Operand} {r : Relation} : (Instruction.branch x r y l).Like κ (.branch x r y l') :=
  ⟨rfl, fun p => by rw [h p]⟩

theorem tryBegin : (Instruction.tryBegin l).Like κ (.tryBegin l') := ⟨rfl, fun p => by rw [h p]⟩

end Instruction.Like

namespace Code.Like

variable {a a' b b' : Code}

theorem refl (code : Code) : code.Like κ code := ⟨rfl, .refl code⟩

instance : Std.Refl (Code.Like κ) := ⟨refl⟩

theorem of_eq (h : a = a') : a.Like κ a' := h ▸ refl a

theorem append (h : a.Like κ a') (k : b.Like κ b') : (a ++ b).Like κ (a' ++ b') where
  skeleton := by rw [skeleton_append, skeleton_append, h.skeleton, k.skeleton]
  whole p := by rw [h.whole p, k.whole p]

theorem cons {i i' : Instruction} (h : i.Like κ i') (k : a.Like κ a') :
    Code.Like κ (i :: a) (i' :: a') where
  skeleton := by rw [skeleton_cons, skeleton_cons, h.skeleton, k.skeleton]
  whole p := by rw [h.whole p, k.whole p]

theorem one {i i' : Instruction} (h : i.Like κ i') : Code.Like κ [i] [i'] := cons h (refl [])

theorem place {l l' : Option Label} (h : SameIf κ.labels l l') :
    Code.Like κ (place l) (Lower.place l') where
  skeleton := by cases l <;> cases l' <;> rfl
  whole p := by rw [h p]

theorem jumps {l l' : Option Label} (h : SameIf κ.labels l l') :
    Code.Like κ (l.toList.map .goto) (l'.toList.map .goto) where
  skeleton := by cases l <;> cases l' <;> rfl
  whole p := by rw [h p]

end Code.Like

instance {B : β → β → Prop} [Std.Refl B] : Std.Refl (Coded κ B) := ⟨fun _ => ⟨.refl _, Std.Refl.refl _⟩⟩

instance : Std.Refl (Callee.Like κ) := ⟨fun _ => ⟨.refl _, rfl, rfl⟩⟩

abbrev Lower.ValueLockstep (κ : Comparison) (act act' : Lower Valued) : Prop :=
  Lockstep κ (Coded κ Eq) act act'

namespace Lower

theorem Lockstep.bind_coded {C : γ → γ → Prop} {act act' : Lower (Code × β)} {f f' : Code × β → Lower γ}
    (h : Lockstep κ (Coded κ Eq) act act')
    (k : ∀ code code' b, code.Like κ code' → Lockstep κ C (f (code, b)) (f' (code', b))) :
    Lockstep κ C (act >>= f) (act' >>= f') := by
  refine h.bind fun (code, b) (code', b') ⟨hc, hb⟩ => ?_
  cases hb
  exact k code code' b hc

theorem copyToTemp_lockstep (v : Operand) : ValueLockstep κ (copyToTemp v) (copyToTemp v) :=
  freshTemp_lockstep.bind_eq fun _ => .pure (Std.Refl.refl _)

theorem ensureTemp_lockstep (v : Operand) : ValueLockstep κ (ensureTemp v) (ensureTemp v) := by
  unfold ensureTemp
  split
  · exact .pure (Std.Refl.refl _)
  · exact copyToTemp_lockstep v

theorem unresolved_lockstep (name : String) {span span' : Span} (h : span.Alike κ.lines span') :
    Lockstep κ (fun _ _ => True) (report (.unresolved name span.line))
      (report (.unresolved name span'.line)) :=
  report_lockstep (.unresolved h)

theorem nameOperand_lockstep (name : String) {span span' : Span} (h : span.Alike κ.lines span') :
    Lockstep κ Eq (nameOperand name span) (nameOperand name span') :=
  lookup_lockstep name ((unresolved_lockstep name h).seq fun _ _ => .pure rfl)
    ((report_reportsMissing _).bind_pure _)
    fun id => (symbol_lockstep id).bind fun _ _ hx => .pure (by rw [hx.place])

section Valued

variable {act act' l l' r r' : Lower Valued}

theorem storable_lockstep (h : ValueLockstep κ act act') : ValueLockstep κ (storable act) (storable act') := by
  refine h.bind_coded fun code code' value hc => ?_
  cases value with
  | var name => exact (copyToTemp_lockstep _).bind_coded fun _ _ _ hx => .pure ⟨hc.append hx, rfl⟩
  | _ => exact .pure ⟨hc, rfl⟩

theorem argument_lockstep (h : ValueLockstep κ act act') : ValueLockstep κ (argument act) (argument act') :=
  h.bind_coded fun _ _ _ hc => (copyToTemp_lockstep _).bind_coded fun _ _ _ hx =>
    .pure ⟨hc.append hx, rfl⟩

theorem shortCircuit_lockstep (op : LogicalOp) (hl : ValueLockstep κ l l') (hr : ValueLockstep κ r r') :
    ValueLockstep κ (shortCircuit op l r) (shortCircuit op l' r') := by
  refine hl.bind_coded fun first first' left hf => freshTemp_lockstep.bind_eq fun t =>
    freshLabel_lockstep.bind fun d d' hd => hr.bind_coded fun second second' right hs => ?_
  cases op <;> exact .pure ⟨((hf.append <| .cons (.refl _) <| .one (.branch hd)).append hs).append <|
    .cons (.refl _) <| .one (.label hd), rfl⟩

theorem choose_lockstep (h : ValueLockstep κ act act') (hl : ValueLockstep κ l l') (hr : ValueLockstep κ r r') :
    ValueLockstep κ (choose act l r) (choose act' l' r') := by
  refine h.bind_coded fun test test' v ht => freshLabel_lockstep.bind fun yes yes' hyes =>
    freshLabel_lockstep.bind fun no no' hno => hl.bind_coded fun first first' left hf =>
    freshTemp_lockstep.bind_eq fun t => freshLabel_lockstep.bind fun d d' hd =>
    hr.bind_coded fun second second' right hs => ?_
  have hjumps : Code.Like κ [.branch v .eq (.bool true) yes, .goto no, .label yes]
      [.branch v .eq (.bool true) yes', .goto no', .label yes'] :=
    .cons (.branch hyes) <| .cons (.goto hno) <| .one (.label hyes)
  have hmiddle : Code.Like κ [.assign (.temp t) left, .goto d, .label no]
      [.assign (.temp t) left, .goto d', .label no'] :=
    .cons (.refl _) <| .cons (.goto hd) <| .one (.label hno)
  exact .pure ⟨((((ht.append hjumps).append hf).append hmiddle).append hs).append <|
    .cons (.refl _) <| .one (.label hd), rfl⟩

end Valued

theorem namedCallee_lockstep (name : String) {span span' : Span} (h : span.Alike κ.lines span') :
    Lockstep κ (Callee.Like κ) (namedCallee name span) (namedCallee name span') := by
  refine lookup_lockstep name ((unresolved_lockstep name h).seq fun _ _ => .pure (Std.Refl.refl _))
    ((report_reportsMissing _).bind_pure _) fun id => (symbol_lockstep id).bind fun x x' hx => ?_
  rw [hx.isCallable, hx.owner, hx.qualifiedName]
  split
  · exact (copyToTemp_lockstep _).bind_coded fun _ _ _ hy => .pure ⟨hy, rfl, rfl⟩
  · exact .pure (Std.Refl.refl _)

theorem finishCall_lockstep (demand : Demand) (callee : String) (params : List Operand) :
    ValueLockstep κ (finishCall demand callee params) (finishCall demand callee params) := by
  cases demand with
  | value => exact freshTemp_lockstep.bind_eq fun _ => .pure (Std.Refl.refl _)
  | effect => exact .pure (Std.Refl.refl _)

/-- As long as it is not asked what the leaves are, the nests are the same. -/
structure SameShape (n n' : Nest (Lower Valued)) : Prop where
  extents : n.extents = n'.extents
  conforms : ∀ dims, n.conforms dims = n'.conforms dims
  padded : n.padded = n'.padded

namespace SameShape

variable {n n' : Nest (Lower Valued)}

theorem iff_fits : SameShape n n' ↔ n.Fits n' :=
  ⟨fun h => ⟨h.extents, h.conforms, h.padded⟩, fun h => ⟨h.extents, h.conforms, h.padded⟩⟩

theorem shape? (h : SameShape n n') (policy : RaggedArrays) : n.shape? policy = n'.shape? policy :=
  (iff_fits.1 h).shape? policy

theorem leaf (act act' : Lower Valued) : SameShape (.leaf act) (.leaf act') :=
  iff_fits.2 (.leaf act act')

theorem row {cells cells' : List (Nest (Lower Valued))} (h : List.Forall₂ SameShape cells cells') :
    SameShape (.row cells) (.row cells') :=
  iff_fits.2 (.row (h.imp fun _ _ => iff_fits.1))

end SameShape

theorem literalShape_lockstep (name : String) {span span' : Span} {n n' : Nest (Lower Valued)}
    (h : span.Alike κ.lines span') (hn : SameShape n n') :
    Lockstep κ Eq (literalShape name span n) (literalShape name span' n') := by
  refine read_lockstep.bind fun c c' hc => ?_
  rw [hc.raggedArrays, hn.shape?]
  dsimp only
  split
  · exact (report_lockstep (.ragged h)).seq fun _ _ => .pure rfl
  · exact .pure rfl

instance {B : β → β → Prop} [Std.Refl B] : Std.Refl (List.Forall₂ B) :=
  ⟨fun _ => List.forall₂_same.2 fun _ _ => Std.Refl.refl _⟩

theorem mapM_lockstep {B : β → β → Prop} [Std.Refl B] {f f' : α → Lower β} {xs : List α}
    (h : ∀ a ∈ xs, Lockstep κ B (f a) (f' a)) : Lockstep κ (List.Forall₂ B) (xs.mapM f) (xs.mapM f') := by
  induction xs with
  | nil => exact .pure .nil
  | cons a rest ih =>
    rw [List.mapM_cons, List.mapM_cons]
    exact (h a (by simp)).bind fun _ _ ha => (ih fun b hb => h b (by simp [hb])).bind fun _ _ hr =>
      .pure (.cons ha hr)

/-- Where a leaf stands on one side, a leaf stands on the other. -/
structure SameLeaves (κ : Comparison) (n n' : Nest (Lower Valued)) : Prop where
  at? : ∀ path, Option.Rel (ValueLockstep κ) (n.at? path) (n'.at? path)

theorem SameLeaves.leaf {act act' : Lower Valued} (h : ValueLockstep κ act act') :
    SameLeaves κ (.leaf (storable act)) (.leaf (storable act')) where
  at? path := by
    cases path with
    | nil => exact .some (storable_lockstep h)
    | cons => exact .none

theorem SameLeaves.row {cells cells' : List (Nest (Lower Valued))}
    (h : List.Forall₂ (SameLeaves κ) cells cells') : SameLeaves κ (.row cells) (.row cells') where
  at? path := by
    cases path with
    | nil => exact .none
    | cons i path =>
      rw [Nest.at?, Nest.at?]
      induction h generalizing i with
      | nil => exact .none
      | cons h _ ih =>
        cases i with
        | zero => exact h.at? path
        | succ i => exact ih i

theorem leafAt_lockstep {n n' : Nest (Lower Valued)} (h : SameLeaves κ n n') (zero : Operand)
    (path : List Nat) : ValueLockstep κ (leafAt n zero path) (leafAt n' zero path) := by
  have h := h.at? path
  unfold leafAt
  generalize n.at? path = x, n'.at? path = x' at h ⊢
  cases h with
  | some h => exact h
  | none => exact copyToTemp_lockstep zero

theorem literalValue_lockstep {n n' : Nest (Lower Valued)} {span span' : Span}
    (h : span.Alike κ.lines span') (hn : SameShape n n') (hl : SameLeaves κ n n') :
    ValueLockstep κ (literalValue n span) (literalValue n' span') := by
  refine (literalShape_lockstep _ h hn).bind_eq fun shape =>
    (mapM_lockstep fun p _ => leafAt_lockstep hl _ p).bind fun leaves leaves' hleaves =>
    freshTemp_lockstep.bind_eq fun t => .pure ⟨.append ?_ ?_, rfl⟩
  · induction hleaves with
    | nil => exact .refl _
    | cons hx _ ih =>
      rw [List.flatMap_cons, List.flatMap_cons]
      exact hx.code.append ih
  · refine .of_eq ?_
    generalize positions (shape.getD []) = places
    induction hleaves generalizing places with
    | nil => rfl
    | cons hx _ ih =>
      cases places with
      | nil => rfl
      | cons p places => simp only [List.zipWith_cons_cons, hx.rest, ih places]

end Lower

/-- All that lowering does with an expression, in two runs: its value, the cell of a literal that it
fills, and what a call of it or of one of its methods begins with. -/
structure Expr.Lockstep (κ : Comparison) (e e' : Expr) : Prop where
  value : ∀ demand, ValueLockstep κ (e.lower demand) (e'.lower demand)
  shape : SameShape e.cell e'.cell
  leaves : SameLeaves κ e.cell e'.cell
  callee : ∀ {a b : Span}, a.Alike κ.lines b →
    Lower.Lockstep κ (Callee.Like κ) (lowerCallee a e) (lowerCallee b e')
  method : ∀ name (a b at_ at' : Span),
    Lower.Lockstep κ (Callee.Like κ) (lowerCallee a (.property e name at_))
      (lowerCallee b (.property e' name at'))

namespace Lower

section Callees

variable {e e' : Expr}

theorem valueCallee_lockstep (hv : ValueLockstep κ (e.lower .value) (e'.lower .value)) :
    Lockstep κ (Callee.Like κ)
      (do let (code, value) ← e.lower .value; pure ⟨code, value.render, []⟩)
      (do let (code, value) ← e'.lower .value; pure ⟨code, value.render, []⟩) :=
  hv.bind_coded fun _ _ _ hc => .pure ⟨hc, rfl, rfl⟩

theorem receiver_lockstep (hv : ValueLockstep κ (e.lower .value) (e'.lower .value)) (owner : Option String)
    (name : String) : Lockstep κ (Callee.Like κ)
      (do let (code, receiver) ← argument (e.lower .value)
          pure ⟨code, methodName owner name, [receiver]⟩)
      (do let (code, receiver) ← argument (e'.lower .value)
          pure ⟨code, methodName owner name, [receiver]⟩) :=
  (argument_lockstep hv).bind_coded fun _ _ _ hc => .pure ⟨hc, rfl, rfl⟩

theorem methodCallee_lockstep (hv : ValueLockstep κ (e.lower .value) (e'.lower .value))
    (hr : Lockstep κ Eq (receiverClass e) (receiverClass e')) (name : String) (a b at_ at' : Span) :
    Lockstep κ (Callee.Like κ) (lowerCallee a (.property e name at_))
      (lowerCallee b (.property e' name at')) :=
  hr.bind_eq fun owner => receiver_lockstep hv owner name

theorem ident_lockstep {n : String} {a b : Span} (h : a.Alike κ.lines b) (d : Demand) :
    ValueLockstep κ ((Expr.ident n a).lower d) ((Expr.ident n b).lower d) := by
  rw [Expr.lower, Expr.lower]
  exact (nameOperand_lockstep n h).bind_eq fun _ => .pure (Std.Refl.refl _)

/-- The class of a receiver that only the right table declares makes no difference: the receiver
itself is missing in the left run. -/
theorem identCallee_lockstep {n : String} {a b : Span} (h : a.Alike κ.lines b) (name : String)
    (p q at_ at' : Span) : Lockstep κ (Callee.Like κ) (lowerCallee p (.property (.ident n a) name at_))
      (lowerCallee q (.property (.ident n b) name at')) := by
  have hm (owner : Option String) := receiver_lockstep (ident_lockstep (n := n) h .value) owner name
  simp only [lowerCallee, receiverClass, bind_assoc]
  refine lookup_lockstep n ?_ ?_ fun id => ?_
  · simpa only [pure_bind] using hm none
  · rw [pure_bind, Expr.lower]
    refine ReportsMissing.bind (ReportsMissing.bind (ReportsMissing.bind_pure (lookup_reportsMissing ?_) _) ?_)
      fun _ => .pure _
    · exact (report_reportsMissing _).bind_pure _
    · exact fun _ => (copyToTemp_keeps _).bind fun _ => .pure _
  · simp only [bind_assoc]
    refine (symbol_lockstep id).bind fun x x' hx => ?_
    rw [hx.type]
    cases x'.type <;> simpa only [pure_bind] using hm _

end Callees

end Lower

namespace Expr.Lockstep

variable {e e' : Expr}

theorem plain (hv : ∀ demand, ValueLockstep κ (e.lower demand) (e'.lower demand))
    (hr : Lower.Lockstep κ Eq (receiverClass e) (receiverClass e'))
    (hc : e.cell = .leaf (storable (e.lower .value)))
    (hc' : e'.cell = .leaf (storable (e'.lower .value)))
    (hl : ∀ a, lowerCallee a e = do let (code, value) ← e.lower .value; pure ⟨code, value.render, []⟩)
    (hl' : ∀ a, lowerCallee a e' =
      do let (code, value) ← e'.lower .value; pure ⟨code, value.render, []⟩) : e.Lockstep κ e' where
  value := hv
  shape := by
    rw [hc, hc']
    exact .leaf _ _
  leaves := by
    rw [hc, hc']
    exact .leaf (hv _)
  callee _ := by
    rw [hl, hl']
    exact valueCallee_lockstep (hv _)
  method := methodCallee_lockstep (hv _) hr

end Expr.Lockstep

theorem lowerArgs_lockstep {es es' : List Expr} (h : List.Forall₂ (Expr.Lockstep κ) es es') :
    Lower.Lockstep κ (Coded κ Eq) (lowerArgs es) (lowerArgs es') := by
  induction h with
  | nil =>
    rw [lowerArgs]
    exact .pure (Std.Refl.refl _)
  | cons he _ ih =>
    rw [lowerArgs, lowerArgs]
    exact (argument_lockstep (he.value _)).bind_coded fun _ _ _ hc => ih.bind_coded fun _ _ _ hr =>
      .pure ⟨hc.append hr, rfl⟩

theorem Expr.Alike.lockstep {e e' : Expr} (h : e.Alike κ.lines e') : e.Lockstep κ e' := by
  apply Expr.Alike.induction (P := Expr.Lockstep κ) (h := h)
  case int =>
    intro n a b _
    refine .plain (fun _ => ?_) (.pure rfl) rfl rfl (fun _ => rfl) fun _ => rfl
    rw [Expr.lower, Expr.lower]
    exact copyToTemp_lockstep _
  case str =>
    intro text a b _
    refine .plain (fun _ => ?_) (.pure rfl) rfl rfl (fun _ => rfl) fun _ => rfl
    rw [Expr.lower, Expr.lower]
    exact copyToTemp_lockstep _
  case bool =>
    intro x a b _
    refine .plain (fun _ => ?_) (.pure rfl) rfl rfl (fun _ => rfl) fun _ => rfl
    rw [Expr.lower, Expr.lower]
    exact copyToTemp_lockstep _
  case null =>
    intro a b _
    refine .plain (fun _ => ?_) (.pure rfl) rfl rfl (fun _ => rfl) fun _ => rfl
    rw [Expr.lower, Expr.lower]
    exact copyToTemp_lockstep _
  case this =>
    intro a b _
    refine .plain (fun _ => ?_) (read_lockstep.bind fun _ _ hc => .pure hc.className) rfl rfl
      (fun _ => rfl) fun _ => rfl
    rw [Expr.lower, Expr.lower]
    exact .pure (Std.Refl.refl _)
  case ident =>
    intro name a b h
    exact {
      value := ident_lockstep h, shape := .leaf _ _, leaves := .leaf (ident_lockstep h _)
      callee := fun h => namedCallee_lockstep name h
      method := identCallee_lockstep h }
  case array =>
    intro es es' a b hes h
    have hc : ∀ {es : List Expr}, Nest.row (lowerCells es) = .row (es.map Expr.cell) :=
      congrArg Nest.row (lowerCells_eq_map _)
    -- literals are checked by the shape of their cells; only the leaves are lowered
    have hs : SameShape (.row (es.map Expr.cell)) (.row (es'.map Expr.cell)) :=
      .row <| List.forall₂_map_left_iff.2 <| List.forall₂_map_right_iff.2 <| hes.imp fun _ _ h => h.shape
    have hl : SameLeaves κ (.row (es.map Expr.cell)) (.row (es'.map Expr.cell)) :=
      .row <| List.forall₂_map_left_iff.2 <| List.forall₂_map_right_iff.2 <| hes.imp fun _ _ h => h.leaves
    have hv (d : Demand) : ValueLockstep κ ((Expr.array es a).lower d) ((Expr.array es' b).lower d) := by
      rw [Expr.lower, Expr.lower, hc, hc]
      exact literalValue_lockstep h hs hl
    exact {
      value := hv
      shape := by rwa [Expr.cell_array, Expr.cell_array]
      leaves := by rwa [Expr.cell_array, Expr.cell_array]
      callee := fun _ => valueCallee_lockstep (hv _)
      method := methodCallee_lockstep (hv _) (.pure rfl) }
  case binary =>
    intro op l l' r r' a b hl hr _
    refine .plain (fun _ => ?_) (.pure rfl) rfl rfl (fun _ => rfl) fun _ => rfl
    rw [Expr.lower, Expr.lower]
    exact (hl.value _).bind_coded fun _ _ _ hx => (hr.value _).bind_coded fun _ _ _ hy =>
      freshTemp_lockstep.bind_eq fun _ => .pure ⟨(hx.append hy).append (.refl _), rfl⟩
  case unary =>
    intro op e e' a b he _
    refine .plain (fun _ => ?_) (.pure rfl) rfl rfl (fun _ => rfl) fun _ => rfl
    rw [Expr.lower, Expr.lower]
    exact (he.value _).bind_coded fun _ _ _ hx => freshTemp_lockstep.bind_eq fun _ =>
      .pure ⟨hx.append (.refl _), rfl⟩
  case logical =>
    intro op l l' r r' a b hl hr _
    refine .plain (fun _ => ?_) (.pure rfl) rfl rfl (fun _ => rfl) fun _ => rfl
    rw [Expr.lower, Expr.lower]
    exact shortCircuit_lockstep op (hl.value _) (hr.value _)
  case ternary =>
    intro c c' x x' y y' a b hc hx hy _
    refine .plain (fun _ => ?_) (.pure rfl) rfl rfl (fun _ => rfl) fun _ => rfl
    rw [Expr.lower, Expr.lower]
    exact choose_lockstep (hc.value _) (hx.value _) (hy.value _)
  case call =>
    intro callee callee' args args' a b hc ha h
    refine .plain (fun d => ?_) (.pure rfl) rfl rfl (fun _ => rfl) fun _ => rfl
    rw [Expr.lower_call, Expr.lower_call]
    refine (hc.callee h).bind fun x x' hx => (lowerArgs_lockstep ha).bind_coded fun _ _ params hy => ?_
    rw [hx.name, hx.receiver]
    exact (finishCall_lockstep d _ _).bind_coded fun _ _ _ hz =>
      .pure ⟨(hx.code.append hy).append hz, rfl⟩
  case new =>
    intro name args args' a b ha _
    refine .plain (fun _ => ?_) (.pure rfl) rfl rfl (fun _ => rfl) fun _ => rfl
    rw [Expr.lower, Expr.lower]
    exact (lowerArgs_lockstep ha).bind_coded fun _ _ _ hx => freshTemp_lockstep.bind_eq fun _ =>
      .pure ⟨hx.append (.refl _), rfl⟩
  case index =>
    intro base base' i i' a b hb hi _
    refine .plain (fun _ => ?_) (.pure rfl) rfl rfl (fun _ => rfl) fun _ => rfl
    rw [Expr.lower, Expr.lower]
    exact (hb.value _).bind_coded fun _ _ _ hx => (hi.value _).bind_coded fun _ _ _ hy =>
      (ensureTemp_lockstep _).bind_coded fun _ _ _ hz => freshTemp_lockstep.bind_eq fun _ =>
      .pure ⟨((hx.append hy).append hz).append (.refl _), rfl⟩
  case property =>
    intro field o o' a b ho _
    have hv (d : Demand) : ValueLockstep κ ((Expr.property o field a).lower d)
        ((Expr.property o' field b).lower d) := by
      rw [Expr.lower, Expr.lower]
      exact (ho.value _).bind_coded fun _ _ _ hx => freshTemp_lockstep.bind_eq fun _ =>
        .pure ⟨hx.append (.refl _), rfl⟩
    exact {
      value := hv, shape := .leaf _ _, leaves := .leaf (hv _)
      callee := fun _ => ho.method field _ _ _ _
      method := methodCallee_lockstep (hv _) (.pure rfl) }

end ThreeAddress
