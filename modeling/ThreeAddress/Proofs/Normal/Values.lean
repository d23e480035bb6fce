import ThreeAddress.Proofs.Normal.Rules

namespace ThreeAddress

open Lowering Lower

def Valued.Placed (body : List Stmt) (x : Valued) : Prop := Code.Normal body x.1 ∧ x.2.IsPlace

/-- Code in normal form, with a temporary for the value. -/
def Valued.Held (body : List Stmt) (x : Valued) : Prop := Code.Normal body x.1 ∧ ∃ t, x.2 = .temp t

/-- Code in normal form, with a place for the value where it is wanted. -/
def Valued.Given (body : List Stmt) (demand : Demand) (x : Valued) : Prop :=
  Code.Normal body x.1 ∧ (demand = .value → x.2.IsPlace)

variable {body : List Stmt}

theorem Valued.Held.placed {x : Valued} (h : x.Held body) : x.Placed body := by
  obtain ⟨hc, t, ht⟩ := h
  exact ⟨hc, ht ▸ .temp t⟩

namespace Lower

theorem copyToTemp_held (body : List Stmt) {v : Operand} (h : v.IsPlace) :
    Gives (Valued.Held body) (copyToTemp v) :=
  .seq fun t => .pure ⟨by simp [Instruction.Normal.copy t h], t, rfl⟩

theorem constant_held (body : List Stmt) {v : Operand} (h : v.IsConstant) :
    Gives (Valued.Held body) (copyToTemp v) :=
  .seq fun t => .pure ⟨by simp [Instruction.Normal.constant t h], t, rfl⟩

theorem ensureTemp_held (body : List Stmt) {v : Operand} (h : v.IsPlace) :
    Gives (Valued.Held body) (ensureTemp v) := by
  unfold ensureTemp
  split
  next ht =>
    refine .pure ⟨Code.normal_nil, ?_⟩
    cases h with
    | temp t => exact ⟨t, rfl⟩
    | var name => simp [Operand.isTemp] at ht
  next => exact copyToTemp_held body h

theorem storable_held {act : Lower Valued} (h : Gives (Valued.Placed body) act) :
    Gives (Valued.Held body) (storable act) := by
  refine h.bind ?_
  rintro ⟨code, _⟩ ⟨hc, hv⟩
  cases hv with
  | temp t => exact .pure ⟨hc, t, rfl⟩
  | var name =>
    refine (copyToTemp_held body (.var name)).bind ?_
    rintro ⟨copy, _⟩ ⟨hk, ht⟩
    exact .pure ⟨Code.normal_append.2 ⟨hc, hk⟩, ht⟩

theorem argument_held {act : Lower Valued} (h : Gives (Valued.Placed body) act) :
    Gives (Valued.Held body) (argument act) := by
  refine h.bind ?_
  rintro ⟨code, v⟩ ⟨hc, hv⟩
  refine (copyToTemp_held body hv).bind ?_
  rintro ⟨copy, _⟩ ⟨hk, ht⟩
  exact .pure ⟨Code.normal_append.2 ⟨hc, hk⟩, ht⟩

theorem nameOperand_place (name : String) (span : Span) :
    Gives Operand.IsPlace (nameOperand name span) := by
  refine .seq fun found => ?_
  cases found with
  | none => exact .seq fun _ => .pure (.var name)
  | some id => exact .seq fun x => .pure (.var x.place)

theorem namedCallee_normal (name : String) (span : Span) :
    Gives (fun k => Code.Normal body k.code) (namedCallee name span) := by
  refine .seq fun found => ?_
  cases found with
  | none => exact .seq fun _ => .pure Code.normal_nil
  | some id =>
    refine .seq fun x => ?_
    split
    · refine (copyToTemp_held body (.var "this")).bind ?_
      rintro ⟨copy, _⟩ ⟨hk, _⟩
      exact .pure hk
    · exact .pure Code.normal_nil

theorem finishCall_given (body : List Stmt) (demand : Demand) (callee : String)
    (params : List Operand) : Gives (Valued.Given body demand) (finishCall demand callee params) := by
  cases demand with
  | value => exact .seq fun t => .pure ⟨by simp, fun _ => .temp t⟩
  | effect => exact .pure ⟨by simp, nofun⟩

theorem shortCircuit_placed (op : LogicalOp) {l r : Lower Valued}
    (hl : Gives (Valued.Placed body) l) (hr : Gives (Valued.Placed body) r) :
    Gives (Valued.Placed body) (shortCircuit op l r) := by
  refine hl.bind ?_
  rintro ⟨first, left⟩ ⟨hf, _⟩
  refine .seq fun t => .seq fun done => hr.bind ?_
  rintro ⟨second, right⟩ ⟨hs, hv⟩
  have code (n : Int) (relation : Relation) : Code.Normal body
      (first ++ [.assign (.temp t) (.int n), .branch left relation (.int 0) done]
        ++ second ++ [.assign (.temp t) right, .label done]) := by
    have init : Instruction.Normal body (.assign (.temp t) (.int n)) := .constant t (.int n)
    simpa [hs, Instruction.Normal.copy t hv, init] using hf
  cases op <;> exact .pure ⟨code _ _, .temp t⟩

theorem choose_placed {c a b : Lower Valued} (hc : Gives (Valued.Placed body) c)
    (ha : Gives (Valued.Placed body) a) (hb : Gives (Valued.Placed body) b) :
    Gives (Valued.Placed body) (choose c a b) := by
  refine hc.bind ?_
  rintro ⟨test, condition⟩ ⟨ht, _⟩
  refine .seq fun yes => .seq fun no => ha.bind ?_
  rintro ⟨first, value⟩ ⟨hf, hv⟩
  refine .seq fun t => .seq fun done => hb.bind ?_
  rintro ⟨second, other⟩ ⟨hs, ho⟩
  refine .pure ⟨?_, .temp t⟩
  simpa [hf, hs, Instruction.Normal.copy t hv, Instruction.Normal.copy t ho] using ht

theorem leafAt_held {literal : Nest (Lower Valued)} {zero : Operand} {position : List Nat}
    (h : ∀ act ∈ literal.at? position, Gives (Valued.Held body) act) (hz : zero.IsConstant) :
    Gives (Valued.Held body) (leafAt literal zero position) := by
  unfold leafAt
  cases ha : literal.at? position with
  | none => exact constant_held body hz
  | some act => exact h act ha

theorem elementStore_normal {base value : Operand} (position : List Nat) (hb : base.IsPlace)
    (hv : ∃ t, value = .temp t) : (elementStore base position value).Normal body := by
  obtain ⟨t, rfl⟩ := hv
  refine .store t (.element hb fun i hi => ?_)
  obtain ⟨n, _, rfl⟩ := List.mem_map.1 hi
  exact .int _

theorem elementStores_normal {base : Operand} {places : List (List Nat)} {leaves : List Valued}
    (hb : base.IsPlace) (h : ∀ x ∈ leaves, x.Held body) : Code.Normal body
      (places.zipWith (fun p (_, value) => elementStore base p value) leaves) := by
  intro i hi
  obtain ⟨k, hk, rfl⟩ := List.mem_iff_getElem.1 hi
  rw [List.getElem_zipWith]
  exact elementStore_normal _ hb (h _ (List.getElem_mem _)).2

end Lower

theorem Ty.zero_constant (t : Ty) : t.zero.IsConstant := by
  cases t <;> constructor

theorem lowerArgs_normal {es : List Expr}
    (h : ∀ e ∈ es, Gives (Valued.Placed body) (e.lower .value)) :
    Gives (fun x => Code.Normal body x.1) (lowerArgs es) := by
  induction es with
  | nil =>
    rw [lowerArgs]
    exact .pure Code.normal_nil
  | cons e rest ih =>
    rw [lowerArgs]
    refine (argument_held (h e (by simp))).bind fun x hx => ?_
    exact (ih fun e he => h e (by simp [he])).bind fun y hy => .pure (Code.normal_append.2 ⟨hx.1, hy⟩)

theorem lowerCallee_normal {body : List Stmt} {callee : Expr} (span : Span)
    (h : Gives (Valued.Placed body) (callee.lower .value))
    (ho : ∀ object method at_, callee = .property object method at_ →
      Gives (Valued.Placed body) (object.lower .value)) :
    Gives (fun k => Code.Normal body k.code) (lowerCallee span callee) := by
  unfold lowerCallee
  split
  · exact namedCallee_normal ..
  · exact .seq fun owner => (argument_held (ho _ _ _ rfl)).bind fun x hx => .pure hx.1
  · exact h.bind fun x hx => .pure hx.1

theorem Expr.lower_normal (body : List Stmt) (e : Expr) (demand : Demand) :
    Gives (Valued.Given body demand) (e.lower demand) := by
  have placed {demand : Demand} {act : Lower Valued} (h : Gives (Valued.Placed body) act) :
      Gives (Valued.Given body demand) act := h.mono fun _ hx => ⟨hx.1, fun _ => hx.2⟩
  have held {demand : Demand} {act : Lower Valued} (h : Gives (Valued.Held body) act) :
      Gives (Valued.Given body demand) act := placed (h.mono fun _ hx => hx.placed)
  have value {e : Expr} (h : Gives (Valued.Given body .value) (e.lower .value)) :
      Gives (Valued.Placed body) (e.lower .value) := h.mono fun _ hx => ⟨hx.1, hx.2 rfl⟩
  induction e generalizing demand with
  | int n =>
    rw [Expr.lower]
    exact held (constant_held body (.int n))
  | str text =>
    rw [Expr.lower]
    exact held (constant_held body (.str text))
  | bool b =>
    rw [Expr.lower]
    exact held (constant_held body (.bool b))
  | null =>
    rw [Expr.lower]
    exact held (constant_held body .null)
  | ident name span =>
    rw [Expr.lower]
    exact (nameOperand_place name span).bind fun v hv => .pure ⟨Code.normal_nil, fun _ => hv⟩
  | this =>
    rw [Expr.lower]
    exact .pure ⟨Code.normal_nil, fun _ => .var "this"⟩
  | array es span ih =>
    rw [Expr.lower]
    refine .seq fun shape => (Gives.mapM (P := Valued.Held body) fun p _ =>
      leafAt_held ?_ (.int 0)).bind fun leaves hl => ?_
    · intro act h
      obtain ⟨e, he, rfl⟩ := leaf_of_lowerCells h
      exact storable_held (value (ih e he .value))
    · refine .seq fun t => .pure ⟨?_, fun _ => .temp t⟩
      have code : Code.Normal body (leaves.flatMap (·.1)) := Code.normal_flatMap fun x hx => (hl x hx).1
      exact Code.normal_append.2 ⟨code, elementStores_normal (.temp t) hl⟩
  | binary l op r span ihl ihr =>
    rw [Expr.lower]
    refine (value (ihl _)).bind fun x hx => (value (ihr _)).bind fun y hy => ?_
    refine .seq fun t => .pure ⟨?_, fun _ => .temp t⟩
    simpa [hx.1, hy.1] using Instruction.Normal.binary t op hx.2 hy.2
  | unary op e span ih =>
    rw [Expr.lower]
    refine (value (ih _)).bind fun x hx => .seq fun t => .pure ⟨?_, fun _ => .temp t⟩
    simpa [hx.1] using Instruction.Normal.unary t op hx.2
  | logical l op r span ihl ihr =>
    rw [Expr.lower]
    exact placed (shortCircuit_placed op (value (ihl _)) (value (ihr _)))
  | ternary c a b span ihc iha ihb =>
    rw [Expr.lower]
    exact placed (choose_placed (value (ihc _)) (value (iha _)) (value (ihb _)))
  | call callee args span ihc iho iha =>
    rw [Expr.lower_call]
    refine (lowerCallee_normal span (value (ihc _)) fun object method at_ he =>
      value (iho object method at_ he _)).bind fun k hk => ?_
    refine (lowerArgs_normal fun e he => value (iha e he _)).bind fun x hx => ?_
    refine (finishCall_given body demand _ _).bind fun y hy => .pure ⟨?_, hy.2⟩
    simpa [hk, hx] using hy.1
  | new name args span ih =>
    rw [Expr.lower]
    refine (lowerArgs_normal fun e he => value (ih e he _)).bind fun x hx => .seq fun t => ?_
    exact .pure ⟨by simpa using hx, fun _ => .temp t⟩
  | index base i span ihb ihi =>
    rw [Expr.lower]
    refine (value (ihb _)).bind fun x hx => (value (ihi _)).bind fun y hy => ?_
    refine (ensureTemp_held body hy.2).bind fun z hz => .seq fun t => .pure ⟨?_, fun _ => .temp t⟩
    obtain ⟨hz, u, hu⟩ := hz
    have load : Instruction.Normal body (.assign (.temp t) (.element x.2 [z.2])) :=
      .load t (.element hx.2 (by simpa [hu] using .temp u))
    simpa [hx.1, hy.1, hz] using load
  | property object field span ih =>
    rw [Expr.lower]
    refine (value (ih _)).bind fun x hx => .seq fun t => .pure ⟨?_, fun _ => .temp t⟩
    simpa [hx.1] using Instruction.Normal.load t (.field field hx.2)

theorem Expr.lower_placed (body : List Stmt) (e : Expr) :
    Gives (Valued.Placed body) (e.lower .value) :=
  (e.lower_normal body .value).mono fun _ hx => ⟨hx.1, hx.2 rfl⟩

end ThreeAddress
