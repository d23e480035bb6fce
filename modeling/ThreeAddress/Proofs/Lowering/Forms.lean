import ThreeAddress.Compile
import ThreeAddress.Proofs.Lowering.Runs
import ThreeAddress.Proofs.Source.Induction

namespace ThreeAddress

open Lowering

namespace Lower

variable {c : Context} {s s' : State} {code : Code} {x : Valued}

theorem runs_storable {act : Lower Valued} :
    Runs (storable act) c s x s' ↔
      ∃ y s₁, Runs act c s y s₁ ∧
        ((∃ name, y.2 = .var name ∧ s₁.ledger.temps + 1 < word32 ∧ s' = s₁.nextTemp ∧
            x = (y.1 ++ [.assign (.temp s₁.temp) y.2], .temp s₁.temp)) ∨
          ((∀ name, y.2 ≠ .var name) ∧ s' = s₁ ∧ x = y)) := by
  simp only [storable, runs_bind, Prod.exists]
  refine exists_congr fun y => exists_congr fun v => exists_congr fun s₁ => and_congr_right' ?_
  cases v with
  | var name =>
    constructor
    · simp only [runs_bind, runs_copyToTemp, runs_pure, Prod.exists, Prod.mk.injEq]
      rintro ⟨_, _, _, ⟨hw, rfl, rfl, rfl⟩, rfl, rfl⟩
      exact .inl ⟨name, rfl, hw, rfl, rfl⟩
    · rintro (⟨_, _, hw, rfl, rfl⟩ | ⟨h, _⟩)
      · simp [runs_copyToTemp, hw]
      · exact absurd rfl (h name)
  | _ => simp [and_comm]

theorem runs_argument {act : Lower Valued} :
    Runs (argument act) c s x s' ↔
      ∃ y s₁, Runs act c s y s₁ ∧ s₁.ledger.temps + 1 < word32 ∧ s' = s₁.nextTemp ∧
        x = (y.1 ++ [.assign (.temp s₁.temp) y.2], .temp s₁.temp) := by
  simp [argument, runs_copyToTemp, and_assoc]

theorem runs_nameOperand {name : String} {span : Span} {v : Operand}
    (h : Runs (nameOperand name span) c s v s') :
    (s.table.lookup c.scope name = .ok none ∧ v = .var name ∧
      s' = s.report (.unresolved name span.line)) ∨
    (∃ id y, s.table.lookup c.scope name = .ok (some id) ∧ s.table.symbol id = .ok y ∧
      v = .var y.place ∧ s' = s) := by
  simp only [nameOperand, runs_bind, runs_lookup] at h
  obtain ⟨found, _, ⟨hl, rfl⟩, h⟩ := h
  cases found with
  | none => exact .inl ⟨hl, by simpa [and_comm] using h⟩
  | some id =>
    simp only [runs_bind, runs_symbol, runs_pure] at h
    obtain ⟨y, _, ⟨hy, rfl⟩, rfl, rfl⟩ := h
    exact .inr ⟨id, y, hl, hy, rfl, rfl⟩

theorem runs_namedCallee {name : String} {span : Span} {k : Callee}
    (h : Runs (namedCallee name span) c s k s') :
    (s.table.lookup c.scope name = .ok none ∧ k = ⟨[], name, []⟩ ∧
      s' = s.report (.unresolved name span.line)) ∨
    (∃ id y, s.table.lookup c.scope name = .ok (some id) ∧ s.table.symbol id = .ok y ∧
      (((y.isCallable ∧ y.owner.isSome) ∧ ∃ z, Runs (copyToTemp (.var "this")) c s z s' ∧
          k = ⟨z.1, y.qualifiedName, [z.2]⟩) ∨
        (¬(y.isCallable ∧ y.owner.isSome) ∧ k = ⟨[], y.qualifiedName, []⟩ ∧ s' = s))) := by
  simp only [namedCallee, runs_bind, runs_lookup] at h
  obtain ⟨found, _, ⟨hl, rfl⟩, h⟩ := h
  cases found with
  | none => exact .inl ⟨hl, by simpa [and_comm] using h⟩
  | some id =>
    simp only [runs_bind, runs_symbol] at h
    obtain ⟨y, _, ⟨hy, rfl⟩, h⟩ := h
    refine .inr ⟨id, y, hl, hy, ?_⟩
    split at h
    next hm =>
      simp only [runs_bind, runs_pure] at h
      obtain ⟨z, _, hz, rfl, rfl⟩ := h
      exact .inl ⟨hm, z, hz, rfl⟩
    next hm => exact .inr ⟨hm, runs_pure.1 h⟩

theorem runs_shortCircuit {op : LogicalOp} {l r : Lower Valued} :
    Runs (shortCircuit op l r) c s x s' ↔
      ∃ first left s₁ second right, Runs l c s (first, left) s₁ ∧
        s₁.ledger.temps + 1 < word32 ∧ s₁.ledger.labels + 1 < word32 ∧
        Runs r c s₁.nextTemp.nextLabel (second, right) s' ∧
        x = (first ++ [.assign (.temp s₁.temp) (.int (if op = .and then 0 else 1)),
            .branch left (if op = .and then .eq else .ne) (.int 0) s₁.label] ++ second
            ++ [.assign (.temp s₁.temp) right, .label s₁.label], .temp s₁.temp) := by
  cases op <;> simp [shortCircuit, runs_freshTemp, runs_freshLabel, and_assoc]

theorem runs_choose {test a b : Lower Valued} :
    Runs (choose test a b) c s x s' ↔
      ∃ head v s₁, Runs test c s (head, v) s₁ ∧
        s₁.ledger.labels + 1 < word32 ∧ s₁.ledger.labels + 1 + 1 < word32 ∧
        ∃ first left s₂, Runs a c s₁.nextLabel.nextLabel (first, left) s₂ ∧
        s₂.ledger.temps + 1 < word32 ∧ s₂.ledger.labels + 1 < word32 ∧
        ∃ second right, Runs b c s₂.nextTemp.nextLabel (second, right) s' ∧
        x = (head ++ [.branch v .eq (.bool true) s₁.label, .goto s₁.nextLabel.label,
            .label s₁.label] ++ first ++ [.assign (.temp s₂.temp) left, .goto s₂.nextTemp.label,
            .label s₁.nextLabel.label] ++ second
            ++ [.assign (.temp s₂.temp) right, .label s₂.nextTemp.label], .temp s₂.temp) := by
  simp [choose, runs_freshTemp, runs_freshLabel, and_assoc]

theorem runs_ifThen {test : Lower Valued} {body : Lower Code} :
    Runs (ifThen test body) c s code s' ↔
      ∃ head v s₁, Runs test c s (head, v) s₁ ∧ s₁.ledger.labels + 1 < word32 ∧
        ∃ inner, Runs body c s₁.nextLabel inner s' ∧
        code = head ++ .branch v .eq (.int 0) s₁.label :: inner ++ [.label s₁.label] := by
  simp [ifThen, runs_freshLabel, and_assoc]

theorem runs_ifThenElse {test : Lower Valued} {body other : Lower Code} :
    Runs (ifThenElse test body other) c s code s' ↔
      ∃ head v s₁, Runs test c s (head, v) s₁ ∧ s₁.ledger.labels + 1 < word32 ∧
        ∃ first s₂, Runs body c s₁.nextLabel first s₂ ∧ s₂.ledger.labels + 1 < word32 ∧
        ∃ second, Runs other c s₂.nextLabel second s' ∧
        code = head ++ .branch v .eq (.int 0) s₁.label :: first
          ++ .goto s₂.label :: .label s₁.label :: second ++ [.label s₂.label] := by
  simp [ifThenElse, runs_freshLabel, and_assoc]

theorem runs_whileLoop {test : Lower Valued} {body : Lower Code} :
    Runs (whileLoop test body) c s code s' ↔
      s.ledger.labels + 1 < word32 ∧ ∃ head v s₁, Runs test c s.nextLabel (head, v) s₁ ∧
        s₁.ledger.labels + 1 < word32 ∧
        ∃ inner s₂, Runs body c (s₁.nextLabel.enterLoop (some s₁.label) (some s.label)) inner s₂ ∧
        s' = s₂.exitLoop ∧
        code = .label s.label :: head ++ .branch v .eq (.int 0) s₁.label :: inner
          ++ [.goto s.label, .label s₁.label] := by
  simp [whileLoop, runs_freshLabel, Ledger.runs_enterLoop, Ledger.runs_exitLoop, and_assoc]

theorem runs_doWhile {test : Lower Valued} {body : Lower Code} :
    Runs (doWhile body test) c s code s' ↔
      s.ledger.labels + 1 < word32 ∧
        ∃ inner s₁, Runs body c (s.nextLabel.enterLoop none (some s.label)) inner s₁ ∧
        ∃ tail v s₂, Runs test c s₁ (tail, v) s₂ ∧ s' = s₂.exitLoop ∧
        code = .label s.label :: inner ++ tail ++ .branch v .ne (.int 0) s.label
          :: place s₂.breakLabel? := by
  simp [doWhile, runs_freshLabel, Ledger.runs_enterLoop, Ledger.runs_exitLoop, and_assoc]

theorem runs_loopTest {test : Option (Lower Valued)} {y : Code × Option Label} :
    Runs (loopTest test) c s y s' ↔
      (test = none ∧ y = ([], none) ∧ s' = s) ∨
      (∃ act head v s₁, test = some act ∧ Runs act c s (head, v) s₁ ∧
        s₁.ledger.labels + 1 < word32 ∧ s' = s₁.nextLabel ∧
        y = (head ++ [.branch v .eq (.int 0) s₁.label], some s₁.label)) := by
  cases test <;> simp [loopTest, runs_freshLabel, and_assoc]

theorem runs_forLoop {first : Lower Code} {test : Option (Lower Valued)} {hasStep : Bool}
    {step body : Lower Code} :
    Runs (forLoop first test hasStep step body) c s code s' ↔
      ∃ head s₁, Runs first c s head s₁ ∧ s₁.ledger.labels + 1 < word32 ∧
        ∃ check done s₂, Runs (loopTest test) c s₁.nextLabel (check, done) s₂ ∧
        ∃ inner s₃, Runs body c
          (s₂.enterLoop done (if hasStep then none else some s₁.label)) inner s₃ ∧
        ∃ tail, Runs step c s₃.exitLoop tail s' ∧
        code = head ++ .label s₁.label :: check ++ inner
          ++ (if hasStep then place s₃.continueLabel? ++ tail else tail)
          ++ .goto s₁.label :: place s₃.breakLabel? := by
  simp [forLoop, runs_freshLabel, Ledger.runs_enterLoop, Ledger.runs_exitLoop, and_assoc]

theorem runs_indexLoop {base bound : Operand} {item : String} {bind : Lower Unit}
    {body : Lower Code} :
    Runs (indexLoop base bound item bind body) c s code s' ↔
      s.ledger.temps + 1 < word32 ∧ s.ledger.temps + 1 + 1 < word32 ∧
        ∃ u s₁, Runs bind c s.nextTemp.nextTemp u s₁ ∧ s₁.ledger.labels + 1 < word32 ∧
        s₁.ledger.temps + 1 < word32 ∧ s₁.ledger.labels + 1 + 1 < word32 ∧
        s₁.ledger.temps + 1 + 1 < word32 ∧
        ∃ inner s₂, Runs body c (s₁.nextLabel.nextTemp.nextLabel.nextTemp.enterLoop
          (some s₁.nextLabel.nextTemp.label) none) inner s₂ ∧ s' = s₂.exitLoop ∧
        code = [.assign (.temp s.temp) (.int 0), .assign (.temp s.nextTemp.temp) bound,
          .label s₁.label, .binary (.temp s₁.nextLabel.temp) (.temp s.temp) .lt
            (.temp s.nextTemp.temp),
          .branch (.temp s₁.nextLabel.temp) .eq (.int 0) s₁.nextLabel.nextTemp.label,
          .assign (.temp s₁.nextLabel.nextTemp.nextLabel.temp) (.element base [.temp s.temp]),
          .assign (.var item) (.temp s₁.nextLabel.nextTemp.nextLabel.temp)]
          ++ inner ++ place s₂.continueLabel?
          ++ [.binary (.temp s.temp) (.temp s.temp) .add (.int 1), .goto s₁.label,
            .label s₁.nextLabel.nextTemp.label] := by
  simp [indexLoop, runs_copyToTemp, runs_freshTemp, runs_freshLabel, Ledger.runs_enterLoop,
    Ledger.runs_exitLoop, and_assoc]

theorem runs_caseTests_cons {subject : Operand} {k : Case} {rest : List Case}
    {y : Code × List Label} :
    Runs (caseTests subject (k :: rest)) c s y s' ↔
      ∃ head v s₁, Runs (k.value.lower .value) c s (head, v) s₁ ∧ s₁.ledger.labels + 1 < word32 ∧
        ∃ tests labels, Runs (caseTests subject rest) c s₁.nextLabel (tests, labels) s' ∧
        y = (head ++ .branch subject .eq v s₁.label :: tests, s₁.label :: labels) := by
  simp [caseTests, runs_freshLabel, and_assoc]

theorem runs_gotoBreak :
    Runs gotoBreak c s code s' ↔
      ∃ l?, Runs (account Ledger.breakLabel) c s l? s' ∧ code = l?.toList.map .goto := by
  simp [gotoBreak]

theorem length_caseTests {subject : Operand} {cases : List Case} {y : Code × List Label}
    (h : Runs (caseTests subject cases) c s y s') : y.2.length = cases.length := by
  induction cases generalizing s y with
  | nil =>
    obtain ⟨rfl, _⟩ := runs_pure.1 h
    rfl
  | cons k rest ih =>
    obtain ⟨_, _, _, _, _, tests, labels, hr, rfl⟩ := runs_caseTests_cons.1 h
    simpa using ih hr

theorem runs_caseBody {l : Label} {isEmpty : Bool} {body : Lower Code} :
    Runs (caseBody l isEmpty body) c s code s' ↔
      ∃ inner s₁, Runs body c s inner s₁ ∧
        if c.options.caseExit = .implicitBreak ∧ ¬isEmpty ∧ ¬inner.endsInJump then
          ∃ exit, Runs gotoBreak c s₁ exit s' ∧ code = .label l :: inner ++ exit
        else code = .label l :: inner ∧ s' = s₁ := by
  simp only [caseBody, runs_bind, runs_read, and_assoc, exists_and_left, exists_eq_left]
  refine exists_congr fun inner => exists_congr fun s₁ => and_congr_right' ?_
  split <;> simp

theorem runs_switch {subject : Lower Valued} {cases : List Case} {bodies : List Label → Lower Code}
    {default : Option (Lower Code)} :
    Runs (switch subject cases bodies default) c s code s' ↔
      ∃ head v s₁, Runs subject c s (head, v) s₁ ∧
        ∃ copy w s₂, Runs (ensureTemp v) c s₁ (copy, w) s₂ ∧
        ∃ tests labels s₃, Runs (caseTests w cases) c s₂ (tests, labels) s₃ ∧
        ((default = none ∧ ∃ skip s₄, Runs gotoBreak c s₃.enterSwitch skip s₄ ∧
          ∃ inner s₅, Runs (bodies labels) c s₄ inner s₅ ∧ s' = s₅.exitSwitch ∧
          code = head ++ copy ++ tests ++ skip ++ inner ++ place s₅.breakLabel?) ∨
        (∃ body, default = some body ∧ s₃.ledger.labels + 1 < word32 ∧
          ∃ inner s₄, Runs (bodies labels) c s₃.enterSwitch.nextLabel inner s₄ ∧
          ∃ last s₅, Runs body c s₄ last s₅ ∧ s' = s₅.exitSwitch ∧
          code = head ++ copy ++ tests ++ .goto s₃.label :: inner ++ .label s₃.label :: last
            ++ place s₅.breakLabel?)) := by
  cases default with
  | none => simp [switch, Ledger.runs_enterSwitch, Ledger.runs_exitSwitch, and_assoc]
  | some body =>
    simp [switch, runs_freshLabel, Ledger.runs_enterSwitch, Ledger.runs_exitSwitch, and_assoc]

theorem runs_jump {target : Account (Option Label)} {problem : Problem} :
    Runs (jump target problem) c s code s' ↔
      (∃ l, Runs (account target) c s (some l) s' ∧ code = [.goto l]) ∨
      (∃ s₁, Runs (account target) c s none s₁ ∧ s' = s₁.report problem ∧ code = []) := by
  simp only [jump, runs_bind]
  constructor
  · rintro ⟨l?, s₁, hl, h⟩
    cases l? with
    | none => exact .inr ⟨s₁, hl, by simpa using h⟩
    | some l =>
      obtain ⟨rfl, rfl⟩ := runs_pure.1 h
      exact .inl ⟨l, hl, rfl⟩
  · rintro (⟨l, hl, rfl⟩ | ⟨s₁, hl, rfl, rfl⟩)
    · exact ⟨some l, s', hl, runs_pure.2 ⟨rfl, rfl⟩⟩
    · exact ⟨none, s₁, hl, by simp⟩

theorem runs_tryCatch {body handler : Lower Code} {caught : String} :
    Runs (tryCatch body caught handler) c s code s' ↔
      s.ledger.labels + 1 < word32 ∧ ∃ first s₁, Runs body c s.nextLabel first s₁ ∧
        s₁.ledger.labels + 1 < word32 ∧ ∃ second, Runs handler c s₁.nextLabel second s' ∧
        code = .tryBegin s.label :: first
          ++ [.tryEnd, .goto s₁.label, .label s.label, .assign (.var caught) .exception]
          ++ second ++ [.label s₁.label] := by
  simp [tryCatch, runs_freshLabel, and_assoc]

theorem runs_inFrame {act : Lower α} {a : α} {frame : Nat} :
    Runs (inFrame act) c s (a, frame) s' ↔
      ∃ s₁, Runs act c s.enterFrame a s₁ ∧ Runs (account Ledger.exitFrame) c s₁ frame s' := by
  simp only [inFrame, runs_bind, runs_account, Ledger.runs_enterFrame, runs_pure, Prod.mk.injEq]
  constructor
  · rintro ⟨_, _, ⟨_, rfl, rfl⟩, _, s₁, ha, _, _, hx, ⟨rfl, rfl⟩, rfl⟩
    exact ⟨s₁, ha, hx⟩
  · rintro ⟨s₁, ha, hx⟩
    exact ⟨(), _, ⟨_, rfl, rfl⟩, a, s₁, ha, frame, s', hx, ⟨rfl, rfl⟩, rfl⟩

theorem runs_functionFrame {name : String} {params : List Param} {span : Span}
    {body : Lower Code} (h : Runs (functionFrame name params span body) c s code s') :
    (s.table.lookup c.scope name = .ok none ∧ code = [] ∧
      s' = s.report (.unresolved name span.line)) ∨
    (∃ id x u s₁ inner s₂ frame s₃, s.table.lookup c.scope name = .ok (some id) ∧
      s.table.symbol id = .ok x ∧
      Runs (bindParams params) { c with scope := x.members.getD c.scope } s.enterFrame u s₁ ∧
      Runs body { c with scope := x.members.getD c.scope } s₁ inner s₂ ∧
      Runs (account Ledger.exitFrame) c s₂ frame s₃ ∧
      s' = { s₃ with
        table := s₃.table.modifySymbol id ({ · with params := params.length, frame }) } ∧
      code = .entry x.qualifiedName :: inner ++ [.close x.qualifiedName]) := by
  simp only [functionFrame, runs_bind, runs_lookup] at h
  obtain ⟨found, _, ⟨hl, rfl⟩, h⟩ := h
  cases found with
  | none => exact .inl ⟨hl, by simpa [and_comm] using h⟩
  | some id =>
    simp only [runs_bind, runs_symbol, runs_read, runs_modifySymbol, runs_pure] at h
    obtain ⟨x, _, ⟨hx, rfl⟩, _, _, ⟨rfl, rfl⟩, ⟨inner, frame⟩, s₃, hf, _, _, rfl, rfl, rfl⟩ := h
    obtain ⟨s₂, ha, he⟩ := runs_inFrame.1 hf
    simp only [runs_inScope, runs_bind] at ha
    obtain ⟨u, s₁, hp, hb⟩ := ha
    exact .inr ⟨id, x, u, s₁, inner, s₂, frame, s₃, hl, hx, hp, hb, he, rfl, rfl⟩

theorem runs_classFrame {name : String} {parent : Option String} {span : Span}
    {members : Lower Code} (h : Runs (classFrame name parent span members) c s code s') :
    (s.table.lookup c.scope name = .ok none ∧ code = [] ∧
      s' = s.report (.unresolved name span.line)) ∨
    (∃ id x size s₁ base s₂ inner s₃ frame s₄, s.table.lookup c.scope name = .ok (some id) ∧
      s.table.symbol id = .ok x ∧ Runs (inherited parent) c s size s₁ ∧
      Runs (account (Ledger.allocate size)) c s₁.enterFrame base s₂ ∧
      Runs members
        { c with scope := x.members.getD c.scope, className := some name } s₂ inner s₃ ∧
      Runs (account Ledger.exitFrame) c s₃ frame s₄ ∧
      s' = { s₄ with table := s₄.table.modifySymbol id ({ · with frame }) } ∧
      code = .entry name :: inner ++ [.close name]) := by
  simp only [classFrame, runs_bind, runs_lookup] at h
  obtain ⟨found, _, ⟨hl, rfl⟩, h⟩ := h
  cases found with
  | none => exact .inl ⟨hl, by simpa [and_comm] using h⟩
  | some id =>
    simp only [runs_bind, runs_symbol, runs_read, runs_modifySymbol, runs_pure] at h
    obtain ⟨x, _, ⟨hx, rfl⟩, _, _, ⟨rfl, rfl⟩, h⟩ := h
    obtain ⟨size, s₁, hi, ⟨inner, frame⟩, s₄, hf, _, _, rfl, rfl, rfl⟩ := h
    obtain ⟨s₃, ha, he⟩ := runs_inFrame.1 hf
    simp only [runs_withReader, runs_bind] at ha
    obtain ⟨base, s₂, hb, hm⟩ := ha
    exact .inr ⟨id, x, size, s₁, base, s₂, inner, s₃, frame, s₄, hl, hx, hi, hb, hm, he, rfl, rfl⟩

theorem runs_inherited {parent : Option String} {size : Nat}
    (h : Runs (inherited parent) c s size s') :
    s' = s ∧ ((size = 0 ∧ ∀ name ∈ parent, s.table.lookup c.scope name = .ok none) ∨
      ∃ name ∈ parent, ∃ id x, s.table.lookup c.scope name = .ok (some id) ∧
        s.table.symbol id = .ok x ∧ size = x.frame) := by
  cases parent with
  | none => simp_all [inherited]
  | some name =>
    simp only [inherited, runs_bind, runs_lookup] at h
    obtain ⟨found, _, ⟨hl, rfl⟩, h⟩ := h
    cases found with
    | none => simp_all
    | some id =>
      simp only [runs_bind, runs_symbol, runs_pure] at h
      obtain ⟨x, _, ⟨hx, rfl⟩, rfl, rfl⟩ := h
      exact ⟨rfl, .inr ⟨name, rfl, id, x, hl, hx, rfl⟩⟩

theorem runs_loopBound {e : Expr} {value bound : Operand}
    (h : Runs (loopBound e value) c s bound s') :
    s' = s ∧ (bound = .field value "length" ∨
      ∃ name span id x n, e = .ident name span ∧ s.table.lookup c.scope name = .ok (some id) ∧
        s.table.symbol id = .ok x ∧ x.dimensions.head? = some n ∧ bound = .int (signed n)) := by
  cases e with
  | ident name span =>
    simp only [loopBound, runs_bind, runs_lookup] at h
    obtain ⟨found, _, ⟨hl, rfl⟩, h⟩ := h
    cases found with
    | none => simp_all
    | some id =>
      simp only [runs_bind, runs_symbol, runs_pure] at h
      obtain ⟨x, _, ⟨hx, rfl⟩, _, _, ⟨rfl, rfl⟩, rfl, rfl⟩ := h
      cases hd : x.dimensions.head? with
      | none => exact ⟨rfl, .inl rfl⟩
      | some n => exact ⟨rfl, .inr ⟨name, span, id, x, n, rfl, hl, hx, hd, rfl⟩⟩
  | _ => simp_all [loopBound]

theorem runs_bindLocal {name : String} {span : Span} {u : Unit} :
    Runs (bindLocal name span) c s u s' ↔
      (s.table.lookup c.scope name = .ok none ∧ s' = s.report (.unresolved name span.line)) ∨
      (∃ id x, s.table.lookup c.scope name = .ok (some id) ∧ s.table.symbol id = .ok x ∧
        Runs (bindStorage id (x.type.size c.options.pointerSize)) c s u s') := by
  simp only [bindLocal, runs_bind, runs_lookup]
  constructor
  · rintro ⟨found, _, ⟨h, rfl⟩, hr⟩
    cases found with
    | none => exact .inl ⟨h, by simpa using hr⟩
    | some id =>
      simp only [runs_bind, runs_valueSize] at hr
      obtain ⟨_, _, ⟨x, hx, rfl, rfl⟩, hr⟩ := hr
      exact .inr ⟨id, x, h, hx, hr⟩
  · rintro (⟨h, rfl⟩ | ⟨id, x, h, hx, hr⟩)
    · exact ⟨none, s, ⟨h, rfl⟩, by simp⟩
    · refine ⟨some id, s, ⟨h, rfl⟩, ?_⟩
      simp only [runs_bind, runs_valueSize]
      exact ⟨_, _, ⟨x, hx, rfl, rfl⟩, hr⟩

theorem runs_bindParams_cons {p : Param} {rest : List Param} {u : Unit}
    (h : Runs (bindParams (p :: rest)) c s u s') :
    ∃ s₁, ((s.table.lookupLocal c.scope p.name = .ok none ∧
        s₁ = s.report (.unresolved p.name p.span.line)) ∨
      (∃ id x v, s.table.lookupLocal c.scope p.name = .ok (some id) ∧ s.table.symbol id = .ok x ∧
        Runs (bindStorage id (x.type.size c.options.pointerSize)) c s v s₁)) ∧
      Runs (bindParams rest) c s₁ u s' := by
  simp only [bindParams, List.forM_eq_forM, List.forM_cons, runs_bind, runs_get, runs_read,
    runs_lift] at h
  obtain ⟨_, s₁, ⟨_, _, ⟨rfl, rfl⟩, _, _, ⟨rfl, rfl⟩, found?, _, ⟨hl, rfl⟩, h⟩, hr⟩ := h
  refine ⟨s₁, ?_, hr⟩
  cases found? with
  | none => exact .inl ⟨hl, by simpa using h⟩
  | some id =>
    simp only [runs_bind, runs_valueSize] at h
    obtain ⟨_, _, ⟨x, hx, rfl, rfl⟩, h⟩ := h
    exact .inr ⟨id, x, _, hl, hx, h⟩

/-- The uses that do not resolve from the scope. -/
def missing (t : Table) (scope : Nat) (uses : List Use) : List Use :=
  uses.filter fun u => t.lookup scope u.1 matches .ok none

theorem mem_missing {t : Table} {scope : Nat} {uses : List Use} {u : Use} :
    u ∈ missing t scope uses ↔ u ∈ uses ∧ t.lookup scope u.1 = .ok none := by
  rw [missing, List.mem_filter]
  refine and_congr_right fun _ => ?_
  split <;> simp_all

theorem runs_filterAuxM_isMissing {uses found acc : List Use}
    (h : Runs (uses.filterAuxM isMissing acc) c s found s') :
    found = (missing s.table c.scope uses).reverse ++ acc ∧ s' = s ∧
      ∀ u ∈ uses, ∃ id?, s.table.lookup c.scope u.1 = .ok id? := by
  induction uses generalizing acc with
  | nil => simpa [missing, List.filterAuxM] using h
  | cons u rest ih =>
    simp only [List.filterAuxM, isMissing, runs_bind, runs_lookup, runs_pure] at h
    obtain ⟨_, _, ⟨found?, _, ⟨hl, rfl⟩, rfl, rfl⟩, h⟩ := h
    obtain ⟨rfl, rfl, hrest⟩ := ih h
    refine ⟨?_, rfl, List.forall_mem_cons.2 ⟨⟨found?, hl⟩, hrest⟩⟩
    cases found? <;> simp [missing, hl]

theorem runs_filterM_isMissing {uses found : List Use}
    (h : Runs (uses.filterM isMissing) c s found s') :
    found = missing s.table c.scope uses ∧ s' = s ∧
      ∀ u ∈ uses, ∃ id?, s.table.lookup c.scope u.1 = .ok id? := by
  simp only [List.filterM, runs_bind, runs_pure] at h
  obtain ⟨_, _, h, rfl, rfl⟩ := h
  obtain ⟨rfl, rfl, hl⟩ := runs_filterAuxM_isMissing h
  exact ⟨by simp, rfl, hl⟩

abbrev missingProblem (whole : Span) (u : Use) : Problem :=
  .unresolved u.1 (u.2.orElse whole).line

theorem runs_reportAll {uses : List Use} {whole : Span} {u : PUnit}
    (h : Runs (uses.forM fun (name, span) =>
      report (.unresolved name (span.orElse whole).line)) c s u s') :
    s' = { s with problems := s.problems ++ uses.map (missingProblem whole) } := by
  induction uses generalizing s with
  | nil => simpa using h
  | cons v rest ih =>
    simp only [List.forM_eq_forM, List.forM_cons, runs_bind, runs_report] at h
    obtain ⟨_, _, rfl, h⟩ := h
    rw [ih h]
    simp

/-- What a guarded statement does: all of its names resolve and it runs, or else it is skipped and
the missing names are reported. -/
theorem runs_guarding {uses : List Use} {whole : Span} {act : Lower Code}
    (h : Runs (guarding uses whole act) c s code s') :
    (missing s.table c.scope uses = [] ∧ Runs act c s code s') ∨
    (missing s.table c.scope uses ≠ [] ∧ code = [] ∧ s' = { s with
      problems := s.problems ++
        (firstUses (missing s.table c.scope uses)).map (missingProblem whole) }) := by
  simp only [guarding, runs_bind] at h
  obtain ⟨found, _, hm, h⟩ := h
  obtain ⟨rfl, rfl, _⟩ := runs_filterM_isMissing hm
  split at h
  next he => exact .inl ⟨he, h⟩
  next hne =>
    simp only [runs_bind, runs_pure] at h
    obtain ⟨_, _, hr, rfl, rfl⟩ := h
    exact .inr ⟨hne, rfl, runs_reportAll hr⟩

theorem missing_of_guarding {uses : List Use} {whole : Span} {act : Lower Code}
    (h : Runs (guarding uses whole act) c s code s') (hp : s'.problems = []) :
    missing s.table c.scope uses = [] ∧ Runs act c s code s' := by
  obtain h | ⟨hne, _, rfl⟩ := runs_guarding h
  · exact h
  · obtain ⟨_, hp⟩ := List.append_eq_nil_iff.1 hp
    cases hu : missing s.table c.scope uses with
    | nil => exact absurd hu hne
    | cons u rest => simp [hu, firstUses] at hp

theorem runs_of_guarding {uses : List Use} {whole : Span} {act : Lower Code}
    (h : Runs (guarding uses whole act) c s code s') (hp : s'.problems = []) :
    Runs act c s code s' := (missing_of_guarding h hp).2

theorem lookup_of_guarding {uses : List Use} {whole : Span} {act : Lower Code}
    (h : Runs (guarding uses whole act) c s code s') (hp : s'.problems = []) :
    ∀ u ∈ uses, ∃ id, s.table.lookup c.scope u.1 = .ok (some id) := by
  intro u hu
  obtain ⟨hm, _⟩ := missing_of_guarding h hp
  simp only [guarding, runs_bind] at h
  obtain ⟨_, _, hf, _⟩ := h
  obtain ⟨_, _, hl⟩ := runs_filterM_isMissing hf
  obtain ⟨id?, hl⟩ := hl u hu
  cases id? with
  | none => cases hm ▸ mem_missing.2 ⟨hu, hl⟩
  | some id => exact ⟨id, hl⟩

def lowerCallee (span : Span) : Expr → Lower Callee
  | .ident name _ => namedCallee name span
  | .property object method _ => do
    let owner ← receiverClass object
    let (code, receiver) ← argument (object.lower .value)
    pure ⟨code, methodName owner method, [receiver]⟩
  | other => do
    let (code, value) ← other.lower .value
    pure ⟨code, value.render, []⟩

end Lower

open Lower

theorem Expr.lower_call (demand : Demand) (callee : Expr) (args : List Expr) (span : Span) :
    Expr.lower demand (.call callee args span) = do
      let target ← lowerCallee span callee
      let (code, params) ← lowerArgs args
      let (last, value) ← finishCall demand target.name (target.receiver ++ params)
      return (target.code ++ code ++ last, value) := by
  cases callee <;> simp [Expr.lower, lowerCallee]

namespace Expr

variable {c : Context} {s s' : State} {x : Valued} {demand : Demand} {span : Span}

theorem runs_ident {name : String} :
    Runs ((Expr.ident name span).lower demand) c s x s' ↔
      ∃ v, Runs (nameOperand name span) c s v s' ∧ x = ([], v) := by
  rw [Expr.lower]
  simp

theorem runs_this :
    Runs ((Expr.this span).lower demand) c s x s' ↔ x = ([], .var "this") ∧ s' = s := by
  rw [Expr.lower, runs_pure]

theorem runs_binary {l r : Expr} {op : BinaryOp} :
    Runs ((Expr.binary l op r span).lower demand) c s x s' ↔
      ∃ y s₁, Runs (l.lower .value) c s y s₁ ∧ ∃ z s₂, Runs (r.lower .value) c s₁ z s₂ ∧
        s₂.ledger.temps + 1 < word32 ∧ s' = s₂.nextTemp ∧
        x = (y.1 ++ z.1 ++ [.binary (.temp s₂.temp) y.2 op z.2], .temp s₂.temp) := by
  rw [Expr.lower]
  simp [runs_freshTemp, and_assoc]

theorem runs_unary {op : UnaryOp} {e : Expr} :
    Runs ((Expr.unary op e span).lower demand) c s x s' ↔
      ∃ y s₁, Runs (e.lower .value) c s y s₁ ∧ s₁.ledger.temps + 1 < word32 ∧ s' = s₁.nextTemp ∧
        x = (y.1 ++ [.unary (.temp s₁.temp) op y.2], .temp s₁.temp) := by
  rw [Expr.lower]
  simp [runs_freshTemp, and_assoc]

theorem runs_call {callee : Expr} {args : List Expr} :
    Runs ((Expr.call callee args span).lower demand) c s x s' ↔
      ∃ k s₁, Runs (lowerCallee span callee) c s k s₁ ∧ ∃ y s₂, Runs (lowerArgs args) c s₁ y s₂ ∧
        ∃ z, Runs (finishCall demand k.name (k.receiver ++ y.2)) c s₂ z s' ∧
        x = (k.code ++ y.1 ++ z.1, z.2) := by
  rw [Expr.lower_call]
  simp

theorem runs_new {name : String} {args : List Expr} :
    Runs ((Expr.new name args span).lower demand) c s x s' ↔
      ∃ y s₁, Runs (lowerArgs args) c s y s₁ ∧ s₁.ledger.temps + 1 < word32 ∧ s' = s₁.nextTemp ∧
        x = (y.1 ++ [.new (.temp s₁.temp) name y.2], .temp s₁.temp) := by
  rw [Expr.lower]
  simp [runs_freshTemp, and_assoc]

theorem runs_index {base i : Expr} :
    Runs ((Expr.index base i span).lower demand) c s x s' ↔
      ∃ y s₁, Runs (base.lower .value) c s y s₁ ∧ ∃ z s₂, Runs (i.lower .value) c s₁ z s₂ ∧
        ∃ w s₃, Runs (ensureTemp z.2) c s₂ w s₃ ∧ s₃.ledger.temps + 1 < word32 ∧
        s' = s₃.nextTemp ∧
        x = (y.1 ++ z.1 ++ w.1 ++ [.assign (.temp s₃.temp) (.element y.2 [w.2])],
          .temp s₃.temp) := by
  rw [Expr.lower]
  simp [runs_freshTemp, and_assoc]

theorem runs_property {object : Expr} {field : String} :
    Runs ((Expr.property object field span).lower demand) c s x s' ↔
      ∃ y s₁, Runs (object.lower .value) c s y s₁ ∧ s₁.ledger.temps + 1 < word32 ∧
        s' = s₁.nextTemp ∧
        x = (y.1 ++ [.assign (.temp s₁.temp) (.field y.2 field)], .temp s₁.temp) := by
  rw [Expr.lower]
  simp [runs_freshTemp, and_assoc]

end Expr

def Expr.cell : Expr → Nest (Lower Valued)
  | .array es _ => .row (lowerCells es)
  | e => .leaf (storable (e.lower .value))

theorem lowerCells_eq_map (es : List Expr) : lowerCells es = es.map Expr.cell := by
  induction es with
  | nil => rw [lowerCells]; rfl
  | cons e rest ih => cases e <;> simp [lowerCells, Expr.cell, ih]

theorem Expr.cell_array (es : List Expr) (span : Span) :
    (Expr.array es span).cell = .row (es.map Expr.cell) :=
  congrArg Nest.row (lowerCells_eq_map es)

theorem Expr.leaf_of_cell {e : Expr} {path : List Nat} {act : Lower Valued}
    (h : e.cell.at? path = some act) : ∃ e' ∈ e.leaves, act = storable (e'.lower .value) := by
  induction path generalizing e with
  | nil => cases e <;> simp_all [Expr.cell, Nest.at?, Expr.leaves]
  | cons i path ih =>
    cases e with
    | array es span =>
      rw [Expr.cell_array] at h
      simp only [Nest.at?, List.getElem?_map, Option.bind_eq_some_iff,
        Option.map_eq_some_iff] at h
      obtain ⟨_, ⟨e, he, rfl⟩, h⟩ := h
      obtain ⟨e', h', rfl⟩ := ih h
      refine ⟨e', ?_, rfl⟩
      rw [Expr.leaves]
      exact mem_leavesAll (List.mem_of_getElem? he) h'
    | _ => simp [Expr.cell, Nest.at?] at h

theorem leaf_of_lowerCells {es : List Expr} {path : List Nat} {act : Lower Valued}
    (h : (Nest.row (lowerCells es)).at? path = some act) :
    ∃ e ∈ leavesAll es, act = storable (e.lower .value) := by
  obtain ⟨e, he, rfl⟩ := Expr.leaf_of_cell (e := .array es .unplaced) h
  exact ⟨e, by simpa [Expr.leaves] using he, rfl⟩

section Store

variable {c : Context} {s s' : State} {code : Code}

theorem runs_literalShape {name : String} {span : Span} {literal : Nest α}
    {shape : Option (List Nat)} (h : Runs (literalShape name span literal) c s shape s') :
    shape = literal.shape? c.options.raggedArrays ∧
      ((shape.isSome ∧ s' = s) ∨ (shape = none ∧ s' = s.report (.ragged name span.line))) := by
  simp only [literalShape, runs_bind, runs_read] at h
  obtain ⟨c, s, ⟨rfl, rfl⟩, h⟩ := h
  cases hs : literal.shape? c.options.raggedArrays with
  | none =>
    simp only [hs, Option.isNone_none, if_true, runs_bind, runs_report, runs_pure] at h
    obtain ⟨_, _, rfl, rfl, rfl⟩ := h
    exact ⟨rfl, .inr ⟨rfl, rfl⟩⟩
  | some dims =>
    simp [hs] at h
    obtain ⟨rfl, rfl⟩ := h
    exact ⟨rfl, .inl ⟨rfl, rfl⟩⟩

/-- The declaration of an array: a rejected literal gets a header, and any other gets all elements
before they are stored. -/
theorem runs_declareArray {id : SymbolId} {es : List Expr} {span : Span}
    (h : Runs (declareArray id es span) c s code s') :
    ∃ x s₁, s.table.symbol id = .ok x ∧
      ((Runs (literalShape x.name span (.row (lowerCells es))) c s none s₁ ∧
        (∃ u, Runs (bindStorage id c.options.pointerSize) c s₁ u s') ∧ code = []) ∨
      (∃ dims size u s₂,
        Runs (literalShape x.name span (.row (lowerCells es))) c s (some dims) s₁ ∧
        arraySize c.options.pointerSize (leafSize c.options.pointerSize x.type.element es) dims =
          .ok size ∧
        Runs (bindStorage id size) c
          { s₁ with table := s₁.table.modifySymbol id ({ · with dimensions := dims }) } u s₂ ∧
        Runs (storeElements (.var x.name) (.row (lowerCells es)) dims x.type.element.zero) c s₂
          code s')) := by
  simp only [declareArray, runs_bind, runs_symbol, runs_read] at h
  obtain ⟨x, _, ⟨hx, rfl⟩, _, _, ⟨rfl, rfl⟩, shape, s₁, hs, h⟩ := h
  refine ⟨x, s₁, hx, ?_⟩
  cases shape with
  | none =>
    simp only [runs_bind, runs_pure] at h
    obtain ⟨u, _, hb, rfl, rfl⟩ := h
    exact .inl ⟨hs, ⟨u, hb⟩, rfl⟩
  | some dims =>
    simp only [runs_bind, runs_lift, runs_modifySymbol] at h
    obtain ⟨size, _, ⟨hz, rfl⟩, _, _, rfl, u, s₂, hb, he⟩ := h
    exact .inr ⟨dims, size, u, s₂, hs, hz, hb, he⟩

theorem runs_assignArray {id : SymbolId} {es : List Expr} {span : Span}
    (h : Runs (assignArray id es span) c s code s') :
    ∃ x shape s₁, s.table.symbol id = .ok x ∧
      Runs (literalShape x.name span (.row (lowerCells es))) c s shape s₁ ∧
      ((shape = none ∧ code = [] ∧ s' = s₁) ∨
      (∃ dims, shape = some dims ∧
        Runs (storeElements (.var x.name) (.row (lowerCells es)) dims x.type.element.zero) c s₁
          code s')) := by
  simp only [assignArray, runs_bind, runs_symbol] at h
  obtain ⟨x, _, ⟨hx, rfl⟩, shape, s₁, hs, h⟩ := h
  refine ⟨x, shape, s₁, hx, hs, ?_⟩
  cases shape with
  | none =>
    obtain ⟨rfl, rfl⟩ := runs_pure.1 h
    exact .inl ⟨rfl, rfl, rfl⟩
  | some dims => exact .inr ⟨dims, rfl, h⟩

theorem Binding.runs_lower {b : Binding} (h : Runs b.lower c s code s') :
    (s.table.lookup c.scope b.name = .ok none ∧ code = [] ∧
      s' = s.report (.unresolved b.name b.span.line)) ∨
    (∃ id es span, s.table.lookup c.scope b.name = .ok (some id) ∧
      b.value = some (.array es span) ∧ Runs (declareArray id es span) c s code s') ∨
    (∃ id x u s₁, s.table.lookup c.scope b.name = .ok (some id) ∧ s.table.symbol id = .ok x ∧
      Runs (bindStorage id (x.type.size c.options.pointerSize)) c s u s₁ ∧
      ((b.value = none ∧ code = [] ∧ s' = s₁) ∨
        (∃ e y, b.value = some e ∧ (∀ es span, e ≠ .array es span) ∧
          Runs (storable (e.lower .value)) c s₁ y s' ∧
          code = y.1 ++ [.assign (.var b.name) y.2]))) := by
  simp only [Binding.lower, runs_bind, runs_lookup] at h
  obtain ⟨found, _, ⟨hl, rfl⟩, h⟩ := h
  cases found with
  | none => exact .inl ⟨hl, by simpa [and_comm] using h⟩
  | some id =>
    dsimp only at h
    split at h
    next hv => exact .inr (.inl ⟨id, _, _, hl, hv, h⟩)
    next e he hv =>
      simp only [runs_bind, runs_valueSize, runs_pure] at h
      obtain ⟨_, _, ⟨x, hx, rfl, rfl⟩, u, s₁, hb, y, _, hy, rfl, rfl⟩ := h
      exact .inr (.inr ⟨id, x, u, s₁, hl, hx, hb, .inr ⟨e, y, hv, he, hy, rfl⟩⟩)
    next hv =>
      simp only [runs_bind, runs_valueSize, runs_pure] at h
      obtain ⟨_, _, ⟨x, hx, rfl, rfl⟩, u, s₁, hb, rfl, rfl⟩ := h
      exact .inr (.inr ⟨id, x, u, _, hl, hx, hb, .inl ⟨hv, rfl, rfl⟩⟩)

theorem Target.runs_assign_ident {name : String} {value : Expr} {span : Span}
    (h : Runs (Target.assign value span (.ident name)) c s code s') :
    (s.table.lookup c.scope name = .ok none ∧ code = [] ∧
      s' = s.report (.unresolved name span.line)) ∨
    (∃ id es at_, s.table.lookup c.scope name = .ok (some id) ∧ value = .array es at_ ∧
      Runs (assignArray id es at_) c s code s') ∨
    (∃ id x y, s.table.lookup c.scope name = .ok (some id) ∧ s.table.symbol id = .ok x ∧
      (∀ es at_, value ≠ .array es at_) ∧ Runs (storable (value.lower .value)) c s y s' ∧
      code = y.1 ++ [.assign (.var (x.address.getD name)) y.2]) := by
  simp only [Target.assign, runs_bind, runs_lookup] at h
  obtain ⟨found, _, ⟨hl, rfl⟩, h⟩ := h
  cases found with
  | none => exact .inl ⟨hl, by simpa [and_comm] using h⟩
  | some id =>
    dsimp only at h
    split at h
    next es at_ => exact .inr (.inl ⟨id, es, at_, hl, rfl, h⟩)
    next e he =>
      simp only [runs_bind, runs_symbol, runs_pure] at h
      obtain ⟨x, _, ⟨hx, rfl⟩, y, _, hy, rfl, rfl⟩ := h
      exact .inr (.inr ⟨id, x, y, hl, hx, he, hy, rfl⟩)

end Store

theorem Block.lower_eq (b : Block) : b.lower = lowerAll b.body := by
  cases b
  rw [Block.lower]

theorem Function.lower_eq (f : Function) :
    f.lower = functionFrame f.name f.params f.span (lowerAll f.body.body) := by
  cases f
  rw [Function.lower, Block.lower_eq]

theorem Class.lower_eq (c : Class) :
    c.lower = classFrame c.name c.parent c.span (lowerMembers c.members) := by
  cases c
  rw [Class.lower]

theorem lowerCases_cons (k : Case) (cases : List Case) (l : Label) (labels : List Label) :
    lowerCases (k :: cases) (l :: labels) = do
      return (← caseBody l k.body.isEmpty (lowerAll k.body)) ++ (← lowerCases cases labels) := by
  cases k
  rw [lowerCases]

theorem lowerCases_nil (labels : List Label) : lowerCases [] labels = pure [] := by
  rw [lowerCases]
  nofun

theorem Stmt.lower_ite (c : Expr) (yes : Block) (no : Option Block) (span : Span) :
    Stmt.lower (.ite c yes no span) = match no with
      | none => ifThen (c.lower .value) (inBlock yes.span (lowerAll yes.body))
      | some no => ifThenElse (c.lower .value) (inBlock yes.span (lowerAll yes.body))
        (inBlock no.span (lowerAll no.body)) := by
  cases no <;> simp only [Stmt.lower, Block.lower_eq]

theorem Stmt.lower_switch (subject : Expr) (cases : List Case) (default : Option (List Stmt))
    (span : Span) : Stmt.lower (.switch subject cases default span) =
      Lower.switch (subject.lower .value) cases (lowerCases cases) (default.map lowerAll) := by
  cases default <;> simp only [Stmt.lower, Option.map]

abbrev Lowering.State.start (table : Table) (options : Options) : State :=
  { ledger := { layout := options.nestedFrames }, table }

theorem runs_program {p : Program} {table : Table} {options : Options} {out : Lowered} :
    p.lower table options = .ok out ↔
      ∃ s, Runs (lowerAll p.statements) { options } (.start table options) out.code s ∧
        s.ledger.frameDepth = 0 ∧ s.ledger.loopDepth = 0 ∧
        out.table = s.table ∧ out.problems = s.problems := by
  have hl : p.lower table options = (do
      let x ← lowerAll p.statements { options } (.start table options)
      if x.2.ledger.frameDepth ≠ 0 then throw (.openFrames x.2.ledger.frameDepth)
      if x.2.ledger.loopDepth ≠ 0 then throw (.openLoops x.2.ledger.loopDepth)
      return ⟨x.1, x.2.table, x.2.problems⟩) := rfl
  rw [hl]
  unfold Runs
  cases lowerAll p.statements { options } (.start table options) with
  | error e => simp [bind, Except.bind]
  | ok x =>
    obtain ⟨code, s⟩ := x
    obtain ⟨code', table', problems'⟩ := out
    constructor
    · intro h
      -- the assertions at the end are all that can still fail
      by_cases hf : s.ledger.frameDepth = 0 <;> by_cases hd : s.ledger.loopDepth = 0
      · simp [bind, Except.bind, pure, Except.pure, hf, hd] at h
        obtain ⟨rfl, rfl, rfl⟩ := h
        exact ⟨s, rfl, hf, hd, rfl, rfl⟩
      all_goals simp [bind, Except.bind, hf, hd, throw, throwThe, MonadExceptOf.throw] at h
    · rintro ⟨_, hs, hf, hd, ht, hp⟩
      cases hs
      simp_all [bind, Except.bind, pure, Except.pure]

theorem Program.scopes_eq_ok {p : Program} {table : Table} :
    p.scopes = .ok table ↔ p.collect.conflicts = [] ∧ p.collect.table = table := by
  rw [scopes]
  obtain ⟨table', conflicts⟩ := p.collect
  cases conflicts <;> simp

theorem Program.compile_eq_ok {p : Program} {options : Options} {out : Compiled} :
    p.compile options = .ok out ↔ p.collect.conflicts = [] ∧
      p.lower p.collect.table options = .ok ⟨out.code, out.table, []⟩ := by
  rw [compile, scopes]
  obtain ⟨code, table'⟩ := out
  obtain ⟨table, conflicts⟩ := p.collect
  cases conflicts with
  | cons => simp
  | nil =>
    simp only [compileWith, true_and]
    cases p.lower table options with
    | error f => simp
    | ok x =>
      obtain ⟨code, table, problems⟩ := x
      cases problems <;> simp

/-- What a computation yields, from a check of one of its parts. -/
theorem exists_of_check {x : Except ε α} {f : α → β} {b : β} (h : f <$> x.toOption = some b) :
    ∃ a, x = .ok a ∧ f a = b := by
  cases x with
  | error e => simp [Except.toOption] at h
  | ok a => exact ⟨a, rfl, by simpa [Except.toOption] using h⟩

end ThreeAddress
