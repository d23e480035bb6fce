import ThreeAddress.Proofs.Calls.Declared
import ThreeAddress.Proofs.Calls.Parts
import ThreeAddress.Proofs.Effects.Evaluation
import ThreeAddress.Proofs.Entries.Lowered

namespace ThreeAddress

open Lowering Lower

def Instruction.Calls (label : String) (params : List Operand) (i : Instruction) : Prop :=
  i = .call label params ∨ ∃ result, i = .callInto result label params

/-- `code` ends in a call of the label with `arity` arguments. A receiver is passed in front of them: it
has been copied right behind its code. -/
def Code.Calls (label : String) (arity : Nat) (code : Code) : Option Valued → Prop
  | none => ∃ args params call, code = args ++ [call] ∧ call.Calls label params ∧
      params.length = arity
  | some (head, receiver) => ∃ copy args params call,
      code = head ++ [.assign (.temp copy) receiver] ++ args ++ [call] ∧
        call.Calls label (.temp copy :: params) ∧ params.length = arity

section

variable {c : Context} {t t' : Table} {s s' : State} {code : Code} {v : Operand} {d : Demand}
  {args : List Expr} {id : SymbolId} {x : Symbol}

theorem Lower.lowerArgs_length {y : Code × List Operand} (h : Runs (lowerArgs args) c s y s') :
    y.2.length = args.length := by
  induction args generalizing s y with
  | nil =>
    rw [lowerArgs] at h
    obtain ⟨rfl, _⟩ := runs_pure.1 h
    rfl
  | cons e rest ih =>
    rw [lowerArgs] at h
    simp only [runs_bind, runs_pure] at h
    obtain ⟨_, _, _, _, _, h₂, rfl, rfl⟩ := h
    simp [ih h₂]

theorem Lower.finishCall_calls {label : String} {params : List Operand} {y : Valued}
    (h : Runs (finishCall d label params) c s y s') : ∃ call, y.1 = [call] ∧ call.Calls label params := by
  cases d with
  | value =>
    simp only [finishCall, runs_bind, runs_pure] at h
    obtain ⟨_, _, _, rfl, _⟩ := h
    exact ⟨_, rfl, .inr ⟨_, rfl⟩⟩
  | effect =>
    obtain ⟨rfl, _⟩ := runs_pure.1 h
    exact ⟨_, rfl, .inl rfl⟩

theorem Table.exists_symbol_of_outline (ho : t'.outline = t.outline) (hx : t.symbol id = .ok x) :
    ∃ y, t'.symbol id = .ok y ∧ y.toDeclaration = x.toDeclaration := by
  have h : t'.outline.symbol id = t.outline.symbol id := by rw [ho]
  rw [symbol_outline, symbol_outline, hx] at h
  cases hy : t'.symbol id with
  | error e => simp [hy, Functor.map, Except.map] at h
  | ok y =>
    rw [hy] at h
    exact ⟨y, rfl, congrArg (fun s => s.toDeclaration) (Except.ok.inj h)⟩

theorem Symbol.qualifiedName_congr {y : Symbol} (h : y.toDeclaration = x.toDeclaration) :
    y.qualifiedName = x.qualifiedName :=
  congrArg (fun d => (Symbol.ofDeclaration d).qualifiedName) h

theorem Viewpoint.owner_congr (ho : t'.outline = t.outline) (e : Expr) :
    (Viewpoint.of c t').owner e = (Viewpoint.of c t).owner e := by
  cases e with
  | ident name at_ =>
    have hl (name : String) : t'.lookup c.scope name = t.lookup c.scope name := by
      rw [← Table.lookup_outline, ho, Table.lookup_outline]
    cases h : t.lookup c.scope name with
    | error e => simp [owner, of, Table.visible?, hl, h]
    | ok found =>
      cases found with
      | none => simp [owner, of, Table.visible?, hl, h]
      | some id =>
        obtain ⟨x, hx, _⟩ := Table.exists_symbol_of_lookup h
        obtain ⟨y, hy, hyx⟩ := Table.exists_symbol_of_outline ho hx
        rw [owner, owner, symbol?_eq_some h hx, symbol?_eq_some ((hl name).trans h) hy,
          Option.bind_some, Option.bind_some, show y.type = x.type from congrArg Declaration.type hyx]
  | _ => rfl

theorem Expr.call_name {name : String} {at_ at' : Span}
    (h : Runs ((Expr.call (.ident name at') args at_).lower d) c s (code, v) s')
    (hl : s.table.lookup c.scope name = .ok (some id)) (hx : s.table.symbol id = .ok x)
    (hk : x.isCallable) :
    code.Calls x.qualifiedName args.length
      (if x.owner.isSome then some ([], .var "this") else none) := by
  obtain ⟨k, s₁, ht, y, s₂, hy, z, hz, hcode⟩ := runs_call.1 h
  obtain ⟨call, hcall, hcalls⟩ := finishCall_calls hz
  have hlen := lowerArgs_length hy
  obtain ⟨rfl, rfl⟩ := Prod.mk.inj hcode
  obtain ⟨hn, _⟩ | ⟨_, x', hl', hx', ht⟩ := runs_namedCallee ht
  · cases hl.symm.trans hn
  cases hl.symm.trans hl'
  cases hx.symm.trans hx'
  obtain ⟨⟨_, ho⟩, w, hw, rfl⟩ | ⟨ho, rfl, _⟩ := ht
  · obtain ⟨_, rfl, rfl⟩ := runs_copyToTemp.1 hw
    rw [if_pos ho]
    exact ⟨_, y.1, y.2, call, by simp [hcall], hcalls, hlen⟩
  · rw [if_neg fun h => ho ⟨hk, h⟩]
    exact ⟨y.1, y.2, call, by simp [hcall], hcalls, hlen⟩

theorem Expr.call_method {object : Expr} {method className : String} {at_ at' : Span}
    (h : Runs ((Expr.call (.property object method at') args at_).lower d) c s (code, v) s')
    (ho : (Viewpoint.of c s.table).owner object = some className) :
    ∃ receiver s₁, Runs (object.lower .value) c s receiver s₁ ∧
      code.Calls s!"{className}.{method}" args.length (some receiver) := by
  obtain ⟨k, s₁, hk, y, s₃, hy, z, hz, hcode⟩ := runs_call.1 h
  simp only [lowerCallee, runs_bind, runs_pure] at hk
  obtain ⟨owner, s₂, hc, r, _, hr, rfl, rfl⟩ := hk
  obtain rfl : s = s₂ := receiverClass_keeps (R := Eq) object hc
  obtain rfl := (receiverClass_owner hc).trans ho
  obtain ⟨receiver, s₄, hobject, _, rfl, rfl⟩ := runs_argument.1 hr
  obtain ⟨call, hcall, hcalls⟩ := finishCall_calls hz
  obtain ⟨rfl, rfl⟩ := Prod.mk.inj hcode
  exact ⟨receiver, s₄, hobject, _, y.1, y.2, call, by simp [hcall], hcalls, lowerArgs_length hy⟩

theorem Function.lower_frame {f : Function} (h : Runs f.lower c s code s')
    (ho : s.table.outline = t.outline) (hl : t.lookup c.scope f.name = .ok (some id))
    (hx : t.symbol id = .ok x) :
    ∃ inner, code = .entry x.qualifiedName :: inner ++ [.close x.qualifiedName] := by
  rw [lower_eq] at h
  have hlook : s.table.lookup c.scope f.name = .ok (some id) := by
    rwa [← Table.lookup_outline, ho, Table.lookup_outline]
  obtain ⟨hn, _⟩ | ⟨id', y, _, _, inner, _, _, _, hl', hy, _, _, _, _, rfl⟩ := runs_functionFrame h
  · cases hlook.symm.trans hn
  · cases hlook.symm.trans hl'
    have hyx : y.toDeclaration = x.toDeclaration :=
      congrArg (fun s => s.toDeclaration) (show y.outline = x.outline from Table.symbol_congr ho hy hx)
    exact ⟨inner, by rw [Symbol.qualifiedName_congr hyx]⟩

end

namespace Program

variable {p : Program} {options : Options} {out : Compiled}

/-- A function that is lowered has its code under the qualified name of its symbol. -/
theorem compile_labelled (h : p.compile options = .ok out) {f : Function} {σ : FullState} {id : SymbolId}
    {x : Symbol} (hs : (.stmt (.function f), σ) ∈ p.course p.collect.table options)
    (hl : p.collect.table.lookup σ.scope f.name = .ok (some id))
    (hx : p.collect.table.symbol id = .ok x) :
    ∃ inner s', Runs f.lower (σ.context options) σ.toState
        (.entry x.qualifiedName :: inner ++ [.close x.qualifiedName]) s' ∧
      σ.code ++ (.entry x.qualifiedName :: inner ++ [.close x.qualifiedName]) <+: out.code := by
  obtain ⟨d, hw, _, hcode, _⟩ := p.compile_walk h
  obtain ⟨front, back, hf⟩ := List.mem_iff_append.1 hs
  rw [hf] at hw
  obtain ⟨hfront, σ', hr, hlast, _⟩ := hw.pass
  obtain ⟨code, hr, _, hσ'⟩ := Stmt.runs_of_plan hr
  rw [Stmt.lower] at hr
  obtain ⟨inner, rfl⟩ := Function.lower_frame hr hfront.precedes.table.outline hl hx
  exact ⟨inner, σ'.toState, hr, hσ' ▸ hcode ▸ hlast.code⟩

/-- Every function and method is declared by a function that lowering comes to, with its code under the
qualified name of its symbol. Lowering comes to every call that is evaluated in a part of the program. A call by
a name that denotes a function goes to that label, and so does a call on a receiver of the class that declares
the method. The receiver comes in front of the arguments just if it is a method that is called. -/
theorem compile_calls (h : p.compile options = .ok out) :
    (p.course p.collect.table options).map (Part.stage options) = p.stages p.collect.table options ∧
    (∀ id x, p.collect.table.symbol id = .ok x → x.isCallable →
      (∃ f σ, (.stmt (.function f), σ) ∈ p.course p.collect.table options ∧
        p.collect.table.lookup σ.scope f.name = .ok (some id)) ∧
      ∀ f σ, (.stmt (.function f), σ) ∈ p.course p.collect.table options →
        p.collect.table.lookup σ.scope f.name = .ok (some id) →
        ∃ inner s', Runs f.lower (σ.context options) σ.toState
            (.entry x.qualifiedName :: inner ++ [.close x.qualifiedName]) s' ∧
          σ.code ++ (.entry x.qualifiedName :: inner ++ [.close x.qualifiedName]) <+: out.code) ∧
    ∀ part ∈ p.course p.collect.table options, ∀ callee args at_,
      ((Part.stage options part).Evaluates options.raggedArrays (.call callee args at_) →
        ∃ σ, (.call callee args at_, σ) ∈ Part.evaluations options part) ∧
      ∀ σ, (.call callee args at_, σ) ∈ Part.evaluations options part →
        σ.context options = part.2.context options ∧
        ∃ code v s', Runs ((Expr.call callee args at_).lower σ.demand) (σ.context options) σ.toState
            (code, v) s' ∧
          σ.code ++ code <+: out.code ∧
          (∀ name at' id x, callee = .ident name at' →
            p.collect.table.lookup σ.scope name = .ok (some id) →
            p.collect.table.symbol id = .ok x → x.isCallable →
            code.Calls x.qualifiedName args.length
              (if x.owner.isSome then some ([], .var "this") else none)) ∧
          ∀ object method at' className, callee = .property object method at' →
            (Viewpoint.of (σ.context options) p.collect.table).owner object = some className →
            (∃ receiver s₁, Runs (object.lower .value) (σ.context options) σ.toState receiver s₁ ∧
              code.Calls s!"{className}.{method}" args.length (some receiver)) ∧
            ∀ id x, p.collect.table.HasMethod className method id →
              p.collect.table.symbol id = .ok x →
              x.owner.isSome ∧ x.qualifiedName = s!"{className}.{method}" := by
  obtain ⟨hc, _⟩ := compile_eq_ok.1 h
  obtain ⟨d, hw, hstages, hcode, hq⟩ := p.compile_walk h
  refine ⟨hstages, fun id x hx hk => ⟨?_, fun f σ hs hl => compile_labelled h hs hl hx⟩,
    fun part hpart callee args at_ => ⟨hw.exists_mem hq hpart, fun σ hσ => ?_⟩⟩
  · obtain ⟨c, f, hs, hl⟩ := exists_function hc options hx hk
    rw [← hstages] at hs
    obtain ⟨y, hy, hstage⟩ := List.mem_map.1 hs
    obtain ⟨σ, rfl, rfl⟩ := Part.stage_eq_stmt.1 hstage
    exact ⟨f, σ, hy, hl⟩
  obtain ⟨hcontext, v, σ', hrun, hlast⟩ := hw.starts_of_mem hq hpart hσ
  obtain ⟨code, hr, _, hσ'⟩ := Expr.runs_of_plan hrun
  -- the call is lowered against the outline of the collected table, which all lookups go by
  have ho : σ.table.outline = p.collect.table.outline :=
    ((Plan.run_precedes hrun).trans hlast).outline.symm.trans hw.comes.outline
  refine ⟨hcontext, code, v, σ'.toState, hr, hσ' ▸ hcode ▸ hlast.code, ?_, ?_⟩
  · rintro name at' id x rfl hl hx hk
    obtain ⟨y, hy, hyx⟩ := Table.exists_symbol_of_outline ho hx
    have hlook : σ.table.lookup σ.scope name = .ok (some id) := by
      rwa [← Table.lookup_outline, ho, Table.lookup_outline]
    have hkind : y.isCallable := by rwa [Symbol.isCallable, congrArg Declaration.kind hyx]
    have hcalls := Expr.call_name hr hlook hy hkind
    rwa [Symbol.qualifiedName_congr hyx, congrArg Declaration.owner hyx] at hcalls
  · rintro object method at' className rfl howner
    refine ⟨Expr.call_method hr ((Viewpoint.owner_congr ho object).trans howner), fun id x hm hx => ?_⟩
    obtain ⟨hox, rfl, hk⟩ := owner_of_hasMethod hc hm hx
    have hkind : x.kind = .function := by simpa [Symbol.isCallable] using hk
    exact ⟨by simp [hox], by simp [Symbol.qualifiedName, hox, hkind]⟩

def purring : Program :=
  ⟨[.class ⟨"Cat", none, [.method ⟨"purr", [], none, ⟨[], .atLine 1⟩, .atLine 2⟩,
      .method ⟨"greet", [], none,
        ⟨[.eval (.call (.ident "purr" .unplaced) [] .unplaced) (.atLine 3)], .atLine 4⟩, .atLine 5⟩],
      .atLine 6⟩,
    .declare ⟨"tom", none, some (.new "Cat" [] .unplaced), false, .atLine 7⟩,
    .eval (.call (.property (.ident "tom" .unplaced) "greet" .unplaced) [] .unplaced) (.atLine 8),
    .function ⟨"feed", [⟨"n", none, .atLine 9⟩], none, ⟨[], .atLine 10⟩, .atLine 11⟩,
    .eval (.call (.ident "feed" .unplaced) [.int 1 .unplaced] .unplaced) (.atLine 12)], .unplaced⟩

theorem purring_calls : ∃ out, purring.compile {} = .ok out ∧
    out.code.entries = ["Cat", "Cat.purr", "Cat.greet", "feed"] ∧
    (∃ code : Code, code <:+: out.code ∧ code.Calls "Cat.purr" 0 (some ([], .var "this"))) ∧
    (∃ (code : Code) (receiver : Valued),
      code <:+: out.code ∧ code.Calls "Cat.greet" 0 (some receiver)) ∧
    ∃ code : Code, code <:+: out.code ∧ code.Calls "feed" 1 none := by
  have h : (·.code.entries) <$> (purring.compile {}).toOption =
      some ["Cat", "Cat.purr", "Cat.greet", "feed"] := by decide +kernel
  obtain ⟨out, ho, he⟩ := exists_of_check h
  obtain ⟨hstages, _, hcalls⟩ := compile_calls ho
  have call {i : Nat} {c : Context} {callee : Expr} {args : List Expr} {span : Span}
      (hi : (purring.stages purring.collect.table {})[i]? =
        some (.stmt c (.eval (.call callee args .unplaced) span))) :
      ∃ part ∈ purring.course purring.collect.table {}, ∃ σ,
        (.call callee args .unplaced, σ) ∈ Part.evaluations {} part ∧ σ.context {} = c := by
    rw [← hstages, List.getElem?_map, Option.map_eq_some_iff] at hi
    obtain ⟨part, hpart, hstage⟩ := hi
    obtain ⟨τ, rfl, rfl⟩ := Part.stage_eq_stmt.1 hstage
    have hpart := List.mem_of_getElem? hpart
    obtain ⟨hbegun, hruns⟩ := hcalls _ hpart callee args .unplaced
    obtain ⟨σ, hσ⟩ := hbegun ⟨_, .head _, .refl⟩
    exact ⟨_, hpart, σ, hσ, (hruns σ hσ).1⟩
  refine ⟨out, ho, he, ?_, ?_, ?_⟩
  · obtain ⟨part, hpart, σ, hσ, hc⟩ := call (i := 3) rfl
    obtain ⟨_, code, _, _, _, hin, hname, _⟩ := (hcalls part hpart _ _ _).2 σ hσ
    have hl : purring.collect.table.lookup σ.scope "purr" = .ok (some ⟨1, 0⟩) := by
      rw [show σ.scope = _ from congrArg Context.scope hc]
      decide +kernel
    exact ⟨code, (List.suffix_append _ _).isInfix.trans hin.isInfix,
      hname "purr" .unplaced ⟨1, 0⟩ _ rfl hl rfl rfl⟩
  · obtain ⟨part, hpart, σ, hσ, hc⟩ := call (i := 5) rfl
    obtain ⟨_, code, _, _, _, hin, _, hmethod⟩ := (hcalls part hpart _ _ _).2 σ hσ
    obtain ⟨⟨receiver, _, _, hcode⟩, _⟩ := hmethod _ _ .unplaced "Cat" rfl (by
      rw [hc]
      decide +kernel)
    exact ⟨code, receiver, (List.suffix_append _ _).isInfix.trans hin.isInfix, hcode⟩
  · obtain ⟨part, hpart, σ, hσ, hc⟩ := call (i := 7) rfl
    obtain ⟨_, code, _, _, _, hin, hname, _⟩ := (hcalls part hpart _ _ _).2 σ hσ
    have hl : purring.collect.table.lookup σ.scope "feed" = .ok (some ⟨0, 2⟩) := by
      rw [show σ.scope = _ from congrArg Context.scope hc]
      decide +kernel
    exact ⟨code, (List.suffix_append _ _).isInfix.trans hin.isInfix,
      hname "feed" .unplaced ⟨0, 2⟩ _ rfl hl rfl rfl⟩

def inheriting : Program :=
  ⟨[.class ⟨"A", none, [.method ⟨"m", [], none, ⟨[], .atLine 1⟩, .atLine 2⟩], .atLine 3⟩,
    .class ⟨"B", some "A", [], .atLine 4⟩,
    .eval (.call (.property (.new "B" [] .unplaced) "m" .unplaced) [] .unplaced) (.atLine 5)],
    .unplaced⟩

/-- The call goes to the class of the receiver, which declares no such method itself. -/
theorem inheriting_calls : ∃ out, inheriting.compile {} = .ok out ∧
    inheriting.collect.table.HasMethod "A" "m" ⟨1, 0⟩ ∧ out.code.lines =
      ["A:", "A.m:", "end A.m", "end A", "B:", "end B", "t1 = new B()", "t2 = t1",
        "call B.m(t2)"] := by
  have h : (·.code.lines) <$> (inheriting.compile {}).toOption = some
      ["A:", "A.m:", "end A.m", "end A", "B:", "end B", "t1 = new B()", "t2 = t1",
        "call B.m(t2)"] := by
    decide +kernel
  obtain ⟨out, ho, hl⟩ := exists_of_check h
  exact ⟨out, ho, ⟨⟨0, 0⟩, _, _, rfl, rfl, rfl, rfl, rfl, rfl, rfl⟩, hl⟩

end Program

end ThreeAddress
