import Mathlib.Tactic.Ring
import ThreeAddress.Proofs.Emission.Statements
import ThreeAddress.Proofs.Operations.Values

namespace ThreeAddress

open Lower (elementStore place)
open Instruction (Kind)
open Instruction.Kind (one)

variable {k : Kind} {n m : Supply} {code : Code}

def Stmt.asks (k : Kind) (s : Stmt) : Nat := s.makes k + tally k (nodesAll s.exprs)

def asked (k : Kind) (ss : List Stmt) : Nat := (ss.map (Stmt.asks k)).sum

/-- How many of these instructions are never made, since a value is dropped. -/
def spared (k : Kind) (ss : List Stmt) : Nat := (ss.map (Stmt.spares k)).sum

section Lists

variable (s : Stmt) (ss ts : List Stmt)

@[simp] theorem asked_nil : asked k [] = 0 := rfl

@[simp] theorem asked_cons : asked k (s :: ss) = s.asks k + asked k ss := List.sum_cons

@[simp] theorem asked_append : asked k (ss ++ ts) = asked k ss + asked k ts := by simp [asked]

@[simp] theorem spared_nil : spared k [] = 0 := rfl

@[simp] theorem spared_cons : spared k (s :: ss) = s.spares k + spared k ss := List.sum_cons

@[simp] theorem spared_append : spared k (ss ++ ts) = spared k ss + spared k ts := by simp [spared]

end Lists

/-- The code has the instructions that the statements ask for. -/
def Tallied (k : Kind) (ss : List Stmt) (code : Code) : Prop :=
  code.count k + spared k ss = asked k ss

namespace Tallied

variable {s : Stmt} {ss ts : List Stmt} {a b : Code}

theorem nil : Tallied k [] [] := rfl

theorem append (ha : Tallied k ss a) (hb : Tallied k ts b) : Tallied k (ss ++ ts) (a ++ b) := by
  simp only [Tallied, Code.count_append, spared_append, asked_append] at *
  omega

theorem congr (h : Tallied k ss a) (hc : b.count k = a.count k) : Tallied k ss b := by
  rwa [Tallied, hc]

theorem stmt (h : Tallied k ss a) (hi : s.inner = ss) (hs : s.spares k = 0)
    (hc : code.count k = s.asks k + a.count k) : Tallied k (s :: s.inner) code := by
  subst hi
  simp only [Tallied, spared_cons, asked_cons] at *
  omega

/-- A call whose value is dropped is a plain one, so its statement spares the other kind. -/
theorem eval {e : Expr} {at_ : Span} (hc : code.count k = e.makesFor k .effect + tally k e.inner) :
    Tallied k (.eval e at_ :: (Stmt.eval e at_).inner) code := by
  rw [Stmt.inner, Tallied, hc]
  cases e with
  | call => simp [Stmt.asks, Expr.makesFor]; omega
  | _ => simp [Stmt.asks, Expr.makesFor]

end Tallied

theorem Stmt.asks_for (first step : Option Stmt) (test : Option Expr) (body : Block)
    (at_ : Span) :
    (Stmt.for first test step body at_).asks k =
      (if test.isSome then one .branch k else 0) + tally k (nodesAll test.toList) := by
  cases test <;> simp [asks]

section

variable (hk : k.isOperation)
include hk

theorem Code.count_place (l : Option Label) : Code.count (place l) k = 0 := by
  cases l <;> simp [place, Instruction.kind, Kind.idle hk]

theorem Code.count_mark {mark : Code} {again : Option Label} {start : Label}
    (h : mark = place again ∨ mark = [] ∧ again = some start) : mark.count k = 0 := by
  obtain rfl | ⟨rfl, _⟩ := h
  · exact count_place hk again
  · rfl

theorem Departs.count {exit : Option (Option Label)} (h : Departs exit code) : code.count k = 0 := by
  obtain rfl | ⟨_, _, rfl⟩ := h <;> simp [Instruction.kind, Kind.idle hk]

theorem Code.count_eachStored (base : Operand) {places : List (List Nat)} {xs : List Valued}
    (h : xs.length ≤ places.length) :
    Code.count (places.zipWith (fun p x => x.1 ++ [elementStore base p x.2]) xs).flatten k =
      Code.count (xs.flatMap (·.1)) k := by
  induction places generalizing xs with
  | nil =>
    obtain rfl : xs = [] := List.eq_nil_of_length_eq_zero (Nat.le_zero.1 h)
    rfl
  | cons p rest ih =>
    cases xs with
    | nil => rfl
    | cons x xs => simp [ih (Nat.le_of_succ_le_succ h), Kind.idle hk]

theorem EmitsStores.count {there : String} {es : List Expr}
    (h : EmitsStores True .reject there es n code m) : code.count k = tally k (nodesAll es) := by
  obtain ⟨hs, h⟩ := h
  have hl : (literalCells .reject es).length = (literalPlaces .reject es).length := by
    simp [literalCells]
  rw [Code.count_eachStored hk _ (Nat.le_of_eq (h.length_eq.trans hl)), h.count hk,
    literalCells_eq (hs trivial), List.filterMap_map]
  simp [tally_leavesAll]

theorem Binding.Emits.count {b : Binding} (h : b.Emits True .reject n code m) :
    code.count k = tally k (nodesAll b.value.toList) := by
  cases h with
  | stray h => exact absurd trivial h
  | bare h => simp [h]
  | array hv h => simp [hv, Expr.inner, h.count hk]
  | value hv _ he hc => simp [hv, he.count hk, hc.count hk, Instruction.kind, Kind.idle hk]

theorem EmitsIndices.count {is : List Expr} {vs : List Operand}
    (h : EmitsIndices True .reject is n code vs m) : code.count k = tally k (nodesAll is) := by
  induction h with
  | nil => rfl
  | cons he hc _ ih => simp [he.count hk, hc.count hk, ih, Nat.add_assoc]

theorem Target.Emits.count {target : Target} {value : Expr}
    (h : target.Emits True .reject value n code m) :
    code.count k = tally k (nodesAll (target.exprs ++ [value])) := by
  cases h with
  | stray h => exact absurd trivial h
  | array h => simp [Expr.inner, h.count hk]
  | ident _ he hc => simp [he.count hk, hc.count hk, Instruction.kind, Kind.idle hk]
  | index hb hi he hc =>
    simp [hb.count hk, hi.count hk, he.count hk, hc.count hk, Instruction.kind, Kind.idle hk]
    omega
  | property hb he hc =>
    simp [hb.count hk, he.count hk, hc.count hk, Instruction.kind, Kind.idle hk, Nat.add_assoc]

theorem EmitsTest.count {test : Option Expr} {done : Option Label}
    (h : EmitsTest True .reject test n code done m) :
    code.count k = (if test.isSome then one .branch k else 0) + tally k (nodesAll test.toList) := by
  cases h with
  | never => rfl
  | test h => simp [h.count hk, Instruction.kind, Nat.add_comm]

theorem EmitsTests.count {w : Operand} {cases : List Case} {labels : List Label}
    (h : EmitsTests True .reject w cases n code labels m) :
    code.count k = cases.length * one .branch k + tally k (nodesAll (cases.map (·.value))) := by
  induction h with
  | nil => simp
  | cons h _ ih =>
    simp [h.count hk, Instruction.kind, ih, Nat.add_mul]
    omega

end

mutual

theorem Stmt.Emits.tallied (hk : k.isOperation) :
    ∀ {ex : Exits} {s : Stmt} {n m : Supply} {code : Code},
    s.Emits True .reject ex n code m → Tallied k (s :: s.inner) code
  | _, _, _, _, _, .skipped h _ | _, _, _, _, _, .strayExit h | _, _, _, _, _, .strayNext h
  | _, _, _, _, _, .strayClass h => absurd trivial h
  | _, _, _, _, _, .declare h => .stmt .nil rfl rfl (by simp [Stmt.asks, h.count hk])
  | _, _, _, _, _, .assign h => .stmt .nil rfl rfl (by simp [Stmt.asks, h.count hk])
  | _, _, _, _, _, .eval h => .eval (h.count hk)
  | _, _, _, _, _, .print h => .stmt .nil rfl rfl (by
    simp [Stmt.asks, h.count hk, Instruction.kind, Kind.idle hk]
    omega)
  | _, _, _, _, _, .leave => .stmt .nil rfl rfl (by simp [Stmt.asks, Instruction.kind])
  | _, _, _, _, _, .return h => .stmt .nil rfl rfl (by
    simp [Stmt.asks, h.count hk, Instruction.kind]
    omega)
  | _, _, _, _, _, .exit _ | _, _, _, _, _, .next _ =>
    .stmt .nil rfl rfl (by simp [Stmt.asks, Instruction.kind, Kind.idle hk])
  | _, _, _, _, _, .block h => .stmt (h.tallied hk) (by simp [Stmt.inner]) rfl (by simp [Stmt.asks])
  | _, _, _, _, _, .ifThen hc hy => .stmt (hy.tallied hk) (by simp [Stmt.inner]) rfl (by
    simp [Stmt.asks, hc.count hk, Instruction.kind, Kind.idle hk]
    omega)
  | _, _, _, _, _, .ifThenElse hc hy hn =>
    .stmt ((hy.tallied hk).append (hn.tallied hk)) (by simp [Stmt.inner]) rfl (by
      simp [Stmt.asks, hc.count hk, Instruction.kind, Kind.idle hk]
      omega)
  | _, _, _, _, _, .whileLoop hc hb => .stmt (hb.tallied hk) (by simp [Stmt.inner]) rfl (by
    simp [Stmt.asks, hc.count hk, Instruction.kind, Kind.idle hk]
    omega)
  | _, _, _, _, _, .doWhile hb hc => .stmt (hb.tallied hk) (by simp [Stmt.inner]) rfl (by
    simp [Stmt.asks, hc.count hk, Instruction.kind, Kind.idle hk, Code.count_place hk]
    omega)
  | _, _, _, _, _, .forLoop hf ht hb hs hm =>
    .stmt (((hf.tallied hk).append (hb.tallied hk)).append (hs.tallied hk))
      (by simp [Stmt.inner]) rfl (by
      simp [Stmt.asks_for, ht.count hk, Code.count_mark hk hm, Instruction.kind, Kind.idle hk,
        Code.count_place hk]
      omega)
  | _, _, _, _, _, .foreach hc _ hb => .stmt (hb.tallied hk) (by simp [Stmt.inner]) rfl (by
    simp [Stmt.asks, hc.count hk, Instruction.kind, Kind.idle hk, Code.count_place hk]
    omega)
  | _, _, _, _, _, .switch hv hc ht hl hb =>
    .stmt (hb.tallied hk ht.length_eq) (by simp [Stmt.inner]) rfl (by
      simp [Stmt.asks, hv.count hk, hc.count hk, ht.count hk, hl.count hk, Code.count_place hk]
      omega)
  | _, _, _, _, _, .switchDefault hv hc ht hb hd =>
    .stmt ((hb.tallied hk ht.length_eq).append (hd.tallied hk)) (by simp [Stmt.inner]) rfl (by
      simp [Stmt.asks, hv.count hk, hc.count hk, ht.count hk, Instruction.kind, Kind.idle hk,
        Code.count_place hk]
      omega)
  | _, _, _, _, _, .tryCatch hb hh =>
    .stmt ((hb.tallied hk).append (hh.tallied hk)) (by simp [Stmt.inner]) rfl (by
      simp [Stmt.asks, Instruction.kind, Kind.idle hk])
  | _, _, _, _, _, .function h =>
    let ⟨_, hb, hc⟩ := h.tallied hk
    .stmt hb rfl rfl (by simp [Stmt.asks, hc])
  | _, _, _, _, _, .classDef h =>
    let ⟨_, hb, hc⟩ := h.tallied hk
    .stmt hb (by simp [Stmt.inner]) rfl (by
      simp [Stmt.asks, hc, Instruction.kind, Nat.add_mul]
      omega)

theorem EmitsAll.tallied (hk : k.isOperation) :
    ∀ {ex : Exits} {body : List Stmt} {n m : Supply} {code : Code},
    EmitsAll True .reject ex body n code m → Tallied k (innerAll body) code
  | _, _, _, _, _, .nil => .nil
  | _, _, _, _, _, .cons hs hr => (hs.tallied hk).append (hr.tallied hk)

theorem EmitsCases.tallied (hk : k.isOperation) :
    ∀ {ex : Exits} {cases : List Case} {labels : List Label} {n m : Supply} {code : Code},
    EmitsCases True .reject ex cases labels n code m →
    labels.length = cases.length → Tallied k (innerCases cases) code
  | _, _, _, _, _, _, .nil, _ => .nil
  | _, _, _, _, _, _, .cons hb hv hr, hl => by
    rw [innerCases_cons]
    refine ((hb.tallied hk).append (hr.tallied hk (Nat.succ.inj hl))).congr ?_
    simp [hv.count hk, Instruction.kind, Kind.idle hk]

theorem EmitsFunction.tallied (hk : k.isOperation) :
    ∀ {f : Function} {n m : Supply} {code : Code},
    EmitsFunction True .reject f n code m →
    ∃ body, Tallied k f.inner body ∧ code.count k = one .entry k + one .close k + body.count k
  | _, _, _, _, .stray h => absurd trivial h
  | f, _, _, _, .body h => ⟨_, f.inner_eq ▸ h.tallied hk, by
    simp [Instruction.kind]
    omega⟩

theorem EmitsMembers.tallied (hk : k.isOperation) :
    ∀ {members : List Member} {n m : Supply} {code : Code},
    EmitsMembers True .reject members n code m →
    ∃ bodies, Tallied k (innerMembers members) bodies ∧
      code.count k = members.countP Member.isMethod * (one .entry k + one .close k) +
        tally k (nodesAll (members.flatMap Member.exprs)) + bodies.count k
  | _, _, _, _, .nil => ⟨[], .nil, by simp⟩
  | _, _, _, _, .field hb hr =>
    let ⟨_, hr, hc⟩ := hr.tallied hk
    ⟨_, hr, by
      simp [hb.count hk, hc]
      omega⟩
  | _, _, _, _, .method hf hr =>
    let ⟨_, hf, hd⟩ := hf.tallied hk
    let ⟨_, hr, hc⟩ := hr.tallied hk
    ⟨_, hf.append hr, by
      simp [hc, hd, List.countP_cons, Nat.add_mul]
      omega⟩

end

theorem asked_eq (k : Kind) (ss : List Stmt) :
    asked k ss = (ss.map (Stmt.makes k)).sum + tally k (ss.flatMap fun s => nodesAll s.exprs) := by
  induction ss with
  | nil => rfl
  | cons s rest ih =>
    simp [ih, Stmt.asks]
    omega

theorem sum_makes (k : Kind) (ss : List Stmt) : (ss.map (Stmt.makes k)).sum =
    2 * ss.countP (· matches .foreach ..) * one .binary k +
    (ss.countP (· matches .print ..) + ss.countP (· matches .eval (.call ..) _)) * one .call k +
    (ss.countP (· matches .ite .. | .while .. | .doWhile .. | .foreach .. | .for _ (some _) _ _ _) +
      (ss.map Stmt.caseCount).sum) * one .branch k +
    ss.countP (· matches .return ..) * one .return k +
    (ss.countP (· matches .function _ | .class _) + (ss.map Stmt.methodCount).sum) *
      (one .entry k + one .close k) := by
  induction ss with
  | nil => simp
  | cons s rest ih =>
    rw [List.map_cons, List.sum_cons, ih]
    simp only [List.countP_cons, List.map_cons, List.sum_cons]
    cases s with
    | eval e =>
      cases e with
      | call => simp; ring
      | _ => simp
    | «for» _ test =>
      cases test with
      | none => simp
      | some => simp; ring
    | _ => simp <;> ring

theorem tally_eq (k : Kind) (es : List Expr) : tally k es =
    es.countP (· matches .binary ..) * one .binary k +
    es.countP (· matches .unary ..) * one .unary k +
    es.countP (· matches .logical .. | .ternary ..) * one .branch k +
    es.countP (· matches .call ..) * one .callInto k +
    es.countP (· matches .new ..) * one .new k := by
  induction es with
  | nil => simp
  | cons e rest ih =>
    rw [tally_cons, ih]
    simp only [List.countP_cons]
    cases e <;> simp <;> ring

theorem spared_eq (k : Kind) (ss : List Stmt) :
    spared k ss = ss.countP (· matches .eval (.call ..) _) * one .callInto k := by
  induction ss with
  | nil => simp
  | cons s rest ih =>
    rw [spared_cons, ih, List.countP_cons]
    cases s with
    | eval e => cases e <;> simp [Nat.add_mul, Nat.add_comm]
    | _ => simp

structure Program.Audited (p : Program) (code : Code) : Prop where
  binary : code.count .binary =
    p.nodes.countP (· matches .binary ..) + 2 * p.stmts.countP (· matches .foreach ..)
  unary : code.count .unary = p.nodes.countP (· matches .unary ..)
  new : code.count .new = p.nodes.countP (· matches .new ..)
  call : code.count .call =
    p.stmts.countP (· matches .print ..) + p.stmts.countP (· matches .eval (.call ..) _)
  /-- All calls but those that are statements of their own. -/
  callInto : code.count .callInto + p.stmts.countP (· matches .eval (.call ..) _) =
    p.nodes.countP (· matches .call ..)
  branch : code.count .branch = p.nodes.countP (· matches .logical .. | .ternary ..) +
    p.stmts.countP
      (· matches .ite .. | .while .. | .doWhile .. | .foreach .. | .for _ (some _) _ _ _) +
    (p.stmts.map Stmt.caseCount).sum
  ret : code.count .return = p.stmts.countP (· matches .return ..)
  entry : code.count .entry =
    p.stmts.countP (· matches .function _ | .class _) + (p.stmts.map Stmt.methodCount).sum
  close : code.count .close =
    p.stmts.countP (· matches .function _ | .class _) + (p.stmts.map Stmt.methodCount).sum

namespace Program

/-- If a program compiles whose literals have to be rectangles, then no operation of its source is
lost, and none is done twice. -/
theorem compile_operations {p : Program} {options : Options} {out : Compiled}
    (h : p.compile options = .ok out) (hr : options.raggedArrays = .reject) :
    p.Audited out.code := by
  obtain ⟨_, hl⟩ := compile_eq_ok.1 h
  obtain ⟨n, he⟩ := lower_emits True hl fun _ => rfl
  rw [hr] at he
  have tallied {k : Kind} (hk : k.isOperation) :
      out.code.count k + spared k p.stmts = (p.stmts.map (Stmt.makes k)).sum + tally k p.nodes :=
    (he.tallied hk).trans (asked_eq k _)
  simp only [spared_eq, sum_makes, tally_eq] at tallied
  -- of the weights in the sums, only those of the kind itself are left
  exact {
    binary := by simpa [one, Nat.add_comm] using tallied (k := .binary) rfl
    unary := by simpa [one] using tallied (k := .unary) rfl
    new := by simpa [one] using tallied (k := .new) rfl
    call := by simpa [one] using tallied (k := .call) rfl
    callInto := by simpa [one] using tallied (k := .callInto) rfl
    branch := by simpa [one, Nat.add_comm, Nat.add_left_comm] using tallied (k := .branch) rfl
    ret := by simpa [one] using tallied (k := .return) rfl
    entry := by simpa [one] using tallied (k := .entry) rfl
    close := by simpa [one] using tallied (k := .close) rfl }

def auditing : Program :=
  ⟨[.class ⟨"C", none, [.field ⟨"v", none,
        some (.binary (.int 1 .unplaced) .add (.int 2 .unplaced) .unplaced), false, .atLine 2⟩,
      .method ⟨"m", [], none, ⟨[.return (some (.unary .neg (.int 1 .unplaced) .unplaced))
        (.atLine 3)], .atLine 3⟩, .atLine 3⟩], .atLine 1⟩,
    .foreach "x" (.array [.int 3 .unplaced] .unplaced)
      ⟨[.print (.ident "x" .unplaced) (.atLine 5)], .atLine 4⟩ (.atLine 4),
    .eval (.call (.property (.new "C" [] .unplaced) "m" .unplaced) [] .unplaced) (.atLine 6)],
    .unplaced⟩

theorem auditing_operations : ∃ out, auditing.compile {} = .ok out ∧
    [Kind.binary, .unary, .new, .call, .callInto, .branch, .return, .entry, .close].map
      out.code.count = [3, 1, 1, 2, 0, 1, 1, 2, 2] ∧ auditing.Audited out.code := by
  have h : (fun out : Compiled =>
      [Kind.binary, .unary, .new, .call, .callInto, .branch, .return, .entry, .close].map
        out.code.count) <$> (auditing.compile {}).toOption = some [3, 1, 1, 2, 0, 1, 1, 2, 2] := by
    decide +kernel
  obtain ⟨out, ho, hc⟩ := exists_of_check h
  exact ⟨out, ho, hc, compile_operations ho rfl⟩

end Program

end ThreeAddress
