import ThreeAddress.Proofs.Lowering.Exits
import ThreeAddress.Proofs.Temps.Values

/-! What every construct is turned into: rules for the code of expressions and statements, which
thread the temporaries that are taken. Lowering obeys the rules, so that what is true of all code is
proved along them, without the state of lowering.

Labels and the names of callees are left open. With `strict` nothing is skipped: without it there are
rules for what lowering reports and passes over. -/

namespace ThreeAddress

open Lower

/-- The number of temporaries taken, and those of them that array literals took for their elements. -/
structure Supply where
  taken : Nat := 0
  bases : List Temp := []

namespace Supply

abbrev next (n : Supply) : Temp := ⟨n.taken + 1⟩

abbrev take (n : Supply) : Supply := ⟨n.taken + 1, n.bases⟩

abbrev takeBase (n : Supply) : Supply := ⟨n.taken + 1, n.bases ++ [n.next]⟩

end Supply

/-- What a literal other than an array stands for. -/
def Expr.constant? : Expr → Option Operand
  | .int n _ => some (.int n)
  | .str text _ => some (.str text)
  | .bool b _ => some (.bool b)
  | .null _ => some .null
  | _ => none

/-- The expression at a position of an array literal; there is none in a gap. -/
def Expr.at? (e : Expr) : List Nat → Option Expr
  | [] => match e with
    | .array .. => none
    | e => some e
  | i :: path => match e with
    | .array es _ => es[i]?.bind (·.at? path)
    | _ => none

def literalCells (ragged : RaggedArrays) (es : List Expr) : List (Option Expr) :=
  (literalPlaces ragged es).map (Expr.array es .unplaced).at?

/-- The value as it is, or a copy of it. -/
inductive Copied : Supply → Operand → Code → Operand → Supply → Prop
  | kept : Copied n v [] v n
  | copied : Copied n v [.assign (.temp n.next) v] (.temp n.next) n.take

/-- The way out of a switch: nothing, or a jump to where `break` leads. -/
def Departs (exit : Option (Option Label)) (code : Code) : Prop :=
  code = [] ∨ ∃ l, exit = some (some l) ∧ code = [.goto l]

section

variable (strict : Prop) (ragged : RaggedArrays)

def Shaped (es : List Expr) : Prop :=
  strict → ((Nest.row (lowerCells es)).shape? ragged).isSome

mutual

inductive Expr.Emits : Demand → Expr → Supply → Code → Operand → Supply → Prop
  | constant : Expr.constant? e = some v → Expr.Emits d e n [.assign (.temp n.next) v] (.temp n.next) n.take
  | ident : Expr.Emits d (.ident name at_) n [] (.var there) n
  | this : Expr.Emits d (.this at_) n [] (.var "this") n
  | array : Shaped strict ragged es → EmitsCells (literalCells ragged es) n xs m →
    Expr.Emits d (.array es at_) n
      (xs.flatMap (·.1) ++
        (literalPlaces ragged es).zipWith (fun p x => elementStore (.temp m.next) p x.2) xs)
      (.temp m.next) m.takeBase
  | binary : Expr.Emits .value l n first a m → Expr.Emits .value r m second b k →
    Expr.Emits d (.binary l op r at_) n (first ++ second ++ [.binary (.temp k.next) a op b])
      (.temp k.next) k.take
  | unary : Expr.Emits .value e n code v m →
    Expr.Emits d (.unary op e at_) n (code ++ [.unary (.temp m.next) op v]) (.temp m.next) m.take
  | logical : Expr.Emits .value l n first a m → Expr.Emits .value r m.take second b k →
    Expr.Emits d (.logical l op r at_) n
      (first ++ [.assign (.temp m.next) (.int (if op = .and then 0 else 1)),
          .branch a (if op = .and then .eq else .ne) (.int 0) done]
        ++ second ++ [.assign (.temp m.next) b, .label done]) (.temp m.next) k
  | ternary : Expr.Emits .value c n head v m → Expr.Emits .value e m first a k →
    Expr.Emits .value e' k.take second b l →
    Expr.Emits d (.ternary c e e' at_) n
      (head ++ [.branch v .eq (.bool true) yes, .goto no, .label yes] ++ first
        ++ [.assign (.temp k.next) a, .goto done, .label no] ++ second
        ++ [.assign (.temp k.next) b, .label done]) (.temp k.next) l
  | call : EmitsCallee callee n first receiver m → EmitsArgs args m second params k →
    Expr.Emits .value (.call callee args at_) n
      (first ++ second ++ [.callInto (.temp k.next) name (receiver ++ params)]) (.temp k.next) k.take
  | drop : EmitsCallee callee n first receiver m → EmitsArgs args m second params k →
    Expr.Emits .effect (.call callee args at_) n
      (first ++ second ++ [.call name (receiver ++ params)]) .null k
  | new : EmitsArgs args n code params m →
    Expr.Emits d (.new name args at_) n (code ++ [.new (.temp m.next) name params]) (.temp m.next) m.take
  | index : Expr.Emits .value base n first b m → Expr.Emits .value i m second v k → Copied k v copy w l →
    Expr.Emits d (.index base i at_) n
      (first ++ second ++ copy ++ [.assign (.temp l.next) (.element b [w])]) (.temp l.next) l.take
  | property : Expr.Emits .value object n code b m →
    Expr.Emits d (.property object field at_) n (code ++ [.assign (.temp m.next) (.field b field)])
      (.temp m.next) m.take

inductive EmitsCells : List (Option Expr) → Supply → List Valued → Supply → Prop
  | nil : EmitsCells [] n [] n
  | leaf : Expr.Emits .value e n code v m → Copied m v copy w k → EmitsCells rest k xs l →
    EmitsCells (some e :: rest) n ((code ++ copy, w) :: xs) l
  | gap : zero.temps = [] → EmitsCells rest n.take xs m →
    EmitsCells (none :: rest) n (([.assign (.temp n.next) zero], .temp n.next) :: xs) m

inductive EmitsArgs : List Expr → Supply → Code → List Operand → Supply → Prop
  | nil : EmitsArgs [] n [] [] n
  | cons : Expr.Emits .value e n code v m → EmitsArgs rest m.take second params k →
    EmitsArgs (e :: rest) n (code ++ [.assign (.temp m.next) v] ++ second) (.temp m.next :: params) k

inductive EmitsCallee : Expr → Supply → Code → List Operand → Supply → Prop
  | name : EmitsCallee (.ident name at_) n [] [] n
  | own : EmitsCallee (.ident name at_) n [.assign (.temp n.next) (.var "this")] [.temp n.next] n.take
  | method : Expr.Emits .value object n code v m →
    EmitsCallee (.property object name at_) n (code ++ [.assign (.temp m.next) v]) [.temp m.next]
      m.take
  | value : (∀ object name at_, callee ≠ .property object name at_) →
    Expr.Emits .value callee n code v m → EmitsCallee callee n code [] m

end

inductive EmitsStores (there : String) (es : List Expr) : Supply → Code → Supply → Prop
  | mk : Shaped strict ragged es → EmitsCells strict ragged (literalCells ragged es) n xs m →
    EmitsStores there es n
      ((literalPlaces ragged es).zipWith (fun p x => x.1 ++ [elementStore (.var there) p x.2])
        xs).flatten m

inductive Binding.Emits : Binding → Supply → Code → Supply → Prop
  | stray : ¬strict → Emits b n [] n
  | bare : b.value = none → Emits b n [] n
  | array : b.value = some (.array es at_) → EmitsStores strict ragged there es n code m →
    Emits b n code m
  | value : b.value = some e → (∀ es at_, e ≠ .array es at_) →
    e.Emits strict ragged .value n code v m → Copied m v copy w k →
    Emits b n (code ++ copy ++ [.assign (.var b.name) w]) k

inductive EmitsIndices : List Expr → Supply → Code → List Operand → Supply → Prop
  | nil : EmitsIndices [] n [] [] n
  | cons : e.Emits strict ragged .value n code v m → Copied m v copy w k →
    EmitsIndices rest k second is l →
    EmitsIndices (e :: rest) n (code ++ copy ++ second) (w :: is) l

inductive Target.Emits : Target → Expr → Supply → Code → Supply → Prop
  | stray : ¬strict → Emits (.ident name) value n [] n
  | array : EmitsStores strict ragged there es n code m →
    Emits (.ident name) (.array es at_) n code m
  | ident : (∀ es at_, value ≠ .array es at_) → value.Emits strict ragged .value n code v m →
    Copied m v copy w k → Emits (.ident name) value n (code ++ copy ++ [.assign (.var there) w]) k
  | index : base.Emits strict ragged .value n first b m →
    EmitsIndices strict ragged indices m second is k →
    value.Emits strict ragged .value k third v l → Copied l v copy w o →
    Emits (.index base indices) value n
      (first ++ second ++ (third ++ copy) ++ [.assign (.element b is) w]) o
  | property : object.Emits strict ragged .value n first b m →
    value.Emits strict ragged .value m second v k → Copied k v copy w l →
    Emits (.property object field) value n
      (first ++ (second ++ copy) ++ [.assign (.field b field) w]) l

inductive EmitsTest : Option Expr → Supply → Code → Option Label → Supply → Prop
  | never : EmitsTest none n [] done n
  | test : e.Emits strict ragged .value n head v m →
    EmitsTest (some e) n (head ++ [.branch v .eq (.int 0) done]) (some done) m

inductive EmitsTests (subject : Operand) : List Case → Supply → Code → List Label → Supply → Prop
  | nil : EmitsTests subject [] n [] [] n
  | cons : k.value.Emits strict ragged .value n head v m →
    EmitsTests subject rest m tests labels o →
    EmitsTests subject (k :: rest) n (head ++ .branch subject .eq v l :: tests) (l :: labels) o

mutual

/-- The code of a statement whose jumps lead where `ex` says. -/
inductive Stmt.Emits : Exits → Stmt → Supply → Code → Supply → Prop
  | skipped : ¬strict → Stmt.isPlain s → Stmt.Emits ex s n [] n
  | declare : b.Emits strict ragged n code m → Stmt.Emits ex (.declare b) n code m
  | assign : target.Emits strict ragged value n code m → Stmt.Emits ex (.assign target value at_) n code m
  | print : e.Emits strict ragged .value n code v m →
    Stmt.Emits ex (.print e at_) n
      (code ++ [.assign (.temp m.next) v] ++ [.call "print" [.temp m.next]]) m.take
  | eval : e.Emits strict ragged .effect n code v m → Stmt.Emits ex (.eval e at_) n code m
  | leave : Stmt.Emits ex (.return none at_) n [.return .null] n
  | return : e.Emits strict ragged .value n code v m →
    Stmt.Emits ex (.return (some e) at_) n (code ++ [.return v]) m
  | exit : ex.breaks = some (some l) → Stmt.Emits ex (.break at_) n [.goto l] n
  | strayExit : ¬strict → Stmt.Emits ex (.break at_) n [] n
  | next : ex.continues = some (some l) → Stmt.Emits ex (.continue at_) n [.goto l] n
  | strayNext : ¬strict → Stmt.Emits ex (.continue at_) n [] n
  | block : EmitsAll ex b.body n code m → Stmt.Emits ex (.block b) n code m
  | ifThen : c.Emits strict ragged .value n head v m → EmitsAll ex yes.body m mid k →
    Stmt.Emits ex (.ite c yes none at_) n (head ++ .branch v .eq (.int 0) l :: mid ++ [.label l]) k
  | ifThenElse : c.Emits strict ragged .value n head v m → EmitsAll ex yes.body m first k →
    EmitsAll ex no.body k second o →
    Stmt.Emits ex (.ite c yes (some no) at_) n
      (head ++ .branch v .eq (.int 0) l :: first ++ .goto done :: .label l :: second
        ++ [.label done]) o
  | whileLoop : c.Emits strict ragged .value n head v m →
    EmitsAll ⟨some (some done), some (some start)⟩ body.body m mid k →
    Stmt.Emits ex (.while c body at_) n
      (.label start :: head ++ .branch v .eq (.int 0) done :: mid ++ [.goto start, .label done]) k
  | doWhile : EmitsAll ⟨some done, some (some start)⟩ body.body n mid m →
    c.Emits strict ragged .value m tail v k →
    Stmt.Emits ex (.doWhile body c at_) n
      (.label start :: mid ++ tail ++ .branch v .ne (.int 0) start :: place done) k
  | forLoop : EmitsAll ex first.toList n head m → EmitsTest strict ragged test m check done k →
    EmitsAll ⟨some done, some again⟩ body.body k mid l → EmitsAll ex step.toList l tail o →
    (mark = place again ∨ mark = [] ∧ again = some start) →
    Stmt.Emits ex (.for first test step body at_) n
      (head ++ .label start :: check ++ mid ++ (mark ++ tail) ++ .goto start :: place done) o
  | foreach : collection.Emits strict ragged .value n head v m →
    (bound = .field v "length" ∨ ∃ k, bound = .int k) →
    EmitsAll ⟨some (some done), some again⟩ body.body m.take.take.take.take mid k →
    Stmt.Emits ex (.foreach item collection body at_) n
      (head ++ ([.assign (.temp m.next) (.int 0), .assign (.temp m.take.next) bound, .label start,
          .binary (.temp m.take.take.next) (.temp m.next) .lt (.temp m.take.next),
          .branch (.temp m.take.take.next) .eq (.int 0) done,
          .assign (.temp m.take.take.take.next) (.element v [.temp m.next]),
          .assign (.var item) (.temp m.take.take.take.next)]
        ++ mid ++ place again
        ++ [.binary (.temp m.next) (.temp m.next) .add (.int 1), .goto start, .label done])) k
  | switch : subject.Emits strict ragged .value n head v m → Copied m v copy w k →
    EmitsTests strict ragged w cases k tests labels l → Departs (some done) skip →
    EmitsCases ⟨some done, ex.continues⟩ cases labels l mid o →
    Stmt.Emits ex (.switch subject cases none at_) n
      (head ++ copy ++ tests ++ skip ++ mid ++ place done) o
  | switchDefault : subject.Emits strict ragged .value n head v m → Copied m v copy w k →
    EmitsTests strict ragged w cases k tests labels l →
    EmitsCases ⟨some done, ex.continues⟩ cases labels l mid o →
    EmitsAll ⟨some done, ex.continues⟩ body o last q →
    Stmt.Emits ex (.switch subject cases (some body) at_) n
      (head ++ copy ++ tests ++ .goto other :: mid ++ .label other :: last ++ place done) q
  | tryCatch : EmitsAll ex body.body n first m → EmitsAll ex handler.body m second k →
    Stmt.Emits ex (.tryCatch body caught handler at_) n
      (.tryBegin failed :: first
        ++ [.tryEnd, .goto done, .label failed, .assign (.var caught) .exception]
        ++ second ++ [.label done]) k
  | function : EmitsFunction f n code m → Stmt.Emits ex (.function f) n code m
  | classDef : EmitsMembers c.members n mid m →
    Stmt.Emits ex (.class c) n (.entry c.name :: mid ++ [.close c.name]) m
  | strayClass : ¬strict → Stmt.Emits ex (.class c) n [] n

inductive EmitsAll : Exits → List Stmt → Supply → Code → Supply → Prop
  | nil : EmitsAll ex [] n [] n
  | cons : Stmt.Emits ex s n first m → EmitsAll ex rest m second k →
    EmitsAll ex (s :: rest) n (first ++ second) k

inductive EmitsCases : Exits → List Case → List Label → Supply → Code → Supply → Prop
  | nil : EmitsCases ex [] labels n [] n
  | cons : EmitsAll ex k.body n mid m → Departs ex.breaks leave →
    EmitsCases ex rest labels m second o →
    EmitsCases ex (k :: rest) (l :: labels) n (.label l :: mid ++ leave ++ second) o

inductive EmitsFunction : Function → Supply → Code → Supply → Prop
  | body : EmitsAll {} f.body.body n mid m →
    EmitsFunction f n (.entry name :: mid ++ [.close name]) m
  | stray : ¬strict → EmitsFunction f n [] n

inductive EmitsMembers : List Member → Supply → Code → Supply → Prop
  | nil : EmitsMembers [] n [] n
  | field : b.Emits strict ragged n first m → EmitsMembers rest m second k →
    EmitsMembers (.field b :: rest) n (first ++ second) k
  | method : EmitsFunction f n first m → EmitsMembers rest m second k →
    EmitsMembers (.method f :: rest) n (first ++ second) k

end

variable {strict ragged}

theorem EmitsCells.length_eq : ∀ {cells : List (Option Expr)} {n m : Supply} {xs : List Valued},
    EmitsCells strict ragged cells n xs m → xs.length = cells.length
  | _, _, _, _, .nil => rfl
  | _, _, _, _, .leaf _ _ hr | _, _, _, _, .gap _ hr => congrArg Nat.succ hr.length_eq

theorem EmitsTests.length_eq {subject : Operand} {cases : List Case} {n m : Supply} {code : Code}
    {labels : List Label} (h : EmitsTests strict ragged subject cases n code labels m) :
    labels.length = cases.length := by
  induction h with
  | nil => rfl
  | cons _ _ ih => exact congrArg Nat.succ ih

end

end ThreeAddress
