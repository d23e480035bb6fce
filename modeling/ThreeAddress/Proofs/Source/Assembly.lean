import ThreeAddress.Proofs.Headers.Collected
import ThreeAddress.Proofs.Scope.Course
import ThreeAddress.Source.Assembly

namespace ThreeAddress

namespace Assembly

/-- What is made, and taken to make more of it. Expressions are not among it: no scope is in them. -/
inductive Piece
  | stmt : Stmt → Piece
  | block : Block → Piece
  | case : Case → Piece
  | param : Param → Piece
  | member : Member → Piece

def Piece.keys : Piece → List Position
  | .stmt s => s.keys
  | .block b => b.keys
  | .case k => k.keys
  | .param _ => []
  | .member m => m.keys

inductive Call : List Piece → Assembly Piece → Prop
  | block (body) : Call (body.map .stmt) (.block <$> block body)
  | nested (body) : Call (body.map .stmt) (.stmt <$> nested body)
  | declareVariable (name type value) : Call [] (.stmt <$> declareVariable name type value)
  | declareConstant (name type value) : Call [] (.stmt <$> declareConstant name type value)
  | assign (target value) : Call [] (.stmt <$> assign target value)
  | print (e) : Call [] (.stmt <$> print e)
  | eval (e) : Call [] (.stmt <$> eval e)
  | ite (c yes no) : Call (yes.map .stmt ++ (no.getD []).map .stmt) (.stmt <$> ite c yes no)
  | whileLoop (c body) : Call (body.map .stmt) (.stmt <$> whileLoop c body)
  | doWhile (body c) : Call (body.map .stmt) (.stmt <$> doWhile body c)
  | forLoop (first c step body) :
    Call (first.toList.map .stmt ++ step.toList.map .stmt ++ body.map .stmt)
      (.stmt <$> forLoop first c step body)
  | foreach (item collection body) : Call (body.map .stmt) (.stmt <$> foreach item collection body)
  | case (value body) : Call (body.map .stmt) (.case <$> case value body)
  | switch (subject cases default) : Call (cases.map .case ++ (default.getD []).map .stmt)
      (.stmt <$> switch subject cases default)
  | breakOut : Call [] (.stmt <$> breakOut)
  | continueLoop : Call [] (.stmt <$> continueLoop)
  | returnValue (value) : Call [] (.stmt <$> returnValue value)
  | tryCatch (body caught handler) : Call (body.map .stmt ++ handler.map .stmt)
      (.stmt <$> tryCatch body caught handler)
  | param (name type) : Call [] (.param <$> param name type)
  | function (name params result body) : Call (params.map .param ++ body.map .stmt)
      ((.stmt ∘ .function) <$> function name params result body)
  | field (name type value) : Call [] (.member <$> field name type value)
  | method (name params result body) : Call (params.map .param ++ body.map .stmt)
      ((.member ∘ .method) <$> function name params result body)
  | classDecl (name parent members) : Call (members.map .member) (.stmt <$> classDecl name parent members)

/-- Pieces that were made and not taken yet, after all lines from `start` on and before `line` were
handed out. A piece that is never taken stands for lines that others have got. -/
inductive Bench (start : Nat) : Nat → List Piece → Prop
  | start : Bench start start []
  | call : Bench start line pool → pool.Perm (parts ++ rest) → Call parts act →
    Bench start (act line).2 ((act line).1 :: rest)

/-- The program consists of pieces, each taken once. -/
inductive Assembled (start : Nat) : Program → Prop
  | program : Bench start line pool → pool.Perm (statements.map .stmt ++ rest) →
    Assembled start (program statements)

def handedOut (line n : Nat) : List Position := (List.range' line n).map fun l => (Span.atLine l).toPosition

theorem handedOut_add (line m n : Nat) :
    handedOut line (m + n) = handedOut line m ++ handedOut (line + m) n := by
  rw [handedOut, handedOut, handedOut, ← List.map_append, List.range'_append_1]

theorem nodup_handedOut (line n : Nat) : (handedOut line n).Nodup :=
  List.Nodup.map (fun _ _ h => congrArg Position.line h) List.nodup_range'

theorem origin_not_mem_handedOut (line n : Nat) : .origin ∉ handedOut line n := by
  rw [handedOut, List.mem_map]
  rintro ⟨l, -, h⟩
  exact Nat.one_ne_zero (congrArg Position.col h)

section Pieces

theorem flatMap_stmt (body : List Stmt) : (body.map Piece.stmt).flatMap Piece.keys = keysAll body := by
  rw [List.flatMap_map, keysAll_eq]
  rfl

theorem flatMap_param (params : List Param) : (params.map Piece.param).flatMap Piece.keys = [] := by
  rw [List.flatMap_map]
  exact List.flatMap_eq_nil_iff.2 fun _ _ => rfl

theorem flatMap_member (members : List Member) :
    (members.map Piece.member).flatMap Piece.keys = keysMembers members := by
  rw [List.flatMap_map, keysMembers_eq]
  rfl

theorem flatMap_case (cases : List Case) : (cases.map Piece.case).flatMap Piece.keys = keysCases cases := by
  rw [List.flatMap_map, keysCases_eq]
  exact congrArg (List.flatMap · cases) (funext fun ⟨_, _, _⟩ => by rw [Piece.keys, Case.keys])

theorem flatMap_option (s : Option Stmt) : (s.toList.map Piece.stmt).flatMap Piece.keys = keysOption s := by
  cases s with
  | none => rfl
  | some s => exact List.append_nil _

theorem flatMap_default (default : Option (List Stmt)) :
    ((default.getD []).map Piece.stmt).flatMap Piece.keys = keysDefault default := by
  cases default with
  | none => rfl
  | some body => exact flatMap_stmt body

end Pieces

variable {parts pool : List Piece} {act : Assembly Piece} {start line : Nat} {p : Program}

/-- The scopes of a piece are those of its parts, and new ones at lines of its own. -/
theorem Call.keys (h : Call parts act) (line : Nat) : ∃ n fresh, (act line).2 = line + n ∧
    fresh.Sublist (handedOut line n) ∧ (act line).1.keys.Perm (fresh ++ parts.flatMap Piece.keys) := by
  have one {n : Nat} : [(Span.atLine line).toPosition].Sublist (handedOut line (n + 1)) :=
    (List.nil_sublist _).cons_cons _
  have two {n : Nat} : [(Span.atLine line).toPosition, (Span.atLine (line + 1)).toPosition].Sublist
      (handedOut line (n + 2)) := ((List.nil_sublist _).cons_cons _).cons_cons _
  cases h with
  | declareVariable | declareConstant | assign | print | eval | breakOut | continueLoop | returnValue
  | param | field => exact ⟨1, [], rfl, List.nil_sublist _, .refl _⟩
  | block body | nested body | whileLoop _ body | doWhile body | foreach _ _ body =>
    rw [flatMap_stmt]
    exact ⟨_, _, rfl, one, .refl _⟩
  | case value body =>
    rw [flatMap_stmt]
    exact ⟨1, [], rfl, List.nil_sublist _, .refl _⟩
  | ite c yes no =>
    rw [List.flatMap_append, flatMap_stmt, flatMap_default]
    cases no with
    | none => exact ⟨2, _, rfl, one, .refl _⟩
    | some no => exact ⟨3, _, rfl, two, List.perm_middle.cons _⟩
  | forLoop first c step body =>
    rw [List.flatMap_append, List.flatMap_append, flatMap_option, flatMap_option, flatMap_stmt]
    exact ⟨2, _, rfl, one, List.perm_middle⟩
  | switch subject cases default =>
    rw [List.flatMap_append, flatMap_case, flatMap_default]
    exact ⟨1, [], rfl, List.nil_sublist _, .refl _⟩
  | tryCatch body caught handler =>
    rw [List.flatMap_append, flatMap_stmt, flatMap_stmt]
    exact ⟨3, _, rfl, two, List.perm_middle.cons _⟩
  | function _ params _ body | method _ params _ body =>
    rw [List.flatMap_append, flatMap_param, flatMap_stmt]
    exact ⟨2, _, rfl, one, .refl _⟩
  | classDecl name parent members =>
    rw [flatMap_member]
    exact ⟨1, _, rfl, one, .refl _⟩

/-- The scopes of what is on the bench are at lines that were handed out, no two at the same one. -/
theorem Bench.keys_subperm (h : Bench start line pool) :
    ∃ n, line = start + n ∧ (pool.flatMap Piece.keys).Subperm (handedOut start n) := by
  induction h with
  | start => exact ⟨0, rfl, .refl _⟩
  | @call line pool parts rest act _ hp hc ih =>
    obtain ⟨n, rfl, hn⟩ := ih
    obtain ⟨m, fresh, hm, hfresh, hkeys⟩ := hc.keys (start + n)
    refine ⟨n + m, by rw [hm, Nat.add_assoc], ?_⟩
    have hpool : (pool.flatMap Piece.keys).Perm (parts.flatMap Piece.keys ++ rest.flatMap Piece.keys) := by
      rw [← List.flatMap_append]
      exact hp.flatMap_right _
    rw [List.flatMap_cons, handedOut_add]
    -- The scopes of the parts leave the bench, and come back to it in the new piece.
    have hnew : ((act (start + n)).1.keys ++ rest.flatMap Piece.keys).Perm
        (pool.flatMap Piece.keys ++ fresh) := by
      refine (hkeys.append_right _).trans ?_
      rw [List.append_assoc]
      exact List.perm_append_comm.trans (hpool.symm.append_right _)
    exact hnew.subperm.trans (hn.append hfresh.subperm)

/-- The scopes of an assembled program differ in their positions from one another and from the global code,
so collecting its declarations reports no two that start at the same place. -/
theorem Assembled.apart (h : Assembled start p) :
    p.keys.Nodup ∧ .origin ∉ p.keys ∧
      ∀ found, p.scopes = .error found → ∀ key, .collision key ∉ found := by
  cases h with
  | @program line pool rest statements hb hp =>
    obtain ⟨n, rfl, hn⟩ := hb.keys_subperm
    have hkeys : (Assembly.program statements).keys.Subperm (handedOut start n) := by
      refine List.Subperm.trans ?_ hn
      have hpool := hp.flatMap_right Piece.keys
      rw [List.flatMap_append, flatMap_stmt] at hpool
      exact (List.sublist_append_left _ _).subperm.trans hpool.symm.subperm
    have hw : (Assembly.program statements).WellKeyed :=
      ⟨nodup_of_subperm hkeys (nodup_handedOut _ _), fun h => origin_not_mem_handedOut _ _ (hkeys.subset h)⟩
    refine ⟨hw.1, hw.2, fun found hs key => ?_⟩
    rw [← (Program.scopes_eq_error.1 hs).2]
    exact hw.collision_not_mem key

def crowded : Assembly Program := do
  let n ← param "n" .integer
  let f ← function "f" [n] none []
  let step ← nested []
  let body ← tryCatch [] "e" []
  let loop ← forLoop (some (.function f)) none (some step) [body]
  let k ← case (int 0) [loop]
  let choice ← switch (int 0) [k] none
  let m ← function "m" [] none [choice]
  let c ← classDecl "C" none [.method m]
  return program [c]

theorem crowded_apart : Assembled 5 (crowded 5).1 ∧
    (crowded 5).1.keys = [18, 16, 6, 8, 12, 9, 10].map (⟨·, 1⟩) ∧
    (crowded 5).1.keys.Nodup ∧ .origin ∉ (crowded 5).1.keys ∧
      ∀ found, (crowded 5).1.scopes = .error found → ∀ key, .collision key ∉ found := by
  let n : Param := ⟨"n", some .integer, .atLine 5⟩
  let f : Stmt := .function ⟨"f", [n], none, ⟨[], .atLine 6⟩, .atLine 7⟩
  let step : Stmt := .block ⟨[], .atLine 8⟩
  let body : Stmt := .tryCatch ⟨[], .atLine 9⟩ "e" ⟨[], .atLine 10⟩ (.atLine 11)
  let loop : Stmt := .for (some f) none (some step) ⟨[body], .atLine 12⟩ (.atLine 13)
  let k : Case := ⟨int 0, [loop], .atLine 14⟩
  let choice : Stmt := .switch (int 0) [k] none (.atLine 15)
  let m : Member := .method ⟨"m", [], none, ⟨[choice], .atLine 16⟩, .atLine 17⟩
  have hn : Bench 5 6 [.param n] := .call .start (.refl _) (.param "n" .integer)
  have hf : Bench 5 8 [.stmt f] := .call hn (.refl _) (.function "f" [n] none [])
  have hstep : Bench 5 9 [.stmt step, .stmt f] := .call hf (.refl _) (.nested [])
  have hbody : Bench 5 12 [.stmt body, .stmt step, .stmt f] := .call hstep (.refl _) (.tryCatch [] "e" [])
  have hloop : Bench 5 14 [.stmt loop] :=
    .call hbody (List.reverse_perm _).symm (.forLoop (some f) none (some step) [body])
  have hk : Bench 5 15 [.case k] := .call hloop (.refl _) (.case (int 0) [loop])
  have hchoice : Bench 5 16 [.stmt choice] := .call hk (.refl _) (.switch (int 0) [k] none)
  have hm : Bench 5 18 [.member m] := .call hchoice (.refl _) (.method "m" [] none [choice])
  have hc : Bench 5 19 [.stmt (.class ⟨"C", none, [m], .atLine 18⟩)] :=
    .call hm (.refl _) (.classDecl "C" none [m])
  have h : Assembled 5 (crowded 5).1 := .program hc (.refl _)
  exact ⟨h, by decide +kernel, h.apart⟩

end Assembly

end ThreeAddress
