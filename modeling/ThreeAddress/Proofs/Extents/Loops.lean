import ThreeAddress.Proofs.Extents.Recorded
import ThreeAddress.Proofs.Lockstep.Forms
import ThreeAddress.Proofs.Scope.Addresses

namespace ThreeAddress

open Lowering Lower

/-- `code` begins with the head of a loop that reads `item` from `base` at the indices below `bound`. -/
def Code.Loops (item : String) (base bound : Operand) (code : Code) : Prop :=
  ∃ i n check element start done rest, code =
    [.assign (.temp i) (.int 0), .assign (.temp n) bound, .label start,
      .binary (.temp check) (.temp i) .lt (.temp n), .branch (.temp check) .eq (.int 0) done,
      .assign (.temp element) (.element base [.temp i]), .assign (.var item) (.temp element)] ++ rest

theorem Lower.indexLoop_loops {base bound : Operand} {item : String} {bind : Lower Unit}
    {body : Lower Code} {c : Context} {s s' : State} {code : Code}
    (h : Runs (indexLoop base bound item bind body) c s code s') : code.Loops item base bound := by
  obtain ⟨_, _, _, s₁, _, _, _, _, _, inner, s₂, _, _, rfl⟩ := runs_indexLoop.1 h
  exact ⟨_, _, _, _, _, _, _, by rw [List.append_assoc, List.append_assoc]⟩

theorem Stmt.foreach_loops {item : String} {e : Expr} {body : Block} {span : Span} {c : Context}
    {s s' : State} {code : Code} (h : Runs (Stmt.foreach item e body span).lower c s code s') :
    ∃ head base s₁ bound loop,
      Runs (e.lower .value) { c with scope := blockScope c s body.span } s (head, base) s₁ ∧
      Runs (loopBound e base) { c with scope := blockScope c s body.span } s₁ bound s₁ ∧
      code = head ++ loop ∧ loop.Loops item base bound := by
  rw [Stmt.lower] at h
  have h := runs_inBlock.1 h
  simp only [runs_bind, runs_pure] at h
  obtain ⟨⟨head, base⟩, s₁, he, bound, s₂, hb, loop, _, hl, rfl, rfl⟩ := h
  obtain ⟨rfl, _⟩ := runs_loopBound hb
  exact ⟨head, base, _, bound, loop, he, hb, rfl, indexLoop_loops hl⟩

theorem Nest.head_of_shape? {cells : List (Nest α)} {policy : RaggedArrays} {dims : List Nat}
    (h : (Nest.row cells).shape? policy = some dims) : dims.head? = some cells.length := by
  unfold shape? at h
  split at h
  · cases h
    rfl
  · cases policy <;> cases h
    rfl

theorem Table.Addressed.place {t : Table} {id : SymbolId} {x : Symbol} (h : t.Addressed)
    (hx : t.symbol id = .ok x) : x.place = x.name := by
  rw [Symbol.place, h hx]
  cases x.offset <;> rfl

/-- A loop over a variable has no code in front, and its bound tells from what is recorded of the
variable. -/
theorem Stmt.foreach_ident_loops {item v : String} {at_ : Span} {body : Block} {span : Span}
    {c : Context} {s s' : State} {code : Code} {id : SymbolId} {x : Symbol}
    (h : Runs (Stmt.foreach item (.ident v at_) body span).lower c s code s')
    (hl : s.table.lookup (blockScope c s body.span) v = .ok (some id))
    (hx : s.table.symbol id = .ok x) (ha : s.table.Addressed) :
    code.Loops item (.var v) (boundOf (.var v) x.dimensions) := by
  obtain ⟨head, base, s₁, bound, loop, he, hb, rfl, hloop⟩ := foreach_loops h
  have hv : x.place = v := (ha.place hx).trans (Table.lookup_name hl hx)
  obtain ⟨operand, he, hbase⟩ := Expr.runs_ident.1 he
  obtain ⟨hn, _⟩ | ⟨_, y, hl', hy, rfl, rfl⟩ := runs_nameOperand he
  · cases hl.symm.trans hn
  cases hl.symm.trans hl'
  cases hx.symm.trans hy
  cases hbase
  obtain ⟨_, found, hl', ⟨rfl, _⟩ | ⟨id', y, rfl, hy, rfl⟩⟩ := runs_loopBound_ident hb
  · cases hl.symm.trans hl'
  · cases hl.symm.trans hl'
    cases hx.symm.trans hy
    rwa [hv] at hloop

namespace Program

variable {p : Program} {options : Options} {out : Compiled}

/-- The loop is the one that lowering begins with in the state `σ`. Its bound is the number of cells of the
literal that the variable is declared with, if this declaration is lowered before. Otherwise it is the length
of the value, which is read as the loop begins. -/
theorem compile_bound (h : p.compile options = .ok out) {front back : List Stage} {c : Context}
    {item v : String} {at_ span : Span} {body : Block} {id : SymbolId}
    (hs : p.stages p.collect.table options =
      front ++ .stmt c (.foreach item (.ident v at_) body span) :: back)
    (hv : p.collect.table.lookup c.scope v = .ok (some id))
    (hb : p.collect.table.lookup (p.collect.table.opened c.scope body.span) v = .ok (some id)) :
    ∃ σ code s' bound,
      (p.course p.collect.table options)[front.length]? =
        some (.stmt (.foreach item (.ident v at_) body span), σ) ∧
      σ.context options = c ∧
      Runs (Stmt.foreach item (.ident v at_) body span).lower c σ.toState code s' ∧
      σ.code ++ code <+: out.code ∧ code.Loops item (.var v) bound ∧
      (∀ c' b es, .stmt c' (.declare b) ∈ front → b.Declares p.collect.table c' es id →
        bound = .int (signed es.length)) ∧
      ((∀ c' b es, .stmt c' (.declare b) ∈ front → ¬b.Declares p.collect.table c' es id) →
        bound = .field (.var v) "length") := by
  obtain ⟨d, hw, hstages, hcode, hp⟩ := p.compile_walk h
  obtain ⟨front, _, hc, rfl, hrest⟩ := List.map_eq_append_iff.1 (hstages.trans hs)
  obtain ⟨x, back, rfl, hx, rfl⟩ := List.map_eq_cons_iff.1 hrest
  obtain ⟨σ, rfl, rfl⟩ := Part.stage_eq_stmt.1 hx
  rw [hc] at hw
  obtain ⟨hfront, σ', hr, hlast, hback⟩ := hw.pass
  obtain ⟨code, hr, _, hσ'⟩ := Stmt.runs_of_plan hr
  -- lowering only fills in records, so names mean what they mean in the table of the declarations
  have hσ : σ.table.outline = p.collect.table.outline := hfront.precedes.table.outline
  have hscope : blockScope (σ.context options) σ.toState body.span =
      p.collect.table.opened (σ.context options).scope body.span := by
    rw [blockScope, Table.opened, ← Table.scopeFor_outline, hσ, Table.scopeFor_outline]
  have hlook : σ.table.lookup (blockScope (σ.context options) σ.toState body.span) v = .ok (some id) := by
    rwa [hscope, ← Table.lookup_outline, hσ, Table.lookup_outline]
  obtain ⟨x, hx, _⟩ := Table.exists_symbol_of_lookup hlook
  have ha : σ.table.Addressed :=
    hfront.precedes.writes (fun t t' => t.Addressed → t'.Addressed) p.collect_addressed
  refine ⟨σ, code, σ'.toState, _, by simp [hc], rfl, hr, hσ' ▸ hcode ▸ hlast.code,
    Stmt.foreach_ident_loops hr hlook hx ha, ?_, ?_⟩
  · intro c' b es hm hd
    -- the declaration has laid the array out, and its extents stay up to the loop
    obtain ⟨y, hmem, hy⟩ := List.mem_map.1 hm
    obtain ⟨τ, rfl, rfl⟩ := Part.stage_eq_stmt.1 hy
    obtain ⟨first, last, rfl⟩ := List.mem_iff_append.1 hmem
    obtain ⟨hfirst, τ', hrd, _, hlater⟩ := hfront.pass
    obtain ⟨_, hrd, _⟩ := Stmt.runs_of_plan hrd
    obtain ⟨hl, at', hv⟩ := hd.outline (hfirst.precedes.table.outline : τ.table.outline = _)
    have hq : τ'.problems = [] := hlater.precedes.quiet (hback.precedes.quiet hp)
    obtain ⟨hq', _⟩ | ⟨_, hd', hlays⟩ := Binding.declares hrd hv
    · exact absurd hq hq'
    · cases hl.symm.trans hd'.1
      obtain ⟨y, hy, hdims, _⟩ := Trail.keeps hlater hlays
      cases hx.symm.trans hy
      rw [boundOf, Nest.head_of_shape? hdims, lowerCells_eq_map, List.length_map]
  · intro hn
    obtain ⟨x₀, hx₀, _⟩ := Table.exists_symbol_of_lookup hv
    -- nothing but such a declaration changes extents, and a collected symbol has none
    obtain hdims | ⟨_, c', b, es, hm, hd, _⟩ := hfront.recorded hx₀ hx
    · obtain ⟨d, params, rfl⟩ := p.collect_fresh hx₀
      rw [hdims]
      rfl
    · exact absurd hd (hn c' b es hm)

def refilling : Program :=
  ⟨[.declare ⟨"xs", none, some (.array [.int 1 .unplaced, .int 2 .unplaced] .unplaced), false, .atLine 1⟩,
    .assign (.ident "xs") (.array [.int 3 .unplaced, .int 4 .unplaced] .unplaced) (.atLine 2),
    .foreach "x" (.ident "xs" .unplaced) ⟨[], .atLine 4⟩ (.atLine 3),
    .declare ⟨"ys", some (.array .integer), none, false, .atLine 5⟩,
    .assign (.ident "ys") (.array [.int 5 .unplaced] .unplaced) (.atLine 6),
    .foreach "y" (.ident "ys" .unplaced) ⟨[], .atLine 8⟩ (.atLine 7)], .unplaced⟩

theorem refilling_bound : ∃ out, refilling.compile {} = .ok out ∧
    (∃ code : Code, code <:+: out.code ∧ code.Loops "x" (.var "xs") (.int 2)) ∧
    ∃ code : Code, code <:+: out.code ∧
      code.Loops "y" (.var "ys") (.field (.var "ys") "length") := by
  have h : (fun _ => ()) <$> (refilling.compile {}).toOption = some () := by decide +kernel
  obtain ⟨out, ho, _⟩ := exists_of_check h
  have hx : refilling.collect.table.lookup 0 "xs" = .ok (some ⟨0, 0⟩) := by decide +kernel
  have hy : refilling.collect.table.lookup 0 "ys" = .ok (some ⟨0, 1⟩) := by decide +kernel
  refine ⟨out, ho, ?_, ?_⟩
  · have hs : refilling.stages refilling.collect.table {} = [_, _] ++ .stmt { options := {} }
        (.foreach "x" (.ident "xs" .unplaced) ⟨[], .atLine 4⟩ (.atLine 3)) :: _ := rfl
    obtain ⟨_, code, _, _, _, _, _, hin, hl, hb, _⟩ := compile_bound ho hs hx (by decide +kernel)
    rw [hb _ _ _ (.head _) ⟨hx, _, rfl⟩] at hl
    exact ⟨code, (List.suffix_append _ _).isInfix.trans hin.isInfix, hl⟩
  · have hs : refilling.stages refilling.collect.table {} = [_, _, _, _, _, _] ++
        .stmt { options := {} }
          (.foreach "y" (.ident "ys" .unplaced) ⟨[], .atLine 8⟩ (.atLine 7)) :: _ := rfl
    obtain ⟨_, code, _, _, _, _, _, hin, hl, _, hb⟩ := compile_bound ho hs hy (by decide +kernel)
    refine ⟨code, (List.suffix_append _ _).isInfix.trans hin.isInfix, hb (fun c b es hm hd => ?_) ▸ hl⟩
    -- one of the declarations in front has another name, and the other one no array literal
    obtain ⟨hd, _, hv⟩ := hd
    simp only [List.mem_cons, Stage.stmt.injEq, Stmt.declare.injEq, reduceCtorEq, and_false,
      false_or, List.not_mem_nil, or_false] at hm
    obtain ⟨rfl, rfl⟩ | ⟨rfl, rfl⟩ := hm
    · cases hx.symm.trans hd
    · cases hv

def overfilled : Program :=
  ⟨[.declare ⟨"xs", none, some (.array [.int 1 .unplaced, .int 2 .unplaced] .unplaced), false, .atLine 1⟩,
    .assign (.ident "xs") (.array [.int 3 .unplaced, .int 4 .unplaced, .int 5 .unplaced] .unplaced)
      (.atLine 2),
    .foreach "x" (.ident "xs" .unplaced) ⟨[], .atLine 4⟩ (.atLine 3)], .unplaced⟩

/-- All three elements are stored on the only way to the loop, and it makes two passes. -/
theorem overfilled_bound : ∃ out, overfilled.compile {} = .ok out ∧ out.code.lines =
    ["t1 = 1", "xs[0] = t1", "t2 = 2", "xs[1] = t2",
      "t3 = 3", "xs[0] = t3", "t4 = 4", "xs[1] = t4", "t5 = 5", "xs[2] = t5",
      "t6 = 0", "t7 = 2", "L1:", "t8 = t6 < t7", "if t8 == 0 goto L2", "t9 = xs[t6]", "x = t9",
      "t6 = t6 + 1", "goto L1", "L2:"] := by
  have h : (·.code.lines) <$> (overfilled.compile {}).toOption = some
      ["t1 = 1", "xs[0] = t1", "t2 = 2", "xs[1] = t2",
        "t3 = 3", "xs[0] = t3", "t4 = 4", "xs[1] = t4", "t5 = 5", "xs[2] = t5",
        "t6 = 0", "t7 = 2", "L1:", "t8 = t6 < t7", "if t8 == 0 goto L2", "t9 = xs[t6]", "x = t9",
        "t6 = t6 + 1", "goto L1", "L2:"] := by
    decide +kernel
  exact exists_of_check h

end Program

end ThreeAddress
