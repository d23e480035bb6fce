import ThreeAddress.Proofs.Lockstep.Collected
import ThreeAddress.Proofs.Lockstep.Erasure
import ThreeAddress.Proofs.Lockstep.Statements

namespace ThreeAddress

open Lowering

def Problem.unplaced : Problem → Problem
  | .unresolved name _ => .unresolved name 0
  | .breakOutside _ => .breakOutside 0
  | .continueOutside _ => .continueOutside 0
  | .ragged name _ => .ragged name 0

theorem Problem.Alike.unplaced {lines : Prop} {p p' : Problem} (h : p.Alike lines p') :
    p.unplaced = p'.unplaced := by
  cases h <;> rfl

section Paired

variable {as bs : List Position}

/-- The positions stand at the same place of the two lists. -/
def Paired (as bs : List Position) (a b : Position) : Prop :=
  ∃ i : Nat, as[i]? = some a ∧ bs[i]? = some b

theorem paired_biUnique (ha : as.Nodup) (hb : bs.Nodup) : Relator.BiUnique (Paired as bs) := by
  constructor
  · rintro a a' b ⟨i, hi, hbi⟩ ⟨j, hj, hbj⟩
    obtain rfl := (List.getElem?_inj (List.getElem?_eq_some_iff.1 hbi).1 hb).1 (hbi.trans hbj.symm)
    exact Option.some.inj (hi.symm.trans hj)
  · rintro a b b' ⟨i, hi, hbi⟩ ⟨j, hj, hbj⟩
    obtain rfl := (List.getElem?_inj (List.getElem?_eq_some_iff.1 hi).1 ha).1 (hi.trans hj.symm)
    exact Option.some.inj (hbi.symm.trans hbj)

theorem forall₂_paired (h : as.length = bs.length) : List.Forall₂ (Paired as bs) as bs :=
  List.forall₂_iff_get.2 ⟨h, fun i hi hi' => ⟨i, by simp, by simp⟩⟩

end Paired

variable {t t' : Table} {key : Position → Position → Prop}

def Comparison.across (h : t.unplaced = t'.unplaced) : Comparison where
  labels := True
  bytes := True
  lines := False
  quiet := False
  left := t
  right := t'
  lookup {scope name _ _} hl hl' := by
    rw [← Table.lookup_unplaced, h, Table.lookup_unplaced] at hl
    exact .inl (Except.ok.inj (hl.symm.trans hl'))
  lookupLocal {scope name _ _} hl hl' := by
    rw [← Table.lookupLocal_unplaced, h, Table.lookupLocal_unplaced] at hl
    exact .inl (Except.ok.inj (hl.symm.trans hl'))

section Across

variable {h : t.unplaced = t'.unplaced} {options : Options} {out out' : Lowered}

theorem Symbol.Like.of_unplaced {κ : Comparison} {x x' : Symbol} (h : x.unplaced = x'.unplaced) :
    x.Like κ x' := by
  have hd : x.toDeclaration.unplaced = x'.toDeclaration.unplaced := congrArg (·.toDeclaration) h
  have hs : x.toStorage = x'.toStorage := (congrArg (·.toStorage) h :)
  obtain ⟨d, storage⟩ := x
  obtain ⟨d', storage'⟩ := x'
  cases hs
  exact ⟨hd, rfl, rfl, rfl, rfl, .refl _, .refl _, .refl _⟩

theorem Symbol.Like.unplaced_eq {κ : Comparison} {x x' : Symbol} (h : x.Like κ x') (hb : κ.bytes) :
    x.unplaced = x'.unplaced := by
  rw [Symbol.unplaced, Symbol.unplaced, h.declared, h.storage hb]

theorem Lowering.State.Like.across (h : t.unplaced = t'.unplaced) (options : Options) :
    State.Like (.across h) (.start t options) (.start t' options) := by
  have hsymbol (id : SymbolId) : Symbol.unplaced <$> t.symbol id = Symbol.unplaced <$> t'.symbol id := by
    rw [← Table.symbol_unplaced, h, Table.symbol_unplaced]
  refine ⟨⟨rfl, .refl _, ⟨.nil, .nil⟩, .refl _, .refl _, .nil⟩, rfl, rfl, ?_, ?_, .nil⟩
  · intro id x x' hx hx'
    have hs := hsymbol id
    rw [show t.symbol id = .ok x from hx, show t'.symbol id = .ok x' from hx'] at hs
    exact .of_unplaced (Except.ok.inj hs)
  · intro id x' hx' hn
    have hs := hsymbol id
    rw [show t'.symbol id = .ok x' from hx'] at hs
    cases hx : t.symbol id with
    | ok x => exact absurd hx (hn x)
    | error e =>
      rw [hx] at hs
      cases hs

namespace Lowered.Like

theorem unplaced_eq (hl : out.Like (.across h) out') : out'.table.unplaced = out.table.unplaced := by
  -- The outlines, too, are the same without positions.
  have ho (t : Table) : t.outline.unplaced = t.unplaced.outline := by
    rw [Table.unplaced, Table.outline_eq, Table.overwrite_overwrite, Table.unplaced, Table.outline_eq,
      Table.overwrite_overwrite]
    rfl
  have hg : out.table.outline.unplaced = out'.table.outline.unplaced := by
    rw [hl.left, hl.right, show (Comparison.across h).left = t from rfl,
      show (Comparison.across h).right = t' from rfl, ho, ho, h]
  rw [Table.unplaced, Table.outline_eq, Table.overwrite_overwrite, Table.unplaced, Table.outline_eq,
    Table.overwrite_overwrite] at hg
  exact (Table.overwrite_congr hg fun hx hx' => (hl.symbol hx hx').unplaced_eq trivial).symm

theorem unplaced_problems (hl : out.Like (.across h) out') :
    out'.problems.map Problem.unplaced = out.problems.map Problem.unplaced := by
  rw [← List.forall₂_eq_eq_eq]
  exact List.forall₂_map_left_iff.2 (List.forall₂_map_right_iff.2
    (hl.problems.flip.imp fun _ _ hp => hp.unplaced.symm))

end Lowered.Like

end Across

namespace Program

/-- The keys of the program differ from one another and from that of the global code. -/
def WellKeyed (p : Program) : Prop := p.keys.Nodup ∧ .origin ∉ p.keys

instance (p : Program) : Decidable p.WellKeyed := inferInstanceAs (Decidable (_ ∧ _))

variable {p p' : Program}

def KeyedWith (p p' : Program) : Position → Position → Prop :=
  Paired (.origin :: p.keys) (.origin :: p'.keys)

theorem keyedWith_biUnique (hp : p.WellKeyed) (hp' : p'.WellKeyed) : Relator.BiUnique (p.KeyedWith p') :=
  paired_biUnique (List.nodup_cons.2 hp.symm) (List.nodup_cons.2 hp'.symm)

/-- Positions do not show but in what they are themselves. Of two programs that are the same without
them, neither has a conflict unless the other has one, and then they are lowered to the same code, to
tables that differ only in positions and keys, and to problems that differ only in their lines. -/
theorem lower_unplaced (hu : p.unplaced = p'.unplaced) (hp : p.WellKeyed) (hp' : p'.WellKeyed) :
    ((∃ t, p.scopes = .ok t) ↔ ∃ t', p'.scopes = .ok t') ∧
    ∀ t t' options out out', p.scopes = .ok t → p'.scopes = .ok t' → p.lower t options = .ok out →
      p'.lower t' options = .ok out' → out'.code = out.code ∧ out'.table.unplaced = out.table.unplaced ∧
        out'.problems.map Problem.unplaced = out.problems.map Problem.unplaced := by
  have hkeys : (Position.origin :: p.keys).length = (Position.origin :: p'.keys).length :=
    congrArg (· + 1) (keys_length_eq hu)
  obtain ⟨horigin, hkeys⟩ := List.forall₂_cons.1 (forall₂_paired hkeys)
  have halike := alike_of_unplaced hu hkeys
  have hk := keyedWith_biUnique hp hp'
  have hcollect := collect_alike hk horigin halike
  constructor
  · have hl := hcollect.conflicts.length_eq
    simp only [scopes_eq_ok, exists_and_left, exists_eq', and_true, ← List.length_eq_zero_iff, hl]
  · intro t t' options out out' ht ht' ho ho'
    obtain ⟨_, rfl⟩ := scopes_eq_ok.1 ht
    obtain ⟨_, rfl⟩ := scopes_eq_ok.1 ht'
    have hs {a b : Position} (h : p.KeyedWith p' a b) :
        (Comparison.across hcollect.table.unplaced).SameScope a b := hcollect.table.scopeFor hk h
    have hlike := lower_like (alike_of_unplaced hu (hkeys.imp fun _ _ => hs)) (.refl _)
      (.across hcollect.table.unplaced options) ho ho' nofun
    exact ⟨(hlike.code.whole trivial).symm, hlike.unplaced_eq, hlike.unplaced_problems⟩

def movable (line : Nat → Nat) : Program :=
  ⟨[.function ⟨"f", [⟨"n", some .integer, .atLine (line 1)⟩], none,
      ⟨[.while (.ident "n" .unplaced)
          ⟨[.print (.ident "n" .unplaced) (.atLine (line 3))], .atLine (line 2)⟩ (.atLine (line 2))],
        .atLine (line 1)⟩, .atLine (line 1)⟩,
    .block ⟨[.declare ⟨"x", none, some (.int 1 .unplaced), false, .atLine (line 5)⟩,
      .print (.ident "missing" .unplaced) (.atLine (line 6))], .atLine (line 4)⟩], .unplaced⟩

theorem movable_unplaced : ∃ t t' out out',
    (movable id).scopes = .ok t ∧ (movable (10 - ·)).scopes = .ok t' ∧
    (movable id).lower t {} = .ok out ∧ (movable (10 - ·)).lower t' {} = .ok out' ∧
    out.problems = [.unresolved "missing" 6] ∧ out'.problems = [.unresolved "missing" 4] ∧
    t'.scopeFor ⟨9, 1⟩ = t.scopeFor ⟨1, 1⟩ ∧ out'.code = out.code ∧
    out'.table.unplaced = out.table.unplaced ∧
    out'.problems.map Problem.unplaced = out.problems.map Problem.unplaced := by
  have hs : (movable id).collect.conflicts = [] := by decide +kernel
  have hs' : (movable (10 - ·)).collect.conflicts = [] := by decide +kernel
  have h : (·.problems) <$> ((movable id).lower (movable id).collect.table {}).toOption =
      some [.unresolved "missing" 6] := by
    decide +kernel
  have h' : (·.problems) <$> ((movable (10 - ·)).lower (movable (10 - ·)).collect.table {}).toOption =
      some [.unresolved "missing" 4] := by
    decide +kernel
  obtain ⟨out, ho, hp⟩ := exists_of_check h
  obtain ⟨out', ho', hp'⟩ := exists_of_check h'
  have ht := scopes_eq_ok.2 ⟨hs, rfl⟩
  have ht' := scopes_eq_ok.2 ⟨hs', rfl⟩
  have hu : (movable id).unplaced = (movable (10 - ·)).unplaced := rfl
  have hboth := (lower_unplaced hu (by decide +kernel) (by decide +kernel)).2 _ _ {} out out' ht ht' ho ho'
  exact ⟨_, _, out, out', ht, ht', ho, ho', hp, hp', by decide +kernel, hboth⟩

end Program

end ThreeAddress
