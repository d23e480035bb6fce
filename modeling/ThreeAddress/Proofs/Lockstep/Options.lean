import ThreeAddress.Proofs.Lockstep.Statements

namespace ThreeAddress

open Lowering Lower

/-- The symbol without its offset and sizes. Whether it has a place is still told. -/
def Symbol.unsized (x : Symbol) : Symbol :=
  { x with offset := x.offset.map fun _ => 0, size := 0, frame := 0 }

def Table.unsized (t : Table) : Table := t.overwrite id Symbol.unsized

namespace Symbol.Like

variable {κ : Comparison} {x x' : Symbol}

theorem unsized_eq (h : x.Like κ x') (hd : x.toDeclaration = x'.toDeclaration) :
    x.unsized = x'.unsized := by
  have ho : (x.offset.map fun _ => 0) = x'.offset.map fun _ => 0 := by
    have hb := h.bound
    cases hx : x.offset <;> cases hx' : x'.offset <;> simp_all
  rw [Symbol.unsized, Symbol.unsized, hd, ho, h.dimensions, h.params, h.address]

theorem eq (h : x.Like κ x') (hb : κ.bytes) (hd : x.toDeclaration = x'.toDeclaration) : x = x' :=
  congr (congrArg Symbol.mk hd) (h.storage hb)

end Symbol.Like

def Comparison.within (table : Table) (labels bytes : Prop) : Comparison where
  labels
  bytes
  lines := True
  quiet := False
  left := table
  right := table
  lookup h h' := .inl (Except.ok.inj (h.symm.trans h'))
  lookupLocal h h' := .inl (Except.ok.inj (h.symm.trans h'))

section Within

variable {table : Table} {labels bytes : Prop} {options options' : Options} {out out' : Lowered}

theorem Lowering.State.Like.within (h : SameIf bytes options.nestedFrames options'.nestedFrames) :
    State.Like (.within table labels bytes) (.start table options) (.start table options') where
  ledger := ⟨rfl, .refl _, ⟨.nil, .nil⟩, .refl _, h, .nil⟩
  left := rfl
  right := rfl
  symbol hx hx' := by
    cases Except.ok.inj (hx.symm.trans hx')
    exact .refl _
  beyond hx' hn := absurd hx' (hn _)
  problems := .nil

namespace Lowered.Like

theorem problems_eq (h : out.Like (.within table labels bytes) out') : out'.problems = out.problems :=
  (List.forall₂_eq_eq_eq ▸ h.problems.imp fun _ _ hp => hp.eq trivial :
    out.problems = out'.problems).symm

theorem table_eq {f : Symbol → Symbol} (h : out.Like (.within table labels bytes) out')
    (hf : ∀ {x x' : Symbol}, x.Like (.within table labels bytes) x' →
      x.toDeclaration = x'.toDeclaration → f x = f x') :
    out'.table.overwrite id f = out.table.overwrite id f := by
  have ho : out.table.outline = out'.table.outline := h.left.trans h.right.symm
  refine (Table.overwrite_congr (k := id) (g := Symbol.outline) ho fun hx hx' => ?_).symm
  exact hf (h.symbol hx hx') (congrArg (·.toDeclaration) (Table.symbol_congr ho hx hx'))

end Lowered.Like

namespace Program

variable {p : Program}

theorem lower_within (hn : SameIf bytes options.nestedFrames options'.nestedFrames)
    (hc : Context.Like (.within table labels bytes) { options } { options := options' })
    (h : p.lower table options = .ok out) (h' : p.lower table options' = .ok out') :
    out.Like (.within table labels bytes) out' := by
  have hk (k : Position) : (Comparison.within table labels bytes).SameScope k k := rfl
  exact lower_like (List.forall₂_same.2 fun s _ => .refl hk s) hc (.within hn) h h' nofun

/-- Options that differ only in the size of a reference and in the layout of nested frames lead to the
same code and the same problems, and to tables that differ only in offsets and sizes. Options that
differ only in the end of a case lead to the same problems and the same table, and to code that differs
only in labels and in the jumps to them. -/
theorem lower_confined (h : p.lower table options = .ok out) (h' : p.lower table options' = .ok out') :
    (options' = { options with
        pointerSize := options'.pointerSize, nestedFrames := options'.nestedFrames } →
      out'.code = out.code ∧ out'.problems = out.problems ∧ out'.table.unsized = out.table.unsized) ∧
    (options' = { options with caseExit := options'.caseExit } →
      out'.problems = out.problems ∧ out'.table = out.table ∧ out'.code.skeleton = out.code.skeleton) := by
  constructor
  · intro ho
    have hc : Context.Like (.within table True False) { options } { options := options' } :=
      ⟨rfl, rfl, (congrArg Options.raggedArrays ho).symm, nofun, fun _ => (congrArg Options.caseExit ho).symm⟩
    have hl := lower_within nofun hc h h'
    exact ⟨(hl.code.whole trivial).symm, hl.problems_eq, hl.table_eq fun hx hd => hx.unsized_eq hd⟩
  · intro ho
    have hc : Context.Like (.within table False True) { options } { options := options' } :=
      ⟨rfl, rfl, (congrArg Options.raggedArrays ho).symm, fun _ => (congrArg Options.pointerSize ho).symm,
       nofun⟩
    have hn : SameIf True options.nestedFrames options'.nestedFrames :=
      fun _ => (congrArg Options.nestedFrames ho).symm
    have hl := lower_within hn hc h h'
    refine ⟨hl.problems_eq, ?_, hl.code.skeleton.symm⟩
    rw [← Table.overwrite_id out'.table, ← Table.overwrite_id out.table]
    exact hl.table_eq fun hx hd => hx.eq trivial hd

def configured : Program :=
  ⟨[.class ⟨"A", none, [.field ⟨"s", some .string, none, false, .atLine 2⟩], .atLine 1⟩,
    .class ⟨"B", some "A", [.method ⟨"m", [⟨"n", some .integer, .atLine 4⟩], none,
        ⟨[.switch (.ident "n" .unplaced)
          [⟨.int 1 .unplaced, [.print (.ident "n" .unplaced) (.atLine 6)], .atLine 6⟩,
            ⟨.int 2 .unplaced, [.break (.atLine 7)], .atLine 7⟩] none (.atLine 5),
          .print (.ident "m" .unplaced) (.atLine 8), .print (.ident "missing" .unplaced) (.atLine 9)],
          .atLine 4⟩, .atLine 4⟩], .atLine 3⟩], .unplaced⟩

theorem configured_confined : ∃ out wide falling,
    configured.lower configured.collect.table {} = .ok out ∧
    configured.lower configured.collect.table { pointerSize := 4, nestedFrames := .folded } = .ok wide ∧
    configured.lower configured.collect.table { caseExit := .fallThrough } = .ok falling ∧
    out.problems.length = 1 ∧ wide.table ≠ out.table ∧ falling.code.length ≠ out.code.length ∧
    (wide.code = out.code ∧ wide.problems = out.problems ∧ wide.table.unsized = out.table.unsized) ∧
    (falling.problems = out.problems ∧ falling.table = out.table ∧
      falling.code.skeleton = out.code.skeleton) := by
  have h : (fun out => (out.problems.length, out.code.length, out.table.symbols.map (·.size))) <$>
      (configured.lower configured.collect.table {}).toOption = some (1, 21, [0, 0, 8, 0, 4]) := by
    decide +kernel
  have hw : (·.table.symbols.map (·.size)) <$> (configured.lower configured.collect.table
      { pointerSize := 4, nestedFrames := .folded }).toOption = some [0, 0, 4, 0, 4] := by
    decide +kernel
  have hf : (·.code.length) <$> (configured.lower configured.collect.table
      { caseExit := .fallThrough }).toOption = some 20 := by
    decide +kernel
  obtain ⟨out, ho, hout⟩ := exists_of_check h
  obtain ⟨wide, hwide, hsizes⟩ := exists_of_check hw
  obtain ⟨falling, hfalling, hlength⟩ := exists_of_check hf
  obtain ⟨hp, hl, hs⟩ : out.problems.length = 1 ∧ out.code.length = 21 ∧
      out.table.symbols.map (·.size) = [0, 0, 8, 0, 4] := by simpa using hout
  refine ⟨out, wide, falling, ho, hwide, hfalling, hp, fun he => ?_, by omega,
    (lower_confined ho hwide).1 rfl, (lower_confined ho hfalling).2 rfl⟩
  rw [he, hs] at hsizes
  exact absurd hsizes (by decide)

end Program

end Within

end ThreeAddress
