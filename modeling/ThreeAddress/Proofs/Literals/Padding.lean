import ThreeAddress.Compile
import ThreeAddress.Proofs.Literals.Stores

namespace ThreeAddress

open Lowering Lower

/-- All depths of a literal are counted by the padded extents: a leaf is as deep as they are many,
unless some literal is as deep as the leaf. -/
theorem Expr.length_eq_iff {es : List Expr} {at_ : Span} {l : List Nat × Expr}
    (h : l ∈ (Expr.array es at_).elements) :
    l.1.length = (Nest.row (lowerCells es)).padded.length ↔
      ∀ k fs, (Expr.array es at_).LiteralAt k fs → k < l.1.length := by
  have hd {k : Nat} : k < (Nest.row (lowerCells es)).padded.length ↔
      ∃ fs, (Expr.array es at_).LiteralAt k fs := by
    rw [Nest.lt_length_padded]
    simp [show Nest.row (lowerCells es) = (Expr.array es at_).cell from rfl, rowAt_cell]
  -- a leaf is never below the padded depth: the literals around it count
  have hl : l.1.length ≤ (Nest.row (lowerCells es)).padded.length := by
    by_contra hlt
    have hm : storing l ∈ (Expr.array es at_).cell.leaves := by
      rw [leaves_cell]
      exact List.mem_map_of_mem h
    have hr := Nest.exists_rowAt_of_mem_leaves hm (Nat.lt_of_not_le hlt)
    exact Nat.lt_irrefl _ (Nest.lt_length_padded.2 hr)
  constructor
  · intro he k fs hk
    rw [he]
    exact hd.2 ⟨fs, hk⟩
  · intro hk
    by_contra hne
    obtain ⟨fs, hf⟩ := hd.1 (Nat.lt_of_le_of_ne hl hne)
    exact Nat.lt_irrefl _ (hk _ fs hf)

/-- Of a literal that is padded, the leaves that no literal is as deep as are each evaluated once
and stored once, in order, and every other position of the array is stored a zero. -/
theorem Expr.stores_padded (es : List Expr) (at_ : Span) {c : Context}
    (hz : c.options.raggedArrays = .zeroPad) :
    let literal := Nest.row (lowerCells es)
    let cells := (positions literal.padded).map fun p => (p, literal.at? p)
    let deep := (Expr.array es at_).elements.filter fun l => l.1.length = literal.padded.length
    (cells.map (·.1)).Nodup ∧
    cells.filterMap (fun cell => cell.2.map (cell.1, ·)) = deep.map storing ∧
    (∀ l ∈ (Expr.array es at_).elements,
      l ∈ deep ↔ ∀ k fs, (Expr.array es at_).LiteralAt k fs → k < l.1.length) ∧
    Fills c es at_ literal.padded fun zero =>
      cells.map fun cell => (cell.1, cell.2.getD (copyToTemp zero)) := by
  intro literal cells deep
  refine ⟨?_, ?_, fun l hl => ?_, ?_⟩
  · simpa [cells, Function.comp_def] using nodup_positions literal.padded
  · rw [List.filterMap_map]
    exact filterMap_positions es at_
  · rw [← length_eq_iff hl]
    simp [deep, hl, literal]
  · have hs : literal.shape? c.options.raggedArrays = some literal.padded :=
      hz ▸ Nest.shape?_zeroPad
    have hc (zero : Operand) : (positions literal.padded).map (cellAt literal zero) =
        cells.map fun cell => (cell.1, cell.2.getD (copyToTemp zero)) := by
      rw [List.map_map]
      rfl
    have h := fills_of_shape es at_ hs
    rwa [funext hc] at h

def Expr.stair : List Expr :=
  [.array [.int 1 .unplaced, .int 2 .unplaced] .unplaced, .array [.int 3 .unplaced] .unplaced]

theorem Expr.stair_stores :
    Fills { options := { raggedArrays := .zeroPad } } stair .unplaced [2, 2] fun zero =>
      [storing ([0, 0], .int 1 .unplaced), storing ([0, 1], .int 2 .unplaced),
        storing ([1, 0], .int 3 .unplaced), ([1, 1], copyToTemp zero)] :=
  (stores_padded stair .unplaced (c := { options := { raggedArrays := .zeroPad } }) rfl).2.2.2

def Program.beside : Program :=
  ⟨[.print (.array [.int 1 .unplaced, .array [.int 2 .unplaced] .unplaced] .unplaced) (.atLine 1)],
    .unplaced⟩

/-- The leaf beside the row is neither evaluated nor stored, and nothing is reported. -/
theorem Program.beside_drops :
    ([0], .int 1 .unplaced) ∈
      (Expr.array [.int 1 .unplaced, .array [.int 2 .unplaced] .unplaced] .unplaced).elements ∧
    ∃ out, Program.beside.compile { raggedArrays := .zeroPad } = .ok out ∧
      out.code = [.assign (.temp ⟨1⟩) (.int 0), .assign (.temp ⟨2⟩) (.int 2),
        .assign (.element (.temp ⟨3⟩) [.int 0, .int 0]) (.temp ⟨1⟩),
        .assign (.element (.temp ⟨3⟩) [.int 1, .int 0]) (.temp ⟨2⟩),
        .assign (.temp ⟨4⟩) (.temp ⟨3⟩), .call "print" [.temp ⟨4⟩]] ∧
      ∀ i ∈ out.code, ∀ dest, i ≠ .assign dest (.int 1) := by
  have hc : (·.code) <$> (beside.compile { raggedArrays := .zeroPad }).toOption =
      some [.assign (.temp ⟨1⟩) (.int 0), .assign (.temp ⟨2⟩) (.int 2),
        .assign (.element (.temp ⟨3⟩) [.int 0, .int 0]) (.temp ⟨1⟩),
        .assign (.element (.temp ⟨3⟩) [.int 1, .int 0]) (.temp ⟨2⟩),
        .assign (.temp ⟨4⟩) (.temp ⟨3⟩), .call "print" [.temp ⟨4⟩]] := rfl
  obtain ⟨out, ho, hc⟩ := exists_of_check hc
  refine ⟨by simp [Expr.elements, elementsFrom], out, ho, hc, ?_⟩
  rw [hc]
  simp

end ThreeAddress
