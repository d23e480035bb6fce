import ThreeAddress.Proofs.Entries.Lowered

namespace ThreeAddress

open Lowering Lower

theorem Table.Grows.holds {t t' : Table} {e : Entry} (h : t.Grows t') (he : t.Holds e) :
    t'.Holds e := by
  obtain ⟨id, x, i, hf, hx, hl, hm, hk⟩ := he
  obtain ⟨y, hy, hxy⟩ := h.exists_symbol hx
  have hd : y.toDeclaration = x.toDeclaration := hxy.toDeclaration
  refine ⟨id, y, i, by rw [find?_congr h.outline, hf], hy, ?_, ?_, ?_⟩
  · exact Eq.trans (congrArg (fun d => (Symbol.ofDeclaration d).qualifiedName) hd) hl
  · exact Eq.trans (congrArg Declaration.members hd) hm
  · rw [← scopeFor_outline, h.outline, scopeFor_outline, hk]

namespace Program

variable {p : Program} {options : Options} {out : Compiled}

/-- The code has one entry for each function, method and class, in the order of the program, under the
qualified name of its symbol. Two that are declared in one scope have different labels. -/
theorem compile_entries (h : p.compile options = .ok out) (hs : ∀ s ∈ p.statements, s.Tidy) :
    out.code.entries = p.entries.map Entry.label ∧
      (∀ e ∈ p.entries, ∃ id x, out.table.find? e.site = some id ∧ out.table.symbol id = .ok x ∧
        x.qualifiedName = e.label) ∧
      p.entries.Pairwise fun e e' => e.site.key = e'.site.key → e.label ≠ e'.label := by
  obtain ⟨hc, hl⟩ := compile_eq_ok.1 h
  obtain ⟨s, hr, _, _, ht, hp⟩ := runs_program.1 hl
  have hin := collect_enters hc
  have hk : p.collect.table.scopeFor .origin = some Table.global := hin.widens.scopeFor rfl
  have hst : Stands p.collect.table .origin { options } (.start p.collect.table options) :=
    ⟨rfl, fun i hi => Option.some.inj (hk.symm.trans hi)⟩
  have hstarts := lowerAll_starts hin.holds fun s hm => s.lower_starts (hs s hm) .origin
  refine ⟨(hstarts hr hst).2 hp.symm, fun e he => ?_, hin.apart⟩
  have hg : p.collect.table.Grows out.table :=
    (show out.table = s.table from ht) ▸ (lowerBody_grows p.statements hr).table
  obtain ⟨id, x, _, hf, hx, hlabel, _⟩ := hg.holds (hin.holds e he)
  exact ⟨id, x, hf, hx, hlabel⟩

def nesting : Program :=
  ⟨[.function ⟨"m", [], none, ⟨[], .atLine 1⟩, .atLine 2⟩,
    .class ⟨"C", none, [.method ⟨"m", [], none,
      ⟨[.function ⟨"m", [], none, ⟨[], .atLine 3⟩, .atLine 4⟩], .atLine 5⟩, .atLine 6⟩], .atLine 7⟩],
    .unplaced⟩

theorem nesting_tidy : ∀ s ∈ nesting.statements, s.Tidy := by
  simp only [nesting, List.mem_cons, List.not_mem_nil, or_false, forall_eq_or_imp, forall_eq]
  refine ⟨.mk (by simp) (by simp [Stmt.parts]), .mk (by simp) ?_⟩
  simp only [Stmt.parts, List.flatMap_cons, List.flatMap_nil, List.append_nil, List.mem_singleton,
    forall_eq]
  exact .mk (by simp) (by simp [Stmt.parts])

theorem nesting_entries :
    ∃ out, nesting.compile {} = .ok out ∧ out.code.entries = ["m", "C", "C.m", "m"] ∧
      (out.code.entries = nesting.entries.map Entry.label ∧
        (∀ e ∈ nesting.entries, ∃ id x, out.table.find? e.site = some id ∧
          out.table.symbol id = .ok x ∧ x.qualifiedName = e.label) ∧
        nesting.entries.Pairwise fun e e' => e.site.key = e'.site.key → e.label ≠ e'.label) := by
  have h : (·.code.entries) <$> (nesting.compile {}).toOption = some ["m", "C", "C.m", "m"] := by
    decide +kernel
  obtain ⟨out, ho, he⟩ := exists_of_check h
  exact ⟨out, ho, he, compile_entries ho nesting_tidy⟩

def sharing : Program :=
  let block (line : Nat) : Stmt :=
    .block ⟨[.function ⟨"f", [], none, ⟨[], .atLine line⟩, .atLine (line + 1)⟩], .atLine (line + 2)⟩
  ⟨[block 1, block 4], .unplaced⟩

/-- Functions of different scopes may share their label. -/
theorem sharing_entries_not_nodup :
    ∃ out, sharing.compile {} = .ok out ∧ out.code.entries = ["f", "f"] ∧ ¬out.code.entries.Nodup := by
  have h : (·.code.entries) <$> (sharing.compile {}).toOption = some ["f", "f"] := by
    decide +kernel
  obtain ⟨out, ho, he⟩ := exists_of_check h
  refine ⟨out, ho, he, ?_⟩
  rw [he]
  decide

end Program

end ThreeAddress
