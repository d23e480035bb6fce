import ThreeAddress.Proofs.Headers.Holes
import ThreeAddress.Proofs.Headers.Statements

namespace ThreeAddress

open Collect Plan

section Collecting

variable {hidden : Position → Prop} {within : Prop} {s s' : Stmt}

theorem Gap.same {g : Gap} (hs : s.Same hidden within s') (hk : ∀ key ∈ g.keys, (hidden key ↔ within)) :
    List.Forall₂ (Stmt.Same hidden within) (g.fill s) (g.fill s') := by
  rw [keys, List.forall_mem_append] at hk
  exact List.rel_append (stmts_same hk.1) (.cons hs (stmts_same hk.2))

theorem Block.same {b : Block} (hk : ∀ key ∈ b.keys, (hidden key ↔ within)) (i : Nat) :
    Collect.Same hidden within i (b.collect i) (b.collect i) := by
  obtain ⟨body, at_⟩ := b
  rw [Block.keys_eq, List.forall_mem_cons] at hk
  exact block_same hk.1 (stmts_same hk.2) i

theorem Layer.same {layer : Layer} (hs : s.Same hidden within s')
    (hk : ∀ key ∈ layer.keys, (hidden key ↔ within)) :
    (layer.fill s).Same hidden within (layer.fill s') := by
  intro i
  cases layer with
  | block g at_ | loop test g at_ span | doWhile g at_ test span =>
    rw [keys, List.forall_mem_cons] at hk
    rw [fill, Stmt.collect, fill, Stmt.collect]
    exact block_same hk.1 (Gap.same hs hk.2) i
  | foreach item e g at_ span =>
    rw [keys, List.forall_mem_cons] at hk
    exact foreach_same hk.1 (fun hw => hw) (collectAll_same (Gap.same hs hk.2)) i
  | function name params result g at_ span =>
    rw [keys, List.forall_mem_cons] at hk
    rw [fill, Stmt.collect, fill, Stmt.collect]
    exact function_same hk.1 (Gap.same hs hk.2) i none
  | yes test g at_ other span =>
    rw [keys, List.forall_mem_append, List.forall_mem_cons] at hk
    have hbody := block_same hk.1.1 (Gap.same hs hk.1.2) i
    cases other with
    | none =>
      rw [fill, Stmt.collect, fill, Stmt.collect]
      exact hbody.bind (.pure i)
    | some other =>
      rw [fill, Stmt.collect, fill, Stmt.collect]
      exact hbody.bind (Block.same hk.2 i)
  | no test body g at_ span =>
    rw [keys, List.forall_mem_append, List.forall_mem_cons] at hk
    rw [fill, Stmt.collect, fill, Stmt.collect]
    exact (Block.same hk.1 i).bind (block_same hk.2.1 (Gap.same hs hk.2.2) i)
  | first test next body span =>
    rw [keys, List.forall_mem_append, Block.keys_eq, List.forall_mem_cons] at hk
    simp only [fill, Stmt.collect, Block.collectBody_eq]
    exact openScope_same hk.2.1 (fun hw => hw) fun inner =>
      (hs inner).bind (collectAll_same (stmts_same hk.2.2) inner)
  | step lead test body span =>
    rw [keys, List.forall_mem_append, Block.keys_eq, List.forall_mem_cons] at hk
    -- the statement in the step is not collected, so both runs are the same here
    have hbody := collectAll_same (stmts_same hk.2.2)
    simp only [fill, Stmt.collect, Block.collectBody_eq]
    refine openScope_same hk.2.1 (fun hw => hw) fun inner => ?_
    cases lead with
    | none => exact hbody inner
    | some lead => exact (lead.collect_same hk.1 inner).bind (hbody inner)
  | pass lead test next g at_ span =>
    rw [keys, List.forall_mem_append, List.forall_mem_append, List.forall_mem_cons] at hk
    obtain ⟨⟨hl, _⟩, hk, hg⟩ := hk
    have hbody := collectAll_same (Gap.same hs hg)
    simp only [fill, Stmt.collect, Block.collectBody_eq]
    refine openScope_same hk (fun hw => hw) fun inner => ?_
    cases lead with
    | none => exact hbody inner
    | some lead => exact (lead.collect_same hl inner).bind (hbody inner)
  | case subject front value g at_ back last span =>
    rw [keys, List.forall_mem_append, List.forall_mem_append, List.forall_mem_append] at hk
    obtain ⟨⟨⟨hf, hg⟩, hb⟩, hl⟩ := hk
    have hcases := collectCases_same (List.rel_append (cases_same hf)
      (.cons (a := ⟨value, g.fill s, at_⟩) (b := ⟨value, g.fill s', at_⟩) (Gap.same hs hg)
        (cases_same hb))) i
    cases last with
    | none =>
      rw [fill, Stmt.collect, fill, Stmt.collect]
      exact hcases.bind (.pure i)
    | some last =>
      rw [fill, Stmt.collect, fill, Stmt.collect]
      exact hcases.bind (collectAll_same (stmts_same hl) i)
  | default subject cases g span =>
    rw [keys, List.forall_mem_append] at hk
    rw [fill, Stmt.collect, fill, Stmt.collect]
    exact (collectCases_same (cases_same hk.1) i).bind (collectAll_same (Gap.same hs hk.2) i)
  | attempt g at_ caught rescue span =>
    rw [keys, List.forall_mem_append, List.forall_mem_cons, Block.keys_eq, List.forall_mem_cons] at hk
    obtain ⟨⟨ha, hg⟩, hr, hrs⟩ := hk
    simp only [fill, Stmt.collect, Block.collectBody_eq]
    exact (block_same ha (Gap.same hs hg) i).bind <| openScope_same hr (fun hw => hw) fun inner =>
      (declare_same (fun _ => rfl) rfl).bind (collectAll_same (stmts_same hrs) inner)
  | handler body caught g at_ span =>
    rw [keys, List.forall_mem_append, List.forall_mem_cons] at hk
    obtain ⟨hb, ha, hg⟩ := hk
    simp only [fill, Stmt.collect, Block.collectBody_eq]
    exact (Block.same hb i).bind <| openScope_same ha (fun hw => hw) fun inner =>
      (declare_same (fun _ => rfl) rfl).bind (collectAll_same (Gap.same hs hg) inner)
  | method owner parent front name params result g at_ span back whole =>
    rw [keys, List.forall_mem_append, List.forall_mem_append, List.forall_mem_cons, List.forall_mem_cons] at hk
    obtain ⟨⟨⟨hw, hf⟩, ha, hg⟩, hb⟩ := hk
    rw [fill, Stmt.collect, fill, Stmt.collect]
    refine class_same hw (List.rel_append (members_same hf) (.cons (fun i owner => ?_) (members_same hb))) i
    rw [Member.collect, Member.collect]
    exact function_same ha (Gap.same hs hg) i _

end Collecting

end ThreeAddress
