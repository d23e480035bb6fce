import Mathlib.Data.List.Nodup
import ThreeAddress.Proofs.Semantics.Machine
import ThreeAddress.Proofs.Typing.Brackets

namespace ThreeAddress

open List (Subset.trans)

namespace Code

/-- Control passes from `i` to `j`: it falls through or jumps, and at the start of a guarded region it
may pass to the handler. -/
inductive Flows (code : Code) (i : Nat) : Nat → Prop
  | fall : code[i]? = some x → ¬x.isJump → Flows code i (i + 1)
  | jump : code[i]? = some x → x.target? = some l → code[j]? = some (.label l) → Flows code i j

/-- A path from `start` to `i`, with the instructions that are run on the way. It ends at `stop`, if
it comes there. -/
inductive Path (code : Code) (start stop : Nat) : Code → Nat → Prop
  | nil : Path code start stop [] start
  | step : Path code start stop passed i → i ≠ stop → code[i]? = some x → Flows code i j →
    Path code start stop (passed ++ [x]) j

/-- On every path from `start`, the temporaries that an instruction reads have been written by one
before it, or they are among `bases`. -/
def Initialized (code : Code) (bases : List Temp) (start stop : Nat) : Prop :=
  ∀ ⦃passed i x⦄, Path code start stop passed i → code[i]? = some x →
    ∀ t ∈ x.uses, t ∈ bases ∨ ∃ y ∈ passed, t ∈ y.defs

def Frame (code : Code) (start stop : Nat) : Prop :=
  ∃ name inner, code.At start (.entry name :: inner ++ [.close name]) ∧ Bracketed inner ∧
    stop = start + 1 + inner.length

theorem At.drop_eq {code seg : Code} {k : Nat} (h : code.At k seg) :
    ∃ rest, code.drop k = seg ++ rest := by
  induction seg generalizing k with
  | nil => exact ⟨_, rfl⟩
  | cons i rest ih =>
    obtain ⟨hi, hr⟩ := h
    obtain ⟨tail, ht⟩ := ih hr
    obtain ⟨hk, hi⟩ := List.getElem?_eq_some_iff.1 hi
    exact ⟨tail, by rw [List.drop_eq_getElem_cons hk, hi, ht, List.cons_append]⟩

theorem At.placed_sublist {code seg : Code} {k : Nat} (h : code.At k seg) :
    seg.placed.Sublist code.placed := by
  obtain ⟨rest, hr⟩ := h.drop_eq
  exact ((List.sublist_append_left seg rest).trans (hr ▸ List.drop_sublist k code)).filterMap _

theorem Frame.stop_eq {code : Code} {start stop stop' : Nat} (h : code.Frame start stop)
    (h' : code.Frame start stop') : stop = stop' := by
  obtain ⟨name, inner, ha, hb, rfl⟩ := h
  obtain ⟨name', inner', ha', hb', rfl⟩ := h'
  obtain ⟨rest, hr⟩ := ha.drop_eq
  obtain ⟨rest', hr'⟩ := ha'.drop_eq
  rw [hr] at hr'
  simp only [List.cons_append, List.append_assoc, List.cons.injEq] at hr'
  rw [hb.eq_of_append_eq hb' rfl rfl hr'.2]

end Code

/-- Straight code where every label asks for what the list says of it. -/
inductive Flat (marks : Marks) : List Temp → Code → List Temp → Prop
  | nil : us ⊆ ts → Flat marks ts [] us
  | label : (l, us) ∈ marks → us ⊆ ts → Flat marks us rest vs → Flat marks ts (.label l :: rest) vs
  | step : i.placed? = none → i.uses ⊆ ts → (∀ l, i.target? = some l → Marks.Offer marks l ts) →
    Flat marks (ts ++ i.defs) rest us → Flat marks ts (i :: rest) us

namespace Flat

variable {marks marks' : Marks} {ts us vs ws : List Temp} {a b code : Code} {i : Instruction}
  {l : Label}

theorem mono (h : Flat marks ts code us) (hs : ts ⊆ vs) : Flat marks vs code us := by
  induction h generalizing vs with
  | nil hu => exact .nil (Subset.trans hu hs)
  | label hl hu h _ => exact .label hl (Subset.trans hu hs) h
  | @step ts i us rest hp hu ho _ ih =>
    refine .step hp (Subset.trans hu hs) (fun l hl => (ho l hl).mono hs) (ih ?_)
    exact List.append_subset.2
      ⟨Subset.trans hs (List.subset_append_left ..), List.subset_append_right ..⟩

theorem append (h : Flat marks ts a us) (g : Flat marks us b vs) : Flat marks ts (a ++ b) vs := by
  induction h with
  | nil hs => exact g.mono hs
  | label hl hu _ ih => exact .label hl hu (ih g)
  | step hp hu ho _ ih => exact .step hp hu ho (ih g)

theorem weaken (h : Flat marks ts code us) (hs : vs ⊆ us) : Flat marks ts code vs := by
  simpa using h.append (.nil hs)

theorem jump (ht : i.target? = some l) (ho : marks.Offer l ts) (hu : i.uses ⊆ ts)
    (h : Flat marks ts code us) : Flat marks ts (i :: code) us := by
  refine .step (by cases i <;> simp_all [Instruction.target?, Instruction.placed?]) hu ?_ (h.mono ?_)
  · simpa [ht] using ho
  · exact List.subset_append_left ..

theorem skip (hp : i.placed? = none) (ht : i.target? = none) (hu : i.uses = [])
    (h : Flat marks ts code us) : Flat marks ts (i :: code) us :=
  .step hp (hu ▸ List.nil_subset _) (by simp [ht]) (h.mono (List.subset_append_left ..))

theorem drop (h : Flat marks ts code us) (k : Nat) :
    ∃ vs, Flat marks vs (code.drop k) us := by
  induction k generalizing ts code with
  | zero => exact ⟨ts, h⟩
  | succ k ih =>
    cases h with
    | nil hs => exact ⟨ts, .nil hs⟩
    | label _ _ h => exact ih h
    | step _ _ _ h => exact ih h

end Flat

theorem Marks.Offer.subset {marks marks' : Marks} {l : Label} {ts : List Temp}
    (h : marks.Offer l ts) (hm : marks ⊆ marks') : marks'.Offer l ts := by
  obtain ⟨us, h, hs⟩ := h
  exact ⟨us, hm h, hs⟩

/-- Structured code is typed as straight code is, with a list of the labels that it places. -/
theorem Typed.flat {bases ts us : List Temp} {marks : Marks} {code : Code}
    (h : Typed bases marks ts code us) :
    ∃ own : Marks, own.map Prod.fst = code.placed ∧
      ∀ all : Marks, marks ⊆ all → own ⊆ all → Flat all ts code us := by
  induction h with
  | nil => exact ⟨[], rfl, fun _ _ _ => .nil (List.Subset.refl _)⟩
  | step hp hu =>
    have hn := Instruction.placed?_of_plain hp
    refine ⟨[], by simp [Code.placed, hn], fun _ _ _ => .step hn hu ?_ (.nil (List.Subset.refl _))⟩
    simp [Instruction.target?_of_plain hp]
  | goto ho =>
    refine ⟨[], rfl, fun _ hm _ => ?_⟩
    exact .jump rfl (ho.subset hm) (List.nil_subset _) (.nil (List.Subset.refl _))
  | branch ho hu =>
    refine ⟨[], rfl, fun _ hm _ => ?_⟩
    exact .jump rfl (ho.subset hm) hu (.nil (List.Subset.refl _))
  | append _ _ iha ihb =>
    obtain ⟨xs, hx, ha⟩ := iha
    obtain ⟨ys, hy, hb⟩ := ihb
    refine ⟨xs ++ ys, by rw [List.map_append, hx, hy, Code.placed_append], fun all hm ho => ?_⟩
    obtain ⟨hxs, hys⟩ := List.append_subset.1 ho
    exact (ha all hm hxs).append (hb all hm hys)
  | @place l us marks ts a vs b ws _ hu _ iha ihb =>
    obtain ⟨xs, hx, ha⟩ := iha
    obtain ⟨ys, hy, hb⟩ := ihb
    refine ⟨xs ++ (l, us) :: ys, ?_, fun all hm ho => ?_⟩
    · rw [List.map_append, List.map_cons, hx, hy, Code.placed_append, Code.placed_label]
    · obtain ⟨hxs, hys⟩ := List.append_subset.1 ho
      obtain ⟨hl, hys⟩ := List.cons_subset.1 hys
      have hm := List.cons_subset.2 ⟨hl, hm⟩
      exact (ha all hm hxs).append (.label hl hu (hb all hm hys))
  | region ho _ ih =>
    obtain ⟨xs, hx, hi⟩ := ih
    refine ⟨xs, ?_, fun all hm hxs => ?_⟩
    · rw [List.cons_append, Code.placed_jump rfl, Code.placed_append, hx]
      exact (List.append_nil _).symm
    · exact .jump rfl (ho.subset hm) (List.nil_subset _)
        ((hi all hm hxs).append (.skip rfl rfl rfl (.nil (List.Subset.refl _))))
  -- nothing of the marks around is offered inside a frame
  | frame _ _ ih =>
    obtain ⟨xs, hx, hi⟩ := ih
    refine ⟨xs, ?_, fun all hm hxs => ?_⟩
    · rw [List.cons_append, Code.placed_plain rfl, Code.placed_append, hx]
      exact (List.append_nil _).symm
    · exact .skip rfl rfl rfl ((hi all (List.nil_subset _) hxs).append
        (.skip rfl rfl rfl (.nil (List.Subset.refl _))))
  | weaken _ hs ih =>
    obtain ⟨xs, hx, h⟩ := ih
    exact ⟨xs, hx, fun all hm ho => (h all hm ho).weaken hs⟩

namespace Flat

variable {marks : Marks} {ts us vs : List Temp} {i : Instruction} {l : Label} {code rest : Code}

theorem uncons (h : Flat marks ts (i :: rest) us) : i.uses ⊆ ts ∧
    (∀ l, i.target? = some l → marks.Offer l ts) ∧ ∃ vs, vs ⊆ ts ++ i.defs ∧ Flat marks vs rest us := by
  cases h with
  | label _ hu h => exact ⟨by simp, by simp [Instruction.target?], _, by simpa using hu, h⟩
  | step _ hu ho h => exact ⟨hu, ho, _, List.Subset.refl _, h⟩

theorem at_label (h : Flat marks ts code us) (hm : marks.map Prod.fst = code.placed)
    (hn : code.placed.Nodup) (hl : (l, vs) ∈ marks) :
    ∃ j, code[j]? = some (.label l) ∧ Flat marks vs (code.drop j) us := by
  have hp : l ∈ code.placed := hm ▸ List.mem_map_of_mem hl
  obtain ⟨i, hi, hp⟩ := List.mem_filterMap.1 hp
  obtain ⟨j, hj, rfl⟩ := List.mem_iff_getElem.1 hi
  have hi : code[j] = .label l := by
    cases hc : code[j] <;> simp_all [Instruction.placed?]
  refine ⟨j, List.getElem?_eq_some_iff.2 ⟨hj, hi⟩, ?_⟩
  obtain ⟨ws, h⟩ := h.drop j
  rw [List.drop_eq_getElem_cons hj, hi] at h ⊢
  cases h with
  | label hl' _ h =>
    have hs := List.inj_on_of_nodup_map (hm ▸ hn) hl hl' rfl
    obtain ⟨_, rfl⟩ := Prod.mk.inj hs
    exact .label hl (List.Subset.refl _) h
  | step hp => cases hp

/-- Where a path through straight code has come to, the code is typed on from what was written on
it. -/
theorem reaches {whole : Code} {start : Nat} (h : Flat marks ts code us)
    (hm : marks.map Prod.fst = code.placed) (ha : whole.At start code) (hn : whole.placed.Nodup)
    {passed : Code} {i : Nat} (hp : whole.Path start (start + code.length) passed i) :
    ∃ k vs, i = start + k ∧ k ≤ code.length ∧ vs ⊆ ts ++ passed.flatMap Instruction.defs ∧
      Flat marks vs (code.drop k) us := by
  induction hp with
  | nil => exact ⟨0, ts, by simp, by simp, by simp, h⟩
  | @step passed i x j hp hi hx hj ih =>
    obtain ⟨k, vs, rfl, hk, hv, hr⟩ := ih
    have hk : k < code.length := by omega
    have hx' := hx
    rw [ha.getElem? hk] at hx'
    obtain ⟨_, rfl⟩ := List.getElem?_eq_some_iff.1 hx'
    rw [List.drop_eq_getElem_cons hk] at hr
    obtain ⟨_, ht, ws, hw, hr⟩ := hr.uncons
    have hv' : vs ++ code[k].defs ⊆ ts ++ (passed ++ [code[k]]).flatMap Instruction.defs := by
      simp only [List.flatMap_append, List.flatMap_singleton, ← List.append_assoc]
      exact List.append_subset.2
        ⟨Subset.trans hv (List.subset_append_left ..), List.subset_append_right ..⟩
    cases hj with
    | fall => exact ⟨k + 1, ws, by omega, hk, Subset.trans hw hv', hr⟩
    | @jump y l _ hy hl hj =>
      obtain rfl : code[k] = y := by simpa [hx] using hy
      obtain ⟨rs, hrs, hs⟩ := ht l hl
      obtain ⟨j', hj', hf⟩ := h.at_label hm (ha.placed_sublist.nodup hn) hrs
      have hlt := (List.getElem?_eq_some_iff.1 hj').1
      have hto := hj'
      rw [← ha.getElem? hlt] at hto
      have he := (Code.position_eq hn hj).symm.trans (Code.position_eq hn hto)
      refine ⟨j', rs, by simpa using he, by omega, Subset.trans hs ?_, hf⟩
      exact Subset.trans (List.subset_append_left ..) hv'

/-- On every path through straight code, what is read has been written. -/
theorem initialized {whole : Code} {start stop : Nat} (h : Flat marks ts code us)
    (hm : marks.map Prod.fst = code.placed) (ha : whole.At start code) (hn : whole.placed.Nodup)
    (hs : stop = start + code.length) (hx : ∀ x, whole[stop]? = some x → x.uses = []) :
    whole.Initialized ts start stop := by
  subst hs
  intro passed i x hp hi t ht
  obtain ⟨k, vs, rfl, hk, hv, hf⟩ := h.reaches hm ha hn hp
  obtain hk | rfl := Nat.lt_or_eq_of_le hk
  · rw [ha.getElem? hk] at hi
    obtain ⟨_, rfl⟩ := List.getElem?_eq_some_iff.1 hi
    rw [List.drop_eq_getElem_cons hk] at hf
    simpa using hv (hf.uncons.1 ht)
  · rw [hx x hi] at ht
    cases ht

end Flat

namespace Typed

variable {bases ts us : List Temp} {marks : Marks} {code whole : Code} {start : Nat}

theorem frames (h : Typed bases marks ts code us) {k : Nat} (ha : whole.At k code) {name : String}
    (hs : k ≤ start) (he : start < k + code.length) (hn : whole[start]? = some (.entry name)) :
    ∃ inner vs, whole.At start (.entry name :: inner ++ [.close name]) ∧
      Typed bases [] bases inner vs := by
  -- an instruction that is no entry stands somewhere else
  have other {k i} (hi : whole[k]? = some i) (he : ∀ name, i ≠ .entry name) : start ≠ k := by
    rintro rfl
    exact he name (Option.some.inj (hi.symm.trans hn))
  induction h generalizing k with
  | nil => simp at he; omega
  | @step i _ _ hp =>
    have := other ha.1 (by rintro name rfl; cases hp)
    simp at he
    omega
  | goto | branch =>
    have := other ha.1 nofun
    simp at he
    omega
  | @append _ _ a _ _ _ _ _ iha ihb =>
    obtain ⟨ha, hb⟩ := Code.at_append.1 ha
    by_cases hm : start < k + a.length
    · exact iha ha hs hm
    · exact ihb hb (by omega) (by simp at he; omega)
  | @place _ _ _ _ a _ _ _ _ _ _ iha ihb =>
    obtain ⟨ha, hl, hb⟩ := Code.at_append.1 ha
    have := other hl nofun
    by_cases hm : start < k + a.length
    · exact iha ha hs hm
    · exact ihb hb (by omega) (by simp at he; omega)
  | region _ _ ih =>
    obtain ⟨ht, ha⟩ := ha
    obtain ⟨ha, hb, _⟩ := Code.at_append.1 ha
    have := other ht nofun
    have := other hb nofun
    exact ih ha (by omega) (by simp at he; omega)
  | @frame _ inner _ vs _ name' _ hi ih =>
    obtain ⟨ht, hb⟩ := id ha
    obtain ⟨hb, hc, _⟩ := Code.at_append.1 hb
    have := other hc nofun
    obtain rfl | hm := Nat.eq_or_lt_of_le hs
    · obtain rfl : name' = name := by simpa [ht] using hn
      exact ⟨inner, vs, ha, hi⟩
    · exact ih hb hm (by simp at he; omega)
  | weaken _ _ ih => exact ih ha hs he

theorem initialized (h : Typed bases [] ts code us) (hn : code.placed.Nodup) :
    code.Initialized ts 0 code.length := by
  obtain ⟨own, ho, hf⟩ := h.flat
  exact (hf own (List.nil_subset _) (List.Subset.refl _)).initialized ho code.at_self hn (by simp)
    (by simp)

theorem frame_of_entry (h : Typed bases [] ts code us) {name : String}
    (he : code[start]? = some (.entry name)) : ∃ stop, code.Frame start stop := by
  obtain ⟨inner, vs, ha, hi⟩ := h.frames code.at_self (Nat.zero_le _)
    (by simpa using (List.getElem?_eq_some_iff.1 he).1) he
  exact ⟨_, name, inner, ha, hi.bracketed, rfl⟩

theorem frame_initialized (h : Typed bases [] ts code us) (hn : code.placed.Nodup) {stop : Nat}
    (hf : code.Frame start stop) : code.Initialized bases start stop := by
  obtain ⟨name, _, ha, _⟩ := id hf
  obtain ⟨inner, vs, ha, hi⟩ := h.frames code.at_self (Nat.zero_le _)
    (by simpa using (List.getElem?_eq_some_iff.1 ha.1).1) ha.1
  obtain rfl := hf.stop_eq ⟨name, inner, ha, hi.bracketed, rfl⟩
  obtain ⟨own, ho, hfl⟩ := hi.flat
  obtain ⟨hin, hc, _⟩ := Code.at_append.1 ha
  refine (Flat.skip (i := .entry name) rfl rfl rfl
    (hfl own (List.nil_subset _) (List.Subset.refl _))).initialized ?_ hin hn ?_ ?_
  · rw [ho, Code.placed_plain rfl]
  · simp only [List.length_cons]
    omega
  · intro x hx
    rw [show start + 1 + inner.length = start + (Instruction.entry name :: inner).length by
      simp only [List.length_cons]; omega, hc] at hx
    cases hx
    rfl

end Typed

/-- On every path of control from the start of the code, and from the entry of a frame to its end,
temporaries are written before they are read. The rules for the code of the program say which
temporaries do not count: those that array literals took for their elements. -/
theorem Program.compile_initialized {p : Program} {options : Options} {out : Compiled}
    (h : p.compile options = .ok out) :
    ∃ n, EmitsAll True options.raggedArrays {} p.statements {} out.code n ∧
      out.code.Initialized n.bases 0 out.code.length ∧
      (∀ start name, out.code[start]? = some (.entry name) → ∃ stop, out.code.Frame start stop) ∧
      ∀ start stop, out.code.Frame start stop → out.code.Initialized n.bases start stop := by
  obtain ⟨_, hl⟩ := compile_eq_ok.1 h
  obtain ⟨n, he⟩ := lower_emits True hl fun _ => rfl
  obtain ⟨_, hn, _⟩ := lower_bracketed hl
  exact ⟨n, he, he.typed.initialized hn, fun _ _ => he.typed.frame_of_entry,
    fun _ _ => he.typed.frame_initialized hn⟩

def Program.choosing : Program :=
  ⟨[.function ⟨"f", [], none, ⟨[.print (.ternary (.bool true .unplaced)
      (.index (.array [.int 5 .unplaced] .unplaced) (.int 0 .unplaced) .unplaced) (.int 7 .unplaced)
      .unplaced) (.atLine 2)], .atLine 1⟩, .atLine 1⟩], .unplaced⟩

theorem Program.choosing_initialized :
    ∃ out, choosing.compile {} = .ok out ∧ out.code.temps =
        [⟨1⟩, ⟨1⟩, ⟨2⟩, ⟨3⟩, ⟨2⟩, ⟨4⟩, ⟨5⟩, ⟨3⟩, ⟨4⟩, ⟨6⟩, ⟨5⟩, ⟨7⟩, ⟨6⟩, ⟨7⟩, ⟨8⟩, ⟨6⟩, ⟨8⟩] ∧
      ∃ n, EmitsAll True .reject {} choosing.statements {} out.code n ∧
        out.code.Initialized n.bases 0 out.code.length ∧
        (∀ start name, out.code[start]? = some (.entry name) → ∃ stop, out.code.Frame start stop) ∧
        ∀ start stop, out.code.Frame start stop → out.code.Initialized n.bases start stop := by
  have h : (·.code.temps) <$> (choosing.compile {}).toOption = some
      [⟨1⟩, ⟨1⟩, ⟨2⟩, ⟨3⟩, ⟨2⟩, ⟨4⟩, ⟨5⟩, ⟨3⟩, ⟨4⟩, ⟨6⟩, ⟨5⟩, ⟨7⟩, ⟨6⟩, ⟨7⟩, ⟨8⟩, ⟨6⟩, ⟨8⟩] := by
    decide +kernel
  obtain ⟨out, ho, ht⟩ := exists_of_check h
  exact ⟨out, ho, ht, compile_initialized ho⟩

end ThreeAddress
