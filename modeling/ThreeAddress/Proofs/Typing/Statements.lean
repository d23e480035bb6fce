import ThreeAddress.Proofs.Typing.Values

namespace ThreeAddress

open List (Subset.trans)
open Lower Supply
open Operand (tempsAll tempsAll_append)

variable {n m k l o : Supply} {a b c code copy : Code} {v w : Operand} {vs ws : List Operand}
  {strict : Prop} {ragged : RaggedArrays} {ex : Exits} {ls : List Label} {given : List Temp}
  {start : Label}

theorem gives_stores {there : String} {cells : List (Option Expr)} {xs : List Valued}
    (h : EmitsCells strict ragged cells n xs m) (places : List (List Nat)) :
    n.Gives (places.zipWith (fun p x => x.1 ++ [elementStore (.var there) p x.2]) xs).flatten []
      m := by
  induction xs generalizing places cells n with
  | nil =>
    rw [List.zipWith_nil_right]
    cases h
    exact .empty
  | cons x rest ih =>
    cases places with
    | nil => exact ⟨h.gives.bases, nofun, (Gives.empty (n := m)).typed⟩
    | cons p places =>
      have hx : ∃ cells k, n.Gives x.1 [x.2] k ∧ EmitsCells strict ragged cells k rest m := by
        cases h with
        | leaf he hc hr => exact ⟨_, _, hc.gives he.gives, hr⟩
        | gap hz hr => exact ⟨_, _, Gives.empty.take rfl rfl (by simp [hz]), hr⟩
      obtain ⟨_, _, hx, hr⟩ := hx
      rw [List.zipWith_cons_cons, List.flatten_cons]
      refine (hx.mention rfl rfl ?_).append (ih hr places)
      rw [elementStore_uses]
      simp [tempsAll, Operand.temps]

theorem EmitsStores.gives {there : String} {es : List Expr}
    (h : EmitsStores strict ragged there es n code m) : n.Gives code [] m := by
  obtain ⟨_, h⟩ := h
  exact gives_stores h _

theorem Binding.Emits.gives {b : Binding} (h : b.Emits strict ragged n code m) :
    n.Gives code [] m := by
  cases h with
  | stray | bare => exact .empty
  | array _ h => exact h.gives
  | value _ _ he hc => exact (hc.gives he.gives).mention rfl rfl (by simp [tempsAll, Operand.temps])

theorem EmitsIndices.gives {is : List Expr} (h : EmitsIndices strict ragged is n code vs m) :
    n.Gives code vs m := by
  induction h with
  | nil => exact .empty
  | cons he hc _ ih => exact (hc.gives he.gives).append ih

theorem Target.Emits.gives {target : Target} {value : Expr}
    (h : target.Emits strict ragged value n code m) : n.Gives code [] m := by
  cases h with
  | stray => exact .empty
  | array h => exact h.gives
  | ident _ he hc => exact (hc.gives he.gives).mention rfl rfl (by simp [tempsAll, Operand.temps])
  | index hb hi he hc =>
    exact ((hb.gives.append hi.gives).append (hc.gives he.gives)).mention rfl rfl
      (by simp [tempsAll, tempsAll_append, Operand.temps])
  | property hb he hc =>
    exact (hb.gives.append (hc.gives he.gives)).mention rfl rfl
      (by simp [tempsAll, Operand.temps])

/-- If what is given has been written, and the labels are there to jump to, then the code is safe to
run, and all that has been written before it has been written at its end. -/
structure Supply.Keeps (ls : List Label) (given : List Temp) (n : Supply) (code : Code)
    (m : Supply) : Prop where
  bases : n.bases ⊆ m.bases
  typed : ∀ {bases marks ts}, m.bases ⊆ bases → bases ⊆ ts → given ⊆ ts →
    (∀ l ∈ ls, Marks.Offer marks l ts) → Typed bases marks ts code ts

namespace Supply.Keeps

variable {ls ls' : List Label} {given given' : List Temp} {i : Instruction} {l : Label}

theorem empty : Keeps ls given n [] n := ⟨List.Subset.refl _, fun _ _ _ _ => .nil⟩

theorem mono (h : Keeps ls given n code m) (hl : ls ⊆ ls') (hg : given ⊆ given') :
    Keeps ls' given' n code m :=
  ⟨h.bases, fun hb ht hs ho => h.typed hb ht (Subset.trans hg hs) fun l h => ho l (hl h)⟩

theorem append (h : Keeps ls given n a m) (g : Keeps ls given m b k) :
    Keeps ls given n (a ++ b) k where
  bases := Subset.trans h.bases g.bases
  typed hb ht hs ho := (h.typed (Subset.trans g.bases hb) ht hs ho).append (g.typed hb ht hs ho)

theorem after (h : n.Gives a vs m) (g : Keeps ls (tempsAll vs ++ given) m b k) :
    Keeps ls given n (a ++ b) k where
  bases := Subset.trans h.bases g.bases
  typed {_ _ ts} hb ht hs ho := by
    have hts : ts ⊆ ts ++ tempsAll vs := List.subset_append_left ..
    refine ((h.typed (Subset.trans g.bases hb) ht).append
      (g.typed hb (Subset.trans ht hts) ?_ ?_)).weaken hts
    · exact List.append_subset.2 ⟨List.subset_append_right .., Subset.trans hs hts⟩
    · exact fun l hl => (ho l hl).mono hts

theorem of_gives (h : n.Gives code vs m) : Keeps ls given n code m := by
  simpa using after h empty

theorem bind (hp : i.isPlain) (hu : i.uses ⊆ given) (h : Keeps ls (i.defs ++ given) n code m) :
    Keeps ls given n (i :: code) m where
  bases := h.bases
  typed {_ _ ts} hb ht hs ho := by
    have hts : ts ⊆ ts ++ i.defs := List.subset_append_left ..
    refine ((Typed.step hp (Subset.trans hu hs)).append
      (h.typed hb (Subset.trans ht hts) ?_ ?_)).weaken hts
    · exact List.append_subset.2 ⟨List.subset_append_right .., Subset.trans hs hts⟩
    · exact fun l hl => (ho l hl).mono hts

theorem goto (hl : l ∈ ls) (h : Keeps ls given n code m) : Keeps ls given n (.goto l :: code) m where
  bases := h.bases
  typed hb ht hs ho := (Typed.goto (ho l hl)).append (h.typed hb ht hs ho)

theorem branch {relation : Relation} (hl : l ∈ ls) (hg : v.temps ++ w.temps ⊆ given)
    (h : Keeps ls given n code m) : Keeps ls given n (.branch v relation w l :: code) m where
  bases := h.bases
  typed hb ht hs ho := (Typed.branch (ho l hl) (Subset.trans hg hs)).append (h.typed hb ht hs ho)

theorem place (h : Keeps (l :: ls) given n a m) (g : Keeps (l :: ls) given m b k) :
    Keeps ls given n (a ++ .label l :: b) k where
  bases := Subset.trans h.bases g.bases
  typed {_ marks ts} hb ht hs ho := by
    have ho : ∀ l' ∈ l :: ls, Marks.Offer ((l, ts) :: marks) l' ts :=
      List.forall_mem_cons.2 ⟨.head (List.Subset.refl _), fun l' hl => (ho l' hl).tail⟩
    exact .place (h.typed (Subset.trans g.bases hb) ht hs ho) (List.Subset.refl _)
      (g.typed hb ht hs ho)

theorem placeEnd {done : Option Label} (h : Keeps (done.toList ++ ls) given n code m) :
    Keeps ls given n (code ++ Lower.place done) m := by
  cases done with
  | none => simpa [Lower.place] using h
  | some l => exact h.place .empty

theorem region (hl : l ∈ ls) (h : Keeps ls given n code m) :
    Keeps ls given n (.tryBegin l :: code ++ [.tryEnd]) m where
  bases := h.bases
  typed hb ht hs ho := .region (ho l hl) (h.typed hb ht hs ho)

theorem frame {name : String} (h : Keeps [] [] n code m) :
    Keeps ls given n (.entry name :: code ++ [.close name]) m where
  bases := h.bases
  typed hb ht _ _ := .frame (h.typed hb ht (by simp) (by simp))
    (h.typed hb (List.Subset.refl _) (by simp) (by simp))

end Supply.Keeps

def Exits.labels (ex : Exits) : List Label := ex.breaks.join.toList ++ ex.continues.join.toList

@[simp] theorem Exits.labels_mk (x y : Option Label) :
    Exits.labels ⟨some x, some y⟩ = x.toList ++ y.toList := rfl

theorem Exits.switch_subset (x : Option Label) (ex : Exits) :
    Exits.labels ⟨some x, ex.continues⟩ ⊆ x.toList ++ ex.labels :=
  List.append_subset.2 ⟨List.subset_append_left .., Subset.trans (List.subset_append_right ..)
    (List.subset_append_right ..)⟩

theorem Departs.keeps {exit : Option (Option Label)} (h : Departs exit code)
    (hs : exit.join.toList ⊆ ls) : Keeps ls given n code n := by
  obtain rfl | ⟨l, rfl, rfl⟩ := h
  · exact .empty
  · exact .goto (hs (by simp)) .empty

theorem EmitsTest.keeps {test : Option Expr} {done : Option Label}
    (h : EmitsTest strict ragged test n code done m) :
    Keeps done.toList given n code m := by
  cases h with
  | never => exact .empty
  | test h => exact .after h.gives (.branch (by simp) (by simp [tempsAll, Operand.temps]) .empty)

theorem EmitsTests.keeps {cases : List Case} (h : EmitsTests strict ragged w cases n code ls m)
    (hw : w.temps ⊆ given) : Keeps ls given n code m := by
  induction h with
  | nil => exact .empty
  | cons h _ ih =>
    refine .after h.gives (.branch (by simp) ?_ (ih.mono (by simp) (by simp)))
    exact List.append_subset.2 ⟨Subset.trans hw (by simp), by simp [tempsAll]⟩

section Forms

variable {yes no start failed : Label} {done again : Option Label} {relation : Relation}

theorem keeps_test (h : n.Gives a [v] m) (hl : start ∈ ls)
    (g : Keeps ls [] m b k) : Keeps ls [] n (a ++ .branch v relation (.int 0) start :: b) k :=
  .after h (.branch hl (by simp [tempsAll, Operand.temps]) (g.mono (by simp) (by simp)))

theorem keeps_ifThen (h : n.Gives a [v] m) (g : Keeps ls [] m b k) :
    Keeps ls [] n (a ++ .branch v .eq (.int 0) no :: b ++ [.label no]) k :=
  (keeps_test h (by simp) (g.mono (by simp) (by simp))).place .empty

theorem keeps_ifThenElse {done : Label} (h : n.Gives a [v] m) (g : Keeps ls [] m b k)
    (f : Keeps ls [] k c l) :
    Keeps ls [] n (a ++ .branch v .eq (.int 0) no :: b ++ .goto done :: .label no :: c
      ++ [.label done]) l := by
  have first : Keeps (no :: done :: ls) [] n (a ++ .branch v .eq (.int 0) no :: (b ++ [.goto done])) k :=
    keeps_test h (by simp) ((g.mono (by simp) (by simp)).append (.goto (by simp) .empty))
  have arms := first.place (f.mono (by simp) (by simp))
  simpa using arms.place .empty

theorem keeps_while {done : Label} (h : n.Gives a [v] m) (g : Keeps [done, start] [] m b k) :
    Keeps ls [] n (.label start :: a ++ .branch v .eq (.int 0) done :: b
      ++ [.goto start, .label done]) k := by
  have pass : Keeps (start :: done :: ls) [] n
      (a ++ .branch v .eq (.int 0) done :: (b ++ [.goto start])) k :=
    keeps_test h (by simp) ((g.mono (by simp) (by simp)).append (.goto (by simp) .empty))
  simpa using (Keeps.empty.place pass).place .empty

theorem keeps_doWhile (g : Keeps (done.toList ++ [start]) [] n a m) (h : m.Gives b [v] k) :
    Keeps ls [] n (.label start :: a ++ b ++ .branch v .ne (.int 0) start :: place done) k := by
  have pass : Keeps (start :: (done.toList ++ ls)) [] n (a ++ (b ++ [.branch v .ne (.int 0) start])) k :=
    (g.mono (by simp) (by simp)).append (keeps_test h (by simp) .empty)
  simpa using (Keeps.empty.place pass).placeEnd

theorem keeps_for {mark : Code} (hm : mark = place again ∨ mark = [] ∧ again = some start)
    (h : Keeps ls [] n a m) (g : Keeps done.toList [] m b k)
    (f : Keeps (done.toList ++ again.toList) [] k c l) (e : Keeps ls [] l code o) :
    Keeps ls [] n (a ++ .label start :: b ++ c ++ (mark ++ code) ++ .goto start :: place done) o := by
  have front : Keeps (again.toList ++ (start :: (done.toList ++ ls))) [] m (b ++ c) l :=
    (g.mono (by grind) (by simp)).append (f.mono (by grind) (by simp))
  have front : Keeps (start :: (done.toList ++ ls)) [] m (b ++ c ++ mark) l := by
    obtain rfl | ⟨rfl, rfl⟩ := hm
    · exact front.placeEnd
    · simpa using front.mono (by simp) (by simp)
  have pass : Keeps (start :: (done.toList ++ ls)) [] m (b ++ c ++ mark ++ (code ++ [.goto start])) o :=
    front.append ((e.mono (by simp) (by simp)).append (.goto (by simp) .empty))
  have loop := (h.mono (by simp) (by simp)).place pass
  simpa using loop.placeEnd

theorem keeps_foreach {item : String} {bound : Operand} {done : Label}
    (h : n.Gives a [v] m) (hb : bound = .field v "length" ∨ ∃ k, bound = .int k)
    (g : Keeps ([done] ++ again.toList) [] m.take.take.take.take b k) :
    Keeps ls [] n
      (a ++ ([.assign (.temp m.next) (.int 0), .assign (.temp m.take.next) bound, .label start,
          .binary (.temp m.take.take.next) (.temp m.next) .lt (.temp m.take.next),
          .branch (.temp m.take.take.next) .eq (.int 0) done,
          .assign (.temp m.take.take.take.next) (.element v [.temp m.next]),
          .assign (.var item) (.temp m.take.take.take.next)]
        ++ b ++ place again
        ++ [.binary (.temp m.next) (.temp m.next) .add (.int 1), .goto start, .label done])) k := by
  have hbound : bound.temps ⊆ v.temps := by
    obtain rfl | ⟨_, rfl⟩ := hb <;> simp [Operand.temps]
  let given := [m.take.next, m.next] ++ v.temps
  have body : Keeps (start :: done :: ls) given m (b ++ place again) k := by
    apply Keeps.placeEnd
    exact Keeps.mono ⟨g.bases, g.typed⟩ (by grind) (by simp)
  have pass : Keeps (start :: done :: ls) given m
      (.binary (.temp m.take.take.next) (.temp m.next) .lt (.temp m.take.next) ::
        .branch (.temp m.take.take.next) .eq (.int 0) done ::
        .assign (.temp m.take.take.take.next) (.element v [.temp m.next]) ::
        .assign (.var item) (.temp m.take.take.take.next) ::
        (b ++ place again ++
          [.binary (.temp m.next) (.temp m.next) .add (.int 1), .goto start])) k := by
    refine .bind rfl (by simp [given, Operand.temps]) (.branch (by simp) (by simp [Operand.temps]) ?_)
    refine .bind rfl ?_ (.bind rfl (by simp [Operand.temps]) ?_)
    · simpa [given, Operand.temps, tempsAll] using (List.subset_append_right [_, _, _] v.temps)
    refine .append (body.mono (by simp) ?_) (.bind rfl ?_ (.goto ?_ .empty))
    all_goals simp [given, Operand.temps]
  have loop := (Keeps.empty.place pass).place .empty
  refine .after h (.bind (i := .assign (.temp m.next) (.int 0)) rfl ?_ (.bind rfl ?_ ?_))
  · simp [Operand.temps]
  · simpa [Operand.temps, tempsAll] using Subset.trans hbound (by simp)
  · simpa [given, tempsAll] using loop

theorem keeps_tests {cases : List Case} {labels : List Label} (h : n.Gives a [v] m)
    (ht : EmitsTests strict ragged v cases m b labels k) (g : Keeps ls [] k c l) :
    Keeps (labels ++ ls) [] n (a ++ (b ++ c)) l :=
  .after h (((ht.keeps (by simp [tempsAll])).mono (by simp) (List.Subset.refl _)).append
    (g.mono (by simp) (by simp)))

theorem keeps_case {ls' : List Label} (h : Keeps (no :: (ls' ++ ls)) [] n a m)
    (g : Keeps ls [] m b k) : Keeps (ls' ++ ls) [] n (a ++ .label no :: b) k :=
  h.place (g.mono (by grind) (by simp))

theorem keeps_switch {cases : List Case} {labels : List Label} (h : n.Gives a [v] m)
    (ht : EmitsTests strict ragged v cases m b labels k) (hl : Departs (some done) c)
    (g : ∀ {front}, Keeps (labels ++ (done.toList ++ ls)) [] n front k →
      Keeps (done.toList ++ ls) [] n (front ++ code) l) :
    Keeps ls [] n (a ++ b ++ c ++ code ++ Lower.place done) l := by
  have bodies := g (keeps_tests h ht (hl.keeps (by simp)))
  simpa using bodies.placeEnd

theorem keeps_switchDefault {cases : List Case} {labels ls' : List Label} {other : Label} {last : Code}
    (h : n.Gives a [v] m) (ht : EmitsTests strict ragged v cases m b labels k)
    (hs : ls' ⊆ done.toList ++ ls)
    (g : ∀ {front}, Keeps (labels ++ (other :: (done.toList ++ ls))) [] n front k →
      Keeps (other :: (done.toList ++ ls)) [] n (front ++ code) l)
    (f : Keeps ls' [] l last o) :
    Keeps ls [] n (a ++ b ++ .goto other :: code ++ .label other :: last ++ Lower.place done) o := by
  have jump : Keeps (other :: (done.toList ++ ls)) [] k [.goto other] k := .goto (by simp) .empty
  have bodies := g (keeps_tests h ht jump)
  simpa using (bodies.place (f.mono (List.subset_cons_of_subset _ hs) (by simp))).placeEnd

theorem keeps_tryCatch {caught : String} {failed done : Label} (h : Keeps ls [] n a m)
    (g : Keeps ls [] m b k) :
    Keeps ls [] n (.tryBegin failed :: a
      ++ [.tryEnd, .goto done, .label failed, .assign (.var caught) .exception]
      ++ b ++ [.label done]) k := by
  have body : Keeps (failed :: done :: ls) [] n (.tryBegin failed :: a ++ [.tryEnd] ++ [.goto done]) m :=
    (Keeps.region (by simp) (h.mono (by simp) (by simp))).append (.goto (by simp) .empty)
  have handler : Keeps (failed :: done :: ls) [] m (.assign (.var caught) .exception :: b) k :=
    .bind rfl (by simp [Operand.temps]) (g.mono (by simp) (by simp))
  simpa using (body.place handler).place .empty

end Forms

section

mutual

theorem Stmt.Emits.keeps : ∀ {ex : Exits} {s : Stmt} {n m : Supply} {code : Code},
    s.Emits strict ragged ex n code m → Keeps ex.labels [] n code m
  | _, _, _, _, _, .skipped .. | _, _, _, _, _, .strayExit _ | _, _, _, _, _, .strayNext _
  | _, _, _, _, _, .strayClass _ => .empty
  | _, _, _, _, _, .declare h | _, _, _, _, _, .assign h => .of_gives h.gives
  | _, _, _, _, _, .eval h => .of_gives h.gives
  | _, _, _, _, _, .print h =>
    .of_gives ((h.gives.take rfl rfl (by simp [tempsAll])).mention rfl rfl (by simp))
  | _, _, _, _, _, .leave => .of_gives (Gives.empty.mention rfl rfl (by simp [Operand.temps]))
  | _, _, _, _, _, .return h => .of_gives (h.gives.mention rfl rfl (by simp [tempsAll]))
  | _, _, _, _, _, .exit h | _, _, _, _, _, .next h => .goto (by simp [Exits.labels, h]) .empty
  | _, _, _, _, _, .block h => h.keeps
  | _, _, _, _, _, .ifThen hc hy => keeps_ifThen hc.gives hy.keeps
  | _, _, _, _, _, .ifThenElse hc hy hn => keeps_ifThenElse hc.gives hy.keeps hn.keeps
  | _, _, _, _, _, .whileLoop hc hb => keeps_while hc.gives hb.keeps
  | _, _, _, _, _, .doWhile hb hc => keeps_doWhile hb.keeps hc.gives
  | _, _, _, _, _, .forLoop hf ht hb hs hm => keeps_for hm hf.keeps ht.keeps hb.keeps hs.keeps
  | _, _, _, _, _, .foreach hc hb h => keeps_foreach hc.gives hb h.keeps
  | _, _, _, _, _, .switch hv hc ht hl hb =>
    keeps_switch (hc.gives hv.gives) ht hl fun h => hb.keeps ht.length_eq (Exits.switch_subset ..) h
  | _, _, _, _, _, .switchDefault hv hc ht hb hd =>
    keeps_switchDefault (hc.gives hv.gives) ht (Exits.switch_subset ..)
      (fun h => hb.keeps ht.length_eq (List.subset_cons_of_subset _ (Exits.switch_subset ..)) h) hd.keeps
  | _, _, _, _, _, .tryCatch hb hh => keeps_tryCatch hb.keeps hh.keeps
  | _, _, _, _, _, .function h => h.keeps
  | _, _, _, _, _, .classDef h => .frame h.keeps

theorem EmitsAll.keeps : ∀ {ex : Exits} {body : List Stmt} {n m : Supply} {code : Code},
    EmitsAll strict ragged ex body n code m → Keeps ex.labels [] n code m
  | _, _, _, _, _, .nil => .empty
  | _, _, _, _, _, .cons hs hr => hs.keeps.append hr.keeps

theorem EmitsCases.keeps : ∀ {ex : Exits} {cases : List Case} {labels : List Label} {n m : Supply}
    {code : Code}, EmitsCases strict ragged ex cases labels n code m →
    labels.length = cases.length → ∀ {ls k a}, ex.labels ⊆ ls → Keeps (labels ++ ls) [] k a n →
    Keeps ls [] k (a ++ code) m
  | _, _, _, _, _, _, .nil, hl, _, _, _, _, ha => by
    rw [List.length_eq_zero_iff.1 hl] at ha
    simpa using ha
  | _, _, _, _, _, _, .cons hb hv hr, hl, _, _, _, he, ha => by
    have body := (hb.keeps.append (hv.keeps (by simp [Exits.labels]))).mono he (List.nil_subset [])
    have rest := hr.keeps (Nat.succ.inj hl) he (keeps_case ha body)
    simpa using rest

theorem EmitsFunction.keeps : ∀ {f : Function} {n m : Supply} {code : Code},
    EmitsFunction strict ragged f n code m → ∀ {ls given}, Keeps ls given n code m
  | _, _, _, _, .body h, _, _ => .frame h.keeps
  | _, _, _, _, .stray _, _, _ => .empty

theorem EmitsMembers.keeps : ∀ {members : List Member} {n m : Supply} {code : Code},
    EmitsMembers strict ragged members n code m → Keeps [] [] n code m
  | _, _, _, _, .nil => .empty
  | _, _, _, _, .field hb hr => (Keeps.of_gives hb.gives).append hr.keeps
  | _, _, _, _, .method hf hr => hf.keeps.append hr.keeps

end

end

end ThreeAddress
