import ThreeAddress.Proofs.Frames.Sites

namespace ThreeAddress

section Lists

variable {s : Site} {items items' : List Item}

@[simp] theorem slotsAll_append : slotsAll (items ++ items') = slotsAll items ++ slotsAll items' := by
  induction items with
  | nil => rfl
  | cons i rest ih => simp [slotsAll, ih]

@[simp] theorem ownersAll_append :
    ownersAll (items ++ items') = ownersAll items ++ ownersAll items' := by
  induction items with
  | nil => rfl
  | cons i rest ih => simp [ownersAll, ih]

theorem framesAll_append (closed : List Site) : framesAll closed (items ++ items') =
    framesAll closed items ++ framesAll (closed ++ ownersAll items) items' := by
  induction items generalizing closed with
  | nil => simp [framesAll, ownersAll]
  | cons i rest ih => simp [framesAll, ownersAll, ih]

/-- Induction over items, and over what the frames among them have inside. -/
theorem Item.induction {P : List Item → Prop} (nil : P [])
    (slot : ∀ s rest, P rest → P (.slot s :: rest))
    (frame : ∀ s scope parent inside rest, P inside → P rest →
      P (.frame s scope parent inside :: rest)) (items : List Item) : P items :=
  @Item.rec_1 (fun i => ∀ rest, P rest → P (i :: rest)) P slot
    (fun s scope parent inside hi rest hr => frame s scope parent inside rest hi hr) nil
    (fun _ rest hi hr => hi rest hr) items

theorem sitesAll_perm (items : List Item) : (sitesAll items).Perm (slotsAll items ++ ownersAll items) := by
  induction items using Item.induction with
  | nil => exact .nil
  | slot s rest ih => simpa [sitesAll, Item.sites, slotsAll, Item.slots, ownersAll, Item.owners] using ih
  | frame s scope parent inside rest ihi ihr =>
    rw [List.perm_iff_count] at ihi ihr ⊢
    intro a
    have hi := ihi a
    have hr := ihr a
    simp only [sitesAll, Item.sites, slotsAll, Item.slots, ownersAll, Item.owners, List.count_append,
      List.count_cons, List.count_nil] at hi hr ⊢
    omega

theorem mem_sitesAll_of_slots (h : s ∈ slotsAll items) : s ∈ sitesAll items :=
  (sitesAll_perm items).mem_iff.2 (List.mem_append_left _ h)

theorem mem_sitesAll_of_owners (h : s ∈ ownersAll items) : s ∈ sitesAll items :=
  (sitesAll_perm items).mem_iff.2 (List.mem_append_right _ h)

end Lists

def Symbol.bytes (x : Symbol) : Option Nat × Nat := (x.offset, x.size)

namespace Table

variable {f : Symbol → α} {t t' t'' t₀ T : Table} {id id' : SymbolId} {x : Symbol}
  {sites sites' : List Site} {s : Site}

def fact (t : Table) (f : Symbol → α) (id : SymbolId) : Option α := (t.symbol id).toOption.map f

theorem fact_eq_some {a : α} : t.fact f id = some a ↔ ∃ x, t.symbol id = .ok x ∧ f x = a := by
  cases h : t.symbol id <;> simp [fact, h, Except.toOption]

theorem fact_modifySymbol_ne {g : Symbol → Symbol} (h : id' ≠ id) :
    (t.modifySymbol id g).fact f id' = t.fact f id' := by
  ext a
  simp only [fact_eq_some, symbol_modifySymbol_ne h]

theorem fact_modifySymbol_self {g : Symbol → Symbol} (h : t.symbol id = .ok x) :
    (t.modifySymbol id g).fact f id = some (f (g x)) :=
  fact_eq_some.2 ⟨_, symbol_modifySymbol_self h, rfl⟩

theorem fact_modifySymbol {g : Symbol → Symbol} (h : ∀ x, f (g x) = f x) (id' : SymbolId) :
    (t.modifySymbol id g).fact f id' = t.fact f id' := by
  ext a
  simp only [fact_eq_some]
  constructor
  · rintro ⟨y, hy, rfl⟩
    obtain ⟨_, hy⟩ | ⟨rfl, x, hx, rfl⟩ := symbol_of_modifySymbol hy
    · exact ⟨y, hy, rfl⟩
    · exact ⟨x, hx, (h x).symm⟩
  · rintro ⟨x, hx, rfl⟩
    by_cases hi : id' = id
    · subst hi
      exact ⟨_, symbol_modifySymbol_self hx, h x⟩
    · exact ⟨x, (symbol_modifySymbol_ne hi).2 hx, rfl⟩

@[simp] theorem find?_outline (s : Site) : t.outline.find? s = t.find? s := by
  have hs (i : Nat) : t.outline.scopes[i]? = t.scopes[i]?.map Scope.outline := List.getElem?_map
  simp only [find?, scopeFor_outline, hs, Option.bind_eq_bind, Option.bind_map, Function.comp_def,
    Scope.slot?_outline]

theorem find?_congr (h : t'.outline = t.outline) (s : Site) : t'.find? s = t.find? s := by
  rw [← find?_outline, h, find?_outline]

theorem get?_eq_some : t.get? s = some x ↔ ∃ id, t.find? s = some id ∧ t.symbol id = .ok x := by
  simp only [get?, Option.bind_eq_bind, Option.bind_eq_some_iff]
  refine exists_congr fun id => and_congr_right fun _ => ?_
  cases t.symbol id <;> simp [Except.toOption]

def Spares (t₀ : Table) (f : Symbol → α) (sites : List Site) (t t' : Table) : Prop :=
  ∀ id, (∀ s ∈ sites, t₀.find? s ≠ some id) → t'.fact f id = t.fact f id

/-- At the sites, `T` has what `t` has. -/
def Settles (t₀ : Table) (f : Symbol → α) (sites : List Site) (t T : Table) : Prop :=
  ∀ s ∈ sites, ∀ id, t₀.find? s = some id → T.fact f id = t.fact f id

theorem Spares.trans (h : Spares t₀ f sites t t') (k : Spares t₀ f sites' t' t'') :
    Spares t₀ f (sites ++ sites') t t'' := fun id hid =>
  (k id fun s hs => hid s (List.mem_append_right _ hs)).trans
    (h id fun s hs => hid s (List.mem_append_left _ hs))

theorem Settles.mono (h : Settles t₀ f sites t T) (hs : ∀ s ∈ sites', s ∈ sites) :
    Settles t₀ f sites' t T := fun s hm => h s (hs s hm)

theorem Settles.before (h : Settles t₀ f sites t' T) (k : Spares t₀ f sites' t t')
    (hd : ∀ s ∈ sites, s ∉ sites') : Settles t₀ f sites t T := by
  intro s hs id hid
  rw [h s hs id hid]
  refine k id fun s' hs' hid' => ?_
  obtain rfl := find?_inj hid hid'
  exact hd s hs hs'

end Table

/-- A table that lowering may end with, when the sites have been settled in `t`. -/
structure Table.Final (t₀ : Table) (slots owners : List Site) (t T : Table) : Prop where
  outline : T.outline = t₀.outline
  bytes : t₀.Settles Symbol.bytes slots t T
  frame : t₀.Settles (·.frame) owners t T

/-- No frame has ended but those of `closed`. -/
def Table.Unclosed (t₀ : Table) (closed : List Site) (t : Table) : Prop :=
  ∀ id, (∀ s ∈ closed, t₀.find? s ≠ some id) → ∀ n, t.fact (·.frame) id = some n → n = 0

/-- The items of a frame lie behind what the frame begins with, and the symbol of the frame holds
where they stop. -/
def Frame.LaidOut (layout : NestedFrames) (T : Table) (f : Frame) : Prop :=
  ∃ x, T.get? f.site = some x ∧ Tiles layout T (T.inherited f) f.inside x.frame

/-- From `t` to `t'` the items get their room, and the cursor goes from `a` to `b`. What is said of
the layout is said of the table that lowering ends with. -/
structure Lays (t₀ : Table) (layout : NestedFrames) (items : List Item) (t : Table) (a : Nat)
    (t' : Table) (b : Nat) : Prop where
  bytes : t₀.Spares Symbol.bytes (slotsAll items) t t'
  frame : t₀.Spares (·.frame) (ownersAll items) t t'
  tiles : ∀ ⦃T⦄, t₀.Final (slotsAll items) (ownersAll items) t' T → Tiles layout T a items b
  frames : ∀ ⦃T closed⦄, t₀.Final (slotsAll items) (closed ++ ownersAll items) t' T →
    (closed ++ ownersAll items).Nodup → t₀.Unclosed closed t →
    ∀ f ∈ framesAll closed items, f.LaidOut layout T

section Lays

variable {t₀ t t' t'' T : Table} {layout : NestedFrames} {items items' : List Item} {a b c : Nat}
  {slots slots' owners owners' : List Site}

theorem Table.Final.mono (h : t₀.Final slots owners t T) (hs : ∀ s ∈ slots', s ∈ slots)
    (ho : ∀ s ∈ owners', s ∈ owners) : t₀.Final slots' owners' t T :=
  ⟨h.outline, h.bytes.mono hs, h.frame.mono ho⟩

theorem Table.Final.before (h : t₀.Final slots owners t'' T) (k : Lays t₀ layout items t' a t'' b)
    (hs : ∀ s ∈ slots, s ∉ slotsAll items) (ho : ∀ s ∈ owners, s ∉ ownersAll items) :
    t₀.Final slots owners t' T :=
  ⟨h.outline, h.bytes.before k.bytes hs, h.frame.before k.frame ho⟩

theorem Tiles.append (h : Tiles layout T a items b) (k : Tiles layout T b items' c) :
    Tiles layout T a (items ++ items') c := by
  induction items generalizing a with
  | nil =>
    cases h
    exact k
  | cons i rest ih =>
    cases i with
    | slot s =>
      obtain ⟨x, hx, ho, h⟩ := h
      exact ⟨x, hx, ho, ih h⟩
    | frame =>
      obtain ⟨x, hx, h⟩ := h
      exact ⟨x, hx, ih h⟩

namespace Lays

theorem nil (hb : ∀ id, t'.fact Symbol.bytes id = t.fact Symbol.bytes id)
    (hf : ∀ id, t'.fact (·.frame) id = t.fact (·.frame) id) : Lays t₀ layout [] t a t' a where
  bytes id _ := hb id
  frame id _ := hf id
  tiles _ _ := rfl
  frames := nofun

theorem append (h : Lays t₀ layout items t a t' b) (k : Lays t₀ layout items' t' b t'' c)
    (hn : (sitesAll (items ++ items')).Nodup) : Lays t₀ layout (items ++ items') t a t'' c := by
  rw [sitesAll_append, List.nodup_append] at hn
  obtain ⟨_, _, hd⟩ := hn
  have hslots : ∀ s ∈ slotsAll items, s ∉ slotsAll items' := fun s hs hs' =>
    hd s (mem_sitesAll_of_slots hs) s (mem_sitesAll_of_slots hs') rfl
  have howners : ∀ s ∈ ownersAll items, s ∉ ownersAll items' := fun s hs hs' =>
    hd s (mem_sitesAll_of_owners hs) s (mem_sitesAll_of_owners hs') rfl
  refine ⟨?_, ?_, fun T hT => ?_, fun T closed hT hc hu => ?_⟩
  · rw [slotsAll_append]
    exact h.bytes.trans k.bytes
  · rw [ownersAll_append]
    exact h.frame.trans k.frame
  · refine (h.tiles ?_).append (k.tiles (hT.mono ?_ ?_))
    · exact (hT.mono (by simp +contextual) (by simp +contextual)).before k hslots howners
    · simp +contextual
    · simp +contextual
  · rw [ownersAll_append, ← List.append_assoc] at hc hT
    have hclosed : ∀ s ∈ closed ++ ownersAll items, s ∉ ownersAll items' := fun s hs hs' =>
      (List.nodup_append.1 hc).2.2 s hs s hs' rfl
    rw [framesAll_append]
    intro f hf
    obtain hf | hf := List.mem_append.1 hf
    · refine h.frames ?_ (List.nodup_append.1 hc).1 hu f hf
      exact (hT.mono (by simp +contextual) fun s hs => List.mem_append_left _ hs).before k hslots hclosed
    · refine k.frames (hT.mono (by simp +contextual) fun _ h => h) hc ?_ f hf
      intro id hid n hfact
      refine hu id (fun s hs => hid s (List.mem_append_left _ hs)) n ?_
      rwa [h.frame id fun s hs => hid s (List.mem_append_right _ hs)] at hfact

theorem slot {s : Site} {id : SymbolId} {x : Symbol} {g : Symbol → Symbol} {size : Nat}
    (hs : t₀.find? s = some id) (hx : t.symbol id = .ok x) (hb : (g x).bytes = (some a, size))
    (hf : ∀ x, (g x).frame = x.frame) :
    Lays t₀ layout [.slot s] t a (t.modifySymbol id g) (a + size) where
  bytes id' hid := Table.fact_modifySymbol_ne fun h =>
    hid s (by simp [slotsAll, Item.slots]) (h ▸ hs)
  frame id' _ := Table.fact_modifySymbol hf id'
  tiles T hT := by
    have hT' := hT.bytes s (by simp [slotsAll, Item.slots]) id hs
    rw [Table.fact_modifySymbol_self hx, hb] at hT'
    obtain ⟨y, hy, hyb⟩ := Table.fact_eq_some.1 hT'
    obtain ⟨ho, rfl⟩ := Prod.mk.inj hyb
    exact ⟨y, Table.get?_eq_some.2 ⟨id, Table.find?_congr hT.outline s ▸ hs, hy⟩, ho, rfl⟩
  frames := by
    intro T closed _ _ _ f hf
    simp [framesAll, Item.frames] at hf

theorem ended {s : Site} {id : SymbolId} {x : Symbol} {g : Symbol → Symbol} {scope : Position}
    {parent : Option String} (h : Lays t₀ layout items t b t' c) (hs : t₀.find? s = some id)
    (hx : t'.symbol id = .ok x) (hb : ∀ x, (g x).bytes = x.bytes) (hf : (g x).frame = c)
    (hbase : ∀ ⦃T closed⦄, T.outline = t₀.outline → t₀.Settles (·.frame) closed t T →
      t₀.Unclosed closed t → T.inherited ⟨s, parent, items, closed⟩ = b) :
    Lays t₀ layout [.frame s scope parent items] t a (t'.modifySymbol id g) (layout.resume a c) := by
  have hslots : slotsAll [.frame s scope parent items] = slotsAll items := by
    simp [slotsAll, Item.slots]
  have howners : ownersAll [.frame s scope parent items] = ownersAll items ++ [s] := by
    simp [ownersAll, Item.owners]
  -- recording the size touches the frame of this one symbol, which is among those given up
  have hframe : t₀.Spares (·.frame) (ownersAll items ++ [s]) t (t'.modifySymbol id g) := by
    refine h.frame.trans fun id' hid => Table.fact_modifySymbol_ne ?_
    rintro rfl
    exact hid s (by simp) hs
  have hlast {T : Table} {slots owners : List Site} (hm : s ∈ owners)
      (hT : t₀.Final slots owners (t'.modifySymbol id g) T) :
      ∃ y, T.get? s = some y ∧ y.frame = c := by
    have hT' := hT.frame s hm id hs
    rw [Table.fact_modifySymbol_self hx, hf] at hT'
    obtain ⟨y, hy, hyf⟩ := Table.fact_eq_some.1 hT'
    exact ⟨y, Table.get?_eq_some.2 ⟨id, Table.find?_congr hT.outline s ▸ hs, hy⟩, hyf⟩
  -- What has settled at last has settled before the size of the frame was recorded.
  have hbefore {T : Table} {owners : List Site}
      (hT : t₀.Final (slotsAll items) owners (t'.modifySymbol id g) T) (hm : s ∉ owners) :
      t₀.Final (slotsAll items) owners t' T := by
    refine ⟨hT.outline, fun s' hs' id' hid => ?_, fun s' hs' id' hid => ?_⟩
    · rw [hT.bytes s' hs' id' hid, Table.fact_modifySymbol hb]
    · rw [hT.frame s' hs' id' hid, Table.fact_modifySymbol_ne]
      rintro rfl
      exact hm (Table.find?_inj hs hid ▸ hs')
  refine ⟨?_, ?_, fun T hT => ?_, fun T closed hT hc hu => ?_⟩
  · intro id' hid
    rw [hslots] at hid
    rw [Table.fact_modifySymbol hb]
    exact h.bytes id' hid
  · rw [howners]
    exact hframe
  · rw [hslots, howners] at hT
    obtain ⟨y, hy, rfl⟩ := hlast (by simp) hT
    exact ⟨y, hy, rfl⟩
  · rw [hslots, howners] at hT
    rw [howners, ← List.append_assoc] at hc
    obtain ⟨hc', _, hd⟩ := List.nodup_append.1 hc
    have hm : s ∉ closed ++ ownersAll items := fun hm => hd s hm s (by simp) rfl
    have hin : t₀.Final (slotsAll items) (closed ++ ownersAll items) t' T :=
      hbefore (hT.mono (fun _ h => h) fun s' hs' => by
        rw [← List.append_assoc]
        exact List.mem_append_left _ hs') hm
    have hall : framesAll closed [.frame s scope parent items] =
        ⟨s, parent, items, closed⟩ :: framesAll closed items := by
      simp [framesAll, Item.frames]
    rw [hall]
    intro f hf
    obtain rfl | hf := List.mem_cons.1 hf
    · obtain ⟨y, hy, rfl⟩ := hlast (by simp) hT
      refine ⟨y, hy, ?_⟩
      rw [hbase hT.outline ?_ hu]
      · exact h.tiles (hin.mono (fun _ h => h) fun _ => List.mem_append_right _)
      · refine (hin.frame.mono fun _ => List.mem_append_left _).before h.frame fun s' hs' hs'' => ?_
        exact (List.nodup_append.1 hc').2.2 s' hs' s' hs'' rfl
    · exact h.frames hin hc' hu f hf

end Lays

end Lays

end ThreeAddress
