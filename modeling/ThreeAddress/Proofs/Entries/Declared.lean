import ThreeAddress.Proofs.Frames.Collected

namespace ThreeAddress

/-- A function, a method or a class, with the key of the scope of its members. -/
structure Entry where
  site : Site
  owner : Option String
  scope : Position
  deriving DecidableEq

/-- A method stands under its class. -/
def Entry.label (e : Entry) : String :=
  match e.owner with
  | none => e.site.name
  | some owner => s!"{owner}.{e.site.name}"

theorem Entry.name_eq_of_label_eq {e e' : Entry} (ho : e.owner = e'.owner)
    (hl : e.label = e'.label) : e.site.name = e'.site.name := by
  obtain ⟨⟨_, name⟩, owner, _⟩ := e
  obtain ⟨⟨_, name'⟩, owner', _⟩ := e'
  cases ho
  cases owner with
  | none => exact hl
  | some owner => simpa [label, toString] using hl

mutual

/-- The functions and classes of a statement in the scope with the given key, each in front of those
inside of it. -/
def Stmt.entries (key : Position) : Stmt → List Entry
  | .block b => b.entries
  | .ite _ yes no _ =>
    yes.entries ++ match no with
      | none => []
      | some no => no.entries
  | .while _ body _ | .doWhile body _ _ | .foreach _ _ body _ => body.entries
  | .for first _ _ body _ =>
    let first := match first with
      | none => []
      | some s => s.entries body.span.toPosition
    first ++ body.entries
  | .switch _ cases default _ =>
    entriesCases key cases ++ match default with
      | none => []
      | some body => entriesAll key body
  | .tryCatch body _ handler _ => body.entries ++ handler.entries
  | .function f => f.entries none key
  | .class c => c.entries key
  | .declare _ | .assign .. | .print .. | .eval .. | .break _ | .continue _ | .return .. => []

def entriesAll (key : Position) : List Stmt → List Entry
  | [] => []
  | s :: rest => s.entries key ++ entriesAll key rest

def Block.entries : Block → List Entry
  | ⟨body, span⟩ => entriesAll span.toPosition body

def entriesCases (key : Position) : List Case → List Entry
  | [] => []
  | ⟨_, body, _⟩ :: rest => entriesAll key body ++ entriesCases key rest

def Function.entries (owner : Option String) (key : Position) : Function → List Entry
  | ⟨name, _, _, body, _⟩ => ⟨⟨key, name⟩, owner, body.span.toPosition⟩ :: body.entries

def entriesMembers (owner : String) (key : Position) : List Member → List Entry
  | [] => []
  | .field _ :: rest => entriesMembers owner key rest
  | .method f :: rest => f.entries (some owner) key ++ entriesMembers owner key rest

def Class.entries (key : Position) : Class → List Entry
  | ⟨name, _, members, span⟩ =>
    ⟨⟨key, name⟩, none, span.toPosition⟩ :: entriesMembers name span.toPosition members

end

def Program.entries (p : Program) : List Entry := entriesAll .origin p.statements

theorem Block.entries_eq (b : Block) : b.entries = entriesAll b.span.toPosition b.body := by
  cases b
  rw [entries]

theorem entriesCases_cons (key : Position) (k : Case) (rest : List Case) :
    entriesCases key (k :: rest) = entriesAll key k.body ++ entriesCases key rest := by
  cases k
  rw [entriesCases]

theorem Function.entries_eq (f : Function) (owner : Option String) (key : Position) :
    f.entries owner key = ⟨⟨key, f.name⟩, owner, f.body.span.toPosition⟩ ::
      entriesAll f.body.span.toPosition f.body.body := by
  cases f
  rw [entries, Block.entries_eq]

theorem Class.entries_eq (c : Class) (key : Position) :
    c.entries key = ⟨⟨key, c.name⟩, none, c.span.toPosition⟩ ::
      entriesMembers c.name c.span.toPosition c.members := by
  cases c
  rw [entries]

section Steps

variable {key : Position}

theorem entriesAll_eq_nil {body : List Stmt}
    (h : ∀ s ∈ body, ∀ key, s.items key = [] → s.entries key = []) (hi : itemsAll key body = []) :
    entriesAll key body = [] := by
  induction body with
  | nil => rw [entriesAll]
  | cons s rest ih =>
    rw [itemsAll, List.append_eq_nil_iff] at hi
    rw [entriesAll, h s (by simp) key hi.1, ih (fun s hs => h s (by simp [hs])) hi.2, List.nil_append]

theorem Block.entries_eq_nil {b : Block}
    (h : ∀ s ∈ b.body, ∀ key, s.items key = [] → s.entries key = []) (hi : b.items = []) :
    b.entries = [] := by
  rw [items_eq] at hi
  rw [entries_eq, entriesAll_eq_nil h hi]

theorem entriesCases_eq_nil {cases : List Case}
    (h : ∀ k ∈ cases, ∀ s ∈ k.body, ∀ key, s.items key = [] → s.entries key = [])
    (hi : itemsCases key cases = []) : entriesCases key cases = [] := by
  induction cases with
  | nil => rw [entriesCases]
  | cons k rest ih =>
    obtain ⟨value, body, span⟩ := k
    rw [itemsCases, List.append_eq_nil_iff] at hi
    rw [entriesCases, entriesAll_eq_nil (h ⟨value, body, span⟩ (by simp)) hi.1,
      ih (fun k hk => h k (by simp [hk])) hi.2, List.nil_append]

theorem Stmt.entries_eq_nil {s : Stmt} (h : s.items key = []) : s.entries key = [] := by
  induction s generalizing key with
  | declare | assign | print | eval | ret | exit | next => rw [Stmt.entries]
  | foreach | tryCatch | function | classDef => simp [Stmt.items] at h
  | block b ih | loop c b span ih | doWhile b c span ih =>
    rw [Stmt.items] at h
    rw [Stmt.entries, Block.entries_eq_nil (fun s hs _ => ih s hs) h]
  | ite c yes no span ihy ihn =>
    cases no with
    | none =>
      rw [Stmt.items, List.append_nil] at h
      rw [Stmt.entries, Block.entries_eq_nil (fun s hs _ => ihy s hs) h, List.append_nil]
    | some no =>
      rw [Stmt.items, List.append_eq_nil_iff] at h
      rw [Stmt.entries, Block.entries_eq_nil (fun s hs _ => ihy s hs) h.1,
        Block.entries_eq_nil (fun s hs _ => ihn no rfl s hs) h.2, List.append_nil]
  | forLoop first test step body span ihf _ ih =>
    cases first with
    | none =>
      rw [Stmt.items, List.nil_append] at h
      rw [Stmt.entries, Block.entries_eq_nil (fun s hs _ => ih s hs) h, List.append_nil]
    | some s =>
      rw [Stmt.items, List.append_eq_nil_iff] at h
      rw [Stmt.entries, ihf s rfl h.1, Block.entries_eq_nil (fun s hs _ => ih s hs) h.2,
        List.append_nil]
  | switch subject cases default span ihc ihd =>
    cases default with
    | none =>
      rw [Stmt.items, List.append_nil] at h
      rw [Stmt.entries, entriesCases_eq_nil (fun k hk s hs _ => ihc k hk s hs) h, List.append_nil]
    | some body =>
      rw [Stmt.items, List.append_eq_nil_iff] at h
      rw [Stmt.entries, entriesCases_eq_nil (fun k hk s hs _ => ihc k hk s hs) h.1,
        entriesAll_eq_nil (fun s hs _ => ihd body rfl s hs) h.2, List.append_nil]

end Steps

end ThreeAddress
