namespace ThreeAddress

def rowRest (a : Char) : (left : Nat) → List Char → (above : List Nat) → List Nat
  | left, b :: bs, diagonal :: up :: above =>
    let here := min (min (up + 1) (left + 1)) (diagonal + if a = b then 0 else 1)
    here :: rowRest a here bs (up :: above)
  | _, _, _ => []

def nextRow (bs : List Char) (above : List Nat) (a : Char) : List Nat :=
  match above with
  | [] => []
  | first :: _ => (first + 1) :: rowRest a (first + 1) bs above

def lastRow (as bs : List Char) : List Nat :=
  as.foldl (nextRow bs) (List.range (bs.length + 1))

def editDistance (a b : String) : Nat := (lastRow a.toList b.toList).getLastD 0

/-- At most three of the known names other than `name`, near ones only and nearest first; names at
one distance stay in their order. -/
def suggestions (name : String) (known : List String) : List String :=
  let others := known.filter (· != name)
  let near := [0, 1, 2].flatMap fun d => others.filter (editDistance name · == d)
  near.take 3

end ThreeAddress
