namespace ThreeAddress

structure Position where
  line : Nat
  col : Nat
  deriving DecidableEq

/-- No node stands here: the global code is known by this position. -/
def Position.origin : Position := ⟨0, 0⟩

structure Span extends Position where
  start : Nat
  stop : Nat
  deriving DecidableEq

/-- The span of a node that was never written down. -/
def Span.unplaced : Span := ⟨.origin, 0, 0⟩

def Span.atLine (line : Nat) : Span := ⟨⟨line, 1⟩, 0, 0⟩

def Position.render (p : Position) : String := s!"{p.line}:{p.col}"

/-- The span that a report names: `s`, or `whole` where `s` was never placed. -/
def Span.orElse (s whole : Span) : Span := if s.line = 0 then whole else s

end ThreeAddress
