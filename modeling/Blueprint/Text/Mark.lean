/-!
Positions in a document.
-/

namespace Blueprint

/-- The number of characters before a position, its line from 1 and its column from 0. -/
structure Mark where
  index : Nat
  line : Nat
  column : Nat
deriving DecidableEq, Inhabited

/-- The position after a character. -/
def Mark.past (m : Mark) (c : Char) : Mark :=
  if c = '\n' then ⟨m.index + 1, m.line + 1, 0⟩ else ⟨m.index + 1, m.line, m.column + 1⟩

end Blueprint
