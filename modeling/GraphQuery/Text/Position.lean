/-!
Places in a text, counted in lines and characters from one.
-/

namespace GraphQuery.Text

structure Position where
  line : Nat
  column : Nat
  deriving DecidableEq

namespace Position

def start : Position := ⟨1, 1⟩

def after (position : Position) (c : Char) : Position :=
  if c = '\n' then ⟨position.line + 1, 1⟩ else ⟨position.line, position.column + 1⟩

end Position

/-- What stands in a text between two places. -/
structure Span where
  first : Position
  stop : Position
  deriving DecidableEq

end GraphQuery.Text
