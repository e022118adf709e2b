namespace Stencil

/-! Positions count lines and columns from one, in characters. -/

structure Position where
  line : Nat
  column : Nat
deriving DecidableEq, Repr

namespace Position

def start : Position := ⟨1, 1⟩

def next (position : Position) (character : Char) : Position :=
  if character = '\n' then ⟨position.line + 1, 1⟩
  else ⟨position.line, position.column + 1⟩

/-- The position just behind these characters. -/
def after (position : Position) (characters : List Char) : Position :=
  characters.foldl next position

end Position

end Stencil
