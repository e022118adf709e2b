import Stencil.Yaml.Cursor

namespace Stencil.Yaml

/-! What stands between two words of a text. Spaces on one line stand for themselves.
One line end stands for a space, several for one less of themselves, and the spaces
around them for nothing. -/

structure Gap where
  /-- The spaces in front of the first line end, the last one first. -/
  spaces : List Char := []
  broken : Bool := false
  /-- The first line end, unless it is escaped. -/
  first : Option Char := none
  /-- The later line ends, the last one first. -/
  later : List Char := []

namespace Gap

/-- The characters that the gap stands for, the last one first. -/
def characters (gap : Gap) : List Char :=
  if !gap.broken then gap.spaces
  else
    match gap.first with
    | none => gap.later
    | some '\n' => if gap.later.isEmpty then [' '] else gap.later
    | some separator => gap.later ++ [separator]

/-- A tab is no indentation: it may not stand in the margin of a line. -/
def add? (margin : Nat) (gap : Gap) (place : Position) (character : Char) : Option Gap :=
  if isBreak character then
    if gap.broken then some { gap with later := character :: gap.later }
    else some { gap with broken := true, first := some character }
  else if !isSpace character then none
  else if !gap.broken then some { gap with spaces := character :: gap.spaces }
  else if character = '\t' && place.column ≤ margin then none
  else some gap

/-- The gap at the cursor. -/
def read (margin : Nat) (cursor : Cursor) (gap : Gap := {}) : Gap × Cursor :=
  cursor.follow (add? margin) gap

end Gap

end Stencil.Yaml
