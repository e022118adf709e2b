import Stencil.Text.Blank

namespace Stencil.Text

/-! An embedded expression is a text between double parentheses that take up
the whole of it. The white space inside the parentheses is not part of the
source. -/

def closing? (reversed : List Char) : Option (List Char) :=
  match reversed with
  | ')' :: ')' :: rest => some rest.reverse
  | _ => none

/-- The source of the expression that a text embeds. -/
def embedded? (text : String) : Option String :=
  match text.toList with
  | '(' :: '(' :: rest =>
      (closing? rest.reverse).map fun source => .ofList (trimEnd (trimStart source))
  | _ => none

example : embedded? "(( a || \"))\" ))" = some "a || \"))\"" := by rfl
example : embedded? "(())" = some "" := by rfl
example : embedded? "(()" = none := by rfl
example : embedded? "((a)) " = none := by rfl

end Stencil.Text
