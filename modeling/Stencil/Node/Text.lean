import Stencil.Expression.Print
import Stencil.Node.Basic
import Stencil.Number.Shortest

namespace Stencil

/-! The text of a scalar, as text functions see it. A lambda is its written
form; lists, maps and expressions have no text. -/

def lambdaText (parameters : List String) (body : Expression) : String :=
  (Expression.lambda parameters body).print

namespace Value

def text? : Value → Option String
  | .null => some ""
  | .boolean value => some (if value then "true" else "false")
  | .integer value => some (toString value.toInt)
  | .decimal value => some (value.text .plain)
  | .text value => some value
  | .lambda parameters body _ => some (lambdaText parameters body)
  | .list _ | .map _ | .expression _ => none

/-- Lists, maps and expressions are exactly the values without a text. -/
theorem text?_eq_none_iff {value : Value} :
    value.text? = none ↔ value.kind = .list ∨ value.kind = .map ∨ value.kind = .expression := by
  cases value <;> simp [text?, kind]

end Value

end Stencil
