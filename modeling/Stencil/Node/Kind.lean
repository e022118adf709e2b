namespace Stencil

/-! The kinds of values, and their names in messages. -/

inductive Kind where
  | null
  | boolean
  | integer
  | decimal
  | text
  | list
  | map
  | expression
  | lambda
deriving DecidableEq, Repr

def Kind.name : Kind → String
  | .null => "nil"
  | .boolean => "bool"
  | .integer => "int"
  | .decimal => "float"
  | .text => "string"
  | .list => "list"
  | .map => "map"
  | .expression => "expression"
  | .lambda => "lambda"

end Stencil
