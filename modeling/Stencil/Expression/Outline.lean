import Stencil.Expression.Basic
import Stencil.Text.Shown

namespace Stencil

/-! An outline shows the structure of a tree: a line for each part, indented below
the part it belongs to. -/

inductive Outline where
  | word (text : String)
  | group (name : String) (parts : List Outline)
  | record (name : String) (fields : List (String × Outline))
  | sequence (entries : List Outline)

namespace Outline

private def indentation (depth : Nat) : String := .ofList (List.replicate (4 * depth) ' ')

mutual
/-- The text of a part whose first line starts at a depth. -/
def textAt (depth : Nat) : Outline → String
  | .word text => text
  | .group name parts =>
      name ++ "(\n" ++ partsText (depth + 1) parts ++ indentation depth ++ ")"
  | .record name fields =>
      name ++ " \x7b\n" ++ fieldsText (depth + 1) fields ++ indentation depth ++ "\x7d"
  | .sequence [] => "[]"
  | .sequence (entry :: entries) =>
      "[\n" ++ partsText (depth + 1) (entry :: entries) ++ indentation depth ++ "]"

def partsText (depth : Nat) : List Outline → String
  | [] => ""
  | part :: parts =>
      indentation depth ++ part.textAt depth ++ ",\n" ++ partsText depth parts

def fieldsText (depth : Nat) : List (String × Outline) → String
  | [] => ""
  | (name, field) :: fields =>
      indentation depth ++ name ++ ": " ++ field.textAt depth ++ ",\n" ++ fieldsText depth fields
end

def text (outline : Outline) : String := outline.textAt 0

def ofText (text : String) : Outline := .word (Text.shown text)

def ofBool (value : Bool) : Outline := .word (if value then "true" else "false")

def ofPath (path : List String) : Outline := .sequence (path.map ofText)

end Outline

/-- The name of an operator in outlines. -/
def Operator.name : Operator → String
  | .add => "Add"
  | .subtract => "Subtract"
  | .multiply => "Multiply"
  | .divide => "Divide"
  | .modulo => "Modulo"
  | .equal => "Equal"
  | .notEqual => "NotEqual"
  | .less => "Less"
  | .lessOrEqual => "LessOrEqual"
  | .greater => "Greater"
  | .greaterOrEqual => "GreaterOrEqual"
  | .and => "And"
  | .or => "Or"
  | .concatenation => "Concatenation"
  | .fallback => "Fallback"

namespace Expression

mutual
def outline : Expression → Outline
  | .nil => .word "Nil"
  | .boolean value => .group "Boolean" [.ofBool value]
  | .integer value => .group "Integer" [.word (toString value.toInt)]
  | .text value => .group "String" [.ofText value]
  | .list entries => .group "List" [.sequence (outlines entries)]
  | .reference path => .group "Reference" [.ofPath path]
  | .merge path redirected replacing =>
      .group "Merge" [.record "MergeExpr"
        [("path", .ofPath path), ("redirect", .ofBool redirected),
          ("replace", .ofBool replacing)]]
  | .auto path => .group "Auto" [.ofPath path]
  | .group inner => .group "Grouped" [inner.outline]
  | .binary operator left right =>
      .group "Binary" [.word operator.name, left.outline, right.outline]
  | .not operand => .group "Not" [operand.outline]
  | .conditional condition consequence alternative =>
      .group "Conditional" [condition.outline, consequence.outline, alternative.outline]
  | .call function arguments =>
      .group "Call" [function.outline, .sequence (outlines arguments)]
  | .lambda parameters body =>
      .group "Lambda" [.record "LambdaExpr"
        [("params", .ofPath parameters), ("body", body.outline)]]
  | .mapping collection function => .group "Map" [collection.outline, function.outline]
  | .prefer inner => .group "Prefer" [inner.outline]

def outlines : List Expression → List Outline
  | [] => []
  | entry :: entries => entry.outline :: outlines entries
end

end Expression

end Stencil
