import Stencil.Expression.Basic

namespace Stencil

/-! The text of an expression. No parentheses are added: those that were written are
part of the expression, as groups. -/

namespace Operator

def symbol : Operator → String
  | .add => "+"
  | .subtract => "-"
  | .multiply => "*"
  | .divide => "/"
  | .modulo => "%"
  | .equal => "=="
  | .notEqual => "!="
  | .less => "<"
  | .lessOrEqual => "<="
  | .greater => ">"
  | .greaterOrEqual => ">="
  | .and => "-and"
  | .or => "-or"
  | .concatenation => ""
  | .fallback => "||"

end Operator

/-! The inside of a text literal. Only the characters that would end the
literal, start an escape or break the line are escaped. -/

def escapeCharacter (character : Char) : List Char :=
  match character with
  | '"' => ['\\', '"']
  | '\\' => ['\\', '\\']
  | '\n' => ['\\', 'n']
  | '\t' => ['\\', 't']
  | '\r' => ['\\', 'r']
  | _ => [character]

def escape (text : String) : String :=
  .ofList (text.toList.flatMap escapeCharacter)

/-! The written form of an expression. Grouping is part of the tree, so the
printer adds no parentheses of its own. -/

namespace Expression

/-- A path with a dot between its steps. -/
def pathText (path : List String) : String :=
  ".".intercalate path

def parametersText (parameters : List String) : String :=
  ",".intercalate parameters

mutual
def print : Expression → String
  | .nil => "nil"
  | .boolean value => if value then "true" else "false"
  | .integer value => toString value.toInt
  | .text value => "\"" ++ escape value ++ "\""
  | .list entries => "[" ++ printSeparated entries ++ "]"
  | .reference path => pathText path
  | .merge path redirected replacing =>
      "merge" ++ (if replacing then " replace" else "")
        ++ (if redirected then " " ++ pathText path else "")
  | .auto _ => "auto"
  | .group inner => "(" ++ inner.print ++ ")"
  | .binary .concatenation left right => left.print ++ " " ++ right.print
  | .binary operator left right =>
      left.print ++ " " ++ operator.symbol ++ " " ++ right.print
  | .not operand => "!" ++ operand.print
  | .conditional condition consequence alternative =>
      condition.print ++ " ? " ++ consequence.print ++ " : " ++ alternative.print
  | .call function arguments =>
      function.print ++ "(" ++ printSeparated arguments ++ ")"
  | .lambda parameters body =>
      "lambda |" ++ parametersText parameters ++ "|->" ++ body.print
  | .mapping collection (.lambda parameters body) =>
      "map[" ++ collection.print ++ "|" ++ parametersText parameters ++ "|->"
        ++ body.print ++ "]"
  | .mapping collection function =>
      "map[" ++ collection.print ++ "|" ++ function.print ++ "]"
  | .prefer inner => "prefer " ++ inner.print

def printSeparated : List Expression → String
  | [] => ""
  | [entry] => entry.print
  | entry :: entries => entry.print ++ ", " ++ printSeparated entries
end

/-- The expression as it stands in a document, between its double parentheses. -/
def printEmbedded (expression : Expression) : String :=
  "(( " ++ expression.print ++ " ))"

end Expression

end Stencil
