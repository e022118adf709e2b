import Stencil.Node.Text
import Stencil.Text.Quoted

namespace Stencil

/-! A document written as JSON, on one line or with an indent of two spaces.
Expressions and lambdas are texts that embed their written form. A decimal that
is no finite number is null. -/

def embeddedText (source : String) : String := "(( " ++ source ++ " ))"

def Value.scalarJson : Value → String
  | .null => "null"
  | .boolean value => if value then "true" else "false"
  | .integer value => toString value.toInt
  | .decimal value => if value.isNaN || value.isInfinite then "null" else value.text .data
  | .text value => Text.quoted value
  | .expression source => Text.quoted source.printEmbedded
  | .lambda parameters body _ => Text.quoted (embeddedText (lambdaText parameters body))
  | .list _ => "[]"
  | .map _ => "\x7b\x7d"

mutual
def Value.json : Value → String
  | .list entries => "[" ++ entriesJson entries ++ "]"
  | .map fields => "\x7b" ++ fieldsJson fields ++ "\x7d"
  | value => value.scalarJson

def Node.json : Node → String
  | .mk value _ => value.json

def entriesJson : List Node → String
  | [] => ""
  | [entry] => entry.json
  | entry :: entries => entry.json ++ "," ++ entriesJson entries

def fieldsJson : List (String × Node) → String
  | [] => ""
  | [(key, field)] => Text.quoted key ++ ":" ++ field.json
  | (key, field) :: fields => Text.quoted key ++ ":" ++ field.json ++ "," ++ fieldsJson fields
end

private def indentation (depth : Nat) : String := .ofList (List.replicate (2 * depth) ' ')

mutual
/-- The text of a value whose lines are indented to a depth. -/
def Value.indentedJson (depth : Nat) : Value → String
  | .list (entry :: entries) =>
      "[\n" ++ entriesIndentedJson (depth + 1) (entry :: entries) ++ "\n" ++ indentation depth
        ++ "]"
  | .map (field :: fields) =>
      "\x7b\n" ++ fieldsIndentedJson (depth + 1) (field :: fields) ++ "\n" ++ indentation depth
        ++ "\x7d"
  | value => value.scalarJson

def Node.indentedJson (depth : Nat) : Node → String
  | .mk value _ => value.indentedJson depth

def entriesIndentedJson (depth : Nat) : List Node → String
  | [] => ""
  | [entry] => indentation depth ++ entry.indentedJson depth
  | entry :: entries =>
      indentation depth ++ entry.indentedJson depth ++ ",\n" ++ entriesIndentedJson depth entries

def fieldsIndentedJson (depth : Nat) : List (String × Node) → String
  | [] => ""
  | [(key, field)] =>
      indentation depth ++ Text.quoted key ++ ": " ++ field.indentedJson depth
  | (key, field) :: fields =>
      indentation depth ++ Text.quoted key ++ ": " ++ field.indentedJson depth ++ ",\n"
        ++ fieldsIndentedJson depth fields
end

def Node.prettyJson (node : Node) : String := node.indentedJson 0

end Stencil
