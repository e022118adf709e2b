import Stencil.Expression.Token

namespace Stencil

/-! Why a source text is no expression. The rule names the part of the grammar
that was being read. -/

inductive Rule where
  | integer
  | text
  | token
  | expression
  | primary
  | conditional
  | call
  | list
  | grouping
  | reference
  | index
  | lambda
  | mapping
deriving DecidableEq, Repr

def Rule.name : Rule → String
  | .integer => "integer"
  | .text => "string"
  | .token => "token"
  | .expression => "expression"
  | .primary => "primary"
  | .conditional => "conditional"
  | .call => "call"
  | .list => "list"
  | .grouping => "grouping"
  | .reference => "reference"
  | .index => "index"
  | .lambda => "lambda"
  | .mapping => "map"

inductive ParseFault where
  | integerOutOfRange (digits : String)
  | unterminatedText
  | unterminatedEscape
  | unexpectedCharacter (character : Char)
  | unexpected (rule : Rule) (found : Token)
  | expected (rule : Rule) (wanted found : Token)
  | expectedKey (found : Token)
  | expectedKeyAfterDot
  | expectedIndex
  | expectedParameter (found : Token)
  | expectedSeparator (found : Token)
  | nestedTooDeeply
deriving DecidableEq, Repr

namespace ParseFault

def rule : ParseFault → Rule
  | .integerOutOfRange _ => .integer
  | .unterminatedText | .unterminatedEscape => .text
  | .unexpectedCharacter _ => .token
  | .unexpected rule _ => rule
  | .expected rule _ _ => rule
  | .expectedKey _ | .expectedKeyAfterDot => .reference
  | .expectedIndex => .index
  | .expectedParameter _ | .expectedSeparator _ => .lambda
  | .nestedTooDeeply => .expression

def message : ParseFault → String
  | .integerOutOfRange digits => "integer " ++ digits ++ " out of range"
  | .unterminatedText => "unterminated string literal"
  | .unterminatedEscape => "unterminated escape sequence"
  | .unexpectedCharacter character => "unexpected character '" ++ character.toString ++ "'"
  | .unexpected _ found => "unexpected " ++ found.label
  | .expected _ wanted found => "expected " ++ wanted.label ++ ", got " ++ found.label
  | .expectedKey found => "expected key, got " ++ found.label
  | .expectedKeyAfterDot => "expected key after '.'"
  | .expectedIndex => "expected list index"
  | .expectedParameter found => "expected parameter, got " ++ found.label
  | .expectedSeparator found => "expected ',' or '|', got " ++ found.label
  | .nestedTooDeeply => "nested too deeply"

end ParseFault

structure ParseError where
  fault : ParseFault
  position : Position
deriving DecidableEq, Repr

def ParseError.message (error : ParseError) : String :=
  error.fault.rule.name ++ ": " ++ error.fault.message ++ " (line "
    ++ toString error.position.line ++ ", column " ++ toString error.position.column ++ ")"

end Stencil
