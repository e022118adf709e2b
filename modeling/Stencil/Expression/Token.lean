import Stencil.Text.Position
import Stencil.Text.Shown

namespace Stencil

/-! Tokens of the expression language. `finish` stands after the last one. -/

inductive Token where
  | integer (value : Int64)
  | text (value : String)
  | identifier (name : String)
  | dot
  | comma
  | leftParenthesis
  | rightParenthesis
  | leftBracket
  | rightBracket
  | plus
  | minus
  | star
  | slash
  | percent
  | equal
  | notEqual
  | less
  | lessOrEqual
  | greater
  | greaterOrEqual
  | bang
  | and
  | or
  | fallback
  | pipe
  | arrow
  | question
  | colon
  | finish
deriving DecidableEq, Repr

/-- That a token is no integer is seen at its kind, without a look at each of them. -/
instance (token : Token) : Decidable (∀ value, token = .integer value → False) :=
  match token with
  | .integer value => .isFalse fun other => other value rfl
  | .text _ | .identifier _ | .dot | .comma | .leftParenthesis | .rightParenthesis | .leftBracket
  | .rightBracket | .plus | .minus | .star | .slash | .percent | .equal | .notEqual | .less
  | .lessOrEqual | .greater | .greaterOrEqual | .bang | .and | .or | .fallback | .pipe | .arrow
  | .question | .colon | .finish => .isTrue nofun

/-- The name of a token in a message. -/
def Token.label : Token → String
  | .integer value => "Integer(" ++ toString value.toInt ++ ")"
  | .text value => "String(" ++ Text.shown value ++ ")"
  | .identifier name => "Identifier(" ++ Text.shown name ++ ")"
  | .dot => "Dot"
  | .comma => "Comma"
  | .leftParenthesis => "LParen"
  | .rightParenthesis => "RParen"
  | .leftBracket => "LBracket"
  | .rightBracket => "RBracket"
  | .plus => "Plus"
  | .minus => "Minus"
  | .star => "Star"
  | .slash => "Slash"
  | .percent => "Percent"
  | .equal => "EqualEqual"
  | .notEqual => "NotEqual"
  | .less => "Less"
  | .lessOrEqual => "LessEqual"
  | .greater => "Greater"
  | .greaterOrEqual => "GreaterEqual"
  | .bang => "Bang"
  | .and => "And"
  | .or => "Or"
  | .fallback => "Fallback"
  | .pipe => "Pipe"
  | .arrow => "Arrow"
  | .question => "Question"
  | .colon => "Colon"
  | .finish => "End"

/-- A token with its place in the source. `spaced` tells whether white space
stands directly before it. -/
structure Lexeme where
  token : Token
  position : Position
  spaced : Bool
deriving DecidableEq, Repr

end Stencil
