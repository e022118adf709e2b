import Stencil.Text.Position

namespace Stencil.Yaml

/-! What a text consists of. Block collections start and end where the indentation
says so, and a simple key is told by the colon behind it; so these tokens stand
for no characters. `finish` stands after the last token. -/

inductive Lexeme where
  | version (major minor : Nat)
  | handle (name initial : String)
  | documentStart
  | documentEnd
  | blockSequence
  | blockMapping
  | blockEnd
  | openSequence
  | closeSequence
  | openMapping
  | closeMapping
  | dash
  | comma
  | key
  | value
  | alias (name : String)
  | anchor (name : String)
  | tag (handle suffix : String)
  | scalar (plain : Bool) (content : String)
  | finish
deriving DecidableEq, Repr

structure Token where
  lexeme : Lexeme
  place : Position
deriving DecidableEq, Repr

end Stencil.Yaml
