import Stencil.Text.Hidden

namespace Stencil.Text

/-! Text shown inside a message, between double quotes: quotes, backslashes and
the usual controls are escaped, hidden characters are written by number. -/

private def hexadecimalText (code : Nat) : String :=
  .ofList (Nat.toDigits 16 code)

def shownCharacter (character : Char) : String :=
  match character with
  | '"' => "\\\""
  | '\\' => "\\\\"
  | '\n' => "\\n"
  | '\r' => "\\r"
  | '\t' => "\\t"
  | '\x00' => "\\0"
  | _ =>
      if isHidden character then "\\u\x7b" ++ hexadecimalText character.toNat ++ "\x7d"
      else character.toString

/-- The text between double quotes, on one line. -/
def shown (text : String) : String :=
  "\"" ++ String.join (text.toList.map shownCharacter) ++ "\""

end Stencil.Text
