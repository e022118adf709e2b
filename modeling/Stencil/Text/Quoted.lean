namespace Stencil.Text

/-! Text literals of JSON. The quote, the backslash and the controls below the
space are escaped, and nothing else. -/

private def lowerDigit (value : Nat) : Char :=
  if value < 10 then Char.ofNat (48 + value) else Char.ofNat (87 + value)

/-- What is written for a character inside a literal. -/
def quotedCharacter (character : Char) : List Char :=
  match character with
  | '"' => ['\\', '"']
  | '\\' => ['\\', '\\']
  | '\x08' => ['\\', 'b']
  | '\x0c' => ['\\', 'f']
  | '\n' => ['\\', 'n']
  | '\r' => ['\\', 'r']
  | '\t' => ['\\', 't']
  | _ =>
      let code := character.toNat
      if code < 0x20 then
        ['\\', 'u', '0', '0', lowerDigit (code / 16), lowerDigit (code % 16)]
      else [character]

def quoted (text : String) : String :=
  .ofList ('"' :: text.toList.flatMap quotedCharacter ++ ['"'])

end Stencil.Text
