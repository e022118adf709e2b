namespace Stencil.Text

/-! White space: the characters with the Unicode property of that name. -/

def isBlank (character : Char) : Bool :=
  let code := character.toNat
  (9 ≤ code && code ≤ 13) || code == 0x20 || code == 0x85 || code == 0xA0
    || code == 0x1680 || (0x2000 ≤ code && code ≤ 0x200A)
    || code == 0x2028 || code == 0x2029 || code == 0x202F || code == 0x205F
    || code == 0x3000

/-- Every character the core library counts as white space is blank. -/
theorem isBlank_of_isWhitespace {character : Char}
    (white : character.isWhitespace = true) : isBlank character = true := by
  simp only [Char.isWhitespace, Bool.or_eq_true, decide_eq_true_eq] at white
  rcases white with ((rfl | rfl) | rfl) | rfl <;> rfl

/-! Trimming drops the longest blank stretch at an end. -/

def trimStart (characters : List Char) : List Char :=
  characters.dropWhile isBlank

def trimEnd (characters : List Char) : List Char :=
  (characters.reverse.dropWhile isBlank).reverse

/-- The text without the white space at both of its ends. -/
def trim (text : String) : String :=
  .ofList (trimEnd (trimStart text.toList))

example : trim "\u00a0 a b\n" = "a b" := by rfl

end Stencil.Text
