namespace Stencil.Yaml

/-! Classes of characters. -/

/-- The mark around a text without escapes. -/
def apostrophe : Char := Char.ofNat 39

def isBreak (character : Char) : Bool :=
  character = '\n' || character = '\r' || character = '\u0085' || character = '\u2028'
    || character = '\u2029'

def isSpace (character : Char) : Bool := character = ' ' || character = '\t'

def isBlank (character : Char) : Bool := isSpace character || isBreak character

/-- The end of the text counts as blank. -/
def isBlankOrEnd (character : Option Char) : Bool := character.all isBlank

/-- The marks of flow style, which end a plain text there. -/
def isFlowMark (character : Char) : Bool := ",[]\x7b\x7d".toList.contains character

/-- The marks that start no plain text. -/
def isMark (character : Char) : Bool :=
  "#,[]\x7b\x7d&*!|>'\"%@\x60".toList.contains character

/-- The characters of anchors, of handles and of the names of directives. -/
def isNameCharacter (character : Char) : Bool :=
  character.isAlphanum || character = '-' || character = '_'

/-- The characters of a tag that need no escape, apart from the flow marks. -/
def isUriCharacter (character : Char) : Bool :=
  isNameCharacter character || ";/?:@&=+$.!~*'()".toList.contains character

/-- The characters that a text may hold at all. -/
def isPermitted (character : Char) : Bool :=
  let code := character.toNat
  code == 0x09 || code == 0x0A || code == 0x0D || (0x20 ≤ code && code ≤ 0x7E) || code == 0x85
    || (0xA0 ≤ code && code ≤ 0xFFFD) || 0x10000 ≤ code

/-- The characters that are written as they are. A byte order mark is not. -/
def isPrintable (character : Char) : Bool :=
  let code := character.toNat
  code == 0x0A || (0x20 ≤ code && code ≤ 0x7E)
    || (0xA0 ≤ code && code ≤ 0xFFFD && code != 0xFEFF) || 0x10000 ≤ code

end Stencil.Yaml
