import Stencil.Yaml.Character
import Stencil.Yaml.Plain

namespace Stencil.Yaml

/-! How a text is written: without quotes, in single quotes, in double quotes with
escapes, or line by line below a bar. -/

inductive Style where
  | plain
  | single
  | double
  | block
deriving DecidableEq, Repr

/-- A character that the first condition holds of, with one behind it that the second
one holds of. -/
def hasPair (first second : Char → Bool) : List Char → Bool
  | left :: right :: rest => (first left && second right) || hasPair first second (right :: rest)
  | _ => false

def isGap (character : Char) : Bool := character = ' ' || isBreak character

/-- The characters would end a plain text, or not start one. -/
def startsWithMark (characters : List Char) : Bool :=
  "---".toList.isPrefixOf characters || "...".toList.isPrefixOf characters
    || (match characters with
      | [] => false
      | character :: rest =>
          isMark character || ("?:-".toList.contains character && isBlankOrEnd rest.head?))

def hasMarkInside (characters : List Char) : Bool :=
  hasPair (· = ':') isBlank characters || characters.getLast? = some ':'
    || hasPair isBlank (· = '#') characters

/-- No escape is needed: every character can be written, and no space is lost in front
of a line end. -/
def needsNoEscape (characters : List Char) : Bool :=
  characters.all isPrintable && !hasPair (· = ' ') isBreak characters

def fitsSingle (characters : List Char) : Bool :=
  needsNoEscape characters && !hasPair isBreak (· = ' ') characters

def fitsPlain (characters : List Char) : Bool :=
  fitsSingle characters && !characters.any isBreak && !characters.head?.any isGap
    && !characters.getLast?.any isGap && !startsWithMark characters && !hasMarkInside characters

def fitsBlock (characters : List Char) : Bool :=
  needsNoEscape characters && characters.getLast? ≠ some ' '

/-- Texts with a line feed are written line by line if they can be, and ambiguous
ones in quotes. -/
def Style.ofText (content : String) : Style :=
  let characters := content.toList
  if characters.contains '\n' then if fitsBlock characters then .block else .double
  else if fitsPlain characters && !isAmbiguous content then .plain
  else if fitsSingle characters then .single
  else .double

/-! Escapes. -/

def hexadecimalText (width code : Nat) : String :=
  let digits := (Nat.toDigits 16 code).map Char.toUpper
  .ofList (List.replicate (width - digits.length) '0' ++ digits)

def escaped (character : Char) : String :=
  match character with
  | '"' => "\\\""
  | '\\' => "\\\\"
  | '\x00' => "\\0"
  | '\x07' => "\\a"
  | '\x08' => "\\b"
  | '\t' => "\\t"
  | '\n' => "\\n"
  | '\x0b' => "\\v"
  | '\x0c' => "\\f"
  | '\r' => "\\r"
  | '\x1b' => "\\e"
  | '\u0085' => "\\N"
  | '\u2028' => "\\L"
  | '\u2029' => "\\P"
  | _ =>
      let code := character.toNat
      if isPrintable character then character.toString
      else if code ≤ 0xFF then "\\x" ++ hexadecimalText 2 code
      else if code ≤ 0xFFFF then "\\u" ++ hexadecimalText 4 code
      else "\\U" ++ hexadecimalText 8 code

def doubleQuoted (content : String) : String :=
  "\"" ++ String.join (content.toList.map escaped) ++ "\""

example : Style.ofText "a: b" = .single ∧ Style.ofText "a:b" = .plain := by decide +kernel

end Stencil.Yaml
