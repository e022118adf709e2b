import Stencil.Yaml.Gap

namespace Stencil.Yaml

/-! Texts in quotes. In single quotes an apostrophe is written twice; in double
quotes a backslash starts an escape, and in front of a line end it takes the line
end away. -/

def hexadecimalDigit? (character : Char) : Option Nat :=
  if character.isDigit then some (character.toNat - 48)
  else if 'a' ≤ character ∧ character ≤ 'f' then some (character.toNat - 87)
  else if 'A' ≤ character ∧ character ≤ 'F' then some (character.toNat - 55)
  else none

def hexadecimalValue? (digits : List Char) : Option Nat :=
  digits.foldlM (fun value digit => (hexadecimalDigit? digit).map (16 * value + ·)) 0

/-- The character that a letter behind a backslash stands for. -/
def namedEscape? : Char → Option Char
  | '0' => some '\x00'
  | 'a' => some '\x07'
  | 'b' => some '\x08'
  | 't' => some '\t'
  | '\t' => some '\t'
  | 'n' => some '\n'
  | 'v' => some '\x0b'
  | 'f' => some '\x0c'
  | 'r' => some '\r'
  | 'e' => some '\x1b'
  | ' ' => some ' '
  | '"' => some '"'
  | '/' => some '/'
  | '\\' => some '\\'
  | 'N' => some '\u0085'
  | '_' => some '\u00a0'
  | 'L' => some '\u2028'
  | 'P' => some '\u2029'
  | _ => none

/-- How many digits a numbered escape has. -/
def escapeWidth? : Char → Option Nat
  | 'x' => some 2
  | 'u' => some 4
  | 'U' => some 8
  | _ => none

/-- The character that the escape at a backslash stands for. -/
def readEscape (start cursor : Cursor) : Except Fault (Char × Cursor) :=
  let behind := cursor.advance.advance
  match cursor.peekSecond.bind namedEscape?, cursor.peekSecond.bind escapeWidth? with
  | some character, _ => .ok (character, behind)
  | none, none => cursor.fails .unknownEscape .escape start
  | none, some width =>
      let digits := behind.rest.take width
      match hexadecimalValue? digits with
      | none => behind.fails .expectedHexadecimal .escape start
      | some code =>
          if digits.length < width then behind.fails .expectedHexadecimal .escape start
          else if code.isValidChar then .ok (Char.ofNat code, behind.advanceBy width)
          else behind.fails .invalidCharacter .escape start

/-- A text goes on here, with what is read so far, the last character first. -/
def readQuotedRest (double : Bool) (start : Cursor) :
    Nat → List Char → Cursor → Except Fault (String × Cursor)
  | 0, _, cursor => cursor.fails .unclosedText .quotedText start
  | fuel + 1, written, cursor =>
      let quote := if double then '"' else apostrophe
      if cursor.atDocumentMark then cursor.fails .documentMarkInText .quotedText start
      else
        match cursor.peek with
        | none => cursor.fails .unclosedText .quotedText start
        | some character =>
            if character = quote then
              if !double && cursor.peekSecond = some quote then
                readQuotedRest double start fuel (quote :: written) cursor.advance.advance
              else .ok (.ofList written.reverse, cursor.advance)
            else if isBlank character then
              let (gap, behind) := Gap.read 0 cursor
              readQuotedRest double start fuel (gap.characters ++ written) behind
            else if double && character = '\\' then
              if cursor.peekSecond.any isBreak then
                let (gap, behind) := Gap.read 0 cursor.advance.advance { broken := true }
                readQuotedRest double start fuel (gap.characters ++ written) behind
              else do
                let (escaped, behind) ← readEscape start cursor
                readQuotedRest double start fuel (escaped :: written) behind
            else
              let (word, behind) := cursor.takeWhile fun other =>
                !isBlank other && other != quote && !(double && other = '\\')
              readQuotedRest double start fuel (word ++ written) behind

/-- The text whose opening quote stands at the cursor. -/
def readQuoted (double : Bool) (cursor : Cursor) : Except Fault (String × Cursor) :=
  readQuotedRest double cursor (cursor.size + 1) [] cursor.advance

end Stencil.Yaml
