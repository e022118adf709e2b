import Stencil.Text.Lossy
import Stencil.Yaml.QuotedText
import Stencil.Yaml.Token

namespace Stencil.Yaml

/-! Anchors and tags of values, and the directives in front of a document. -/

/-- The anchor or the alias whose mark stands at the cursor. -/
def readName (part : Part) (start : Cursor) : Except Fault (String × Cursor) :=
  let (name, behind) := start.advance.takeWhile isNameCharacter
  if name.isEmpty || !(behind.atBlank || behind.peek.any "?:,]\x7d%@\x60".toList.contains) then
    behind.fails .expectedName part start
  else .ok (.ofList name.reverse, behind)

/-! Tags. A handle stands between two bangs or is a single bang; what follows it are
the characters of a URI, of which some are escaped byte by byte. -/

/-- How many bytes the character has that starts with this one. -/
def octetCount? (byte : Nat) : Option Nat :=
  if byte < 0x80 then some 1
  else if 0xC0 ≤ byte ∧ byte < 0xE0 then some 2
  else if 0xE0 ≤ byte ∧ byte < 0xF0 then some 3
  else if 0xF0 ≤ byte ∧ byte < 0xF8 then some 4
  else none

/-- The byte whose escape stands at the cursor. -/
def readOctet (part : Part) (start cursor : Cursor) : Except Fault Nat :=
  let digits := (cursor.rest.drop 1).take 2
  match hexadecimalValue? digits with
  | some byte =>
      if cursor.peek = some '%' && digits.length = 2 then .ok byte
      else cursor.fails .expectedOctet part start
  | none => cursor.fails .expectedOctet part start

def readOctets (part : Part) (start : Cursor) : Nat → Cursor → Except Fault (List Nat × Cursor)
  | 0, cursor => .ok ([], cursor)
  | count + 1, cursor => do
      let byte ← readOctet part start cursor
      if byte < 0x80 || 0xC0 ≤ byte then cursor.fails .trailingOctet part start
      else
        let (bytes, behind) ← readOctets part start count (cursor.advanceBy 3)
        return (byte :: bytes, behind)

/-- The character whose escapes start at the cursor. -/
def readUriEscape (part : Part) (start cursor : Cursor) : Except Fault (List Char × Cursor) := do
  let byte ← readOctet part start cursor
  match octetCount? byte with
  | none => cursor.fails .leadingOctet part start
  | some count =>
      let (bytes, behind) ← readOctets part start (count - 1) (cursor.advanceBy 3)
      return ((Text.ofBytes ((byte :: bytes).map UInt8.ofNat)).toList.reverse, behind)

def readUriRest (flowMarks : Bool) (part : Part) (start : Cursor) :
    Nat → List Char → Cursor → Except Fault (List Char × Cursor)
  | 0, written, cursor => .ok (written, cursor)
  | fuel + 1, written, cursor =>
      match cursor.peek with
      | none => .ok (written, cursor)
      | some character =>
          if character = '%' then do
            let (escaped, behind) ← readUriEscape part start cursor
            readUriRest flowMarks part start fuel (escaped ++ written) behind
          else if isUriCharacter character
              || (flowMarks && (character = ',' || character = '[' || character = ']')) then
            readUriRest flowMarks part start fuel (character :: written) cursor.advance
          else .ok (written, cursor)

/-- A URI that goes on at the cursor behind its head. It is not empty. -/
def readUri (flowMarks : Bool) (part : Part) (start : Cursor) (head : Option (List Char))
    (cursor : Cursor) : Except Fault (String × Cursor) := do
  let written := (head.getD []).reverse
  let (written, behind) ← readUriRest flowMarks part start (cursor.size + 1) written cursor
  if head.isNone && behind.index = cursor.index then behind.fails .expectedUri part start
  else return (.ofList written.reverse, behind)

/-- The letters of a handle behind its bang, and whether a second bang closes it. -/
def readHandle (part : Part) (start cursor : Cursor) :
    Except Fault (List Char × Bool × Cursor) :=
  if cursor.peek ≠ some '!' then cursor.fails .expectedBang part start
  else
    let (letters, behind) := cursor.advance.takeWhile isNameCharacter
    if behind.peek = some '!' then .ok (letters.reverse, true, behind.advance)
    else .ok (letters.reverse, false, behind)

def handleName (letters : List Char) (closed : Bool) : String :=
  .ofList ('!' :: letters ++ if closed then ['!'] else [])

/-- A tag in angles has no handle, and a bang alone is a tag itself. -/
def readTagName (start : Cursor) : Except Fault (String × String × Cursor) := do
  if start.peekSecond = some '<' then
    let (suffix, behind) ← readUri true .tagUri start none start.advance.advance
    if behind.peek = some '>' then return ("", suffix, behind.advance)
    else behind.fails .expectedAngle .tag start
  else
    let (letters, closed, behind) ← readHandle .tag start start
    if closed then
      let (suffix, behind) ← readUri false .tagUri start none behind
      return (handleName letters closed, suffix, behind)
    else
      let (suffix, behind) ← readUri false .tagUri start (some letters) behind
      return if suffix.isEmpty then ("", "!", behind) else ("!", suffix, behind)

/-- The tag at the cursor, with a blank behind it or, in flow style, a comma. -/
def readTag (inFlow : Bool) (start : Cursor) : Except Fault (Lexeme × Cursor) := do
  let (handle, suffix, behind) ← readTagName start
  if behind.atBlank || (inFlow && behind.peek = some ',') then return (.tag handle suffix, behind)
  else behind.fails .expectedBlankOrLineEnd .tag start

/-! Directives. -/

def readVersionNumber (start cursor : Cursor) : Except Fault (Nat × Cursor) :=
  let (digits, behind) := cursor.takeWhile Char.isDigit
  if 9 < digits.length then (cursor.advanceBy 9).fails .longVersionNumber .versionDirective start
  else if digits.isEmpty then cursor.fails .expectedVersionNumber .versionDirective start
  else .ok (digits.foldr (fun digit value => 10 * value + (digit.toNat - 48)) 0, behind)

def readVersion (start cursor : Cursor) : Except Fault (Lexeme × Cursor) := do
  let (major, behind) ← readVersionNumber start cursor.skipSpaces
  if behind.peek ≠ some '.' then behind.fails .expectedVersionPoint .versionDirective start
  else
    let (minor, behind) ← readVersionNumber start behind.advance
    return (.version major minor, behind)

def readHandleDirective (start cursor : Cursor) : Except Fault (Lexeme × Cursor) := do
  let (letters, closed, behind) ← readHandle .tagDirectiveHandle start cursor.skipSpaces
  if !closed && !letters.isEmpty then
    behind.fails .expectedBang .tagDirectiveHandleEnd start
  else if !behind.peek.any isSpace then behind.fails .expectedBlank .tagDirective start
  else
    let (initial, behind) ← readUri true .tagDirectiveUri start none behind.skipSpaces
    if behind.atBlank then return (.handle (handleName letters closed) initial, behind)
    else behind.fails .expectedBlankOrLineEnd .tagDirective start

/-- The directive whose line starts at the cursor. -/
def readDirective (start : Cursor) : Except Fault (Lexeme × Cursor) := do
  let (name, behind) := start.advance.takeWhile isNameCharacter
  if name.isEmpty then behind.fails .expectedDirectiveName .directive start
  else if !behind.atBlank then behind.fails .directiveNameEnd .directive start
  else
    let (lexeme, behind) ← match String.ofList name.reverse with
      | "YAML" => readVersion start behind
      | "TAG" => readHandleDirective start behind
      | _ => behind.fails .unknownDirective .directive start
    let behind := behind.skipComment
    if behind.atLineEnd then return (lexeme, behind.advance)
    else behind.fails .expectedLineEnd .directive start

end Stencil.Yaml
