import Stencil.Yaml.BlockText
import Stencil.Yaml.PlainText
import Stencil.Yaml.QuotedText
import Stencil.Yaml.Tag

namespace Stencil.Yaml

/-! The tokens of a text. Blocks open and close as the column of the cursor changes.
Where a key may stand, the next scalar, alias or collection is remembered as a simple
key; a colon on its line makes it one, and its tokens are put in front of it then. -/

/-- What a colon would make a key: the number of its first token, and its place. A
key at the margin of a block has to become one. -/
structure SimpleKey where
  required : Bool
  number : Nat
  index : Nat
  place : Position

structure Scanner where
  cursor : Cursor
  /-- The last token comes first. -/
  tokens : List Token := []
  count : Nat := 0
  /-- A simple key for each open collection of flow style, the innermost one first. -/
  flowKeys : List (Option SimpleKey) := []
  blockKey : Option SimpleKey := none
  keyAllowed : Bool := true
  /-- The column of the innermost block, and those of the blocks around it. There is
  none at first. -/
  margin : Nat := 0
  margins : List Nat := []

namespace Scanner

def inFlow (scanner : Scanner) : Bool := !scanner.flowKeys.isEmpty

/-- What was remembered last in the innermost collection. -/
def remembered (scanner : Scanner) : Option SimpleKey :=
  match scanner.flowKeys with
  | [] => scanner.blockKey
  | key :: _ => key

def withKey (key : Option SimpleKey) (scanner : Scanner) : Scanner :=
  match scanner.flowKeys with
  | [] => { scanner with blockKey := key }
  | _ :: keys => { scanner with flowKeys := key :: keys }

def push (lexeme : Lexeme) (place : Position) (scanner : Scanner) : Scanner :=
  { scanner with tokens := ⟨lexeme, place⟩ :: scanner.tokens, count := scanner.count + 1 }

/-- Put a token in front of the one with this number. -/
def insert (number : Nat) (lexeme : Lexeme) (place : Position) (scanner : Scanner) : Scanner :=
  let later := scanner.count - number
  { scanner with
    tokens := scanner.tokens.take later ++ ⟨lexeme, place⟩ :: scanner.tokens.drop later
    count := scanner.count + 1 }

/-! Simple keys. -/

def missesColon {α : Type} (scanner : Scanner) (key : SimpleKey) : Except Fault α :=
  .error {
    problem := .expectedColon
    place := scanner.cursor.place
    part := some (.simpleKey, key.place) }

/-- A simple key stands on one line and is not longer than 1024 bytes. -/
def isStale (scanner : Scanner) (key : SimpleKey) : Bool :=
  key.place.line < scanner.cursor.line || key.index + 1024 < scanner.cursor.index

/-- What a colon at the cursor would make a key. -/
def key? (scanner : Scanner) : Option SimpleKey :=
  scanner.remembered.filter (!scanner.isStale ·)

/-- What has to become a key may not be stale. Only a key of a block has to. -/
def checkKey (scanner : Scanner) : Except Fault Unit :=
  match scanner.blockKey with
  | some key => if key.required && scanner.isStale key then scanner.missesColon key else .ok ()
  | none => .ok ()

/-- What was remembered cannot become a key any more. -/
def dropKey (scanner : Scanner) : Except Fault Scanner :=
  match scanner.remembered with
  | some key => if key.required then scanner.missesColon key else .ok (scanner.withKey none)
  | none => .ok scanner

/-- What starts at the cursor may become a key. -/
def rememberKey (scanner : Scanner) : Except Fault Scanner := do
  if !scanner.keyAllowed then return scanner
  else
    let cursor := scanner.cursor
    let required := !scanner.inFlow && scanner.margin = cursor.column
    let scanner ← scanner.dropKey
    return scanner.withKey (some ⟨required, scanner.count, cursor.index, cursor.place⟩)

/-! Blocks. -/

/-- Open a block if the column stands behind the margin. -/
def openBlock (lexeme : Lexeme) (number : Nat) (place : Position) (scanner : Scanner) :
    Scanner :=
  if scanner.inFlow || place.column ≤ scanner.margin then scanner
  else
    { scanner.insert number lexeme place with
      margin := place.column
      margins := scanner.margin :: scanner.margins }

/-- Close the blocks that start behind the column. -/
def closeBlocks (column : Nat) (scanner : Scanner) : Scanner :=
  if scanner.inFlow then scanner else go scanner scanner.margins
where
  go (scanner : Scanner) : List Nat → Scanner
    | [] => scanner
    | outer :: margins =>
        if column < scanner.margin then
          go { scanner.push .blockEnd scanner.cursor.place with margin := outer, margins } margins
        else scanner

/-! Tokens. -/

/-- Take a mark of so many characters. -/
def take (lexeme : Lexeme) (length : Nat) (scanner : Scanner) : Scanner :=
  { scanner.push lexeme scanner.cursor.place with cursor := scanner.cursor.advanceBy length }

def takeDocumentMark (lexeme : Lexeme) (scanner : Scanner) : Except Fault Scanner := do
  let scanner ← (scanner.closeBlocks 0).dropKey
  return { scanner.take lexeme 3 with keyAllowed := false }

def takeDirective (scanner : Scanner) : Except Fault Scanner := do
  let scanner ← (scanner.closeBlocks 0).dropKey
  let (lexeme, behind) ← readDirective scanner.cursor
  return { scanner.push lexeme scanner.cursor.place with cursor := behind, keyAllowed := false }

def openFlow (lexeme : Lexeme) (scanner : Scanner) : Except Fault Scanner := do
  let scanner ← scanner.rememberKey
  return { scanner.take lexeme 1 with
    flowKeys := none :: scanner.flowKeys
    keyAllowed := true }

def closeFlow (lexeme : Lexeme) (scanner : Scanner) : Except Fault Scanner := do
  let scanner ← scanner.dropKey
  return { scanner.take lexeme 1 with
    flowKeys := scanner.flowKeys.drop 1
    keyAllowed := false }

def takeComma (scanner : Scanner) : Except Fault Scanner := do
  let scanner ← scanner.dropKey
  return { scanner.take .comma 1 with keyAllowed := true }

/-- Open the block of an entry or of a field, which stands at the cursor. -/
def startBlock (lexeme : Lexeme) (problem : Problem) (scanner : Scanner) :
    Except Fault Scanner :=
  if scanner.inFlow then .ok scanner
  else if !scanner.keyAllowed then
    .error { problem := problem, place := scanner.cursor.place }
  else .ok (scanner.openBlock lexeme scanner.count scanner.cursor.place)

def takeDash (scanner : Scanner) : Except Fault Scanner := do
  let scanner ← scanner.startBlock .blockSequence .unexpectedEntry
  let scanner ← scanner.dropKey
  return { scanner.take .dash 1 with keyAllowed := true }

def takeKey (scanner : Scanner) : Except Fault Scanner := do
  let scanner ← scanner.startBlock .blockMapping .unexpectedKey
  let scanner ← scanner.dropKey
  return { scanner.take .key 1 with keyAllowed := !scanner.inFlow }

def takeValue (scanner : Scanner) : Except Fault Scanner := do
  match scanner.key? with
  | some key =>
      let scanner := (scanner.insert key.number .key key.place).openBlock .blockMapping
        key.number key.place
      return { (scanner.withKey none).take .value 1 with keyAllowed := false }
  | none =>
      let scanner ← scanner.startBlock .blockMapping .unexpectedValue
      return { scanner.take .value 1 with keyAllowed := !scanner.inFlow }

/-- Take a part of a value, which may be the start of a key. -/
def takePart (read : Cursor → Except Fault (Lexeme × Cursor)) (scanner : Scanner) :
    Except Fault Scanner := do
  let scanner ← scanner.rememberKey
  let (lexeme, behind) ← read scanner.cursor
  return { scanner.push lexeme scanner.cursor.place with cursor := behind, keyAllowed := false }

def takeBlockText (literal : Bool) (scanner : Scanner) : Except Fault Scanner := do
  let scanner ← scanner.dropKey
  let (content, behind) ← readBlockText literal scanner.margin scanner.cursor
  return { scanner.push (.scalar false content) scanner.cursor.place with
    cursor := behind
    keyAllowed := true }

/-- Behind a plain text that ends on an earlier line a key may stand. -/
def takePlain (scanner : Scanner) : Except Fault Scanner := do
  let scanner ← scanner.rememberKey
  let plain ← readPlain scanner.inFlow scanner.margin scanner.cursor
  let content := String.ofList plain.written.reverse
  return { scanner.push (.scalar true content) scanner.cursor.place with
    cursor := plain.cursor
    keyAllowed := plain.broken }

/-- The end of the text stands at the start of a line. -/
def takeFinish (scanner : Scanner) : Except Fault Scanner := do
  let place := scanner.cursor.place
  let place := if place.column = 1 then place else ⟨place.line + 1, 1⟩
  let scanner := { scanner with cursor.place := place }
  let scanner ← (scanner.closeBlocks 0).dropKey
  return { scanner.push .finish place with keyAllowed := false }

/-- The next token, which starts with this character, and the tokens in front of it
that stand for no characters. -/
def takeToken (character : Char) (scanner : Scanner) : Except Fault Scanner :=
  let cursor := scanner.cursor
  let inFlow := scanner.inFlow
  let blankBehind := isBlankOrEnd cursor.peekSecond
  if cursor.column = 1 && character = '%' then scanner.takeDirective
  else if cursor.atLineMark "---" then scanner.takeDocumentMark .documentStart
  else if cursor.atLineMark "..." then scanner.takeDocumentMark .documentEnd
  else if character = '[' then scanner.openFlow .openSequence
  else if character = '\x7b' then scanner.openFlow .openMapping
  else if character = ']' then scanner.closeFlow .closeSequence
  else if character = '\x7d' then scanner.closeFlow .closeMapping
  else if character = ',' then scanner.takeComma
  else if character = '-' && blankBehind then scanner.takeDash
  else if character = '?' && (inFlow || blankBehind) then scanner.takeKey
  else if character = ':' && (inFlow || blankBehind) then scanner.takeValue
  else if character = '*' then
    scanner.takePart fun start => return (← readName .alias start).map .alias id
  else if character = '&' then
    scanner.takePart fun start => return (← readName .anchor start).map .anchor id
  else if character = '!' then scanner.takePart (readTag inFlow)
  else if character = '|' && !inFlow then scanner.takeBlockText true
  else if character = '>' && !inFlow then scanner.takeBlockText false
  else if character = apostrophe then
    scanner.takePart fun start => return (← readQuoted false start).map (.scalar false) id
  else if character = '"' then
    scanner.takePart fun start => return (← readQuoted true start).map (.scalar false) id
  else if startsPlain inFlow character cursor.peekSecond then scanner.takePlain
  else cursor.fails .unexpectedCharacter .token cursor

/-- At the next token, behind blanks and comments. Tabs are no blanks where a key of
a block may stand; a line end makes it such a place. -/
def skipBlanks (scanner : Scanner) : Scanner :=
  let inFlow := scanner.inFlow
  let step (state : Bool × Bool) (_ : Position) (character : Char) : Option (Bool × Bool) :=
    let (comment, keyAllowed) := state
    if isBreak character then some (false, keyAllowed || !inFlow)
    else if comment || character = '#' then some (true, keyAllowed)
    else if character = ' ' || (character = '\t' && (inFlow || !keyAllowed)) then
      some (false, keyAllowed)
    else none
  let ((_, keyAllowed), cursor) := scanner.cursor.follow step (false, scanner.keyAllowed)
  { scanner with cursor, keyAllowed }

def step (scanner : Scanner) : Except Fault Scanner := do
  let scanner := scanner.skipBlanks
  scanner.checkKey
  let scanner := scanner.closeBlocks scanner.cursor.column
  let scanner ← match scanner.cursor.peek with
    | none => scanner.takeFinish
    | some character => scanner.takeToken character
  scanner.checkKey
  return scanner

def finished (scanner : Scanner) : Bool :=
  scanner.tokens.head?.any fun token => token.lexeme = .finish

/-- Every step takes a character, apart from the last one. -/
def run : Nat → Scanner → Scanner × Option Fault
  | 0, scanner => (scanner, none)
  | fuel + 1, scanner =>
      match scanner.step with
      | .error fault => (scanner, some fault)
      | .ok next => if next.finished then (next, none) else run fuel next

/-- The tokens in front of those that may still get a key in front of them. -/
def settled (scanner : Scanner) : List Token :=
  let keys := ((scanner.blockKey :: scanner.flowKeys).filterMap id).filter (!scanner.isStale ·)
  let bound := keys.foldl (fun bound key => min bound key.number) scanner.count
  (scanner.tokens.drop (scanner.count - bound)).reverse

end Scanner

/-- The tokens of a text, and the problem that the tokens end at, if they do not end
with the text. -/
def scan (text : String) : List Token × Option Fault :=
  let cursor := Cursor.start text
  let cursor := if cursor.peek = some '\uFEFF' then cursor.advance else cursor
  let (scanner, fault) := Scanner.run (cursor.size + 2) { cursor := cursor }
  (scanner.settled, fault)

end Stencil.Yaml
