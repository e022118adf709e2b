import Stencil.Yaml.Gap

namespace Stencil.Yaml

/-! Plain texts: words without quotes. A colon with a blank behind it ends a plain
text, a number sign behind a blank does, and in flow style the marks of that style. -/

/-- In flow style no mark may touch a colon. -/
def isTouchedColon (character : Char) (next : Option Char) : Bool :=
  character = ':' && next.any fun other => other = '?' || isFlowMark other

/-- A plain text may start with this character. -/
def startsPlain (inFlow : Bool) (character : Char) (next : Option Char) : Bool :=
  if character = '-' then !next.any isSpace
  else if character = '?' || character = ':' then !inFlow && !isBlankOrEnd next
  else !(isBlank character || isMark character)

/-- How many characters the word at the front has. -/
def wordLength (inFlow : Bool) (length : Nat) : List Char → Nat
  | [] => length
  | character :: rest =>
      if isBlank character || (character = ':' && isBlankOrEnd rest.head?)
          || (inFlow && (isFlowMark character || isTouchedColon character rest.head?)) then length
      else wordLength inFlow (length + 1) rest

/-- A plain text that has been read, the last character first, and whether line ends
stand between it and the cursor. -/
structure PlainText where
  written : List Char
  broken : Bool
  cursor : Cursor

/-- A text goes on here, behind a gap. It ends at a line that does not stand behind
the margin. -/
def readWords (inFlow : Bool) (margin : Nat) (start : Cursor) :
    Nat → List Char → Gap → Cursor → Except Fault PlainText
  | 0, written, gap, cursor => .ok ⟨written, gap.broken, cursor⟩
  | fuel + 1, written, gap, cursor =>
      let length := wordLength inFlow 0 cursor.rest
      if cursor.atDocumentMark || cursor.peek = some '#' then
        .ok ⟨written, gap.broken, cursor⟩
      else
        let behind := cursor.advanceBy length
        if inFlow && behind.peek.any fun character =>
            isTouchedColon character behind.peekSecond then
          behind.fails .unexpectedColon .plainText start
        else if length = 0 then .ok ⟨written, gap.broken, cursor⟩
        else
          let written := (cursor.rest.take length).reverse ++ (gap.characters ++ written)
          let (gap, next) := Gap.read margin behind
          if gap.broken && next.peek = some '\t' then
            next.fails .tabInPlainText .plainText start
          else if gap.broken && !inFlow && next.column ≤ margin then
            .ok ⟨written, true, next⟩
          else readWords inFlow margin start fuel written gap next

/-- The plain text that starts at the cursor. -/
def readPlain (inFlow : Bool) (margin : Nat) (cursor : Cursor) : Except Fault PlainText :=
  readWords inFlow margin cursor (cursor.size + 1) [] {} cursor

end Stencil.Yaml
