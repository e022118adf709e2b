import Stencil.Yaml.Character
import Stencil.Yaml.Fault

namespace Stencil.Yaml

/-! A cursor moves over the characters of a text, and knows the place it has come
to. A carriage return, alone or in front of a line feed, and a next line are line
feeds to it; the separators of lines and of paragraphs end lines as themselves. -/

structure Cursor where
  rest : List Char
  place : Position
  /-- How many bytes stand in front of the rest. -/
  index : Nat
  /-- How many characters the whole text has: no loop over them takes more steps. -/
  size : Nat

namespace Cursor

def unifyLineEnds : List Char → List Char
  | [] => []
  | '\r' :: '\n' :: rest => '\n' :: unifyLineEnds rest
  | character :: rest =>
      (if character = '\r' || character = '\u0085' then '\n' else character) :: unifyLineEnds rest

def withoutByteOrderMark : List Char → List Char
  | '\uFEFF' :: rest => rest
  | characters => characters

def start (text : String) : Cursor :=
  let characters := unifyLineEnds (withoutByteOrderMark text.toList)
  ⟨characters, .start, 0, characters.length⟩

def line (cursor : Cursor) : Nat := cursor.place.line

def column (cursor : Cursor) : Nat := cursor.place.column

def peek (cursor : Cursor) : Option Char := cursor.rest.head?

def peekSecond (cursor : Cursor) : Option Char := cursor.rest[1]?

def nextPlace (place : Position) (character : Char) : Position :=
  if isBreak character then ⟨place.line + 1, 1⟩ else ⟨place.line, place.column + 1⟩

/-- Move on as long as the step takes the character at the cursor. The step sees the
place and carries a state. -/
@[specialize]
def follow {σ : Type} (step : σ → Position → Char → Option σ) (state : σ) (cursor : Cursor) :
    σ × Cursor :=
  go state cursor.place cursor.index cursor.rest
where
  @[specialize]
  go (state : σ) (place : Position) (index : Nat) : List Char → σ × Cursor
    | [] => (state, ⟨[], place, index, cursor.size⟩)
    | character :: rest =>
        match step state place character with
        | some state => go state (nextPlace place character) (index + character.utf8Size) rest
        | none => (state, ⟨character :: rest, place, index, cursor.size⟩)

/-- The characters up to the first one that is not meant, the last one first, and
the cursor behind them. -/
@[inline]
def takeWhile (condition : Char → Bool) (cursor : Cursor) : List Char × Cursor :=
  cursor.follow
    (fun taken _ character => if condition character then some (character :: taken) else none) []

@[inline]
def skipWhile (condition : Char → Bool) (cursor : Cursor) : Cursor :=
  (cursor.follow (fun _ _ character => if condition character then some () else none) ()).2

def advance (cursor : Cursor) : Cursor :=
  match cursor.rest with
  | [] => cursor
  | character :: rest =>
      { cursor with
        rest := rest
        place := nextPlace cursor.place character
        index := cursor.index + character.utf8Size }

def advanceBy : Nat → Cursor → Cursor
  | 0, cursor => cursor
  | count + 1, cursor => advanceBy count cursor.advance

def skipSpaces (cursor : Cursor) : Cursor := cursor.skipWhile isSpace

/-- Behind spaces and a comment. -/
def skipComment (cursor : Cursor) : Cursor :=
  let behind := cursor.skipSpaces
  if behind.peek = some '#' then behind.skipWhile fun character => !isBreak character else behind

def atLineEnd (cursor : Cursor) : Bool := cursor.peek.all isBreak

def atBlank (cursor : Cursor) : Bool := isBlankOrEnd cursor.peek

/-- The mark stands at the start of a line, with a blank behind it. -/
def atLineMark (mark : String) (cursor : Cursor) : Bool :=
  cursor.column == 1 && mark.toList.isPrefixOf cursor.rest
    && isBlankOrEnd cursor.rest[mark.length]?

/-- At the start or at the end of a document. -/
def atDocumentMark (cursor : Cursor) : Bool :=
  cursor.atLineMark "---" || cursor.atLineMark "..."

/-- A problem at the cursor, in a part that starts at another one. -/
def fails {α : Type} (cursor : Cursor) (problem : Problem) (part : Part) (start : Cursor) :
    Except Fault α :=
  .error { problem := problem, place := cursor.place, part := some (part, start.place) }

end Cursor

end Stencil.Yaml
