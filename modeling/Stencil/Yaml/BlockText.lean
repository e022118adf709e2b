import Stencil.Yaml.Cursor

namespace Stencil.Yaml

/-! Texts of several lines below a bar, which keeps the line ends, or below an angle,
which folds them. The header says what becomes of the line ends at the end, and by
how much the lines are indented; else the first line that is not empty says so. -/

/-- What becomes of the line ends behind the last line: all go, the first stays, all stay. -/
inductive Chomp where
  | strip
  | clip
  | keep
deriving DecidableEq, Repr

def chomp? : Option Char → Option Chomp
  | some '+' => some .keep
  | some '-' => some .strip
  | _ => none

/-- An indentation that is told, by one digit. -/
def readIncrement (start cursor : Cursor) : Except Fault (Option Nat × Cursor) :=
  match cursor.peek with
  | some digit =>
      if !digit.isDigit then .ok (none, cursor)
      else if digit = '0' then cursor.fails .zeroIndentation .blockText start
      else .ok (some (digit.toNat - 48), cursor.advance)
  | none => .ok (none, cursor)

/-- The chomp and the digit may come in any order. -/
def readHeader (start cursor : Cursor) : Except Fault (Chomp × Option Nat × Cursor) := do
  match chomp? cursor.peek with
  | some chomp =>
      let (increment, behind) ← readIncrement start cursor.advance
      return (chomp, increment, behind)
  | none =>
      let (increment, behind) ← readIncrement start cursor
      match increment, chomp? behind.peek with
      | some _, some chomp => return (chomp, increment, behind.advance)
      | _, _ => return (.clip, increment, behind)

/-- The empty lines in front of a line: their ends, the last one first, and the most
columns that spaces take there. No tab may stand in the indentation. -/
def readEmptyLines (indentation : Option Nat) (start cursor : Cursor) :
    Except Fault (Nat × List Char × Cursor) :=
  let inside (column : Nat) : Bool := indentation.all (column ≤ ·)
  let step (state : Nat × List Char) (place : Position) (character : Char) :=
    if isBreak character then some (state.1, character :: state.2)
    else if character = ' ' && inside place.column then some (max state.1 place.column, state.2)
    else none
  let ((width, ends), behind) := cursor.follow step (0, [])
  if behind.peek = some '\t' && inside behind.column then
    behind.fails .tabInBlockText .blockText start
  else .ok (width, ends, behind)

/-- A block text that has been read up to a line: the characters, the end of the line
before, the ends of the empty lines since then, each with the last one first, and
whether the line before starts with a space. -/
structure BlockText where
  written : List Char
  lineEnd : Option Char
  emptyLines : List Char
  indented : Bool

namespace BlockText

/-- One more line. Between two lines of a folded text that start with no space, one
line end becomes a space, and of several one goes. -/
def addLine (literal : Bool) (block : BlockText) (line : List Char) (lineEnd : Option Char) :
    BlockText :=
  let indented := line.getLast?.any isSpace
  let between :=
    if !literal && block.lineEnd = some '\n' && !block.indented && !indented then
      if block.emptyLines.isEmpty then [' '] else block.emptyLines
    else block.emptyLines ++ block.lineEnd.toList
  ⟨line ++ (between ++ block.written), lineEnd, [], indented⟩

def finish (chomp : Chomp) (block : BlockText) : List Char :=
  match chomp with
  | .strip => block.written
  | .clip => block.lineEnd.toList ++ block.written
  | .keep => block.emptyLines ++ (block.lineEnd.toList ++ block.written)

end BlockText

/-- The lines that are indented as far as the first one. -/
def readBlockLines (literal : Bool) (indentation : Nat) (start : Cursor) :
    Nat → BlockText → Cursor → Except Fault (BlockText × Cursor)
  | 0, block, cursor => .ok (block, cursor)
  | fuel + 1, block, cursor =>
      if cursor.column = indentation + 1 && cursor.peek.isSome then do
        let (line, behind) := cursor.takeWhile fun character => !isBreak character
        let block := block.addLine literal line behind.peek
        let (_, ends, next) ← readEmptyLines (some indentation) start behind.advance
        readBlockLines literal indentation start fuel { block with emptyLines := ends } next
      else .ok (block, cursor)

/-- The text below the mark at the cursor. Its lines are indented at least up to the
margin. -/
def readBlockText (literal : Bool) (margin : Nat) (start : Cursor) :
    Except Fault (String × Cursor) := do
  let (chomp, increment, behind) ← readHeader start start.advance
  let behind := behind.skipComment
  if !behind.atLineEnd then behind.fails .expectedLineEnd .blockText start
  else
    let told := increment.map (margin - 1 + ·)
    let (width, ends, next) ← readEmptyLines told start behind.advance
    let indentation := told.getD (max width (max margin 1))
    let (block, next) ←
      readBlockLines literal indentation start (start.size + 1) ⟨[], none, ends, false⟩ next
    return (.ofList (block.finish chomp).reverse, next)

end Stencil.Yaml
