import Stencil.Yaml.Style

namespace Stencil.Yaml

/-! A pen writes from left to right. It knows its column, whether a space would be
needed in front of the next word, and whether the line is still fresh: nothing but
indentation and the marks of entries and keys stands on it. -/

structure Pen where
  written : String := ""
  column : Nat := 0
  spaced : Bool := true
  fresh : Bool := true

namespace Pen

def put (content : String) (pen : Pen) : Pen :=
  { pen with written := pen.written ++ content, column := pen.column + content.length }

def endLine (mark : Char) (pen : Pen) : Pen :=
  { pen with written := pen.written.push mark, column := 0 }

/-- Behind a space, where one is needed. -/
def apart (pen : Pen) : Pen := if pen.spaced then pen else pen.put " "

/-- A word, behind which nothing may start before the next space. -/
def word (content : String) (pen : Pen) : Pen :=
  { pen.put content with spaced := false, fresh := false }

/-- The mark of an entry, of a key or of a value, behind which a block may start. -/
def mark (content : String) (pen : Pen) : Pen :=
  let pen := pen.apart
  { pen.put content with spaced := false }

/-- At the margin of a line on which nothing stands yet. -/
def startLine (margin : Nat) (pen : Pen) : Pen :=
  let pen :=
    if !pen.fresh || margin < pen.column || (pen.column = margin && !pen.spaced) then
      pen.endLine '\n'
    else pen
  { pen.put (.ofList (List.replicate (margin - pen.column) ' ')) with
    spaced := true
    fresh := true }

/-! Texts. Behind a line end the text goes on at the margin. -/

def singleRest (margin : Nat) : Bool → List Char → Pen → Pen
  | broken, [], pen => if broken then pen.startLine margin else pen
  | broken, character :: rest, pen =>
      if isBreak character then
        singleRest margin true rest { pen.endLine character with fresh := true }
      else
        let pen := if broken then pen.startLine margin else pen
        let content : String :=
          if character = apostrophe then .ofList [apostrophe, apostrophe] else character.toString
        singleRest margin false rest { pen.put content with fresh := false }

def single (margin : Nat) (content : String) (pen : Pen) : Pen :=
  (singleRest margin false content.toList (pen.apart.word "'")).word "'"

/-- What stands behind the bar: that the first line starts with a space or is empty,
and that there is no line end behind the last line, or more than one. -/
def blockHint (characters : List Char) : String :=
  let indentation := if characters.head?.any isGap then "2" else ""
  let ends := match characters.reverse with
    | [] => "-"
    | [last] => if isBreak last then "+" else "-"
    | last :: before :: _ => if !isBreak last then "-" else if isBreak before then "+" else ""
  indentation ++ ends

def blockRest (margin : Nat) : Bool → List Char → Pen → Pen
  | _, [], pen => pen
  | broken, character :: rest, pen =>
      if isBreak character then
        blockRest margin true rest { pen.endLine character with fresh := true }
      else
        let pen := if broken then pen.startLine margin else pen
        blockRest margin false rest { pen.put character.toString with fresh := false }

def block (margin : Nat) (content : String) (pen : Pen) : Pen :=
  let characters := content.toList
  let pen := (pen.apart.word ("|" ++ blockHint characters)).endLine '\n'
  blockRest margin true characters { pen with spaced := true, fresh := true }

def textInStyle (margin : Nat) (content : String) (pen : Pen) : Pen :=
  match Style.ofText content with
  | .plain => pen.apart.word content
  | .single => pen.single margin content
  | .double => pen.apart.word (doubleQuoted content)
  | .block => pen.block margin content

end Pen

end Stencil.Yaml
