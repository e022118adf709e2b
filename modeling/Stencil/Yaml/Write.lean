import Stencil.Number.Shortest
import Stencil.Yaml.Pen

namespace Stencil.Yaml

/-! Trees written in block style: a field per line, the entries of a sequence behind
dashes that stand below the key of the sequence. A key that is short and stands on
one line has its colon behind it; any other one is marked, and so is its value. -/

/-! Tags. -/

/-- A further bang is escaped, as is every byte of a character that is not of ASCII. -/
def tagCharacter (character : Char) : String :=
  if (isUriCharacter character && character != '!') || ",[]".toList.contains character then
    character.toString
  else
    String.join (character.toString.toUTF8.toList.map fun byte =>
      "%" ++ hexadecimalText 2 byte.toNat)

/-- A tag has one bang in front, and ends at a NUL. -/
def wholeTag (tag : String) : String :=
  let name := (Tree.tagName tag).toList
  let marked := if name.head? = some '!' then name else '!' :: name
  .ofList (marked.takeWhile (· != '\x00'))

/-- A bang alone, which would say nothing, stands in angles. -/
def tagText (tag : String) : String :=
  match (wholeTag tag).toList with
  | '!' :: character :: rest => "!" ++ String.join ((character :: rest).map tagCharacter)
  | characters => "!<" ++ String.join (characters.map tagCharacter) ++ ">"

example : tagText "!a!b" = "!a%21b" := by decide +kernel

/-! Which trees can be written. Of tags that follow each other, only one can. In a
mapping of one field a key that is itself a mapping of one field, or tagged, looks
like a tag, unless the mapping stands behind one. -/

def looksTagged : Tree → Bool
  | .mapping [_] => true
  | .tagged _ _ => true
  | _ => false

mutual
def isWritable (tagged : Bool) : Tree → Bool
  | .sequence entries => areWritable entries
  | .mapping fields =>
      (tagged || !(fields.length = 1 && fields.any fun field => looksTagged field.1))
        && areFieldsWritable fields
  | .tagged _ value => !tagged && isWritable true value
  | _ => true

def areWritable : List Tree → Bool
  | [] => true
  | entry :: entries => isWritable false entry && areWritable entries

def areFieldsWritable : List (Tree × Tree) → Bool
  | [] => true
  | (key, value) :: fields =>
      isWritable false key && isWritable false value && areFieldsWritable fields
end

/-! Scalars, and collections without values. -/

/-- The word of a value that is neither a text nor a collection with values. -/
def wordOf : Tree → String
  | .null => "null"
  | .boolean value => if value then "true" else "false"
  | .integer value => toString value
  | .decimal value => value.text .block
  | .sequence _ => "[]"
  | .mapping _ => "\x7b\x7d"
  | .text content => content
  | .tagged tag _ => tagText tag

/-- A simple key has no more than this many bytes. -/
def simpleKeyLimit : Nat := 128

/-- How many bytes count of a key that stands on one line: those of its text and its
tag, without quotes and escapes. -/
def keyLength? : Tree → Option Nat
  | .sequence [] => some 0
  | .mapping [] => some 0
  | .sequence _ => none
  | .mapping _ => none
  | .text content => if content.any isBreak then none else some content.utf8ByteSize
  | .tagged tag value => (keyLength? value).map ((wholeTag tag).utf8ByteSize + ·)
  | value => some (wordOf value).utf8ByteSize

def isSimpleKey (key : Tree) : Bool := (keyLength? key).any (· ≤ simpleKeyLimit)

/-! Values. The margin is the one of the collection that a value stands in; a whole
document has none. -/

def marginBelow : Option Nat → Nat
  | none => 0
  | some margin => margin + 2

def textMargin (margin : Option Nat) : Nat := margin.getD 0 + 2

mutual
/-- A sequence that belongs to a key starts on a line of its own, at the margin. -/
def writeValue (margin : Option Nat) (inField : Bool) : Tree → Pen → Pen
  | .sequence (entry :: entries), pen =>
      writeEntries (if inField && !pen.fresh then margin.getD 0 else marginBelow margin)
        (entry :: entries) pen
  | .mapping (field :: fields), pen => writeFields (marginBelow margin) (field :: fields) pen
  | .text content, pen => pen.textInStyle (textMargin margin) content
  | .tagged tag value, pen => writeValue margin inField value (pen.apart.word (tagText tag))
  | value, pen => pen.apart.word (wordOf value)

def writeEntries (margin : Nat) : List Tree → Pen → Pen
  | [], pen => pen
  | entry :: entries, pen =>
      let pen := (pen.startLine margin).mark "-"
      writeEntries margin entries (writeValue (some margin) false entry pen)

def writeFields (margin : Nat) : List (Tree × Tree) → Pen → Pen
  | [], pen => pen
  | (key, value) :: fields, pen =>
      let pen := pen.startLine margin
      let pen :=
        if isSimpleKey key then (writeValue (some margin) true key pen).word ":"
        else
          let pen := writeValue (some margin) true key (pen.mark "?")
          (pen.startLine margin).mark ":"
      writeFields margin fields (writeValue (some margin) true value pen)
end

/-- A whole document, with the end of its last line. -/
def write (tree : Tree) : String := ((writeValue none false tree {}).startLine 0).written

end Stencil.Yaml
