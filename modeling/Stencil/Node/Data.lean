import Stencil.Node.Json
import Stencil.Number.Word
import Stencil.Text.Blank
import Stencil.Yaml.Write

namespace Stencil

/-! Documents from plain data. The keys of a mapping become texts, tags are
dropped, and an integer that is no word becomes a decimal. -/

namespace Tree

/-- The text of a key. A collection is written as a document without the blanks at its
end, and one that cannot be written has no text. -/
def keyText : Tree → String
  | .text value => value
  | .boolean value => if value then "true" else "false"
  | .integer value => toString value
  | .decimal value => value.text .block
  | .null => "~"
  | key =>
      if Yaml.isWritable false key then .ofList (Text.trimEnd (Yaml.write key).toList) else ""

def integerValue (value : Int) : Value :=
  match Number.word? value with
  | some word => .integer word
  | none => .decimal (.ofNat (value < 0) value.natAbs)

end Tree

mutual
def Node.ofTree (source : Option String) : Tree → Node
  | .null => .ofSource source .null
  | .boolean value => .ofSource source (.boolean value)
  | .integer value => .ofSource source (Tree.integerValue value)
  | .decimal value => .ofSource source (.decimal value)
  | .text value => .ofSource source (.text value)
  | .sequence entries => .ofSource source (.list (entriesOfTrees source entries))
  | .mapping fields => .ofSource source (.map (Table.ofList (fieldsOfTrees source fields)))
  | .tagged _ value => Node.ofTree source value

def entriesOfTrees (source : Option String) : List Tree → List Node
  | [] => []
  | entry :: entries => Node.ofTree source entry :: entriesOfTrees source entries

def fieldsOfTrees (source : Option String) : List (Tree × Tree) → List (String × Node)
  | [] => []
  | (key, value) :: fields =>
      (key.keyText, Node.ofTree source value) :: fieldsOfTrees source fields
end

/-! Plain data from documents: what a document is written as. -/

mutual
def Value.tree : Value → Tree
  | .null => .null
  | .boolean value => .boolean value
  | .integer value => .integer value.toInt
  | .decimal value => .decimal value
  | .text value => .text value
  | .list entries => .sequence (entryTrees entries)
  | .map fields => .mapping (fieldTrees fields)
  | .expression source => .text source.printEmbedded
  | .lambda parameters body _ => .text (embeddedText (lambdaText parameters body))

def Node.tree : Node → Tree
  | .mk value _ => value.tree

def entryTrees : List Node → List Tree
  | [] => []
  | entry :: entries => entry.tree :: entryTrees entries

def fieldTrees : List (String × Node) → List (Tree × Tree)
  | [] => []
  | (key, field) :: fields => (.text key, field.tree) :: fieldTrees fields
end

end Stencil
