import Stencil.Number.Shortest
import Stencil.Text.Shown
import Stencil.Yaml.Parse
import Stencil.Yaml.Plain

namespace Stencil.Yaml

/-! The tree of a document. Collections may be nested 128 deep, and the aliases may
be followed a hundred times as often as the document has events. -/

def depthLimit : Nat := 128

/-- Where the tree has been read up to, and how many aliases have been followed. -/
structure Progress where
  index : Nat := 0
  jumps : Nat := 0

abbrev Read := StateT Progress (Except Fault)

/-- A key as a message shows it. -/
def keyName : Tree → String
  | .null => "with null key"
  | .boolean value => "with key \x60" ++ toString value ++ "\x60"
  | .integer value => "with key " ++ toString value
  | .decimal value => "with key " ++ value.text .block
  | .text value => "with key " ++ Text.shown value
  | .sequence _ | .mapping _ | .tagged _ _ => "in YAML map"

/-- A tag of the document itself starts with a bang. -/
def isOwnTag (tag : String) : Bool := tag.startsWith "!"

/-- A scalar is what its tag says. Without a tag it is what it looks like, and a text
in quotes. -/
def scalarTree (tag : Option String) (plain : Bool) (content : String) : Except Problem Tree :=
  let fit (value : Option Tree) (expected : String) : Except Problem Tree :=
    match value with
    | some value => .ok value
    | none => .error (.unfitText content expected)
  let whole? : Option Int :=
    (wholeNumber? content.toList).filter fun value => isInteger value || isWide value
  let checked (value : Int) : Except Problem Tree :=
    if isInteger value then .ok (.integer value) else .error (.wideInteger value)
  match tag with
  | some "tag:yaml.org,2002:bool" => fit ((boolean? content).map .boolean) "a boolean"
  | some "tag:yaml.org,2002:int" =>
      match whole? with
      | some value => checked value
      | none => .error (.unfitText content "an integer")
  | some "tag:yaml.org,2002:float" => fit ((decimal? content.toList).map .decimal) "a float"
  | some "tag:yaml.org,2002:null" =>
      fit (if isNull content && !content.isEmpty then some .null else none) "null"
  | some _ => .ok (.text content)
  | none =>
      if !plain then .ok (.text content)
      else
        match Plain.ofText content with
        | .tree value => .ok value
        | .wide value => .error (.wideInteger value)

/-- A value with its tag, unless it stands behind another one. -/
def wrap (tagged : Bool) (own : Option String) (value : Tree) : Tree :=
  match own with
  | some tag => if tagged then value else .tagged (Tree.tagName tag) value
  | none => value

def failsAt {α : Type} (problem : Problem) (place : Position) (path : List Step) : Read α :=
  throw { problem := problem, place := place, path := path }

section

variable (document : Document)

/-- The next event with its place, which is passed. -/
def nextEvent : Read (Event × Position) := do
  let progress ← get
  match document.events[progress.index]? with
  | some event =>
      set { progress with index := progress.index + 1 }
      return event
  | none => throw (document.fault.getD { problem := .unclosedText, place := .start })

def peekEvent : Read Event := do
  match document.events[(← get).index]? with
  | some (event, _) => return event
  | none => throw (document.fault.getD { problem := .unclosedText, place := .start })

/-- Go to the event of an anchor. -/
def jump (number : Nat) : Read Unit := do
  let progress ← get
  if 100 * document.events.size ≤ progress.jumps then
    throw { problem := .repeatedTooOften, place := .start }
  else
    set (Progress.mk ((document.anchored.lookup number).getD document.events.size)
      (progress.jumps + 1))

/-! The fuel is never used up: on the way down to a value, no collection is entered
more often than the depth allows, and none has more entries than there are events. -/

mutual
/-- The value at the next event. Behind a tag a further one is passed over, as are
those of the keys of a mapping. -/
def readTree (path : List Step) (tagged : Bool) (depth : Nat) : Nat → Read Tree
  | 0 => failsAt .nestedTooDeeply .start []
  | fuel + 1 => do
      let (event, place) ← nextEvent document
      match event with
      | .alias number =>
          let index := (← get).index
          jump document number
          let value ← readTree path false depth fuel
          modify fun progress => { progress with index := index }
          return value
      | .scalar tag plain content =>
          let own := tag.filter isOwnTag
          let meant := if own.isSome || tagged then none else tag
          match scalarTree meant plain content with
          | .error problem => failsAt problem place path
          | .ok value => return wrap tagged own value
      | .sequenceStart tag =>
          if depth = 0 then failsAt .nestedTooDeeply place []
          else
            let entries ← readEntries path 0 (depth - 1) fuel
            return wrap tagged (tag.filter isOwnTag) (.sequence entries)
      | .mappingStart tag =>
          if depth = 0 then failsAt .nestedTooDeeply place []
          else
            let own := tag.filter isOwnTag
            let fields ← readFields path place (own.isSome || tagged) [] (depth - 1) fuel
            return wrap tagged own (.mapping fields)
      | .sequenceEnd | .mappingEnd => failsAt .expectedNode place []
termination_by structural fuel => fuel

def readEntries (path : List Step) (index : Nat) (depth : Nat) : Nat → Read (List Tree)
  | 0 => failsAt .nestedTooDeeply .start []
  | fuel + 1 => do
      if (← peekEvent document) = .sequenceEnd then
        let _ ← nextEvent document
        return []
      else
        let entry ← readTree (.entry index :: path) false depth fuel
        return entry :: (← readEntries path (index + 1) depth fuel)
termination_by structural fuel => fuel

/-- The fields so far stand in reverse. -/
def readFields (path : List Step) (place : Position) (tagged : Bool)
    (fields : List (Tree × Tree)) (depth : Nat) : Nat → Read (List (Tree × Tree))
  | 0 => failsAt .nestedTooDeeply .start []
  | fuel + 1 => do
      match ← peekEvent document with
      | .mappingEnd =>
          let _ ← nextEvent document
          return fields.reverse
      | event =>
          let step : Step := match event with
            | .scalar _ _ content => .field content
            | _ => .namelessField
          let key ← readTree path tagged depth fuel
          if fields.any fun field => key.same field.1 then
            failsAt (.duplicateKey (keyName key)) place path
          else
            let value ← readTree (step :: path) false depth fuel
            readFields path place tagged ((key, value) :: fields) depth fuel
termination_by structural fuel => fuel
end

end

/-- How many bytes stand in front of the first character that no text may hold. -/
def controlOffset? (text : String) : Option Nat :=
  let permitted := text.toList.takeWhile isPermitted
  if permitted.length = text.length then none else some (String.ofList permitted).utf8ByteSize

/-- The tree that a text holds; an empty text is null. What is wrong with a value
counts before what is wrong with the rest of the text. -/
def read (text : String) : Except Fault Tree := do
  if let some offset := controlOffset? text then
    throw { problem := .controlCharacter offset, place := .start }
  let document := Document.parse text
  if document.events.isEmpty && document.fault.isNone then
    if document.followed then throw { problem := .severalDocuments, place := .start }
    else return .null
  let fuel := (depthLimit + 2) * (2 * document.events.size + 4)
  let tree ← (readTree document [] false depthLimit fuel).run' {}
  if let some fault := document.fault then throw fault
  if document.followed then throw { problem := .severalDocuments, place := .start }
  return tree

end Stencil.Yaml
