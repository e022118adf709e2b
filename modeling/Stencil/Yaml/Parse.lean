import Stencil.Yaml.Event
import Stencil.Yaml.Scan

namespace Stencil.Yaml

/-! The first document of a text, from its tokens. -/

structure Parser where
  tokens : List Token
  /-- Why there are no more tokens. -/
  fault : Option Fault
  events : Array (Event × Position) := #[]
  /-- The numbers of the anchors. Each new name gets the number of names so far; a
  name that comes again too, but it is no further name. -/
  names : List (String × Nat) := []
  nameCount : Nat := 0
  anchored : List (Nat × Nat) := []
  handles : List (String × String) := []

/-- What is parsed before a problem stays. -/
abbrev Parse := EStateM Fault Parser

namespace Parser

def fails {α : Type} (problem : Problem) (place : Position)
    (part : Option (Part × Position) := none) : Parse α :=
  throw { problem := problem, place := place, part := part }

/-- Every text is parsed before the fuel has run out. -/
def exhausted {α : Type} : Parse α := fails .nestedTooDeeply .start

def peek : Parse Token := do
  match (← get).tokens with
  | token :: _ => return token
  | [] => throw ((← get).fault.getD { problem := .unclosedText, place := .start })

def skip : Parse Unit := modify fun parser => { parser with tokens := parser.tokens.drop 1 }

def push (event : Event) (place : Position) : Parse Unit :=
  modify fun parser => { parser with events := parser.events.push (event, place) }

def pushNull (place : Position) : Parse Unit := push (.scalar none true "") place

/-- The next event belongs to this anchor. -/
def addAnchor (name : String) : Parse Unit :=
  modify fun parser =>
    let number := parser.nameCount
    { parser with
      names := (name, number) :: parser.names
      nameCount := if (parser.names.lookup name).isSome then number else number + 1
      anchored := (number, parser.events.size) :: parser.anchored }

/-! Tags. -/

def defaultHandles : List (String × String) := [("!", "!"), ("!!", "tag:yaml.org,2002:")]

def resolveTag (handle suffix : String) (place start : Position) : Parse String := do
  if handle.isEmpty then return suffix
  else
    match ((← get).handles ++ defaultHandles).lookup handle with
    | some initial => return initial ++ suffix
    | none => fails .unknownHandle place (some (.node, start))

structure Properties where
  anchor : Option String := none
  tag : Option String := none

/-- An anchor and a tag, in any order. -/
def properties (start : Position) : Parse Properties := do
  let token ← peek
  match token.lexeme with
  | .anchor name =>
      skip
      let next ← peek
      match next.lexeme with
      | .tag handle suffix =>
          skip
          let _ ← peek
          return ⟨some name, some (← resolveTag handle suffix next.place start)⟩
      | _ => return ⟨some name, none⟩
  | .tag handle suffix =>
      skip
      let next ← peek
      match next.lexeme with
      | .anchor name =>
          skip
          let _ ← peek
          return ⟨some name, some (← resolveTag handle suffix token.place start)⟩
      | _ => return ⟨none, some (← resolveTag handle suffix token.place start)⟩
  | _ => return {}

/-! Values. In block style the tokens say where a collection ends, in flow style
the brackets do. -/

/-- No value stands in front of this token of a block. -/
def endsBlockValue (fields : Bool) : Lexeme → Bool
  | .dash => !fields
  | .key => fields
  | .value => fields
  | .blockEnd => true
  | _ => false

def endsFlowValue (close : Lexeme) (lexeme : Lexeme) : Bool :=
  lexeme = .comma || lexeme = close

mutual
/-- A value. An indentless one may be a sequence whose dashes stand below its key. -/
def parseNode (block indentless : Bool) : Nat → Parse Unit
  | 0 => exhausted
  | fuel + 1 => do
      let first ← peek
      let place := first.place
      if let .alias name := first.lexeme then
        match (← get).names.lookup name with
        | some number =>
            skip
            push (.alias number) place
        | none => fails .unknownAnchor place
      else
        let { anchor, tag } ← properties place
        let token ← peek
        let start (event : Event) : Parse Unit := do
          if let some name := anchor then addAnchor name
          push event place
        match token.lexeme with
        | .dash =>
            if indentless then
              start (.sequenceStart tag)
              parseIndentless fuel
            else parseEmpty block anchor tag place token.place
        -- A bang alone says nothing of a scalar.
        | .scalar plain content =>
            skip
            start (.scalar (tag.filter (· ≠ "!")) plain content)
        | .openSequence =>
            start (.sequenceStart tag)
            skip
            parseFlowEntries true token.place fuel
        | .openMapping =>
            start (.mappingStart tag)
            skip
            parseFlowFields true token.place fuel
        | .blockSequence =>
            if block then
              start (.sequenceStart tag)
              skip
              parseEntries token.place fuel
            else parseEmpty block anchor tag place token.place
        | .blockMapping =>
            if block then
              start (.mappingStart tag)
              skip
              parseFields token.place fuel
            else parseEmpty block anchor tag place token.place
        | _ => parseEmpty block anchor tag place token.place
termination_by structural fuel => fuel

/-- A value without characters has an anchor or a tag. -/
def parseEmpty (block : Bool) (anchor tag : Option String) (start place : Position) :
    Parse Unit := do
  if anchor.isNone && tag.isNone then
    fails .expectedNode place (some (if block then .blockNode else .flowNode, start))
  else
    if let some name := anchor then addAnchor name
    push (.scalar tag true "") start

def parseEntries (start : Position) : Nat → Parse Unit
  | 0 => exhausted
  | fuel + 1 => do
      let token ← peek
      match token.lexeme with
      | .dash =>
          skip
          let next ← peek
          if endsBlockValue false next.lexeme then pushNull token.place
          else parseNode true false fuel
          parseEntries start fuel
      | .blockEnd =>
          skip
          push .sequenceEnd token.place
      | _ => fails .expectedDash token.place (some (.blockSequence, start))
termination_by structural fuel => fuel

/-- The entries end where no dash follows. -/
def parseIndentless : Nat → Parse Unit
  | 0 => exhausted
  | fuel + 1 => do
      let token ← peek
      if token.lexeme = .dash then
        skip
        let next ← peek
        if endsBlockValue false next.lexeme || endsBlockValue true next.lexeme then
          pushNull token.place
        else parseNode true false fuel
        parseIndentless fuel
      else push .sequenceEnd token.place
termination_by structural fuel => fuel

def parseFields (start : Position) : Nat → Parse Unit
  | 0 => exhausted
  | fuel + 1 => do
      let token ← peek
      match token.lexeme with
      | .key =>
          skip
          let next ← peek
          if endsBlockValue true next.lexeme then pushNull token.place
          else parseNode true true fuel
          parseValue fuel
          parseFields start fuel
      | .blockEnd =>
          skip
          push .mappingEnd token.place
      | _ => fails .expectedField token.place (some (.blockMapping, start))
termination_by structural fuel => fuel

def parseValue : Nat → Parse Unit
  | 0 => exhausted
  | fuel + 1 => do
      let token ← peek
      if token.lexeme = .value then
        skip
        let next ← peek
        if endsBlockValue true next.lexeme then pushNull token.place
        else parseNode true true fuel
      else pushNull token.place
termination_by structural fuel => fuel

def parseFlowEntries (first : Bool) (start : Position) : Nat → Parse Unit
  | 0 => exhausted
  | fuel + 1 => do
      let token ← peek
      if token.lexeme ≠ .closeSequence && !first then
        if token.lexeme = .comma then skip
        else
          fails (.expectedSeparator ']') token.place (some (.flowSequence, start))
      let token ← peek
      match token.lexeme with
      | .closeSequence =>
          skip
          push .sequenceEnd token.place
      | .key =>
          skip
          push (.mappingStart none) token.place
          parseFlowPair fuel
          push .mappingEnd token.place
          parseFlowEntries false start fuel
      | _ =>
          parseNode false false fuel
          parseFlowEntries false start fuel
termination_by structural fuel => fuel

/-- The only field of a mapping without braces. A key that is missing takes the
token that stands there. -/
def parseFlowPair : Nat → Parse Unit
  | 0 => exhausted
  | fuel + 1 => do
      let token ← peek
      if token.lexeme = .value || endsFlowValue .closeSequence token.lexeme then
        skip
        pushNull token.place
      else parseNode false false fuel
      parseFlowValue .closeSequence fuel
termination_by structural fuel => fuel

def parseFlowValue (close : Lexeme) : Nat → Parse Unit
  | 0 => exhausted
  | fuel + 1 => do
      let token ← peek
      if token.lexeme = .value then
        skip
        let next ← peek
        if endsFlowValue close next.lexeme then pushNull next.place
        else parseNode false false fuel
      else pushNull token.place
termination_by structural fuel => fuel

def parseFlowFields (first : Bool) (start : Position) : Nat → Parse Unit
  | 0 => exhausted
  | fuel + 1 => do
      let token ← peek
      if token.lexeme ≠ .closeMapping && !first then
        if token.lexeme = .comma then skip
        else
          fails (.expectedSeparator '\x7d') token.place (some (.flowMapping, start))
      let token ← peek
      match token.lexeme with
      | .closeMapping =>
          skip
          push .mappingEnd token.place
      | .key =>
          skip
          let next ← peek
          if next.lexeme = .value || endsFlowValue .closeMapping next.lexeme then
            pushNull next.place
          else parseNode false false fuel
          parseFlowValue .closeMapping fuel
          parseFlowFields false start fuel
      | _ =>
          parseNode false false fuel
          let next ← peek
          pushNull next.place
          parseFlowFields false start fuel
termination_by structural fuel => fuel
end

/-! Documents. -/

/-- The directives in front of a document. Of the versions, 1.1 and 1.2 are known. -/
def parseDirectives (version : Bool) : Nat → Parse Unit
  | 0 => exhausted
  | fuel + 1 => do
      let token ← peek
      match token.lexeme with
      | .version major minor =>
          if version then fails .repeatedVersion token.place
          else if major = 1 && (minor = 1 || minor = 2) then
            skip
            parseDirectives true fuel
          else fails .unknownVersion token.place
      | .handle name initial =>
          if ((← get).handles.lookup name).isSome then fails .repeatedHandle token.place
          else
            skip
            modify fun parser => { parser with handles := (name, initial) :: parser.handles }
            parseDirectives version fuel
      | _ => return

/-- A document that says where it starts may be empty. -/
def parseContent (fuel : Nat) : Parse Unit := do
  let token ← peek
  match token.lexeme with
  | .version _ _ | .handle _ _ | .documentStart | .documentEnd | .finish => pushNull token.place
  | _ => parseNode true false fuel

/-- The first document. Only in front of it the mark of the start may be missing. -/
def parseDocument (fuel : Nat) : Parse Unit := do
  let first ← peek
  match first.lexeme with
  | .finish => return
  | .version _ _ | .handle _ _ | .documentStart =>
      parseDirectives false fuel
      let token ← peek
      if token.lexeme = .documentStart then
        skip
        parseContent fuel
      else fails .expectedDocument token.place
  | _ => parseNode true false fuel
  let _ ← peek

/-- Whether more stands behind the document than marks of its end. -/
def isFollowed : List Token → Bool
  | [] => true
  | token :: tokens =>
      if token.lexeme = .documentEnd then isFollowed tokens else token.lexeme ≠ .finish

end Parser

/-- The first document of a text. -/
def Document.parse (text : String) : Document :=
  let (tokens, fault) := scan text
  let parser : Parser := { tokens, fault }
  match (Parser.parseDocument (4 * tokens.length + 8)).run parser with
  | .ok _ parser =>
      { events := parser.events
        anchored := parser.anchored
        followed := Parser.isFollowed parser.tokens }
  | .error fault parser =>
      { events := parser.events, anchored := parser.anchored, fault := some fault }

end Stencil.Yaml
