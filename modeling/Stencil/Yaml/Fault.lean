import Stencil.Text.Position
import Stencil.Text.Shown

namespace Stencil.Yaml

/-! Why a text holds no tree: a problem at a place, the part of the text that was
being read there, with the place where it starts, and the way to the value that
the problem belongs to. -/

inductive Problem where
  /-- The number counts the bytes in front of the character. -/
  | controlCharacter (offset : Nat)
  -- Tokens
  | unexpectedCharacter
  | expectedColon
  | unexpectedEntry
  | unexpectedKey
  | unexpectedValue
  | unclosedText
  | documentMarkInText
  | unknownEscape
  | expectedHexadecimal
  | invalidCharacter
  | unexpectedColon
  | tabInPlainText
  | tabInBlockText
  | zeroIndentation
  | expectedLineEnd
  | expectedName
  | expectedBang
  | expectedUri
  | expectedOctet
  | leadingOctet
  | trailingOctet
  | expectedAngle
  | expectedBlank
  | expectedBlankOrLineEnd
  | expectedDirectiveName
  | directiveNameEnd
  | unknownDirective
  | expectedVersionPoint
  | expectedVersionNumber
  | longVersionNumber
  -- Documents and nodes
  | repeatedVersion
  | unknownVersion
  | repeatedHandle
  | unknownHandle
  | expectedDocument
  | expectedNode
  | expectedDash
  | expectedField
  | expectedSeparator (close : Char)
  -- Values
  | unknownAnchor
  | nestedTooDeeply
  | repeatedTooOften
  | duplicateKey (key : String)
  | wideInteger (value : Int)
  | unfitText (content expected : String)
  | severalDocuments
deriving DecidableEq, Repr

def Problem.message : Problem → String
  | .controlCharacter offset =>
      "control characters are not allowed"
        ++ (if offset = 0 then "" else " at position " ++ toString offset)
  | .unexpectedCharacter => "found character that cannot start any token"
  | .expectedColon => "could not find expected ':'"
  | .unexpectedEntry => "block sequence entries are not allowed in this context"
  | .unexpectedKey => "mapping keys are not allowed in this context"
  | .unexpectedValue => "mapping values are not allowed in this context"
  | .unclosedText => "found unexpected end of stream"
  | .documentMarkInText => "found unexpected document indicator"
  | .unknownEscape => "found unknown escape character"
  | .expectedHexadecimal => "did not find expected hexadecimal number"
  | .invalidCharacter => "found invalid Unicode character escape code"
  | .unexpectedColon => "found unexpected ':'"
  | .tabInPlainText => "found a tab character that violates indentation"
  | .tabInBlockText => "found a tab character where an indentation space is expected"
  | .zeroIndentation => "found an indentation indicator equal to 0"
  | .expectedLineEnd => "did not find expected comment or line break"
  | .expectedName => "did not find expected alphabetic or numeric character"
  | .expectedBang => "did not find expected '!'"
  | .expectedUri => "did not find expected tag URI"
  | .expectedOctet => "did not find URI escaped octet"
  | .leadingOctet => "found an incorrect leading UTF-8 octet"
  | .trailingOctet => "found an incorrect trailing UTF-8 octet"
  | .expectedAngle => "did not find the expected '>'"
  | .expectedBlank => "did not find expected whitespace"
  | .expectedBlankOrLineEnd => "did not find expected whitespace or line break"
  | .expectedDirectiveName => "could not find expected directive name"
  | .directiveNameEnd => "found unexpected non-alphabetical character"
  | .unknownDirective => "found unknown directive name"
  | .expectedVersionPoint => "did not find expected digit or '.' character"
  | .expectedVersionNumber => "did not find expected version number"
  | .longVersionNumber => "found extremely long version number"
  | .repeatedVersion => "found duplicate %YAML directive"
  | .unknownVersion => "found incompatible YAML document"
  | .repeatedHandle => "found duplicate %TAG directive"
  | .unknownHandle => "found undefined tag handle"
  | .expectedDocument => "did not find expected <document start>"
  | .expectedNode => "did not find expected node content"
  | .expectedDash => "did not find expected '-' indicator"
  | .expectedField => "did not find expected key"
  | .expectedSeparator close => "did not find expected ',' or '" ++ close.toString ++ "'"
  | .unknownAnchor => "unknown anchor"
  | .nestedTooDeeply => "recursion limit exceeded"
  | .repeatedTooOften => "repetition limit exceeded"
  | .duplicateKey key => "duplicate entry " ++ key
  | .wideInteger value =>
      "invalid type: integer \x60" ++ toString value ++ "\x60 as "
        ++ (if value < 0 then "i128" else "u128") ++ ", expected any YAML value"
  | .unfitText content expected =>
      "invalid value: string " ++ Text.shown content ++ ", expected " ++ expected
  | .severalDocuments =>
      "deserializing from YAML containing more than one document is not supported"

inductive Part where
  | token
  | simpleKey
  | plainText
  | quotedText
  | escape
  | blockText
  | anchor
  | alias
  | tag
  | tagUri
  | directive
  | versionDirective
  | tagDirective
  | tagDirectiveHandle
  | tagDirectiveHandleEnd
  | tagDirectiveUri
  | node
  | blockNode
  | flowNode
  | blockSequence
  | blockMapping
  | flowSequence
  | flowMapping
deriving DecidableEq, Repr

def Part.message : Part → String
  | .token => "while scanning for the next token"
  | .simpleKey => "while scanning a simple key"
  | .plainText => "while scanning a plain scalar"
  | .quotedText => "while scanning a quoted scalar"
  | .escape => "while parsing a quoted scalar"
  | .blockText => "while scanning a block scalar"
  | .anchor => "while scanning an anchor"
  | .alias => "while scanning an alias"
  | .tag => "while scanning a tag"
  | .tagUri => "while parsing a tag"
  | .directive => "while scanning a directive"
  | .versionDirective => "while scanning a %YAML directive"
  | .tagDirective => "while scanning a %TAG directive"
  | .tagDirectiveHandle => "while scanning a tag directive"
  | .tagDirectiveHandleEnd => "while parsing a tag directive"
  | .tagDirectiveUri => "while parsing a %TAG directive"
  | .node => "while parsing a node"
  | .blockNode => "while parsing a block node"
  | .flowNode => "while parsing a flow node"
  | .blockSequence => "while parsing a block collection"
  | .blockMapping => "while parsing a block mapping"
  | .flowSequence => "while parsing a flow sequence"
  | .flowMapping => "while parsing a flow mapping"

/-- A step from a collection to one of its values. A field has a name here if its
key is a scalar. -/
inductive Step where
  | entry (index : Nat)
  | field (key : String)
  | namelessField
deriving DecidableEq, Repr

/-- The text of the way from the root, whose last step comes first. -/
def pathText : List Step → String
  | [] => "."
  | .entry index :: parent => pathText parent ++ "[" ++ toString index ++ "]"
  | .field key :: parent => (if parent.isEmpty then "" else pathText parent ++ ".") ++ key
  | .namelessField :: parent => (if parent.isEmpty then "" else pathText parent ++ ".") ++ "?"

structure Fault where
  problem : Problem
  place : Position
  part : Option (Part × Position) := none
  path : List Step := []
deriving DecidableEq, Repr

namespace Fault

/-- The very start of the text is not told. -/
def placeText (place : Position) : String :=
  if place = .start then ""
  else " at line " ++ toString place.line ++ " column " ++ toString place.column

def partText (fault : Fault) : String :=
  match fault.part with
  | none => ""
  | some (part, start) =>
      ", " ++ part.message ++ (if start = fault.place then "" else placeText start)

def message (fault : Fault) : String :=
  let path := pathText fault.path
  (if path = "." then "" else path ++ ": ")
    ++ fault.problem.message ++ placeText fault.place ++ fault.partText

end Fault

example : pathText [.entry 0, .entry 1, .field "b", .field "a"] = "a.b[1][0]" := by
  decide +kernel

example : pathText [.entry 0, .entry 0] = ".[0][0]" := by decide +kernel

end Stencil.Yaml
