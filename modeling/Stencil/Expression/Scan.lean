import Stencil.Text.Blank
import Stencil.Number.Word
import Stencil.Expression.ParseError

namespace Stencil

/-! Names start with a letter or an underscore and go on with letters, digits,
underscores, and dashes that a further name start follows. Letters and digits
are those of ASCII. -/

def isNameStart (character : Char) : Bool :=
  character.isAlpha || character == '_'

def isNamePart (character : Char) : Bool :=
  character.isAlphanum || character == '_'

/-- How many characters continue a name. -/
def nameLength : List Char → Nat
  | [] => 0
  | '-' :: character :: rest =>
      if isNameStart character then nameLength (character :: rest) + 1 else 0
  | character :: rest => if isNamePart character then nameLength rest + 1 else 0

/-! Text literals. A backslash takes the next character as it is, apart from the
three that stand for a control character. -/

def unescape : Char → Char
  | 'n' => '\n'
  | 't' => '\t'
  | 'r' => '\r'
  | character => character

/-- The value of a literal from behind its opening quote, and the number of
characters it takes together with its closing quote. -/
def textLiteral : List Char → Except ParseFault (List Char × Nat)
  | [] => .error .unterminatedText
  | '"' :: _ => .ok ([], 1)
  | ['\\'] => .error .unterminatedEscape
  | '\\' :: character :: rest => do
      let (value, length) ← textLiteral rest
      return (unescape character :: value, length + 2)
  | character :: rest => do
      let (value, length) ← textLiteral rest
      return (character :: value, length + 1)

/-! Tokens made of symbols. The answer holds the number of characters behind
the first one. -/

/-- The word stands at the front and no name goes on behind it. -/
def startsWithWord (word characters : List Char) : Bool :=
  word.isPrefixOf characters && !(characters.drop word.length).head?.any isNamePart

def symbolToken? : Char → List Char → Option (Token × Nat)
  | '-', '>' :: _ => some (.arrow, 1)
  | '-', rest =>
      if startsWithWord ['a', 'n', 'd'] rest then some (.and, 3)
      else if startsWithWord ['o', 'r'] rest then some (.or, 2)
      else some (.minus, 0)
  | '|', '|' :: _ => some (.fallback, 1)
  | '|', _ => some (.pipe, 0)
  | '=', '=' :: _ => some (.equal, 1)
  | '!', '=' :: _ => some (.notEqual, 1)
  | '!', _ => some (.bang, 0)
  | '<', '=' :: _ => some (.lessOrEqual, 1)
  | '<', _ => some (.less, 0)
  | '>', '=' :: _ => some (.greaterOrEqual, 1)
  | '>', _ => some (.greater, 0)
  | '.', _ => some (.dot, 0)
  | ',', _ => some (.comma, 0)
  | '(', _ => some (.leftParenthesis, 0)
  | ')', _ => some (.rightParenthesis, 0)
  | '[', _ => some (.leftBracket, 0)
  | ']', _ => some (.rightBracket, 0)
  | '+', _ => some (.plus, 0)
  | '*', _ => some (.star, 0)
  | '/', _ => some (.slash, 0)
  | '%', _ => some (.percent, 0)
  | '?', _ => some (.question, 0)
  | ':', _ => some (.colon, 0)
  | _, _ => none

/-- The token that starts with this character, and how many of the characters
behind it belong to it. -/
def scanToken (first : Char) (rest : List Char) : Except ParseFault (Token × Nat) :=
  if first.isDigit then
    let digits := rest.takeWhile Char.isDigit
    match Number.word? (Number.decimalValue (first :: digits)) with
    | some value => .ok (.integer value, digits.length)
    | none => .error (.integerOutOfRange (.ofList (first :: digits)))
  else if first = '"' then
    (textLiteral rest).map fun (value, length) => (.text (.ofList value), length)
  else if isNameStart first then
    let length := nameLength rest
    .ok (.identifier (.ofList (first :: rest.take length)), length)
  else
    match symbolToken? first rest with
    | some (token, length) => .ok (token, length)
    | none => .error (.unexpectedCharacter first)

/-- The lexemes of a source text from a given position on, up to and including
the one that marks its end. -/
def scanFrom (position : Position) (spaced : Bool) :
    List Char → Except ParseError (List Lexeme)
  | [] => .ok [⟨.finish, position, spaced⟩]
  | first :: rest =>
      if Text.isBlank first then scanFrom (position.next first) true rest
      else
        match scanToken first rest with
        | .error fault => .error ⟨fault, position⟩
        | .ok (token, length) => do
            let behind := position.after (first :: rest.take length)
            let lexemes ← scanFrom behind false (rest.drop length)
            return ⟨token, position, spaced⟩ :: lexemes
termination_by characters => characters.length
decreasing_by
  · simp
  · simp only [List.length_drop, List.length_cons]; omega

def scan (source : String) : Except ParseError (List Lexeme) :=
  scanFrom .start false source.toList

end Stencil
