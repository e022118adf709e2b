import Stencil.Host.Answers
import Stencil.Node.Json
import Stencil.Text.Shown

namespace Stencil

/-! Templates with directives: a percent sign, flags, a width, and the verb that
says how the next argument is written. Two percent signs are one. -/

structure Directive where
  left : Bool
  zeros : Bool
  width : Nat
  verb : Char
deriving DecidableEq, Repr

inductive Piece where
  | literal (character : Char)
  | directive (directive : Directive)
  /-- The template ends inside a directive. -/
  | incomplete
  /-- A width that exceeds the limit. -/
  | overflow
deriving DecidableEq, Repr

namespace Template

/-- The flags at the front: to the left, and filled with zeros. -/
def readFlags : List Char → Bool × Bool × List Char
  | '-' :: rest => let (_, zeros, rest) := readFlags rest; (true, zeros, rest)
  | '0' :: rest => let (left, _, rest) := readFlags rest; (left, true, rest)
  | rest => (false, false, rest)

theorem length_readFlags (characters : List Char) :
    (readFlags characters).2.2.length ≤ characters.length := by
  fun_induction readFlags characters <;> simp_all <;> omega

/-- The largest width, that of a machine word. -/
def widthLimit : Nat := 18446744073709551615

/-- The width at the front; nothing when it exceeds the limit. -/
def readWidth (width : Nat) : List Char → Option Nat × List Char
  | [] => (some width, [])
  | character :: rest =>
      if character.isDigit then
        let wider := 10 * width + (character.toNat - 48)
        if wider ≤ widthLimit then readWidth wider rest else (none, rest)
      else (some width, character :: rest)

theorem length_readWidth (width : Nat) (characters : List Char) :
    (readWidth width characters).2.length ≤ characters.length := by
  fun_induction readWidth width characters <;> simp_all
  omega

/-- The directive behind its flags, and what follows it. -/
def readVerb (left zeros : Bool) (characters : List Char) : Piece × List Char :=
  match readWidth 0 characters with
  | (none, rest) => (.overflow, rest)
  | (some _, []) => (.incomplete, [])
  | (some width, verb :: rest) =>
      (if verb = '%' then .literal '%' else .directive ⟨left, zeros, width, verb⟩, rest)

/-- The directive behind a percent sign, and what follows it. -/
def readDirective (characters : List Char) : Piece × List Char :=
  readVerb (readFlags characters).1 (readFlags characters).2.1 (readFlags characters).2.2

theorem length_readDirective (characters : List Char) :
    (readDirective characters).2.length ≤ characters.length := by
  unfold readDirective readVerb
  have flags := length_readFlags characters
  have widths := length_readWidth 0 (readFlags characters).2.2
  split <;> rename_i equation <;> rw [equation] at widths <;> simp at widths ⊢ <;> omega

def pieces : List Char → List Piece
  | [] => []
  | character :: rest =>
      if character = '%' then
        (readDirective rest).1 :: pieces (readDirective rest).2
      else .literal character :: pieces rest
termination_by characters => characters.length
decreasing_by
  · have := length_readDirective rest; simp only [List.length_cons]; omega
  · simp

end Template

/-! How an argument is written. -/

namespace Directive

def hexadecimalByte (upper : Bool) (byte : UInt8) : String :=
  let digit (value : Nat) : Char :=
    if value < 10 then Char.ofNat (48 + value)
    else Char.ofNat ((if upper then 55 else 87) + value)
  .ofList [digit (byte.toNat / 16), digit (byte.toNat % 16)]

def bytesText (upper : Bool) (text : String) : String :=
  String.join (text.toUTF8.toList.map (hexadecimalByte upper))

/-- An integer to a base, with its sign in front. -/
def signedText (base : Nat) (upper : Bool) (value : Int64) : String :=
  let digits := Nat.toDigits base value.toInt.natAbs
  let digits := if upper then digits.map Char.toUpper else digits
  (if value.toInt < 0 then "-" else "") ++ .ofList digits

def verbs : List Char := ['s', 'v', 'q', 't', 'd', 'x', 'X', 'o', 'b']

/-- What a verb makes of a value. -/
def argumentText (verb : Char) (value : Value) : Except FormatFault String :=
  match verb, value with
  | 's', .list entries | 'v', .list entries => .ok (Value.list entries).json
  | 's', .map fields | 'v', .map fields => .ok (Value.map fields).json
  | 's', value | 'v', value => .ok (value.text?.getD "")
  | 'q', value => .ok (Text.shown (value.text?.getD ""))
  | 't', .boolean value => .ok (if value then "true" else "false")
  | 'd', .integer value => .ok (signedText 10 false value)
  | 'x', .integer value => .ok (signedText 16 false value)
  | 'X', .integer value => .ok (signedText 16 true value)
  | 'o', .integer value => .ok (signedText 8 false value)
  | 'b', .integer value => .ok (signedText 2 false value)
  | 'x', .text value => .ok (bytesText false value)
  | 'X', .text value => .ok (bytesText true value)
  | verb, value =>
      if verbs.contains verb then .error (.argumentKind verb value.kind)
      else .error (.unknownVerb verb)

def isNumeric (verb : Char) : Bool := ['d', 'x', 'X', 'o', 'b'].contains verb

/-- The text brought to a width. Zeros stand between the sign and the digits. -/
def pad (directive : Directive) (text : String) : String :=
  let fill := directive.width - text.length
  let filler (character : Char) : List Char := List.replicate fill character
  if directive.left then .ofList (text.toList ++ filler ' ')
  else if directive.zeros && isNumeric directive.verb then
    match text.toList with
    | '-' :: digits => .ofList ('-' :: filler '0' ++ digits)
    | digits => .ofList (filler '0' ++ digits)
  else .ofList (filler ' ' ++ text.toList)

end Directive

namespace Template

/-- A text, or what is wrong with the template or its arguments. A width beyond the limit has
neither: it stops the program. -/
abbrev Rendering := Except Pause (Except FormatFault String)

/-- A text in front of what follows it. -/
def Rendering.behind (front : String) (rest : Rendering) : Rendering :=
  (Except.map (front ++ ·)) <$> rest

/-- Every directive takes one argument, and none may be left. -/
def fill : List Piece → List Node → Rendering
  | [], [] => .ok (.ok "")
  | [], arguments => .ok (.error (.unusedArguments arguments.length))
  | .literal character :: rest, arguments => (fill rest arguments).behind character.toString
  | .directive directive :: _, [] => .ok (.error (.missingArgument directive.verb))
  | .directive directive :: rest, argument :: arguments =>
      match Directive.argumentText directive.verb argument.value with
      | .ok text => (fill rest arguments).behind (directive.pad text)
      | .error fault => .ok (.error fault)
  | .incomplete :: _, _ => .ok (.error .incomplete)
  | .overflow :: _, _ => .error .overflow

def render (template : String) (arguments : List Node) : Rendering :=
  fill (pieces template.toList) arguments

end Template

end Stencil
