import Stencil.Number.Read
import Stencil.Tree

namespace Stencil.Yaml

/-! What a text without quotes stands for: null, a truth value, a number, or itself. -/

def isNull (content : String) : Bool := ["", "~", "null", "Null", "NULL"].contains content

def boolean? (content : String) : Option Bool :=
  if ["true", "True", "TRUE"].contains content then some true
  else if ["false", "False", "FALSE"].contains content then some false
  else none

/-- Digits that are no number because of the zero they start with. -/
def isDigitsWithZero (characters : List Char) : Bool :=
  let digits := match characters with
    | '-' :: rest | '+' :: rest => rest
    | _ => characters
  match digits with
  | '0' :: digit :: rest => (digit :: rest).all Char.isDigit
  | _ => false

def digitValue? (base : Nat) (character : Char) : Option Nat :=
  let value :=
    if character.isDigit then character.toNat - 48
    else if 'a' ≤ character ∧ character ≤ 'z' then character.toNat - 87
    else if 'A' ≤ character ∧ character ≤ 'Z' then character.toNat - 55
    else base
  if value < base then some value else none

def readBase? (base : Nat) (digits : List Char) : Option Nat :=
  if digits.isEmpty then none
  else digits.foldlM (fun value digit => (digitValue? base digit).map (base * value + ·)) 0

/-- An integer in decimal, hexadecimal, octal or binary notation. -/
def wholeNumber? (characters : List Char) : Option Int :=
  let (negative, digits) := match characters with
    | '-' :: rest => (true, rest)
    | '+' :: rest => (false, rest)
    | _ => (false, characters)
  let magnitude : Option Nat := match digits with
    | '0' :: 'x' :: rest => readBase? 16 rest
    | '0' :: 'o' :: rest => readBase? 8 rest
    | '0' :: 'b' :: rest => readBase? 2 rest
    | '0' :: _ :: _ => none
    | _ => readBase? 10 digits
  magnitude.map fun value => if negative then -(value : Int) else value

/-- An integer is read if it has a sign and 64 bits, or no sign and 64 bits. -/
def isInteger (value : Int) : Bool :=
  -(Nat.pow 2 63 : Int) ≤ value && value < Nat.pow 2 64

/-- An integer of up to 128 bits is no number that can be read. -/
def isWide (value : Int) : Bool :=
  !isInteger value && -(Nat.pow 2 127 : Int) ≤ value && value < Nat.pow 2 128

/-- A finite decimal number, or one of the names that start with a point. -/
def decimal? (characters : List Char) : Option Number.Decimal :=
  match String.ofList characters with
  | ".inf" | ".Inf" | ".INF" | "+.inf" | "+.Inf" | "+.INF" => some (.infinity false)
  | "-.inf" | "-.Inf" | "-.INF" => some (.infinity true)
  | ".nan" | ".NaN" | ".NAN" => some .nan
  | _ => (Number.readDecimal? characters).filter fun value => !value.isInfinite && !value.isNaN

inductive Plain where
  | tree (value : Tree)
  | wide (value : Int)

/-- An integer that is wider than 128 bits becomes a decimal. -/
def Plain.ofText (content : String) : Plain :=
  let characters := content.toList
  if isNull content then .tree .null
  else
    match boolean? content, wholeNumber? characters with
    | some value, _ => .tree (.boolean value)
    | none, some value =>
        if isInteger value then .tree (.integer value)
        else if isWide value then .wide value
        else .tree (((decimal? characters).map .decimal).getD (.text content))
    | none, none =>
        if isDigitsWithZero characters then .tree (.text content)
        else .tree (((decimal? characters).map .decimal).getD (.text content))

/-- Without quotes the text would be read as something else, or not be clear. -/
def isAmbiguous (content : String) : Bool :=
  isDigitsWithZero content.toList || (match Plain.ofText content with
    | .tree (.text _) => false
    | _ => true)

end Stencil.Yaml
