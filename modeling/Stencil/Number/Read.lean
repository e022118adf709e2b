import Stencil.Number.Word
import Stencil.Number.Decimal

namespace Stencil.Number

/-! Numbers from text. An unsigned number may start with a plus sign and must
not exceed its bound. -/

def readDigits? (characters : List Char) : Option Nat :=
  if characters.isEmpty || !characters.all Char.isDigit then none
  else some (decimalValue characters)

def readUnsigned? (bound : Nat) (characters : List Char) : Option Nat :=
  let digits := match characters with
    | '+' :: rest => rest
    | _ => characters
  (readDigits? digits).filter (· ≤ bound)

/-! Decimals: digits with at most one point among them, then perhaps an
exponent. Infinity and the value that is no number go by their names. -/

private def readExponent? (characters : List Char) : Option Int :=
  match characters with
  | '-' :: digits => (readDigits? digits).map fun value => -(value : Int)
  | '+' :: digits => (readDigits? digits).map Int.ofNat
  | digits => (readDigits? digits).map Int.ofNat

private def readMagnitude? (negative : Bool) (characters : List Char) : Option Decimal :=
  let whole := characters.takeWhile Char.isDigit
  let rest := characters.dropWhile Char.isDigit
  let (places, rest) := match rest with
    | '.' :: rest => (rest.takeWhile Char.isDigit, rest.dropWhile Char.isDigit)
    | _ => ([], rest)
  if whole.isEmpty && places.isEmpty then none
  else
    let number (exponent : Int) : Decimal :=
      .ofScientific negative (decimalValue (whole ++ places)) (exponent - places.length)
    match rest with
    | [] => some (number 0)
    | mark :: exponent =>
        if mark = 'e' || mark = 'E' then (readExponent? exponent).map number else none

private def readNamed? (negative : Bool) (characters : List Char) : Option Decimal :=
  match String.ofList (characters.map Char.toLower) with
  | "inf" | "infinity" => some (.infinity negative)
  | "nan" => some .nan
  | _ => none

def readDecimal? (characters : List Char) : Option Decimal :=
  let (negative, magnitude) := match characters with
    | '-' :: rest => (true, rest)
    | '+' :: rest => (false, rest)
    | _ => (false, characters)
  readMagnitude? negative magnitude <|> readNamed? negative magnitude

end Stencil.Number
