import Stencil.Number.Decimal

namespace Stencil.Number

/-! The shortest decimal that reads back as a given double: of the decimals
with the fewest digits inside the rounding interval, the nearest one. -/

namespace Decimal

/-- The reals that round to a positive finite number: its value and the two
ends of the interval, all over one denominator, and whether the ends belong to
it. -/
structure Rounding where
  value : Nat
  below : Nat
  above : Nat
  denominator : Nat
  closed : Bool

def rounding (number : Decimal) : Rounding :=
  let (mantissa, power) := number.magnitude
  -- At the smallest mantissa of an exponent the numbers below stand closer.
  let narrow := number.fraction.val = 0 && 1 < number.exponent.val
  let unit := scaled 1 1 (power - 2)
  { value := 4 * mantissa * unit.1
    below := (if narrow then 4 * mantissa - 1 else 4 * mantissa - 2) * unit.1
    above := (4 * mantissa + 2) * unit.1
    denominator := unit.2
    closed := mantissa % 2 == 0 }

/-- A natural number times a power of ten, against the numerators of `rounding`. -/
private def timesTen (count : Nat) (exponent : Int) : Nat × Nat :=
  if 0 ≤ exponent then (count * Nat.pow 10 exponent.toNat, 1)
  else (count, Nat.pow 10 (-exponent).toNat)

namespace Rounding

/-- `count` times this power of ten rounds to the number. -/
def holds (rounding : Rounding) (count : Nat) (exponent : Int) : Bool :=
  let (top, bottom) := timesTen count exponent
  let left := top * rounding.denominator
  if rounding.closed then rounding.below * bottom ≤ left && left ≤ rounding.above * bottom
  else rounding.below * bottom < left && left < rounding.above * bottom

/-- The number of whole powers of ten in the value. -/
def whole (rounding : Rounding) (exponent : Int) : Nat :=
  let (top, bottom) := timesTen 1 exponent
  rounding.value * bottom / (rounding.denominator * top)

/-- The nearer of `count` and the next number of powers of ten. A half goes up,
or else to the even one. -/
def nearer (rounding : Rounding) (halfUp : Bool) (count : Nat) (exponent : Int) : Nat :=
  let (top, bottom) := timesTen 1 exponent
  let double := 2 * (rounding.value * bottom - count * rounding.denominator * top)
  let power := rounding.denominator * top
  if double < power then count
  else if power < double || halfUp then count + 1
  else count + count % 2

/-- The larger of the powers of ten that do not exceed the value, from a lower
guess on. -/
private def leadingFrom (rounding : Rounding) : Nat → Int → Int
  | 0, exponent => exponent
  | fuel + 1, exponent =>
      if rounding.whole (exponent + 1) = 0 then exponent
      else leadingFrom rounding fuel (exponent + 1)

def leading (rounding : Rounding) : Int :=
  let size : Int := (rounding.value.log2 : Int) - (rounding.denominator.log2 : Int)
  leadingFrom rounding 4 (size * 1233 / 4096 - 2)

/-- The decimal on the grid of one power of ten that rounds to the number. -/
def onGrid (rounding : Rounding) (halfUp : Bool) (exponent : Int) : Option Nat :=
  let count := rounding.whole exponent
  match rounding.holds count exponent, rounding.holds (count + 1) exponent with
  | true, false => some count
  | false, true => some (count + 1)
  | true, true => some (rounding.nearer halfUp count exponent)
  | false, false => none

/-- The first grid with a hit, from the leading digit downwards. -/
private def search (rounding : Rounding) (halfUp : Bool) : Nat → Int → Nat × Int
  | 0, exponent => (rounding.whole exponent, exponent)
  | fuel + 1, exponent =>
      match rounding.onGrid halfUp exponent with
      | some count => (count, exponent)
      | none => search rounding halfUp fuel (exponent - 1)

/-- Digits and their decimal exponent. Seventeen digits always suffice. -/
def shortest (rounding : Rounding) (halfUp : Bool) : Nat × Int :=
  rounding.search halfUp 17 rounding.leading

end Rounding

/-! How a number is laid out. Digits are positional while the exponent of the
leading digit lies in a range, if there is one, and scientific outside it. -/

structure Layout where
  halfUp : Bool
  positional : Option (Int × Int)
  wholeSuffix : String
  positiveMark : String
  negativeMark : String
  nan : String
  infinity : String

/-- Always positional, whole numbers without a point, halves up. -/
def Layout.plain : Layout := ⟨true, none, "", "e", "e-", "NaN", "inf"⟩

/-- Positional from 1e-5 to below 1e16, with at least one digit behind the point,
and halves to even. -/
def Layout.data : Layout := ⟨false, some (-5, 15), ".0", "e+", "e-", "null", "null"⟩

/-- As in data, without a plus sign at the exponent. -/
def Layout.block : Layout := ⟨false, some (-5, 15), ".0", "e", "e-", ".nan", ".inf"⟩

def zeros (count : Nat) : String := .ofList (List.replicate count '0')

/-- Digits around a decimal point that stands this many places behind the first digit. -/
def positionalText (digits : List Char) (places : Int) (wholeSuffix : String) : String :=
  if places ≤ 0 then "0." ++ zeros (-places).toNat ++ .ofList digits
  else
    let places := places.toNat
    if digits.length ≤ places then
      .ofList digits ++ zeros (places - digits.length) ++ wholeSuffix
    else .ofList (digits.take places) ++ "." ++ .ofList (digits.drop places)

def scientificText (digits : List Char) (exponent : Int) (layout : Layout) : String :=
  let mantissa := match digits with
    | [] => ""
    | [digit] => digit.toString
    | digit :: rest => digit.toString ++ "." ++ .ofList rest
  if 0 ≤ exponent then mantissa ++ layout.positiveMark ++ toString exponent.toNat
  else mantissa ++ layout.negativeMark ++ toString (-exponent).toNat

def dropZeros (digits : List Char) : List Char :=
  (digits.reverse.dropWhile (· == '0')).reverse

def text (layout : Layout) (number : Decimal) : String :=
  if number.isNaN then layout.nan
  else
    let sign := if number.negative then "-" else ""
    if number.isInfinite then sign ++ layout.infinity
    else if number.isZero then sign ++ "0" ++ layout.wholeSuffix
    else
      let (count, exponent) := number.rounding.shortest layout.halfUp
      let digits := Nat.toDigits 10 count
      let leading := exponent + digits.length - 1
      let positional := match layout.positional with
        | none => true
        | some (first, last) => decide (first ≤ leading) && decide (leading ≤ last)
      sign ++ (if positional then
          positionalText (dropZeros digits) (leading + 1) layout.wholeSuffix
        else scientificText (dropZeros digits) leading layout)

end Decimal

end Stencil.Number
