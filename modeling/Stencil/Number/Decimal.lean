namespace Stencil.Number

/-! Double-precision numbers by their three fields. A finite number is its
mantissa times a power of two; the all-ones exponent holds the infinities and
the values that are no number. -/

structure Decimal where
  negative : Bool
  exponent : Fin 2048
  fraction : Fin 4503599627370496
deriving DecidableEq, Repr

namespace Decimal

def isNaN (value : Decimal) : Bool :=
  value.exponent == 2047 && value.fraction != 0

def isInfinite (value : Decimal) : Bool :=
  value.exponent == 2047 && value.fraction == 0

def isZero (value : Decimal) : Bool :=
  value.exponent == 0 && value.fraction == 0

def zero (negative : Bool) : Decimal := ⟨negative, 0, 0⟩

def infinity (negative : Bool) : Decimal := ⟨negative, 2047, 0⟩

def nan : Decimal := ⟨false, 2047, 2251799813685248⟩

/-- Equality of numbers: what is no number equals nothing, and the two zeros are equal. -/
def same (left right : Decimal) : Bool :=
  !left.isNaN && !right.isNaN && (left == right || (left.isZero && right.isZero))

instance : BEq Decimal := ⟨same⟩

/-- The mantissa and the binary exponent of the magnitude of a finite number. -/
def magnitude (value : Decimal) : Nat × Int :=
  if value.exponent = 0 then (value.fraction, -1074)
  else (4503599627370496 + value.fraction.val, (value.exponent.val : Int) - 1075)

/-! A fraction of natural numbers times a power of two, as a numerator and a
denominator. -/

def scaled (numerator denominator : Nat) (power : Int) : Nat × Nat :=
  if 0 ≤ power then (numerator * Nat.pow 2 power.toNat, denominator)
  else (numerator, denominator * Nat.pow 2 (-power).toNat)

/-- The nearest natural number to a fraction, a half going to the even one. -/
def roundHalfEven (numerator denominator : Nat) : Nat :=
  let quotient := numerator / denominator
  let remainder := numerator % denominator
  if 2 * remainder < denominator then quotient
  else if denominator < 2 * remainder then quotient + 1
  else quotient + quotient % 2

/-- The number with this mantissa, below 2 ^ 53, and this binary exponent; too
large an exponent gives an infinity. -/
private def assemble (negative : Bool) (mantissa : Nat) (power : Int) : Decimal :=
  let exponent := if mantissa < 4503599627370496 then 0 else (power + 1075).toNat
  if exponent < 2047 then
    ⟨negative, Fin.ofNat 2048 exponent, Fin.ofNat 4503599627370496 mantissa⟩
  else infinity negative

/-- The double nearest to a fraction with a positive denominator. A half goes
to the even mantissa. -/
def ofRatio (negative : Bool) (numerator denominator : Nat) : Decimal :=
  if numerator = 0 then zero negative
  else
    let guess : Int := (numerator.log2 : Int) - (denominator.log2 : Int) - 53
    let quotientAt (power : Int) : Nat × Nat := scaled numerator denominator (-power)
    let (top, bottom) := quotientAt guess
    let power := max (if top / bottom < 9007199254740992 then guess else guess + 1) (-1074)
    let (top, bottom) := quotientAt power
    let mantissa := roundHalfEven top bottom
    if mantissa = 9007199254740992 then assemble negative 4503599627370496 (power + 1)
    else assemble negative mantissa power

def ofNat (negative : Bool) (value : Nat) : Decimal := ofRatio negative value 1

/-- The double nearest to a number of decimal digits and a decimal exponent.
Far outside the range of doubles the powers are not computed. -/
def ofScientific (negative : Bool) (digits : Nat) (exponent : Int) : Decimal :=
  if digits = 0 then zero negative
  else
    let size : Int := digits.log2 / 3
    if 400 < exponent then infinity negative
    else if exponent + size < -800 then zero negative
    else if 0 ≤ exponent then ofRatio negative (digits * Nat.pow 10 exponent.toNat) 1
    else ofRatio negative digits (Nat.pow 10 (-exponent).toNat)

end Decimal

end Stencil.Number
