namespace Stencil.Number

/-! Signed words of 64 bits. Arithmetic is carried out on exact integers and
brought back by `word?`, which answers nothing for a result that does not fit. -/

def minimum : Int := -9223372036854775808

def maximum : Int := 9223372036854775807

/-- The word with this value, if there is one. -/
def word? (value : Int) : Option Int64 :=
  if minimum ≤ value ∧ value ≤ maximum then some (Int64.ofInt value) else none

theorem word?_eq_some_iff {value : Int} {word : Int64} :
    word? value = some word ↔ word.toInt = value := by
  unfold word? minimum maximum
  constructor
  · intro fits
    split at fits
    · rename_i bounds
      cases fits
      exact Int64.toInt_ofInt_of_le (by omega) (by omega)
    · cases fits
  · rintro rfl
    have lower := word.le_toInt
    have upper := word.toInt_lt
    rw [if_pos (by omega), Int64.ofInt_toInt]

theorem word?_eq_none_iff {value : Int} :
    word? value = none ↔ value < minimum ∨ maximum < value := by
  unfold word?
  split <;> simp <;> omega

/-- The value of a string of decimal digits. -/
def decimalValue (digits : List Char) : Nat :=
  digits.foldl (fun value digit => 10 * value + (digit.toNat - 48)) 0

end Stencil.Number
