import Stencil.Proofs.Expression.RoundTrip
import Stencil.Proofs.Expression.Spacing

namespace Stencil

/-! Integers in source texts. The digits have to fit a word before the sign is looked at, so the
least word is the one integer that can not be written. -/

/-! ## Digits that do not fit -/

theorem isDigit_toDigits (value : Nat) : ∀ digit ∈ Nat.toDigits 10 value, digit.isDigit = true :=
  fun _ => Nat.isDigit_of_mem_toDigits (by decide) (by decide)

theorem scanToken_wide {value : Nat} (wide : Number.maximum < value) {first : Char}
    {others : List Char} (digits : Nat.toDigits 10 value = first :: others) :
    scanToken first others = .error (.integerOutOfRange (toString value)) := by
  have all : ∀ digit ∈ first :: others, digit.isDigit = true := digits ▸ isDigit_toDigits value
  have whole : others.takeWhile Char.isDigit = others :=
    List.takeWhile_eq_self_iff.mpr fun digit member => all digit (List.mem_cons_of_mem _ member)
  have number : Number.word? (Number.decimalValue (first :: others)) = none := by
    rw [Number.word?_eq_none_iff, ← digits, decimalValue_toDigits]
    exact .inr wide
  have text : String.ofList (first :: others) = toString value := by
    rw [← digits]
    rfl
  rw [scanToken, if_pos (all first List.mem_cons_self)]
  simp only [whole, number, text]

/-- Digits that do not fit are refused where they start. -/
theorem scanFrom_wide {value : Nat} (wide : Number.maximum < value) (position : Position)
    (spaced : Bool) : scanFrom position spaced (Nat.toDigits 10 value) =
      .error ⟨.integerOutOfRange (toString value), position⟩ := by
  cases digits : Nat.toDigits 10 value with
  | nil => exact absurd digits Nat.toDigits_ne_nil
  | cons first others =>
      have digit : first.isDigit = true :=
        isDigit_toDigits value first (digits ▸ List.mem_cons_self)
      have visible : Text.isBlank first = false :=
        not_isBlank_of_isNamePart (by simp [isNamePart, Char.isAlphanum, digit])
      exact scanFrom_fault visible (scanToken_wide wide digits) position spaced

/-- A minus before a number is a token of its own. -/
theorem scanFrom_minus (value : Nat) (position : Position) (spaced : Bool) :
    scanFrom position spaced ('-' :: Nat.toDigits 10 value) =
      (scanFrom (position.next '-') false (Nat.toDigits 10 value)).map
        (⟨.minus, position, spaced⟩ :: ·) := by
  have apart : Token.minus.endsBefore (Nat.toDigits 10 value).head? := by
    intro character member
    have digit : character.isDigit = true :=
      isDigit_toDigits value character (List.mem_of_mem_head? member)
    refine ⟨?_, ?_, ?_⟩ <;> (rintro rfl; cases digit)
  have token : scanToken '-' (Nat.toDigits 10 value) = .ok (.minus, 0) :=
    scanToken_symbol rfl (by decide) rfl (symbolToken?_minus apart)
  rw [scanFrom_token token]
  rfl

theorem toString_of_neg {value : Int} (negative : value < 0) :
    (toString value).toList = '-' :: Nat.toDigits 10 value.natAbs := by
  have same : (-value).toNat = value.natAbs := by omega
  rw [Int.toString_eq_repr, Int.repr_eq_if, if_neg (by omega), String.toList_append,
    Nat.toList_repr, same]
  rfl

/-! ## Integers as expressions -/

namespace Expression

variable {place : List String}

/-- Every word but the least one is read from its printed form. -/
theorem parse_print_integer {word : Int64} (more : Number.minimum < word.toInt) :
    parse (print (.integer word)) place = .ok (.integer word) := by
  have plain : (Expression.integer word).StandsAlone := by
    refine .inr ?_
    rw [looksPreferred, written, Written.integer]
    split <;> simp [Grammar.startsPreferred]
  exact parse_print_of_isLayered more plain trivial

theorem parse_wide {value : Nat} (wide : Number.maximum < value) :
    parse (toString (value : Int)) place =
      .error ⟨.integerOutOfRange (toString value), .start⟩ := by
  have characters : (toString (value : Int)).toList = Nat.toDigits 10 value :=
    toString_of_nonneg (Int.natCast_nonneg value)
  rw [parse, scan, characters, scanFrom_wide wide]
  rfl

/-- The digits behind a minus are refused where they start. -/
theorem parse_negative_wide {value : Int} (negative : value < 0)
    (wide : Number.maximum < value.natAbs) :
    parse (toString value) place =
      .error ⟨.integerOutOfRange (toString value.natAbs), ⟨1, 2⟩⟩ := by
  rw [parse, scan, toString_of_neg negative, scanFrom_minus, scanFrom_wide wide]
  rfl

/-- An integer is read from its decimal text if it lies between the least word and the greatest one,
the least one left out; otherwise its digits are out of range. So a word is read from its printed
form unless it is the least one. -/
theorem parse_integer (place : List String) :
    (∀ value : Int, parse (toString value) place =
      if Number.minimum < value ∧ value ≤ Number.maximum then .ok (.integer (Int64.ofInt value))
      else .error ⟨.integerOutOfRange (toString value.natAbs),
        if value < 0 then ⟨1, 2⟩ else .start⟩) ∧
    ∀ word : Int64,
      parse (print (.integer word)) place = .ok (.integer word) ↔ word ≠ Int64.minValue := by
  have reads (value : Int) : parse (toString value) place =
      if Number.minimum < value ∧ value ≤ Number.maximum then .ok (.integer (Int64.ofInt value))
      else .error ⟨.integerOutOfRange (toString value.natAbs),
        if value < 0 then ⟨1, 2⟩ else .start⟩ := by
    split
    · rename_i bounds
      have fits : Number.word? value = some (Int64.ofInt value) :=
        if_pos ⟨Int.le_of_lt bounds.1, bounds.2⟩
      have same : (Int64.ofInt value).toInt = value := Number.word?_eq_some_iff.mp fits
      have printed := @parse_print_integer place _ (same.symm ▸ bounds.1)
      rwa [print, same] at printed
    · rename_i outside
      split
      · rename_i negative
        refine parse_negative_wide negative ?_
        unfold Number.minimum Number.maximum at *
        omega
      · rename_i positive
        have cast : ((value.natAbs : Nat) : Int) = value := by omega
        have wide : Number.maximum < value.natAbs := by
          unfold Number.minimum at outside
          omega
        rw [← parse_wide wide, cast]
  refine ⟨reads, fun word => ⟨?_, fun other => ?_⟩⟩
  · rintro parses rfl
    rw [print, reads] at parses
    cases parses
  · refine parse_print_integer (lt_of_le_of_ne word.le_toInt fun least => other ?_)
    exact Int64.toInt_inj.mp least.symm

/-- The least word is printed, but not read. -/
theorem parse_integer_least :
    ¬ ∀ (value : Int) (place : List String), Number.minimum ≤ value → value ≤ Number.maximum →
      parse (toString value) place = .ok (.integer (Int64.ofInt value)) := by
  intro reads
  have read := reads Number.minimum [] (Int.le_refl _) (by decide)
  have refused := (parse_integer []).1 Number.minimum
  rw [if_neg (by decide)] at refused
  cases refused.symm.trans read

end Expression

end Stencil
