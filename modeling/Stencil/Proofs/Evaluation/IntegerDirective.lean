import Stencil.Evaluation.TextFunction
import Stencil.Proofs.Evaluation.Rendering

namespace Stencil

/-! Directives for integers. The digits of a number are all written, in the base of the verb and
behind the sign. Flags and width add spaces around the number or zeros in front of its digits, and
change nothing of it, so the number is read back from what is written. -/

/-! ## Digits to a base -/

/-- How integers are written. The digits above nine are letters, all of one case. -/
structure Numerals where
  base : Nat
  upper : Bool
  least : 1 < base := by decide
  most : base ≤ 16 := by decide

namespace Numerals

def ofVerb? : Char → Option Numerals
  | 'd' => some { base := 10, upper := false }
  | 'x' => some { base := 16, upper := false }
  | 'X' => some { base := 16, upper := true }
  | 'o' => some { base := 8, upper := false }
  | 'b' => some { base := 2, upper := false }
  | _ => none

/-- What a digit counts, to whatever base. -/
def count? (upper : Bool) (character : Char) : Option Nat :=
  if character.isDigit then some (character.toNat - 48)
  else if upper && character.isUpper then some (character.toNat - 55)
  else if !upper && character.isLower then some (character.toNat - 87)
  else none

variable (numerals : Numerals)

def digit? (character : Char) : Option Nat :=
  (count? numerals.upper character).filter (· < numerals.base)

/-- The value of digits behind others. -/
def further? (value : Nat) (digits : List Char) : Option Nat :=
  digits.foldlM (fun value digit => (numerals.digit? digit).map (numerals.base * value + ·)) value

/-- The value of digits, of which there is one at least. -/
def natural? (digits : List Char) : Option Nat :=
  if digits.isEmpty then none else numerals.further? 0 digits

/-- The value of digits that may have a minus sign in front. -/
def integer? : List Char → Option Int
  | '-' :: digits => (numerals.natural? digits).map fun (magnitude : Nat) => -(magnitude : Int)
  | digits => (numerals.natural? digits).map Int.ofNat

def figure (number : Nat) : Char :=
  if numerals.upper then (Nat.digitChar number).toUpper else Nat.digitChar number

/-- The digits of a number. -/
def digits (number : Nat) : List Char :=
  let digits := Nat.toDigits numerals.base number
  if numerals.upper then digits.map Char.toUpper else digits

variable {numerals} {text : List Char} {start value : Nat}

theorem digit?_figure {number : Nat} (small : number < numerals.base) :
    numerals.digit? (numerals.figure number) = some number := by
  have counts : ∀ upper, ∀ number < 16,
      count? upper (figure { base := 2, upper } number) = some number := by
    decide
  have here : count? numerals.upper (numerals.figure number) = some number :=
    counts numerals.upper number (Nat.lt_of_lt_of_le small numerals.most)
  rw [digit?, here, Option.filter_some, if_pos (decide_eq_true small)]

theorem digit?_zero : numerals.digit? '0' = some 0 := by
  have zero : numerals.figure 0 = '0' := by
    unfold figure
    split <;> rfl
  rw [← zero, digit?_figure (Nat.lt_of_succ_lt numerals.least)]

/-! ## Digits are read back -/

theorem digits_eq (number : Nat) :
    numerals.digits number =
      if number < numerals.base then [numerals.figure number]
      else numerals.digits (number / numerals.base) ++
        [numerals.figure (number % numerals.base)] := by
  unfold digits figure
  rw [Nat.toDigits_eq_if numerals.least]
  split <;> split <;> simp

theorem digits_ne_nil (number : Nat) : numerals.digits number ≠ [] := by
  rw [digits_eq]
  split
  · exact List.cons_ne_nil _ _
  · exact List.concat_ne_nil _ _

theorem further?_append (value : Nat) (front text : List Char) :
    numerals.further? value (front ++ text) =
      (numerals.further? value front).bind (numerals.further? · text) :=
  List.foldlM_append

theorem further?_digits (number : Nat) :
    numerals.further? 0 (numerals.digits number) = some number := by
  induction number using Nat.strongRecOn with
  | ind number induction =>
      have base := numerals.least
      rw [digits_eq]
      split
      · rename_i small
        simp [further?, digit?_figure small]
      · rename_i large
        have before := induction (number / numerals.base) (Nat.div_lt_self (by omega) base)
        have last : numerals.digit? (numerals.figure (number % numerals.base)) = _ :=
          digit?_figure (Nat.mod_lt number (by omega))
        rw [further?_append, before]
        simp [further?, last, Nat.div_add_mod]

/-- Zeros in front of digits do not count. -/
theorem further?_zeros (count : Nat) :
    numerals.further? 0 (List.replicate count '0' ++ text) = numerals.further? 0 text := by
  induction count with
  | zero => rfl
  | succ count induction =>
      rw [List.replicate_succ, List.cons_append, ← induction]
      simp [further?, digit?_zero]

/-- What is read consists of digits. -/
theorem isSome_digit? (reads : numerals.further? start text = some value) :
    ∀ character ∈ text, (numerals.digit? character).isSome = true := by
  induction text generalizing start with
  | nil => exact nofun
  | cons first text induction =>
      rw [further?, List.foldlM_cons, Option.bind_eq_bind, Option.bind_eq_some_iff] at reads
      rcases reads with ⟨next, counts, reads⟩
      rcases Option.map_eq_some_iff.mp counts with ⟨digit, found, -⟩
      exact List.forall_mem_cons.mpr ⟨by rw [found]; rfl, induction reads⟩

theorem not_mem_of_further? {other : Char} (reads : numerals.further? start text = some value)
    (none : numerals.digit? other = none) : other ∉ text := by
  intro member
  have digit := isSome_digit? reads other member
  rw [none] at digit
  cases digit

theorem digit?_minus : numerals.digit? '-' = none := by
  unfold digit?
  cases numerals.upper <;> rfl

theorem digit?_space : numerals.digit? ' ' = none := by
  unfold digit?
  cases numerals.upper <;> rfl

end Numerals

/-- A minus sign for the numbers below zero. -/
def signOf (value : Int) : List Char := if value < 0 then ['-'] else []

theorem signOf_cases (value : Int) : signOf value = [] ∨ signOf value = ['-'] := by
  unfold signOf
  split
  · exact .inr rfl
  · exact .inl rfl

theorem Numerals.natural?_of_further? {numerals : Numerals} {value : Nat} {text : List Char}
    (filled : text ≠ []) (reads : numerals.further? 0 text = some value) :
    numerals.natural? text = some value := by
  rw [natural?, if_neg (by simpa using filled), reads]

theorem Numerals.integer?_signed {numerals : Numerals} {value : Int} {text : List Char}
    (filled : text ≠ []) (reads : numerals.further? 0 text = some value.natAbs) :
    numerals.integer? (signOf value ++ text) = some value := by
  have natural := natural?_of_further? filled reads
  unfold signOf
  split
  · rename_i negative
    rw [List.singleton_append, integer?, natural, Option.map_some]
    exact congrArg some (by omega)
  · rename_i positive
    rw [List.nil_append]
    unfold integer?
    split
    · exact absurd List.mem_cons_self (not_mem_of_further? reads digit?_minus)
    · rw [natural, Option.map_some]
      exact congrArg some (Int.natAbs_of_nonneg (Int.not_lt.mp positive))

/-! ## Spaces around a text -/

theorem TextFunction.trimWhere_between {condition : Char → Bool} {before text behind : List Char}
    (filled : text ≠ []) (solid : ∀ character ∈ text, condition character = false)
    (front : ∀ character ∈ before, condition character = true)
    (back : ∀ character ∈ behind, condition character = true) :
    trimWhere condition (.ofList (before ++ (text ++ behind))) = .ofList text := by
  have stays {text : List Char} (filled : text ≠ []) (more : List Char)
      (solid : ∀ character ∈ text, condition character = false) :
      (text ++ more).dropWhile condition = text ++ more := by
    obtain ⟨first, others, rfl⟩ := List.exists_cons_of_ne_nil filled
    exact List.dropWhile_cons_of_neg (by simp [solid first List.mem_cons_self])
  have reversed : text.reverse ≠ [] := by simpa using filled
  have last := stays reversed [] fun character member => solid character (List.mem_reverse.mp member)
  rw [List.append_nil] at last
  rw [trimWhere, String.toList_ofList, List.dropWhile_append_of_pos front, stays filled behind solid,
    List.reverse_append, List.dropWhile_append_of_pos (fun character member =>
      back character (List.mem_reverse.mp member)), last, List.reverse_reverse]

/-- Spaces around a number and zeros in front of its digits do not change it. -/
theorem Numerals.integer?_filled (numerals : Numerals) (value : Int) (before zeros behind : Nat) :
    let number := signOf value ++ (List.replicate zeros '0' ++ numerals.digits value.natAbs)
    numerals.integer? (TextFunction.trimWhere (· == ' ') (.ofList
      (List.replicate before ' ' ++ (number ++ List.replicate behind ' ')))).toList =
        some value := by
  intro number
  have filled : List.replicate zeros '0' ++ numerals.digits value.natAbs ≠ [] :=
    List.append_ne_nil_of_right_ne_nil _ (digits_ne_nil _)
  have reads : numerals.further? 0 (List.replicate zeros '0' ++ numerals.digits value.natAbs) =
      some value.natAbs := by
    rw [further?_zeros, further?_digits]
  have solid : ∀ character ∈ number, (character == ' ') = false := by
    refine List.forall_mem_append.mpr ⟨?_, fun character member => ?_⟩
    · rcases signOf_cases value with none | minus
      · simp [none]
      · simp [minus]
    · rw [beq_eq_false_iff_ne]
      rintro rfl
      exact not_mem_of_further? reads digit?_space member
  have blank (count : Nat) : ∀ character ∈ List.replicate count ' ', (character == ' ') = true :=
    List.forall_mem_replicate.mpr (.inr rfl)
  rw [TextFunction.trimWhere_between (List.append_ne_nil_of_right_ne_nil _ filled) solid
    (blank before) (blank behind), String.toList_ofList]
  exact integer?_signed filled reads

/-! ## Integers as arguments -/

namespace Directive

variable {verb : Char} {numerals : Numerals} {value : Int64} {text : String} {sign digits : List Char}

theorem argumentText_integer (numeric : Numerals.ofVerb? verb = some numerals) (value : Int64) :
    argumentText verb (.integer value) =
      .ok (.ofList (signOf value.toInt ++ numerals.digits value.toInt.natAbs)) := by
  have signed (base : Nat) (upper : Bool) (least : 1 < base) (most : base ≤ 16) :
      signedText base upper value = .ofList (signOf value.toInt ++
        (Numerals.mk base upper least most).digits value.toInt.natAbs) := by
    apply String.toList_injective
    by_cases negative : value.toInt < 0 <;> cases upper <;>
      simp [signedText, signOf, Numerals.digits, negative]
  unfold Numerals.ofVerb? at numeric
  split at numeric <;> cases numeric <;> exact congrArg Except.ok (signed ..)

theorem isNumeric_of_ofVerb? (numeric : Numerals.ofVerb? verb = some numerals) :
    isNumeric verb = true := by
  unfold Numerals.ofVerb? at numeric
  split at numeric <;> cases numeric <;> rfl

/-- Where a text is filled: behind it, behind its sign, or in front of it. -/
theorem toList_pad (directive : Directive) (numeric : isNumeric directive.verb = true)
    (signed : sign = [] ∨ sign = ['-']) (unsigned : '-' ∉ digits) :
    (directive.pad (.ofList (sign ++ digits))).toList =
      let fill := List.replicate (directive.width - (sign ++ digits).length)
      if directive.left then sign ++ digits ++ fill ' '
      else if directive.zeros then sign ++ (fill '0' ++ digits)
      else fill ' ' ++ (sign ++ digits) := by
  unfold pad
  rw [numeric, Bool.and_true, String.length_ofList, String.toList_ofList]
  split
  · exact String.toList_ofList
  · split
    · rcases signed with rfl | rfl
      · rw [List.nil_append, List.nil_append]
        split
        · exact absurd List.mem_cons_self unsigned
        · exact String.toList_ofList
      · exact String.toList_ofList
    · exact String.toList_ofList

end Directive

namespace Template

/-- The digits of a width. None is as good as zero. -/
def widthDigits (width : Nat) : List Char :=
  if width = 0 then [] else Nat.toDigits 10 width

/-- A directive as it is written. -/
def directiveText (flags : List Char) (width : Nat) (verb : Char) : String :=
  .ofList ('%' :: (flags ++ widthDigits width) ++ [verb])

theorem isDigit_of_mem_widthDigits (width : Nat) :
    ∀ character ∈ widthDigits width, character.isDigit = true := by
  unfold widthDigits
  split
  · exact nofun
  · exact fun _ => Nat.isDigit_of_mem_toDigits (by decide) (by decide)

theorem head?_widthDigits (width : Nat) : (widthDigits width).head? ≠ some '0' := by
  induction width using Nat.strongRecOn with
  | ind width induction =>
      unfold widthDigits
      split
      · exact nofun
      · rename_i positive
        rw [Nat.toDigits_eq_if (by decide)]
        split
        · rename_i small
          have digit : ∀ width < 10, width ≠ 0 → Nat.digitChar width ≠ '0' := by decide
          exact fun zero => digit width small positive (Option.some.inj zero)
        · rename_i large
          have others := induction (width / 10) (by omega)
          rw [widthDigits, if_neg (by omega)] at others
          rwa [List.head?_append_of_ne_nil _ Nat.toDigits_ne_nil]

theorem decimalValue_widthDigits (width : Nat) :
    Number.decimalValue (widthDigits width) = width := by
  unfold widthDigits
  split
  · rename_i zero
    exact zero.symm
  · exact decimalValue_toDigits width

variable {flags : List Char} {width : Nat} {verb : Char} {numerals : Numerals} {argument : Node}
  {text : String}

/-- A directive for integers ends with its verb. -/
def Spelling.ofVerb (flag : ∀ character ∈ flags, character = '-' ∨ character = '0') (width : Nat)
    (numeric : Numerals.ofVerb? verb = some numerals) : Spelling where
  flags
  digits := widthDigits width
  flag
  digit := isDigit_of_mem_widthDigits width
  first := head?_widthDigits width
  verb
  noDigit := by
    unfold Numerals.ofVerb? at numeric
    split at numeric <;> cases numeric <;> rfl
  noFlag _ := by
    rintro rfl
    cases numeric

theorem render_directive (flag : ∀ character ∈ flags, character = '-' ∨ character = '0')
    (fits : width ≤ widthLimit) (numeric : Numerals.ofVerb? verb = some numerals)
    (made : Directive.argumentText verb argument.value = .ok text) :
    render (directiveText flags width verb) [argument] =
      .ok (.ok (Directive.pad ⟨flags.contains '-', flags.contains '0', width, verb⟩ text)) := by
  have counted := decimalValue_widthDigits width
  have percent : verb ≠ '%' := by
    rintro rfl
    cases numeric
  let part := Part.directive (.ofVerb flag width numeric)
  have within : part.Fits := Nat.le_trans (Nat.le_of_eq counted) fits
  have piece : part.piece =
      .directive ⟨flags.contains '-', flags.contains '0', width, verb⟩ :=
    (if_neg percent).trans (congrArg (fun width => Piece.directive ⟨_, _, width, verb⟩) counted)
  have written : (directiveText flags width verb).toList = texts [part] := by
    simp [directiveText, texts, part, Part.text, Opening.text, Spelling.ofVerb]
  rw [render, written, pieces_texts_nil (List.forall_mem_singleton.mpr within),
    List.map_singleton, piece, fill, made]
  exact congrArg (fun text => Except.ok (Except.ok text)) String.append_empty

end Template

end Stencil
