import Stencil.Evaluation.Template
import Stencil.Number.Word

namespace Stencil.Template

/-! How a template is written: plain characters and directives, one behind the other. Each of them
ends by itself, so it is read in the same way whatever follows. A template that is none of this
breaks off inside a directive or holds a width beyond the limit. -/

/-! ## Directives as they are written -/

/-- A percent sign, flags and the digits of a width. Zeros in front of other digits are flags. -/
structure Opening where
  flags : List Char
  digits : List Char
  flag : ∀ character ∈ flags, character = '-' ∨ character = '0'
  digit : ∀ character ∈ digits, character.isDigit = true
  first : digits.head? ≠ some '0'

def Opening.text (opening : Opening) : List Char := '%' :: (opening.flags ++ opening.digits)

def Opening.width (opening : Opening) : Nat := Number.decimalValue opening.digits

/-- A whole directive. The verb is what neither a flag nor a digit can be. -/
structure Spelling extends Opening where
  verb : Char
  noDigit : verb.isDigit = false
  noFlag : digits = [] → verb ≠ '-'

/-- What a template consists of. -/
inductive Part where
  | plain (character : Char) (other : character ≠ '%')
  | directive (spelling : Spelling)

namespace Part

def text : Part → List Char
  | .plain character _ => [character]
  | .directive spelling => spelling.text ++ [spelling.verb]

/-- The width is within the limit. -/
def Fits : Part → Prop
  | .plain _ _ => True
  | .directive spelling => spelling.width ≤ widthLimit

/-- A directive takes an argument, unless it stands for a percent sign. -/
def takesArgument : Part → Bool
  | .plain _ _ => false
  | .directive spelling => spelling.verb != '%'

/-- What is read. -/
def piece : Part → Piece
  | .plain character _ => .literal character
  | .directive spelling =>
      if spelling.verb = '%' then .literal '%'
      else .directive ⟨spelling.flags.contains '-', spelling.flags.contains '0', spelling.width,
        spelling.verb⟩

theorem piece_ne (part : Part) : part.piece ≠ .incomplete ∧ part.piece ≠ .overflow := by
  unfold Part.piece
  split
  · exact ⟨nofun, nofun⟩
  · split <;> exact ⟨nofun, nofun⟩

end Part

def texts (parts : List Part) : List Char := parts.flatMap Part.text

/-! ## Reading flags and widths -/

/-- Neither of the flags comes next. -/
def NoFlagNext (characters : List Char) : Prop :=
  ∀ character ∈ characters.head?, character ≠ '-' ∧ character ≠ '0'

def NoDigitNext (characters : List Char) : Prop :=
  ∀ character ∈ characters.head?, character.isDigit = false

theorem readFlags_of_noFlagNext {characters : List Char} (next : NoFlagNext characters) :
    readFlags characters = (false, false, characters) := by
  cases characters with
  | nil => rfl
  | cons character rest =>
      have other := next character rfl
      unfold readFlags
      split
      · rename_i same
        exact absurd (List.cons.inj same).1 other.1
      · rename_i same
        exact absurd (List.cons.inj same).1 other.2
      · rfl

theorem readFlags_append {flags rest : List Char}
    (flag : ∀ character ∈ flags, character = '-' ∨ character = '0') (next : NoFlagNext rest) :
    readFlags (flags ++ rest) = (flags.contains '-', flags.contains '0', rest) := by
  induction flags with
  | nil => exact readFlags_of_noFlagNext next
  | cons character flags induction =>
      rw [List.forall_mem_cons] at flag
      rcases flag.1 with rfl | rfl <;>
        simp [readFlags, induction flag.2]

/-- The value of digits behind others. -/
def widened (width : Nat) (digits : List Char) : Nat :=
  digits.foldl (fun width digit => 10 * width + (digit.toNat - 48)) width

theorem le_widened (width : Nat) (digits : List Char) : width ≤ widened width digits := by
  induction digits generalizing width with
  | nil => exact Nat.le_refl width
  | cons digit digits induction =>
      exact Nat.le_trans (by omega) (induction (10 * width + (digit.toNat - 48)))

theorem readWidth_append {digits rest : List Char} {width : Nat}
    (digit : ∀ character ∈ digits, character.isDigit = true) (next : NoDigitNext rest)
    (fits : widened width digits ≤ widthLimit) :
    readWidth width (digits ++ rest) = (some (widened width digits), rest) := by
  induction digits generalizing width with
  | nil =>
      cases rest with
      | nil => rfl
      | cons character rest =>
          have other : character.isDigit = false := next character rfl
          rw [List.nil_append, readWidth, if_neg (by rw [other]; exact Bool.false_ne_true)]
          rfl
  | cons character digits induction =>
      rw [List.forall_mem_cons] at digit
      have small : 10 * width + (character.toNat - 48) ≤ widthLimit :=
        Nat.le_trans (le_widened _ digits) fits
      rw [List.cons_append, readWidth, if_pos digit.1]
      simp only [if_pos small]
      exact induction digit.2 fits

/-- The digits are given up at the first one that leads beyond the limit. -/
theorem readWidth_wide {digits : List Char} {width : Nat} (rest : List Char)
    (digit : ∀ character ∈ digits, character.isDigit = true) (small : width ≤ widthLimit)
    (wide : widthLimit < widened width digits) :
    (readWidth width (digits ++ rest)).1 = none := by
  induction digits generalizing width with
  | nil => exact absurd wide (Nat.not_lt_of_le small)
  | cons character digits induction =>
      rw [List.forall_mem_cons] at digit
      rw [List.cons_append, readWidth, if_pos digit.1]
      by_cases next : 10 * width + (character.toNat - 48) ≤ widthLimit
      · simp only [if_pos next]
        exact induction digit.2 next wide
      · simp only [if_neg next]

/-! ## Reading directives -/

theorem noFlagNext_append {digits rest : List Char}
    (digit : ∀ character ∈ digits, character.isDigit = true) (first : digits.head? ≠ some '0')
    (next : digits = [] → NoFlagNext rest) : NoFlagNext (digits ++ rest) := by
  cases digits with
  | nil => exact next rfl
  | cons character digits =>
      rintro _ ⟨⟩
      refine ⟨?_, fun zero => first (congrArg some zero)⟩
      rintro rfl
      cases digit '-' List.mem_cons_self

theorem Spelling.noFlagNext (spelling : Spelling) (rest : List Char) :
    NoFlagNext (spelling.digits ++ spelling.verb :: rest) := by
  refine noFlagNext_append spelling.digit spelling.first fun none => ?_
  rintro _ ⟨⟩
  refine ⟨spelling.noFlag none, fun zero => ?_⟩
  have other := spelling.noDigit
  rw [zero] at other
  cases other

/-- A directive is read up to its verb. -/
theorem readDirective_spelling (spelling : Spelling) (rest : List Char)
    (fits : spelling.width ≤ widthLimit) :
    readDirective (spelling.flags ++ (spelling.digits ++ spelling.verb :: rest)) =
      ((Part.directive spelling).piece, rest) := by
  have next : NoDigitNext (spelling.verb :: rest) := by
    rintro _ ⟨⟩
    exact spelling.noDigit
  rw [readDirective, readFlags_append spelling.flag (spelling.noFlagNext rest)]
  simp only [readVerb, readWidth_append spelling.digit next fits]
  rfl

theorem readDirective_wide (opening : Opening) (rest : List Char)
    (next : opening.digits = [] → NoFlagNext rest) (wide : widthLimit < opening.width) :
    (readDirective (opening.flags ++ (opening.digits ++ rest))).1 = .overflow := by
  have none := readWidth_wide rest opening.digit (Nat.zero_le widthLimit) wide
  rw [readDirective, readFlags_append opening.flag
    (noFlagNext_append opening.digit opening.first next)]
  unfold readVerb
  split
  · rfl
  · rename_i read
    rw [read] at none
    cases none
  · rename_i read
    rw [read] at none
    cases none

theorem readDirective_opening (opening : Opening) (fits : opening.width ≤ widthLimit) :
    readDirective (opening.flags ++ opening.digits) = (.incomplete, []) := by
  have noFlag : NoFlagNext (opening.digits ++ []) :=
    noFlagNext_append opening.digit opening.first fun _ => nofun
  have noDigit : NoDigitNext [] := nofun
  have width := readWidth_append opening.digit noDigit fits
  rw [List.append_nil] at noFlag width
  rw [readDirective, readFlags_append opening.flag noFlag]
  simp only [readVerb, width]

/-! ## Reading templates -/

theorem pieces_nil : pieces [] = [] := by
  rw [pieces]

/-- A part is read in the same way whatever follows it. -/
theorem pieces_part {part : Part} (fits : part.Fits) (rest : List Char) :
    pieces (part.text ++ rest) = part.piece :: pieces rest := by
  cases part with
  | plain character other =>
      change pieces (character :: rest) = _
      rw [pieces, if_neg other]
      rfl
  | directive spelling =>
      have written : (Part.directive spelling).text ++ rest =
          '%' :: (spelling.flags ++ (spelling.digits ++ spelling.verb :: rest)) := by
        simp [Part.text, Opening.text]
      rw [written, pieces, if_pos rfl, readDirective_spelling spelling rest fits]

theorem pieces_texts {parts : List Part} (fit : ∀ part ∈ parts, part.Fits) (rest : List Char) :
    pieces (texts parts ++ rest) = parts.map Part.piece ++ pieces rest := by
  induction parts with
  | nil => rfl
  | cons part parts induction =>
      rw [List.forall_mem_cons] at fit
      rw [texts, List.flatMap_cons, List.append_assoc, pieces_part fit.1, List.map_cons,
        List.cons_append]
      exact congrArg (part.piece :: ·) (induction fit.2)

theorem pieces_texts_nil {parts : List Part} (fit : ∀ part ∈ parts, part.Fits) :
    pieces (texts parts) = parts.map Part.piece := by
  have whole := pieces_texts fit []
  rwa [pieces_nil, List.append_nil, List.append_nil] at whole

/-- A width beyond the limit is noticed whatever stands behind its digits. -/
theorem pieces_wide (opening : Opening) (rest : List Char) (wide : widthLimit < opening.width) :
    ∃ others, pieces (opening.text ++ rest) = .overflow :: others := by
  have some : opening.digits ≠ [] := by
    intro none
    rw [Opening.width, none] at wide
    cases wide
  have written : opening.text ++ rest =
      '%' :: (opening.flags ++ (opening.digits ++ rest)) := by
    simp [Opening.text]
  rw [written, pieces, if_pos rfl, readDirective_wide opening rest (absurd · some) wide]
  exact ⟨_, rfl⟩

theorem overflow_mem_pieces {parts : List Part} (wide : ¬ ∀ part ∈ parts, part.Fits) :
    .overflow ∈ pieces (texts parts) := by
  induction parts with
  | nil => exact absurd nofun wide
  | cons part parts induction =>
      rw [texts, List.flatMap_cons]
      by_cases fits : part.Fits
      · rw [pieces_part fits]
        exact List.mem_cons_of_mem _
          (induction fun fit => wide (List.forall_mem_cons.mpr ⟨fits, fit⟩))
      · cases part with
        | plain character other => exact absurd trivial fits
        | directive spelling =>
            rw [Part.text, List.append_assoc]
            rcases pieces_wide spelling.toOpening _ (Nat.lt_of_not_le fits) with ⟨others, found⟩
            rw [found]
            exact List.mem_cons_self

theorem pieces_opening (opening : Opening) (fits : opening.width ≤ widthLimit) :
    pieces opening.text = [.incomplete] := by
  rw [Opening.text, pieces, if_pos rfl, readDirective_opening opening fits, pieces_nil]

/-- What stands behind the last whole part that can be read. -/
inductive Ending : List Char → Prop where
  | done : Ending []
  | incomplete (opening : Opening) (fits : opening.width ≤ widthLimit) : Ending opening.text
  | wide (opening : Opening) (wide : widthLimit < opening.width) (rest : List Char) :
      Ending (opening.text ++ rest)

theorem exists_span (condition : Char → Bool) (characters : List Char) :
    ∃ front rest, front ++ rest = characters ∧ (∀ character ∈ front, condition character = true) ∧
      ∀ character ∈ rest.head?, condition character = false := by
  induction characters with
  | nil => exact ⟨[], [], rfl, nofun, nofun⟩
  | cons character characters induction =>
      cases held : condition character with
      | true =>
          rcases induction with ⟨front, rest, rfl, all, next⟩
          exact ⟨character :: front, rest, rfl, List.forall_mem_cons.mpr ⟨held, all⟩, next⟩
      | false => exact ⟨[], character :: characters, rfl, nofun, by rintro _ ⟨⟩; exact held⟩

/-- Whatever stands behind a percent sign opens a directive. The next character is its verb. -/
theorem exists_opening (characters : List Char) :
    (∃ opening : Opening, '%' :: characters = opening.text) ∨
      ∃ (spelling : Spelling) (rest : List Char),
        '%' :: characters = (Part.directive spelling).text ++ rest := by
  rcases exists_span (fun character => character == '-' || character == '0') characters
    with ⟨flags, behind, rfl, flag, noFlag⟩
  rcases exists_span Char.isDigit behind with ⟨digits, rest, rfl, digit, noDigit⟩
  have first : digits.head? ≠ some '0' := by
    cases digits with
    | nil => nofun
    | cons character digits =>
        rintro ⟨⟩
        exact absurd (noFlag '0' rfl) (by decide)
  let opening : Opening := {
    flags, digits, digit, first
    flag := fun character member => by simpa using flag character member }
  cases rest with
  | nil => exact .inl ⟨opening, by rw [List.append_nil]; rfl⟩
  | cons verb rest =>
      have dashless : digits = [] → verb ≠ '-' := by
        rintro rfl rfl
        exact absurd (noFlag '-' rfl) (by decide)
      refine .inr ⟨{ opening with verb, noDigit := noDigit verb rfl, noFlag := dashless }, rest, ?_⟩
      simp [Part.text, Opening.text, opening]

/-- A template is a row of parts that can be read, and an ending. -/
theorem exists_parts (characters : List Char) :
    ∃ parts ending, characters = texts parts ++ ending ∧ (∀ part ∈ parts, part.Fits) ∧
      Ending ending := by
  match characters with
  | [] => exact ⟨[], [], rfl, nofun, .done⟩
  | character :: rest =>
      by_cases percent : character = '%'
      · subst percent
        rcases exists_opening rest with ⟨opening, whole⟩ | ⟨spelling, behind, written⟩
        · refine ⟨[], opening.text, whole, nofun, ?_⟩
          rcases Nat.lt_or_ge widthLimit opening.width with wide | fits
          · have ends := Ending.wide opening wide []
            rwa [List.append_nil] at ends
          · exact .incomplete opening fits
        · rcases Nat.lt_or_ge widthLimit spelling.width with wide | fits
          · refine ⟨[], spelling.text ++ spelling.verb :: behind, ?_, nofun, .wide _ wide _⟩
            rw [written]
            exact List.append_assoc _ _ _
          · have shorter : behind.length < ('%' :: rest).length := by
              rw [written, List.length_append]
              exact Nat.lt_add_of_pos_left (Nat.succ_pos _)
            rcases exists_parts behind with ⟨parts, ending, rfl, fit, ends⟩
            refine ⟨.directive spelling :: parts, ending, ?_, ?_, ends⟩
            · rw [written, texts, texts, List.flatMap_cons, List.append_assoc]
            · exact List.forall_mem_cons.mpr ⟨fits, fit⟩
      · rcases exists_parts rest with ⟨parts, ending, rfl, fit, ends⟩
        exact ⟨.plain character percent :: parts, ending, rfl,
          List.forall_mem_cons.mpr ⟨trivial, fit⟩, ends⟩
termination_by characters.length
decreasing_by
  · exact shorter
  · exact Nat.lt_succ_self rest.length

end Stencil.Template
