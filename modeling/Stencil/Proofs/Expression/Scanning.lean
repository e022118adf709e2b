import Stencil.Expression.Print
import Stencil.Proofs.Expression.Likeness
import Stencil.Proofs.Expression.Progress

namespace Stencil

open Lexemes

/-! What the scanner makes of the characters of a token, and of tokens in a row. -/

/-! ## Names -/

/-- A name takes up the whole of a text. -/
def isName (name : String) : Bool :=
  match name.toList with
  | [] => false
  | first :: rest => isNameStart first && nameLength rest == rest.length

theorem isName_iff {name : String} :
    isName name = true ↔ ∃ first others, name.toList = first :: others ∧
      isNameStart first = true ∧ nameLength others = others.length := by
  unfold isName
  cases name.toList with
  | nil => simp
  | cons first others => simp

theorem not_isDigit_of_isNameStart {character : Char} (start : isNameStart character = true) :
    character.isDigit = false := by
  rw [Bool.eq_false_iff]
  intro digit
  simp only [isNameStart, Char.isAlpha, Char.isUpper, Char.isLower, Char.isDigit, Bool.or_eq_true,
    Bool.and_eq_true, decide_eq_true_eq, beq_iff_eq] at start digit
  rcases start with (upper | lower) | rfl
  · exact absurd (UInt32.le_trans upper.1 digit.2) (by decide)
  · exact absurd (UInt32.le_trans lower.1 digit.2) (by decide)
  · exact absurd digit.2 (by decide)

theorem isNamePart_of_isNameStart {character : Char} (start : isNameStart character = true) :
    isNamePart character = true := by
  simp only [isNameStart, Bool.or_eq_true] at start
  simp only [isNamePart, Char.isAlphanum, Bool.or_eq_true]
  tauto

theorem nameLength_part {character : Char} (part : isNamePart character = true)
    (rest : List Char) : nameLength (character :: rest) = nameLength rest + 1 := by
  have other : character ≠ '-' := by
    rintro rfl
    cases part
  rw [nameLength, if_pos part]
  exact fun next more same _ => other same

theorem nameLength_other {character : Char} (part : isNamePart character = false)
    (dash : character ≠ '-') (rest : List Char) : nameLength (character :: rest) = 0 := by
  rw [nameLength, if_neg (by simp [part])]
  exact fun next more same _ => dash same

theorem nameLength_dash (rest : List Char) :
    nameLength ('-' :: rest) =
      if rest.head?.any isNameStart then nameLength rest + 1 else 0 := by
  cases rest with
  | nil => rfl
  | cons character rest => rfl

/-- The first character is neither part of a name nor a dash. -/
def endsName (characters : List Char) : Prop :=
  ∀ character ∈ characters.head?, isNamePart character = false ∧ character ≠ '-'

theorem nameLength_append {name rest : List Char} (whole : nameLength name = name.length)
    (ends : endsName rest) : nameLength (name ++ rest) = name.length := by
  induction name with
  | nil =>
      cases rest with
      | nil => rfl
      | cons character rest =>
          have first := ends character rfl
          exact nameLength_other first.1 first.2 rest
  | cons character name induction =>
      by_cases dash : character = '-'
      · subst dash
        rw [nameLength_dash] at whole
        split at whole
        · rename_i start
          rw [List.cons_append, nameLength_dash, if_pos, induction (by simpa using whole),
            List.length_cons]
          cases name with
          | nil => cases start
          | cons next name => exact start
        · simp at whole
      · cases part : isNamePart character with
        | false =>
            rw [nameLength_other part dash] at whole
            simp at whole
        | true =>
            rw [nameLength_part part] at whole
            rw [List.cons_append, nameLength_part part, induction (by simpa using whole),
              List.length_cons]

/-- The characters that continue a name continue it by themselves. -/
theorem nameLength_take (characters : List Char) :
    nameLength (characters.take (nameLength characters)) = nameLength characters ∧
      nameLength characters ≤ characters.length := by
  induction characters with
  | nil => exact ⟨rfl, Nat.le_refl _⟩
  | cons character rest induction =>
      by_cases dash : character = '-'
      · subst dash
        rw [nameLength_dash]
        split
        · rename_i start
          refine ⟨?_, Nat.succ_le_succ induction.2⟩
          cases rest with
          | nil => cases start
          | cons next rest =>
              have part : isNamePart next = true := isNamePart_of_isNameStart start
              rw [nameLength_part part] at induction ⊢
              rw [List.take_succ_cons] at induction
              rw [List.take_succ_cons, List.take_succ_cons, nameLength_dash, induction.1]
              exact if_pos start
        · exact ⟨rfl, Nat.zero_le _⟩
      · cases part : isNamePart character with
        | false =>
            rw [nameLength_other part dash]
            exact ⟨rfl, Nat.zero_le _⟩
        | true =>
            rw [nameLength_part part]
            refine ⟨?_, Nat.succ_le_succ induction.2⟩
            rw [List.take_succ_cons, nameLength_part part, induction.1]

/-! ## Numbers -/

theorem takeWhile_digits {digits rest : List Char}
    (all : ∀ digit ∈ digits, digit.isDigit = true)
    (ends : ∀ character ∈ rest.head?, character.isDigit = false) :
    (digits ++ rest).takeWhile Char.isDigit = digits := by
  rw [List.takeWhile_append_of_pos all]
  cases rest with
  | nil => simp
  | cons character rest => simp [ends character rfl]

theorem decimalValue_toDigits (value : Nat) :
    Number.decimalValue (Nat.toDigits 10 value) = value := by
  have read := @Nat.ofDigitChars_ten_toDigits value
  rwa [Nat.ofDigitChars_eq_foldl] at read

theorem scanToken_digits {value : Int64} (positive : 0 ≤ value.toInt) {first : Char}
    {others rest : List Char} (digits : Nat.toDigits 10 value.toInt.toNat = first :: others)
    (ends : ∀ character ∈ rest.head?, character.isDigit = false) :
    scanToken first (others ++ rest) = .ok (.integer value, others.length) := by
  have all : ∀ digit ∈ first :: others, digit.isDigit = true := by
    rw [← digits]
    exact fun digit => Nat.isDigit_of_mem_toDigits (by decide) (by decide)
  have number : Number.word? (Number.decimalValue (first :: others)) = some value := by
    rw [Number.word?_eq_some_iff, ← digits, decimalValue_toDigits]
    exact (Int.toNat_of_nonneg positive).symm
  rw [scanToken, if_pos (all first List.mem_cons_self)]
  simp only [takeWhile_digits (fun digit member => all digit (List.mem_cons_of_mem _ member)) ends,
    number]

/-! ## Text literals -/

theorem textLiteral_plain {character : Char} (quote : character ≠ '"')
    (backslash : character ≠ '\\') (rest : List Char) :
    textLiteral (character :: rest) =
      (textLiteral rest).map fun (value, length) => (character :: value, length + 1) := by
  rw [textLiteral]
  · cases textLiteral rest <;> rfl
  · exact quote
  · exact fun same _ => backslash same
  · exact fun next more same _ => backslash same

/-- Escaping is undone character by character. -/
theorem textLiteral_escape (character : Char) (rest : List Char) :
    textLiteral (escapeCharacter character ++ rest) =
      (textLiteral rest).map fun (value, length) =>
        (character :: value, length + (escapeCharacter character).length) := by
  unfold escapeCharacter
  split
  case h_6 quote backslash line tab back =>
    exact textLiteral_plain quote backslash rest
  all_goals
    rw [List.cons_append, List.cons_append, List.nil_append, textLiteral]
    cases textLiteral rest <;> rfl

theorem textLiteral_escaped (value rest : List Char) :
    textLiteral (value.flatMap escapeCharacter ++ '"' :: rest) =
      .ok (value, (value.flatMap escapeCharacter).length + 1) := by
  induction value with
  | nil => rfl
  | cons character value induction =>
      rw [List.flatMap_cons, List.append_assoc, textLiteral_escape, induction, List.length_append]
      simp only [Except.map]
      congr 2
      omega

/-! ## Tokens -/

/-- The characters of a token. -/
def Token.characters : Token → List Char
  | .integer value => (toString value.toInt).toList
  | .text value => '"' :: value.toList.flatMap escapeCharacter ++ ['"']
  | .identifier name => name.toList
  | .dot => ['.']
  | .comma => [',']
  | .leftParenthesis => ['(']
  | .rightParenthesis => [')']
  | .leftBracket => ['[']
  | .rightBracket => [']']
  | .plus => ['+']
  | .minus => ['-']
  | .star => ['*']
  | .slash => ['/']
  | .percent => ['%']
  | .equal => ['=', '=']
  | .notEqual => ['!', '=']
  | .less => ['<']
  | .lessOrEqual => ['<', '=']
  | .greater => ['>']
  | .greaterOrEqual => ['>', '=']
  | .bang => ['!']
  | .and => ['-', 'a', 'n', 'd']
  | .or => ['-', 'o', 'r']
  | .fallback => ['|', '|']
  | .pipe => ['|']
  | .arrow => ['-', '>']
  | .question => ['?']
  | .colon => [':']
  | .finish => []

/-- A token that has a text: numbers have no sign, and words are names. -/
def Token.isWritable : Token → Prop
  | .integer value => 0 ≤ value.toInt
  | .identifier name => isName name = true
  | .finish => False
  | _ => True

/-- The token does not go on with this character. -/
def Token.endsBefore (next : Option Char) : Token → Prop
  | .identifier _ | .integer _ | .and | .or =>
      ∀ character ∈ next, isNamePart character = false ∧ character ≠ '-'
  | .minus => ∀ character ∈ next, character ≠ '>' ∧ character ≠ 'a' ∧ character ≠ 'o'
  | .pipe => next ≠ some '|'
  | .bang | .less | .greater => next ≠ some '='
  | _ => True

theorem toString_of_nonneg {value : Int} (positive : 0 ≤ value) :
    (toString value).toList = Nat.toDigits 10 value.toNat := by
  rw [Int.toString_eq_repr, Int.repr_eq_if, if_pos positive, Nat.toList_repr]

theorem not_isDigit_of_ends {next : Option Char}
    (ends : ∀ character ∈ next, isNamePart character = false ∧ character ≠ '-') :
    ∀ character ∈ next, character.isDigit = false := by
  intro character member
  have part := (ends character member).1
  simp only [isNamePart, Char.isAlphanum, Bool.or_eq_false_iff] at part
  exact part.1.2

/-! Symbols that are the start of longer ones. -/

theorem scanToken_symbol {first : Char} {rest : List Char} {token : Token} {length : Nat}
    (digit : first.isDigit = false) (quote : first ≠ '"') (start : isNameStart first = false)
    (symbol : symbolToken? first rest = some (token, length)) :
    scanToken first rest = .ok (token, length) := by
  rw [scanToken, if_neg (by simp [digit]), if_neg quote, if_neg (by simp [start]), symbol]

theorem startsWithWord_append (word : List Char) {rest : List Char}
    (ends : ∀ character ∈ rest.head?, isNamePart character = false ∧ character ≠ '-') :
    startsWithWord word (word ++ rest) = true := by
  have behind : rest.head?.any isNamePart = false := by
    cases rest with
    | nil => rfl
    | cons next rest => exact (ends next rfl).1
  simp [startsWithWord, behind]

theorem symbolToken?_minus {rest : List Char} (ends : Token.minus.endsBefore rest.head?) :
    symbolToken? '-' rest = some (.minus, 0) := by
  cases rest with
  | nil => rfl
  | cons next rest =>
      have apart := ends next rfl
      rw [symbolToken?]
      · simp [startsWithWord, Ne.symm apart.2.1, Ne.symm apart.2.2]
      · exact fun more same => apart.1 (List.cons.inj same).1

theorem symbolToken?_and {rest : List Char} (ends : Token.and.endsBefore rest.head?) :
    symbolToken? '-' ('a' :: 'n' :: 'd' :: rest) = some (.and, 3) := by
  rw [symbolToken?]
  · exact if_pos (startsWithWord_append ['a', 'n', 'd'] ends)
  · exact fun more => nofun

theorem symbolToken?_or {rest : List Char} (ends : Token.or.endsBefore rest.head?) :
    symbolToken? '-' ('o' :: 'r' :: rest) = some (.or, 2) := by
  rw [symbolToken?]
  · rw [if_neg (by simp [startsWithWord])]
    exact if_pos (startsWithWord_append ['o', 'r'] ends)
  · exact fun more => nofun

/-- A symbol that may be the start of a longer one, which another character rules out. -/
theorem symbolToken?_short {rest : List Char} {token : Token} {character longer : Char}
    (known : (character, longer, token) ∈
      [('|', '|', Token.pipe), ('!', '=', .bang), ('<', '=', .less), ('>', '=', .greater)])
    (ends : rest.head? ≠ some longer) : symbolToken? character rest = some (token, 0) := by
  simp only [List.mem_cons, Prod.mk.injEq, List.not_mem_nil, or_false] at known
  rcases known with ⟨rfl, rfl, rfl⟩ | ⟨rfl, rfl, rfl⟩ | ⟨rfl, rfl, rfl⟩ | ⟨rfl, rfl, rfl⟩
  all_goals
    rw [symbolToken?]
    rintro more rfl
    exact ends rfl

theorem scanToken_characters {token : Token} (writable : token.isWritable) {rest : List Char}
    (ends : token.endsBefore rest.head?) :
    ∃ first others, token.characters = first :: others ∧
      scanToken first (others ++ rest) = .ok (token, others.length) := by
  cases token with
  | integer value =>
      cases digits : Nat.toDigits 10 value.toInt.toNat with
      | nil => exact absurd digits Nat.toDigits_ne_nil
      | cons first others =>
          exact ⟨first, others, (toString_of_nonneg writable).trans digits,
            scanToken_digits writable digits (not_isDigit_of_ends ends)⟩
  | text value =>
      refine ⟨'"', value.toList.flatMap escapeCharacter ++ ['"'], rfl, ?_⟩
      rw [scanToken, if_neg (by decide), if_pos rfl, List.append_assoc, List.singleton_append,
        textLiteral_escaped]
      simp [Except.map]
  | identifier name =>
      rcases isName_iff.mp writable with ⟨first, others, characters, start, whole⟩
      refine ⟨first, others, characters, ?_⟩
      have quote : first ≠ '"' := by
        rintro rfl
        cases start
      have same : String.ofList (first :: others) = name := by
        rw [← characters, String.ofList_toList]
      rw [scanToken, if_neg (by simp [not_isDigit_of_isNameStart start]), if_neg quote,
        if_pos start]
      simp only [nameLength_append whole ends, List.take_left, same]
  | finish => exact writable.elim
  | minus =>
      exact ⟨'-', [], rfl, scanToken_symbol rfl (by decide) rfl (symbolToken?_minus ends)⟩
  | and =>
      exact ⟨'-', ['a', 'n', 'd'], rfl,
        scanToken_symbol rfl (by decide) rfl (symbolToken?_and ends)⟩
  | or =>
      exact ⟨'-', ['o', 'r'], rfl, scanToken_symbol rfl (by decide) rfl (symbolToken?_or ends)⟩
  | pipe =>
      exact ⟨'|', [], rfl,
        scanToken_symbol rfl (by decide) rfl (symbolToken?_short (by simp) ends)⟩
  | bang =>
      exact ⟨'!', [], rfl,
        scanToken_symbol rfl (by decide) rfl (symbolToken?_short (by simp) ends)⟩
  | less =>
      exact ⟨'<', [], rfl,
        scanToken_symbol rfl (by decide) rfl (symbolToken?_short (by simp) ends)⟩
  | greater =>
      exact ⟨'>', [], rfl,
        scanToken_symbol rfl (by decide) rfl (symbolToken?_short (by simp) ends)⟩
  | _ => exact ⟨_, _, rfl, rfl⟩

/-! ## Tokens in a row -/

/-- The text of a lexeme, with a blank before it where there is white space. -/
def Lexeme.characters (lexeme : Lexeme) : List Char :=
  (if lexeme.spaced then [' '] else []) ++ lexeme.token.characters

def Lexemes.characters (lexemes : List Lexeme) : List Char :=
  lexemes.flatMap Lexeme.characters

/-- Each token ends where the next one starts. -/
def Lexemes.Apart : List Lexeme → Prop
  | [] => True
  | lexeme :: rest =>
      (lexeme.token.isWritable ∧ lexeme.token.endsBefore (Lexemes.characters rest).head?) ∧
        Apart rest

theorem not_isBlank_of_isNamePart {character : Char} (part : isNamePart character = true) :
    Text.isBlank character = false := by
  have bounds : 48 ≤ character.toNat ∧ character.toNat ≤ 122 := by
    simp only [isNamePart, Char.isAlphanum, Char.isAlpha, Char.isUpper, Char.isLower,
      Char.isDigit, Bool.or_eq_true, Bool.and_eq_true, decide_eq_true_eq, beq_iff_eq,
      ge_iff_le, UInt32.le_iff_toNat_le] at part
    rcases part with ((part | part) | part) | rfl
    · exact ⟨Nat.le_trans (by decide) part.1, Nat.le_trans part.2 (by decide)⟩
    · exact ⟨Nat.le_trans (by decide) part.1, Nat.le_trans part.2 (by decide)⟩
    · exact ⟨Nat.le_trans (by decide) part.1, Nat.le_trans part.2 (by decide)⟩
    · decide
  rw [Bool.eq_false_iff]
  intro blank
  simp only [Text.isBlank, Bool.or_eq_true, Bool.and_eq_true, decide_eq_true_eq, beq_iff_eq]
    at blank
  omega

/-- White space is no part of a number, a name or a symbol. -/
theorem not_isBlank_of_scanToken {first : Char} {rest : List Char} {token : Token} {length : Nat}
    (ends : scanToken first rest = .ok (token, length)) : Text.isBlank first = false := by
  unfold scanToken at ends
  split at ends
  · rename_i digit
    exact not_isBlank_of_isNamePart (by simp [isNamePart, Char.isAlphanum, digit])
  · split at ends
    · rename_i quote
      rw [quote]
      rfl
    · split at ends
      · rename_i start
        exact not_isBlank_of_isNamePart (isNamePart_of_isNameStart start)
      · split at ends
        · rename_i symbol
          unfold symbolToken? at symbol
          split at symbol
          all_goals first | rfl | cases symbol
        · cases ends

theorem scanFrom_nil (position : Position) (spaced : Bool) :
    scanFrom position spaced [] = .ok [⟨.finish, position, spaced⟩] := by
  rw [scanFrom.eq_def]

theorem scanFrom_blank {first : Char} (blank : Text.isBlank first = true) (position : Position)
    (spaced : Bool) (rest : List Char) :
    scanFrom position spaced (first :: rest) = scanFrom (position.next first) true rest := by
  rw [scanFrom.eq_def]
  exact if_pos blank

theorem scanFrom_token {first : Char} {rest : List Char} {token : Token} {length : Nat}
    (ends : scanToken first rest = .ok (token, length)) (position : Position) (spaced : Bool) :
    scanFrom position spaced (first :: rest) =
      (scanFrom (position.after (first :: rest.take length)) false (rest.drop length)).map
        (⟨token, position, spaced⟩ :: ·) := by
  rw [scanFrom.eq_def]
  simp only [not_isBlank_of_scanToken ends, ends]
  cases scanFrom (position.after (first :: rest.take length)) false (rest.drop length) <;> rfl

/-- Whatever is scanned has a text of its own. -/
theorem isWritable_of_scanToken {first : Char} {rest : List Char} {token : Token} {length : Nat}
    (ends : scanToken first rest = .ok (token, length)) : token.isWritable := by
  unfold scanToken at ends
  split at ends
  · dsimp only at ends
    split at ends
    · rename_i value number
      cases ends
      rw [Number.word?_eq_some_iff] at number
      exact Int.le_trans (Int.natCast_nonneg _) (Int.le_of_eq number.symm)
    · cases ends
  · split at ends
    · cases literal : textLiteral rest with
      | error fault =>
          rw [literal] at ends
          cases ends
      | ok value =>
          rw [literal] at ends
          cases ends
          trivial
    · split at ends
      · rename_i start
        cases ends
        have taken := nameLength_take rest
        refine isName_iff.mpr ⟨first, rest.take (nameLength rest), String.toList_ofList, start, ?_⟩
        rw [taken.1, List.length_take, Nat.min_eq_left taken.2]
      · split at ends
        · rename_i symbol
          cases ends
          unfold symbolToken? at symbol
          split at symbol
          case h_2 =>
            split at symbol
            · cases symbol
              trivial
            · split at symbol <;> (cases symbol; trivial)
          all_goals
            cases symbol
            try trivial
        · cases ends

/-- The last token is the end, and every other one has a text. -/
def Lexemes.Scanned : List Lexeme → Prop
  | [] => False
  | [lexeme] => lexeme.token = .finish
  | lexeme :: rest => lexeme.token.isWritable ∧ Scanned rest

namespace Lexemes.Scanned

variable {lexemes : List Lexeme}

theorem more (scanned : Scanned lexemes) : lexemes ≠ [] := by
  rintro rfl
  exact scanned

theorem ended (scanned : Scanned lexemes) : Ended lexemes := by
  fun_induction Scanned lexemes with
  | case1 => exact scanned
  | case2 lexeme => exact scanned
  | case3 lexeme rest more induction =>
      have others := induction scanned.2
      cases rest with
      | nil => exact others.elim
      | cons next rest => exact others

theorem cons {lexeme : Lexeme} (scanned : Scanned lexemes) (writable : lexeme.token.isWritable) :
    Scanned (lexeme :: lexemes) := by
  cases lexemes with
  | nil => exact scanned.elim
  | cons next lexemes => exact ⟨writable, scanned⟩

theorem advance (scanned : Scanned lexemes) : Scanned (advance lexemes) := by
  match lexemes, scanned with
  | [_], scanned => exact scanned
  | _ :: _ :: _, scanned => exact scanned.2

/-- The end is the last token. -/
theorem peek (scanned : Scanned lexemes) :
    (Lexemes.peek lexemes).isWritable ∨ ∃ lexeme, lexeme.token = .finish ∧ lexemes = [lexeme] := by
  match lexemes, scanned with
  | [lexeme], scanned => exact .inr ⟨lexeme, scanned, rfl⟩
  | _ :: _ :: _, scanned => exact .inl scanned.1

theorem isWritable (scanned : Scanned lexemes) (goes : Lexemes.peek lexemes ≠ .finish) :
    (Lexemes.peek lexemes).isWritable := by
  rcases scanned.peek with writable | ⟨lexeme, finish, rfl⟩
  · exact writable
  · exact absurd finish goes

theorem of_finish (scanned : Scanned lexemes) (finish : Lexemes.peek lexemes = .finish) :
    ∃ lexeme, lexeme.token = .finish ∧ lexemes = [lexeme] := by
  refine scanned.peek.resolve_left fun writable => ?_
  rw [finish] at writable
  exact writable

end Lexemes.Scanned

theorem scanFrom_scanned {characters : List Char} {position : Position} {spaced : Bool}
    {lexemes : List Lexeme} (ends : scanFrom position spaced characters = .ok lexemes) :
    Scanned lexemes := by
  induction count : characters.length using Nat.strongRecOn
    generalizing characters position spaced lexemes with
  | _ count induction =>
      subst count
      cases characters with
      | nil =>
          rw [scanFrom_nil] at ends
          cases ends
          exact rfl
      | cons first rest =>
          cases blank : Text.isBlank first with
          | true =>
              rw [scanFrom_blank blank] at ends
              exact induction rest.length (Nat.lt_succ_self _) ends rfl
          | false =>
              cases scans : scanToken first rest with
              | error fault =>
                  rw [scanFrom.eq_def] at ends
                  simp [blank, scans] at ends
              | ok token =>
                  rw [scanFrom_token scans] at ends
                  rcases ok_of_map ends with ⟨others, found, rfl⟩
                  have shorter : (rest.drop token.2).length < (first :: rest).length := by
                    simp only [List.length_drop, List.length_cons]
                    omega
                  exact (induction _ shorter found rfl).cons (isWritable_of_scanToken scans)

theorem scanFrom_characters {lexemes : List Lexeme} (apart : Apart lexemes)
    (position : Position) :
    ∃ scanned, scanFrom position false (Lexemes.characters lexemes) = .ok scanned ∧
      Alike scanned (lexemes ++ [⟨.finish, .start, false⟩]) := by
  induction lexemes generalizing position with
  | nil => exact ⟨[⟨.finish, position, false⟩], scanFrom_nil _ _, .cons ⟨rfl, rfl⟩ .nil⟩
  | cons lexeme rest induction =>
      obtain ⟨token, place, spaced⟩ := lexeme
      rcases scanToken_characters apart.1.1 apart.1.2 with ⟨first, others, characters, scans⟩
      have step (position : Position) (spaced : Bool) :
          ∃ scanned, scanFrom position spaced (token.characters ++ Lexemes.characters rest) =
            .ok (⟨token, position, spaced⟩ :: scanned) ∧
              Alike scanned (rest ++ [⟨.finish, .start, false⟩]) := by
        rcases induction apart.2 (position.after (first :: others)) with ⟨scanned, found, alike⟩
        refine ⟨scanned, ?_, alike⟩
        rw [characters, List.cons_append, scanFrom_token scans, List.drop_left, List.take_left,
          found]
        rfl
      cases spaced with
      | true =>
          rcases step (position.next ' ') true with ⟨scanned, found, alike⟩
          exact ⟨_, (scanFrom_blank rfl position false _).trans found, .cons ⟨rfl, rfl⟩ alike⟩
      | false =>
          rcases step position false with ⟨scanned, found, alike⟩
          exact ⟨_, found, .cons ⟨rfl, rfl⟩ alike⟩

end Stencil
