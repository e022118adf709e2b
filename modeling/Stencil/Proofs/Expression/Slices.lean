import Mathlib.Data.List.DropRight
import Stencil.Proofs.Expression.Spacing

namespace Stencil

open Lexemes Text

/-! The tokens of a source are slices of it, in order, with nothing but white space around them.
The place of a token is that of its slice, counted in the source. -/

/-! ## Places by counting -/

namespace Position

/-- The place just behind these characters at the start of a text: a line more for every line feed,
and a column more for every character behind the last one. -/
def behind (characters : List Char) : Position where
  line := 1 + characters.count '\n'
  column := 1 + (characters.rtakeWhile (· ≠ '\n')).length

theorem behind_concat (characters : List Char) (character : Char) :
    behind (characters ++ [character]) = (behind characters).next character := by
  unfold behind next
  rw [List.rtakeWhile_concat, List.count_append]
  by_cases line : character = '\n'
  · subst line
    simp
    omega
  · simp [line]
    omega

theorem after_behind (before characters : List Char) :
    (behind before).after characters = behind (before ++ characters) := by
  induction characters generalizing before with
  | nil => rw [List.append_nil]; rfl
  | cons character characters induction =>
      have next := induction (before ++ [character])
      rw [behind_concat, List.append_assoc] at next
      exact next

end Position

/-! ## The spelling of tokens -/

/-- A text literal from behind its opening quote, and what it stands for. -/
inductive LiteralOf : List Char → List Char → Prop where
  | close : LiteralOf [] ['"']
  | escape (character : Char) {value rest : List Char} (others : LiteralOf value rest) :
      LiteralOf (unescape character :: value) ('\\' :: character :: rest)
  | plain {character : Char} {value rest : List Char} (quote : character ≠ '"')
      (backslash : character ≠ '\\') (others : LiteralOf value rest) :
      LiteralOf (character :: value) (character :: rest)

/-- A token with only one spelling. -/
def Token.isSymbol : Token → Bool
  | .integer _ | .text _ | .identifier _ | .finish => false
  | _ => true

/-- The characters are a spelling of the token. -/
inductive Token.Spelled : Token → List Char → Prop where
  | integer {value : Int64} {digits : List Char} (some : digits ≠ [])
      (all : ∀ digit ∈ digits, digit.isDigit = true)
      (same : Number.decimalValue digits = value.toInt) : Spelled (.integer value) digits
  | text {value literal : List Char} (whole : LiteralOf value literal) :
      Spelled (.text (.ofList value)) ('"' :: literal)
  | identifier {name : String} (whole : isName name = true) :
      Spelled (.identifier name) name.toList
  | symbol {token : Token} (symbol : token.isSymbol = true) : Spelled token token.characters

theorem literalOf_of_textLiteral {characters value : List Char} {length : Nat}
    (reads : textLiteral characters = .ok (value, length)) :
    LiteralOf value (characters.take length) ∧ length ≤ characters.length := by
  fun_induction textLiteral characters generalizing value length with
  | case1 => cases reads
  | case2 rest =>
      cases reads
      exact ⟨.close, Nat.succ_le_succ (Nat.zero_le _)⟩
  | case3 => cases reads
  | case4 character rest induction =>
      rcases ok_of_bind reads with ⟨⟨others, count⟩, found, same⟩
      cases same
      have behind := induction found
      exact ⟨.escape character behind.1, Nat.succ_le_succ (Nat.succ_le_succ behind.2)⟩
  | case5 character rest quote last backslash induction =>
      rcases ok_of_bind reads with ⟨⟨others, count⟩, found, same⟩
      cases same
      have behind := induction found
      have plain : character ≠ '\\' := by
        rintro rfl
        cases rest with
        | nil => exact last rfl rfl
        | cons next rest => exact backslash next rest rfl rfl
      exact ⟨.plain quote plain behind.1, Nat.succ_le_succ behind.2⟩

theorem take_of_startsWithWord {word rest : List Char} (starts : startsWithWord word rest = true) :
    rest.take word.length = word := by
  rw [startsWithWord, Bool.and_eq_true, List.isPrefixOf_iff_prefix] at starts
  exact (List.prefix_iff_eq_take.mp starts.1).symm

theorem symbol_of_symbolToken? {first : Char} {rest : List Char} {token : Token} {length : Nat}
    (found : symbolToken? first rest = some (token, length)) :
    token.isSymbol = true ∧ token.characters = first :: rest.take length := by
  unfold symbolToken? at found
  split at found
  case h_2 =>
    split at found
    · rename_i starts
      cases found
      exact ⟨rfl, congrArg ('-' :: ·) (take_of_startsWithWord starts).symm⟩
    · split at found
      · rename_i starts
        cases found
        exact ⟨rfl, congrArg ('-' :: ·) (take_of_startsWithWord starts).symm⟩
      · cases found
        exact ⟨rfl, rfl⟩
  all_goals
    cases found
    try exact ⟨rfl, rfl⟩

/-- What the scanner takes for a token is a spelling of it. -/
theorem spelled_of_scanToken {first : Char} {rest : List Char} {token : Token} {length : Nat}
    (scans : scanToken first rest = .ok (token, length)) :
    token.Spelled (first :: rest.take length) ∧ length ≤ rest.length := by
  by_cases quote : first = '"'
  · subst quote
    rw [scanToken, if_neg (by decide), if_pos rfl] at scans
    rcases ok_of_map scans with ⟨⟨value, count⟩, found, same⟩
    cases same
    have literal := literalOf_of_textLiteral found
    exact ⟨.text literal.1, literal.2⟩
  · refine ⟨?_, length_of_scanToken quote scans⟩
    have writable := isWritable_of_scanToken scans
    unfold scanToken at scans
    rw [if_neg quote] at scans
    split at scans
    · rename_i digit
      dsimp only at scans
      split at scans
      · rename_i value number
        cases scans
        have taken : rest.take (rest.takeWhile Char.isDigit).length = rest.takeWhile Char.isDigit :=
          (List.prefix_iff_eq_take.mp (List.takeWhile_prefix _)).symm
        rw [taken]
        refine .integer (List.cons_ne_nil _ _) ?_ (Number.word?_eq_some_iff.mp number).symm
        exact List.forall_mem_cons.mpr ⟨digit, fun _ => List.mem_takeWhile_imp⟩
      · cases scans
    · split at scans
      · cases scans
        have spelled := Token.Spelled.identifier writable
        rwa [String.toList_ofList] at spelled
      · split at scans
        · rename_i symbol
          cases scans
          have found := symbol_of_symbolToken? symbol
          exact found.2 ▸ .symbol found.1
        · cases scans

/-- A token does not end in white space. -/
theorem Token.Spelled.last {token : Token} {text : List Char} (spelled : token.Spelled text) :
    ∃ front last, text = front ++ [last] ∧ isBlank last = false := by
  cases spelled with
  | integer some all same =>
      refine (Trimmed.of_all some fun digit member => not_isBlank_of_isNamePart ?_).last
      simp [isNamePart, Char.isAlphanum, all digit member]
  | @text value literal whole =>
      have closed : ∃ front, literal = front ++ ['"'] := by
        induction whole with
        | close => exact ⟨[], rfl⟩
        | escape character others induction =>
            rcases induction with ⟨front, rfl⟩
            exact ⟨'\\' :: character :: front, rfl⟩
        | @plain character value rest quote backslash others induction =>
            rcases induction with ⟨front, rfl⟩
            exact ⟨character :: front, rfl⟩
      rcases closed with ⟨front, rfl⟩
      exact ⟨'"' :: front, '"', rfl, rfl⟩
  | identifier whole => exact (@Token.trimmed (.identifier _) whole).last
  | symbol symbol =>
      refine (Token.trimmed ?_).last
      cases token <;> trivial

/-! ## A source in slices -/

/-- Where a token stands in the source. -/
structure Slice where
  start : Nat
  stop : Nat

namespace Slice

def characters (source : List Char) (slice : Slice) : List Char :=
  (source.take slice.stop).drop slice.start

def Holds (slice : Slice) (index : Nat) : Prop := slice.start ≤ index ∧ index < slice.stop

end Slice

/-- The character right before this index is white space. -/
def BlankBefore (source : List Char) (index : Nat) : Prop :=
  ∃ character ∈ (source.take index).getLast?, isBlank character = true

/-- The lexeme tells its place at this index of the source. -/
structure Lexeme.StandsAt (source : List Char) (lexeme : Lexeme) (index : Nat) : Prop where
  position : lexeme.position = .behind (source.take index)
  spaced : lexeme.spaced = true ↔ BlankBefore source index

/-- The lexeme is this slice of the source. -/
structure Lexeme.Cut (source : List Char) (lexeme : Lexeme) (slice : Slice) : Prop where
  inside : slice.start < slice.stop ∧ slice.stop ≤ source.length
  spelled : lexeme.token.Spelled (slice.characters source)
  stands : lexeme.StandsAt source slice.start

/-- Behind these characters the tokens cover the rest of the source. Each of them stands behind
white space and tells its place. -/
inductive Covers : List Char → List Char → List Lexeme → Prop where
  | finish {before gap : List Char} (blank : Blanks gap) :
      Covers before gap [⟨.finish, .behind (before ++ gap), !gap.isEmpty⟩]
  | token {before gap text rest : List Char} {token : Token} {lexemes : List Lexeme}
      (blank : Blanks gap) (spelled : token.Spelled text)
      (others : Covers (before ++ gap ++ text) rest lexemes) :
      Covers before (gap ++ (text ++ rest))
        (⟨token, .behind (before ++ gap), !gap.isEmpty⟩ :: lexemes)

theorem scanFrom_covers {characters : List Char} {before gap : List Char} {lexemes : List Lexeme}
    (blank : Blanks gap)
    (scans : scanFrom (.behind (before ++ gap)) (!gap.isEmpty) characters = .ok lexemes) :
    Covers before (gap ++ characters) lexemes := by
  -- On how many characters are left: a blank one joins the gap, a token is stepped over as a whole.
  induction count : characters.length using Nat.strongRecOn
    generalizing characters before gap lexemes with
  | _ count induction =>
      subst count
      cases characters with
      | nil =>
          rw [scanFrom_nil] at scans
          cases scans
          rw [List.append_nil]
          exact .finish blank
      | cons first rest =>
          cases white : isBlank first with
          | true =>
              have longer : Blanks (gap ++ [first]) := by
                refine List.forall_mem_append.mpr ⟨blank, ?_⟩
                exact List.forall_mem_singleton.mpr white
              have some : (!(gap ++ [first]).isEmpty) = true := by simp
              rw [scanFrom_blank white, ← Position.behind_concat, List.append_assoc,
                ← some] at scans
              have behind := induction rest.length (Nat.lt_succ_self _) longer scans rfl
              rwa [List.append_assoc] at behind
          | false =>
              cases token : scanToken first rest with
              | error fault =>
                  rw [scanFrom_fault white token] at scans
                  cases scans
              | ok found =>
                  rcases found with ⟨found, length⟩
                  rcases spelled_of_scanToken token with ⟨spelled, short⟩
                  rw [scanFrom_token token, Position.after_behind] at scans
                  rcases ok_of_map scans with ⟨others, behind, rfl⟩
                  have shorter : (rest.drop length).length < (first :: rest).length := by
                    simp only [List.length_drop, List.length_cons]
                    omega
                  have covered : Covers (before ++ gap ++ first :: rest.take length)
                      (rest.drop length) others := by
                    refine induction _ shorter (List.forall_mem_nil _) ?_ rfl
                    rw [List.append_nil]
                    exact behind
                  have whole : first :: rest = (first :: rest.take length) ++ rest.drop length := by
                    rw [List.cons_append, List.take_append_drop]
                  rw [whole]
                  exact .token blank spelled covered

/-! Counted from its start, the source has a slice for each token. -/

/-- From this index on, the tokens are the slices of the source, in order, and what lies between
them is white space. -/
structure Sliced (source : List Char) (start : Nat) (tokens : List Lexeme) (slices : List Slice) :
    Prop where
  cut : List.Forall₂ (Lexeme.Cut source) tokens slices
  apart : slices.Pairwise fun left right => left.stop ≤ right.start
  behind : ∀ slice ∈ slices, start ≤ slice.start
  blank : ∀ index character, start ≤ index → source[index]? = some character →
    (∀ slice ∈ slices, ¬ slice.Holds index) → isBlank character = true

theorem blankBefore_iff {before gap : List Char} (blank : Blanks gap)
    (solid : ∀ character ∈ before.getLast?, isBlank character = false) (rest : List Char) :
    BlankBefore (before ++ (gap ++ rest)) (before ++ gap).length ↔ (!gap.isEmpty) = true := by
  unfold BlankBefore
  rw [← List.append_assoc, List.take_left]
  rcases List.eq_nil_or_concat gap with rfl | ⟨front, last, rfl⟩
  · rw [List.append_nil]
    refine iff_of_false ?_ (by simp)
    rintro ⟨character, member, white⟩
    rw [solid character member] at white
    cases white
  · rw [List.concat_eq_append, ← List.append_assoc, List.getLast?_concat]
    exact iff_of_true ⟨last, rfl, blank last (by simp)⟩ (by simp)

theorem Sliced.step {source before gap text rest : List Char} {token : Token}
    {tokens : List Lexeme} {slices : List Slice}
    (same : source = before ++ (gap ++ (text ++ rest))) (blank : Blanks gap)
    (solid : ∀ character ∈ before.getLast?, isBlank character = false)
    (spelled : token.Spelled text)
    (others : Sliced source (before ++ gap ++ text).length tokens slices) :
    Sliced source before.length (⟨token, .behind (before ++ gap), !gap.isEmpty⟩ :: tokens)
      (⟨(before ++ gap).length, (before ++ gap ++ text).length⟩ :: slices) := by
  have whole : source = before ++ gap ++ text ++ rest := by
    rw [same]
    simp only [List.append_assoc]
  refine ⟨.cons ⟨⟨?_, ?_⟩, ?_, ?_, ?_⟩ others.cut, .cons others.behind others.apart, ?_, ?_⟩
  · rcases spelled.last with ⟨front, last, rfl, -⟩
    simp only [List.length_append, List.length_singleton]
    omega
  · rw [whole]
    simp only [List.length_append]
    omega
  · rwa [Slice.characters, whole, List.take_left, List.drop_left]
  · have front : source.take (before ++ gap).length = before ++ gap := by
      rw [same, ← List.append_assoc, List.take_left]
    exact congrArg Position.behind front.symm
  · rw [same, ← blankBefore_iff blank solid]
  · refine List.forall_mem_cons.mpr ⟨?_, fun slice member => ?_⟩
    · rw [List.length_append]
      exact Nat.le_add_right _ _
    · refine Nat.le_trans ?_ (others.behind slice member)
      rw [List.append_assoc, List.length_append]
      exact Nat.le_add_right _ _
  · intro index character least found outside
    rcases List.forall_mem_cons.mp outside with ⟨here, elsewhere⟩
    by_cases inGap : index < (before ++ gap).length
    · have member : gap[index - before.length]? = some character := by
        rw [same, List.getElem?_append_right least, List.getElem?_append_left] at found
        · exact found
        · rw [List.length_append] at inGap
          omega
      exact blank character (List.mem_of_getElem? member)
    · refine others.blank index character ?_ found elsewhere
      by_contra inside
      exact here ⟨Nat.not_lt.mp inGap, Nat.not_le.mp inside⟩

theorem Covers.sliced {source before rest : List Char} {lexemes : List Lexeme}
    (covers : Covers before rest lexemes) (same : source = before ++ rest)
    (solid : ∀ character ∈ before.getLast?, isBlank character = false) :
    ∃ tokens slices last, lexemes = tokens ++ [last] ∧ last.token = .finish ∧
      last.StandsAt source source.length ∧ Sliced source before.length tokens slices := by
  induction covers with
  | @finish before gap blank =>
      have spaced := blankBefore_iff blank solid []
      rw [List.append_nil, ← same] at spaced
      refine ⟨[], [], _, rfl, rfl, ⟨?_, ?_⟩, .nil, .nil, nofun, ?_⟩
      · rw [List.take_length, same]
      · rw [← spaced, same]
      · intro index character least found _
        rw [same, List.getElem?_append_right least] at found
        exact blank character (List.mem_of_getElem? found)
  | @token before gap text rest token lexemes blank spelled others induction =>
      have closed : ∀ character ∈ (before ++ gap ++ text).getLast?, isBlank character = false := by
        rcases spelled.last with ⟨front, last, rfl, visible⟩
        rw [← List.append_assoc, List.getLast?_concat]
        rintro _ ⟨⟩
        exact visible
      have whole : source = before ++ gap ++ text ++ rest := by
        rw [same]
        simp only [List.append_assoc]
      rcases induction whole closed with ⟨tokens, slices, last, rfl, finish, stands, sliced⟩
      exact ⟨_ :: tokens, _ :: slices, last, rfl, finish, stands,
        sliced.step same blank solid spelled⟩

/-- The tokens of a source are disjoint slices of it, in order, with only white space around them.
Each tells the line and the column of its slice, and whether white space stands right before it; and
so does the end, which stands behind the last character. -/
theorem scan_sliced {source : String} {lexemes : List Lexeme} (scans : scan source = .ok lexemes) :
    ∃ (tokens : List Lexeme) (last : Lexeme) (slices : List Slice), lexemes = tokens ++ [last] ∧
      List.Forall₂ (Lexeme.Cut source.toList) tokens slices ∧
      slices.Pairwise (fun left right => left.stop ≤ right.start) ∧
      (∀ index character, source.toList[index]? = some character →
        (∀ slice ∈ slices, ¬ slice.Holds index) → isBlank character = true) ∧
      last.token = .finish ∧ last.StandsAt source.toList source.toList.length := by
  have covers : Covers [] source.toList lexemes := scanFrom_covers (List.forall_mem_nil _) scans
  rcases covers.sliced rfl nofun with ⟨tokens, slices, last, same, finish, stands, sliced⟩
  refine ⟨tokens, last, slices, same, sliced.cut, sliced.apart, ?_, finish, stands⟩
  exact fun index character => sliced.blank index character (Nat.zero_le index)

/-- A text literal that goes over two lines, and a token behind it. -/
theorem scan_sliced_lines :
    scan "\ta  \"b\nc\" d" = .ok [⟨.identifier "a", ⟨1, 2⟩, true⟩,
        ⟨.text "b\nc", ⟨1, 5⟩, true⟩, ⟨.identifier "d", ⟨2, 4⟩, true⟩, ⟨.finish, ⟨2, 5⟩, false⟩] ∧
      ∃ (tokens : List Lexeme) (last : Lexeme) (slices : List Slice),
        [⟨.identifier "a", ⟨1, 2⟩, true⟩, ⟨.text "b\nc", ⟨1, 5⟩, true⟩,
          ⟨.identifier "d", ⟨2, 4⟩, true⟩, ⟨.finish, ⟨2, 5⟩, false⟩] = tokens ++ [last] ∧
        List.Forall₂ (Lexeme.Cut "\ta  \"b\nc\" d".toList) tokens slices ∧
        slices.Pairwise (fun left right => left.stop ≤ right.start) ∧
        (∀ index character, "\ta  \"b\nc\" d".toList[index]? = some character →
          (∀ slice ∈ slices, ¬ slice.Holds index) → isBlank character = true) ∧
        last.token = .finish ∧
          last.StandsAt "\ta  \"b\nc\" d".toList "\ta  \"b\nc\" d".toList.length := by
  have scans : scan "\ta  \"b\nc\" d" = .ok [⟨.identifier "a", ⟨1, 2⟩, true⟩,
      ⟨.text "b\nc", ⟨1, 5⟩, true⟩, ⟨.identifier "d", ⟨2, 4⟩, true⟩, ⟨.finish, ⟨2, 5⟩, false⟩] := by
    cbv
  exact ⟨scans, scan_sliced scans⟩

end Stencil
