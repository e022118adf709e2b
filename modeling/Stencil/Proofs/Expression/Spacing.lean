import Stencil.Proofs.Expression.RoundTrip

namespace Stencil

open Lexemes

/-! The parser looks at where there is white space, and not at how much and at which. Outside of
text literals other white space can stand in the place of white space, and any at both ends. -/

/-! ## Other white space -/

/-- White space, and nothing else. -/
def Text.Blanks (run : List Char) : Prop := ∀ character ∈ run, isBlank character = true

open Text

/-- A text literal from behind its opening quote, with its closing one. -/
inductive Literal : List Char → Prop where
  | close : Literal ['"']
  | escape (character : Char) {rest : List Char} (others : Literal rest) :
      Literal ('\\' :: character :: rest)
  | plain {character : Char} {rest : List Char} (quote : character ≠ '"')
      (backslash : character ≠ '\\') (others : Literal rest) : Literal (character :: rest)

/-- A literal that was opened before these characters ends in them. -/
def Closes (characters : List Char) : Prop :=
  ∃ literal rest, Literal literal ∧ characters = literal ++ rest

/-- Other white space in the place of each stretch of it, and any at the end. -/
inductive Reblanked : List Char → List Char → Prop where
  | finish {run run' : List Char} (blank : Blanks run) (blank' : Blanks run') :
      Reblanked run run'
  | gap {run run' rest rest' : List Char} (blank : Blanks run) (some : run ≠ [])
      (blank' : Blanks run') (some' : run' ≠ []) (others : Reblanked rest rest') :
      Reblanked (run ++ rest) (run' ++ rest')
  | visible {character : Char} {rest rest' : List Char} (visible : isBlank character = false)
      (others : Reblanked rest rest') : Reblanked (character :: rest) (character :: rest')

/-- The same outside of text literals, which stay as they are. Behind a quote that opens a literal
without an end, nothing is a literal. -/
inductive Respaced : List Char → List Char → Prop where
  | finish {run run' : List Char} (blank : Blanks run) (blank' : Blanks run') :
      Respaced run run'
  | gap {run run' rest rest' : List Char} (blank : Blanks run) (some : run ≠ [])
      (blank' : Blanks run') (some' : run' ≠ []) (others : Respaced rest rest') :
      Respaced (run ++ rest) (run' ++ rest')
  | visible {character : Char} {rest rest' : List Char} (visible : isBlank character = false)
      (quote : character ≠ '"') (others : Respaced rest rest') :
      Respaced (character :: rest) (character :: rest')
  | literal {literal rest rest' : List Char} (whole : Literal literal)
      (others : Respaced rest rest') :
      Respaced ('"' :: (literal ++ rest)) ('"' :: (literal ++ rest'))
  | unclosed {rest rest' : List Char} (closes : ¬ Closes rest) (others : Reblanked rest rest') :
      Respaced ('"' :: rest) ('"' :: rest')

/-- Two sources with white space at the same places, but for their ends. -/
def RespacedSources (source source' : String) : Prop :=
  ∃ run run' rest rest', Blanks run ∧ Blanks run' ∧ source.toList = run ++ rest ∧
    source'.toList = run' ++ rest' ∧ Respaced rest rest'

/-! ## Tokens between white space -/

/-- No name, number or symbol goes on here. -/
def Stops (characters : List Char) : Prop :=
  ∀ character ∈ characters.head?, Text.isBlank character = true ∨ character = '"'

theorem Stops.endsName {characters : List Char} (stops : Stops characters) :
    endsName characters := by
  intro character member
  rcases stops character member with blank | rfl
  · refine ⟨Bool.eq_false_iff.mpr fun part => ?_, ?_⟩
    · rw [not_isBlank_of_isNamePart part] at blank
      cases blank
    · rintro rfl
      cases blank
  · exact ⟨rfl, by decide⟩

theorem startsWithWord_stops {word tail : List Char} (parts : word.all isNamePart = true)
    (solid : List Char) (stops : Stops tail) :
    startsWithWord word (solid ++ tail) = startsWithWord word solid := by
  induction word generalizing solid with
  | nil =>
      cases solid with
      | nil =>
          cases tail with
          | nil => rfl
          | cons next tail => simp [startsWithWord, (stops.endsName next rfl).1]
      | cons next solid => rfl
  | cons character word induction =>
      rw [List.all_cons, Bool.and_eq_true] at parts
      cases solid with
      | nil =>
          cases tail with
          | nil => rfl
          | cons next tail =>
              have different : character ≠ next := by
                rintro rfl
                exact absurd parts.1 (by simp [(stops.endsName character rfl).1])
              simp [startsWithWord, different]
      | cons next solid =>
          have later := induction parts.2 solid
          simp only [startsWithWord, List.cons_append, List.isPrefixOf_cons_cons, List.length_cons,
            List.drop_succ_cons, Bool.and_assoc] at later ⊢
          rw [later]

theorem Stops.head? {longer : Char} {solid tail : List Char} (stops : Stops tail)
    (visible : Text.isBlank longer = false) (quote : longer ≠ '"')
    (short : ∀ rest, solid = longer :: rest → False) : (solid ++ tail).head? ≠ some longer := by
  intro starts
  cases solid with
  | nil =>
      rcases stops longer starts with blank | same
      · simp [visible] at blank
      · exact quote same
  | cons next solid =>
      cases starts
      exact short solid rfl

theorem symbolToken?_dash {rest : List Char} (short : rest.head? ≠ some '>') :
    symbolToken? '-' rest =
      if startsWithWord ['a', 'n', 'd'] rest then some (.and, 3)
      else if startsWithWord ['o', 'r'] rest then some (.or, 2)
      else some (.minus, 0) := by
  rw [symbolToken?]
  rintro more rfl
  exact short rfl

theorem symbolToken?_stops {first : Char} {solid tail : List Char} (stops : Stops tail) :
    symbolToken? first (solid ++ tail) = symbolToken? first solid := by
  have word {word : List Char} (parts : word.all isNamePart = true) :=
    startsWithWord_stops parts solid stops
  fun_cases symbolToken? first solid
  case case2 short starts =>
    rw [symbolToken?_dash (stops.head? rfl (by decide) short), word rfl, if_pos starts]
  case case3 short other starts =>
    rw [symbolToken?_dash (stops.head? rfl (by decide) short), word rfl, if_neg other, word rfl,
      if_pos starts]
  case case4 short other other' =>
    rw [symbolToken?_dash (stops.head? rfl (by decide) short), word rfl, if_neg other, word rfl,
      if_neg other']
  case case6 short =>
    have visible : Text.isBlank '|' = false := rfl
    exact symbolToken?_short (by simp) (stops.head? visible (by decide) short)
  case case9 short | case11 short | case13 short =>
    have visible : Text.isBlank '=' = false := rfl
    exact symbolToken?_short (by simp) (stops.head? visible (by decide) short)
  case case26 =>
    have short (same : first = '=') : (solid ++ tail).head? ≠ some '=' :=
      stops.head? rfl (by decide) fun rest =>
        ‹∀ rest, first = '=' → solid = '=' :: rest → False› rest same
    unfold symbolToken?
    split
    case h_5 => exact absurd (congrArg List.head? ‹_ = '=' :: _›) (short rfl)
    all_goals first | rfl | contradiction
  all_goals rfl

theorem nameLength_stops {solid tail : List Char} (ends : endsName tail) :
    nameLength (solid ++ tail) = nameLength solid := by
  induction solid with
  | nil =>
      cases tail with
      | nil => rfl
      | cons next tail => exact nameLength_other (ends next rfl).1 (ends next rfl).2 tail
  | cons character solid induction =>
      by_cases dash : character = '-'
      · subst dash
        rw [List.cons_append, nameLength_dash, nameLength_dash, induction]
        cases solid with
        | nil =>
            cases tail with
            | nil => rfl
            | cons next tail =>
                have start : isNameStart next = false := Bool.eq_false_iff.mpr fun start => by
                  have part := isNamePart_of_isNameStart start
                  rw [(ends next rfl).1] at part
                  cases part
                simp [start]
        | cons next solid => rfl
      · cases part : isNamePart character with
        | false => rw [List.cons_append, nameLength_other part dash, nameLength_other part dash]
        | true => rw [List.cons_append, nameLength_part part, nameLength_part part, induction]

theorem digits_stops {solid tail : List Char} (ends : endsName tail) :
    (solid ++ tail).takeWhile Char.isDigit = solid.takeWhile Char.isDigit := by
  induction solid with
  | nil =>
      cases tail with
      | nil => rfl
      | cons next tail => simp [not_isDigit_of_ends ends next rfl]
  | cons character solid induction =>
      rw [List.cons_append, List.takeWhile_cons, List.takeWhile_cons, induction]

/-- What a token takes ends before a blank or a quote, wherever it starts. -/
theorem scanToken_stops {first : Char} {tail : List Char} (quote : first ≠ '"')
    (solid : List Char) (stops : Stops tail) :
    scanToken first (solid ++ tail) = scanToken first solid := by
  have short := (nameLength_take solid).2
  unfold scanToken
  rw [digits_stops stops.endsName, if_neg quote, if_neg quote, nameLength_stops stops.endsName,
    symbolToken?_stops stops]
  dsimp only
  rw [List.take_append_of_le_length short]

theorem length_of_startsWithWord {word rest : List Char}
    (starts : startsWithWord word rest = true) : word.length ≤ rest.length := by
  rw [startsWithWord, Bool.and_eq_true, List.isPrefixOf_iff_prefix] at starts
  exact starts.1.length_le

theorem length_of_symbolToken? {first : Char} {rest : List Char} {token : Token} {length : Nat}
    (ends : symbolToken? first rest = some (token, length)) : length ≤ rest.length := by
  unfold symbolToken? at ends
  split at ends
  case h_2 =>
    split at ends
    · cases ends
      exact length_of_startsWithWord ‹_›
    · split at ends
      · cases ends
        exact length_of_startsWithWord ‹_›
      · cases ends
        exact Nat.zero_le _
  all_goals
    cases ends
    try simp

/-- But for a literal, a token takes no more than there is. -/
theorem length_of_scanToken {first : Char} {rest : List Char} {token : Token} {length : Nat}
    (quote : first ≠ '"') (ends : scanToken first rest = .ok (token, length)) :
    length ≤ rest.length := by
  unfold scanToken at ends
  rw [if_neg quote] at ends
  split at ends
  · dsimp only at ends
    split at ends
    · cases ends
      exact (List.takeWhile_prefix _).length_le
    · cases ends
  · split at ends
    · cases ends
      exact (nameLength_take rest).2
    · split at ends
      · cases ends
        exact length_of_symbolToken? ‹_›
      · cases ends

/-! ## Literals -/

theorem closes_quote (rest : List Char) : Closes ('"' :: rest) := ⟨['"'], rest, .close, rfl⟩

theorem not_closes_nil : ¬ Closes [] := by
  rintro ⟨literal, rest, whole, same⟩
  cases whole <;> simp at same

/-- Behind a backslash the next character does not matter. -/
theorem closes_escape {rest : List Char} : Closes ('\\' :: rest) ↔ Closes rest.tail := by
  constructor
  · rintro ⟨literal, behind, whole, same⟩
    cases whole with
    | close => simp at same
    | @escape character literal others =>
        rw [List.cons_append, List.cons.injEq] at same
        exact ⟨literal, behind, others, same.2 ▸ rfl⟩
    | plain quote backslash others => exact absurd (List.cons.inj same).1.symm backslash
  · intro closes
    cases rest with
    | nil => exact absurd closes not_closes_nil
    | cons character rest =>
        rcases closes with ⟨literal, behind, whole, same⟩
        rw [List.tail_cons] at same
        exact ⟨_, behind, .escape character whole, same ▸ rfl⟩

theorem closes_plain {character : Char} {rest : List Char} (quote : character ≠ '"')
    (backslash : character ≠ '\\') : Closes (character :: rest) ↔ Closes rest := by
  constructor
  · rintro ⟨literal, behind, whole, same⟩
    cases whole with
    | close => exact absurd (List.cons.inj same).1 quote
    | escape character others => exact absurd (List.cons.inj same).1 backslash
    | @plain character' literal quote backslash others =>
        exact ⟨literal, behind, others, (List.cons.inj same).2⟩
  · rintro ⟨literal, behind, whole, rfl⟩
    exact ⟨_, behind, .plain quote backslash whole, rfl⟩

theorem textLiteral_of_literal {literal : List Char} (whole : Literal literal) :
    ∃ value, ∀ rest, textLiteral (literal ++ rest) = .ok (value, literal.length) := by
  induction whole with
  | close => exact ⟨[], fun rest => rfl⟩
  | escape character others induction =>
      rcases induction with ⟨value, scans⟩
      refine ⟨unescape character :: value, fun rest => ?_⟩
      rw [List.cons_append, List.cons_append, textLiteral, scans rest]
      rfl
  | @plain character literal quote backslash others induction =>
      rcases induction with ⟨value, scans⟩
      refine ⟨character :: value, fun rest => ?_⟩
      rw [List.cons_append, textLiteral_plain quote backslash, scans rest]
      rfl

theorem closes_of_textLiteral {characters : List Char} {found : List Char × Nat}
    (scans : textLiteral characters = .ok found) : Closes characters := by
  fun_induction textLiteral characters generalizing found with
  | case1 => cases scans
  | case2 rest => exact closes_quote rest
  | case3 => cases scans
  | case4 character rest induction =>
      rcases ok_of_bind scans with ⟨behind, scans, _⟩
      exact closes_escape.mpr (induction scans)
  | case5 character rest quote last escape induction =>
      rcases ok_of_bind scans with ⟨behind, scans, _⟩
      have backslash : character ≠ '\\' := by
        rintro rfl
        cases rest with
        | nil => exact last rfl rfl
        | cons next rest => exact escape next rest rfl rfl
      exact (closes_plain quote backslash).mpr (induction scans)

theorem scanToken_literal {literal : List Char} (whole : Literal literal) :
    ∃ value, ∀ rest, scanToken '"' (literal ++ rest) = .ok (.text value, literal.length) := by
  rcases textLiteral_of_literal whole with ⟨value, scans⟩
  refine ⟨.ofList value, fun rest => ?_⟩
  rw [scanToken, if_neg (by decide), if_pos rfl, scans rest]
  rfl

theorem scanToken_unclosed {rest : List Char} (closes : ¬ Closes rest) :
    ∃ fault, scanToken '"' rest = .error fault := by
  cases scans : textLiteral rest with
  | error fault =>
      refine ⟨fault, ?_⟩
      rw [scanToken, if_neg (by decide), if_pos rfl, scans]
      rfl
  | ok found => exact absurd (closes_of_textLiteral scans) closes

/-! White space neither ends a literal nor keeps it from its end. -/

theorem closes_blanks {run : List Char} (blank : Blanks run) (rest : List Char) :
    Closes (run ++ rest) ↔ Closes rest := by
  induction run with
  | nil => exact Iff.rfl
  | cons character run induction =>
      rcases List.forall_mem_cons.mp blank with ⟨here, others⟩
      have quote : character ≠ '"' := by
        rintro rfl
        cases here
      have backslash : character ≠ '\\' := by
        rintro rfl
        cases here
      exact (closes_plain quote backslash).trans (induction others)

theorem not_closes_blanks {run : List Char} (blank : Blanks run) : ¬ Closes run := by
  have none := closes_blanks blank []
  rw [List.append_nil] at none
  exact mt none.mp not_closes_nil

theorem closes_reblanked {characters characters' : List Char}
    (both : Reblanked characters characters') : (Closes characters ↔ Closes characters') ∧
      (Closes characters.tail ↔ Closes characters'.tail) := by
  induction both with
  | finish blank blank' =>
      have tail {run : List Char} (blank : Blanks run) : Blanks run.tail := fun character member =>
        blank character (List.mem_of_mem_tail member)
      exact ⟨iff_of_false (not_closes_blanks blank) (not_closes_blanks blank'),
        iff_of_false (not_closes_blanks (tail blank)) (not_closes_blanks (tail blank'))⟩
  | @gap run run' rest rest' blank some blank' some' others induction =>
      have tail {run : List Char} (blank : Blanks run) (some : run ≠ []) (rest : List Char) :
          Closes (run ++ rest).tail ↔ Closes rest := by
        cases run with
        | nil => exact absurd rfl some
        | cons character run => exact closes_blanks (List.forall_mem_cons.mp blank).2 rest
      rw [closes_blanks blank, closes_blanks blank', tail blank some, tail blank' some']
      exact ⟨induction.1, induction.1⟩
  | @visible character rest rest' visible others induction =>
      refine ⟨?_, induction.1⟩
      by_cases quote : character = '"'
      · subst quote
        exact iff_of_true (closes_quote rest) (closes_quote rest')
      · by_cases backslash : character = '\\'
        · subst backslash
          rw [closes_escape, closes_escape, induction.2]
        · rw [closes_plain quote backslash, closes_plain quote backslash, induction.1]

/-! ## Tokens in a row -/

/-- The visible characters up to the next white space or literal are the same. -/
theorem Respaced.visible_stretch {characters characters' : List Char}
    (both : Respaced characters characters') : ∃ solid tail tail',
      characters = solid ++ tail ∧ characters' = solid ++ tail' ∧
        (∀ character ∈ solid, isBlank character = false ∧ character ≠ '"') ∧
          Stops tail ∧ Stops tail' ∧ Respaced tail tail' := by
  have blanks {run : List Char} (blank : Blanks run) (rest : List Char) (some : run ≠ []) :
      Stops (run ++ rest) := by
    cases run with
    | nil => exact absurd rfl some
    | cons first run =>
        rintro character ⟨⟩
        exact .inl (blank first List.mem_cons_self)
  induction both with
  | @finish run run' blank blank' =>
      have stops {run : List Char} (blank : Blanks run) : Stops run := by
        cases run with
        | nil => exact nofun
        | cons first run => exact blanks blank [] (List.cons_ne_nil _ _)
      exact ⟨[], run, run', rfl, rfl, nofun, stops blank, stops blank', .finish blank blank'⟩
  | @gap run run' rest rest' blank some blank' some' others _ =>
      exact ⟨[], _, _, rfl, rfl, nofun, blanks blank rest some, blanks blank' rest' some',
        .gap blank some blank' some' others⟩
  | @visible character rest rest' visible quote others induction =>
      rcases induction with ⟨solid, tail, tail', rfl, rfl, all, stops, stops', behind⟩
      exact ⟨character :: solid, tail, tail', rfl, rfl,
        List.forall_mem_cons.mpr ⟨⟨visible, quote⟩, all⟩, stops, stops', behind⟩
  | literal whole others _ =>
      refine ⟨[], _, _, rfl, rfl, nofun, ?_, ?_, .literal whole others⟩ <;>
        (rintro character ⟨⟩; exact .inr rfl)
  | unclosed closes others =>
      refine ⟨[], _, _, rfl, rfl, nofun, ?_, ?_, .unclosed closes others⟩ <;>
        (rintro character ⟨⟩; exact .inr rfl)

theorem Respaced.append {solid tail tail' : List Char} (behind : Respaced tail tail')
    (all : ∀ character ∈ solid, isBlank character = false ∧ character ≠ '"') :
    Respaced (solid ++ tail) (solid ++ tail') := by
  induction solid with
  | nil => exact behind
  | cons character solid induction =>
      rcases List.forall_mem_cons.mp all with ⟨here, others⟩
      exact .visible here.1 here.2 (induction others)

/-- White space before a token is seen, and so is none. -/
theorem scanFrom_blanks {run : List Char} (blank : Blanks run) (position : Position)
    (spaced : Bool) (rest : List Char) : ∃ behind,
      scanFrom position spaced (run ++ rest) = scanFrom behind (spaced || !run.isEmpty) rest := by
  induction run generalizing position spaced with
  | nil => exact ⟨position, by rw [List.nil_append, List.isEmpty_nil, Bool.not_true, Bool.or_false]⟩
  | cons first run induction =>
      rcases List.forall_mem_cons.mp blank with ⟨here, others⟩
      rcases induction others (position.next first) true with ⟨behind, same⟩
      refine ⟨behind, ?_⟩
      rw [List.cons_append, scanFrom_blank here, same, Bool.true_or, List.isEmpty_cons,
        Bool.not_false, Bool.or_true]

theorem scanFrom_fault {first : Char} {rest : List Char} {fault : ParseFault}
    (visible : isBlank first = false) (stops : scanToken first rest = .error fault)
    (position : Position) (spaced : Bool) :
    scanFrom position spaced (first :: rest) = .error ⟨fault, position⟩ := by
  rw [scanFrom.eq_def]
  simp only [visible, stops]
  rfl

/-- What is scanned from sources of the same spacing: from both nothing, or lexemes that the grammar
reads in the same way, or lexemes that it does not read because they end in a dot. -/
inductive ScannedAlike (follows : Prop) :
    Except ParseError (List Lexeme) → Except ParseError (List Lexeme) → Prop where
  | fault (error error' : ParseError) : ScannedAlike follows (.error error) (.error error')
  | similar {lexemes lexemes' : List Lexeme} (same : Similar follows lexemes lexemes') :
      ScannedAlike follows (.ok lexemes) (.ok lexemes')
  | dangling {lexemes lexemes' : List Lexeme} (dangling : Dangling lexemes)
      (dangling' : Dangling lexemes') : ScannedAlike follows (.ok lexemes) (.ok lexemes')

theorem ScannedAlike.cons {follows : Prop} {first first' : Lexeme}
    {scanned scanned' : Except ParseError (List Lexeme)}
    (behind : ScannedAlike True scanned scanned')
    (token : first.token = first'.token) (goes : first.token ≠ .finish)
    (spaced : follows → first.spaced = first'.spaced) :
    ScannedAlike follows (scanned.map (first :: ·)) (scanned'.map (first' :: ·)) := by
  cases behind with
  | fault error error' => exact .fault error error'
  | dangling dangling dangling' =>
      exact .dangling (dangling.cons goes) (dangling'.cons (token ▸ goes))
  | similar same =>
      cases same with
      | finish here there =>
          by_cases dot : first.token = .dot
          · exact .dangling ⟨dot, here⟩ ⟨token ▸ dot, there⟩
          · exact .similar (.cons token spaced (absurd · dot) (.finish here there))
      | cons token' spaced' dot' others =>
          have adjacent := congrArg (!·) (spaced' trivial)
          exact .similar (.cons token spaced (fun _ => adjacent) (.cons token' spaced' dot' others))

theorem Token.isWritable_ne_finish {token : Token} (writable : token.isWritable) :
    token ≠ .finish := by
  rintro rfl
  exact writable

theorem scanFrom_respaced {characters characters' : List Char}
    (both : Respaced characters characters') {follows : Prop} (position position' : Position)
    {spaced spaced' : Bool} (same : follows → spaced = spaced') :
    ScannedAlike follows (scanFrom position spaced characters)
      (scanFrom position' spaced' characters') := by
  induction count : characters.length using Nat.strongRecOn
    generalizing characters characters' follows position position' spaced spaced' with
  | _ count induction =>
      subst count
      cases both with
      | finish blank blank' =>
          rcases scanFrom_blanks blank position spaced [] with ⟨behind, scans⟩
          rcases scanFrom_blanks blank' position' spaced' [] with ⟨behind', scans'⟩
          rw [List.append_nil, scanFrom_nil] at scans scans'
          rw [scans, scans']
          exact .similar (.finish rfl rfl)
      | @gap run run' rest rest' blank some blank' some' others =>
          rcases scanFrom_blanks blank position spaced rest with ⟨behind, scans⟩
          rcases scanFrom_blanks blank' position' spaced' rest' with ⟨behind', scans'⟩
          have seen {run : List Char} (some : run ≠ []) (spaced : Bool) :
              (spaced || !run.isEmpty) = true := by
            simp [some]
          have shorter : rest.length < (run ++ rest).length := by
            have := List.length_pos_iff.mpr some
            rw [List.length_append]
            omega
          rw [scans, scans', seen some, seen some']
          exact induction rest.length shorter others behind behind' (fun _ => rfl) rfl
      | @visible first rest rest' visible quote others =>
          rcases others.visible_stretch with
            ⟨solid, tail, tail', rfl, rfl, all, stops, stops', others⟩
          have token := scanToken_stops quote solid stops
          have token' := scanToken_stops quote solid stops'
          cases scans : scanToken first solid with
          | error fault =>
              rw [scanFrom_fault visible (token.trans scans),
                scanFrom_fault visible (token'.trans scans)]
              exact .fault _ _
          | ok found =>
              rcases found with ⟨found, length⟩
              have short := length_of_scanToken quote scans
              have goes := Token.isWritable_ne_finish (isWritable_of_scanToken scans)
              rw [scanFrom_token (token.trans scans), scanFrom_token (token'.trans scans),
                List.drop_append_of_le_length short, List.drop_append_of_le_length short]
              refine .cons (induction _ ?_ ?_ _ _ (fun _ => rfl) rfl) rfl goes same
              · simp only [List.length_append, List.length_drop, List.length_cons]
                omega
              · exact others.append fun character member =>
                  all character (List.mem_of_mem_drop member)
      | @literal literal rest rest' whole others =>
          rcases scanToken_literal whole with ⟨value, token⟩
          rw [scanFrom_token (token rest), scanFrom_token (token rest'), List.drop_left,
            List.drop_left]
          refine .cons (induction _ ?_ others _ _ (fun _ => rfl) rfl) rfl (by simp) same
          simp only [List.length_append, List.length_cons]
          omega
      | @unclosed rest rest' closes others =>
          have closes' := mt (closes_reblanked others).1.mpr closes
          rcases scanToken_unclosed closes with ⟨fault, stops⟩
          rcases scanToken_unclosed closes' with ⟨fault', stops'⟩
          rw [scanFrom_fault rfl stops, scanFrom_fault rfl stops']
          exact .fault _ _

theorem scan_respaced {source source' : String} (both : RespacedSources source source') :
    ScannedAlike False (scan source) (scan source') := by
  rcases both with ⟨run, run', rest, rest', blank, blank', same, same', both⟩
  rcases scanFrom_blanks blank .start false rest with ⟨behind, scans⟩
  rcases scanFrom_blanks blank' .start false rest' with ⟨behind', scans'⟩
  rw [scan, scan, same, same', scans, scans']
  exact scanFrom_respaced both behind behind' False.elim

/-! ## Expressions -/

namespace Grammar.ReadsAll

variable {place : List String} {lexemes lexemes' : List Lexeme} {read : Expression}

theorem of_similar (same : Similar False lexemes lexemes') (reads : ReadsAll place lexemes read) :
    ReadsAll place lexemes' read := by
  rcases reads with ⟨rest, reads, finish⟩
  rcases reads.similar (same.weaken nofun) with ⟨rest', rest, reads⟩
  exact ⟨rest', reads, rest.peek.symm.trans finish⟩

/-- A dot needs a key behind it. -/
theorem not_dangling (reads : ReadsAll place lexemes read) : ¬ Dangling lexemes := by
  intro dangling
  rcases reads with ⟨rest, reads, finish⟩
  exact (reads.through.dangling dangling).peek finish

end Grammar.ReadsAll

namespace Expression

/-- Only where there is white space matters to the parser: with other white space there, and any at
the ends, it reads the same expression or none. -/
theorem parse_respaced {source source' : String} (both : RespacedSources source source')
    (place : List String) (read : Expression) :
    parse source place = .ok read ↔ parse source' place = .ok read := by
  rw [parse_eq_ok_iff, parse_eq_ok_iff]
  have scanned := scan_respaced both
  generalize scan source = scans at scanned
  generalize scan source' = scans' at scanned
  cases scanned with
  | fault error error' => simp
  | similar same =>
      simp only [Except.ok.injEq, exists_eq_left']
      exact ⟨.of_similar same, .of_similar same.symm⟩
  | dangling dangling dangling' =>
      simp only [Except.ok.injEq, exists_eq_left']
      exact iff_of_false (fun reads => reads.not_dangling dangling)
        fun reads => reads.not_dangling dangling'

theorem parse_respaced_literal :
    parse "a  \"b c\"" ["x"] = .ok (.binary .concatenation (.reference ["a"]) (.text "b c")) ∧
      parse "\ta\n\"b c\" " ["x"] =
        .ok (.binary .concatenation (.reference ["a"]) (.text "b c")) := by
  have parses : parse "a  \"b c\"" ["x"] =
      .ok (.binary .concatenation (.reference ["a"]) (.text "b c")) := by cbv
  have none : Blanks [] := List.forall_mem_nil _
  have blanks : Blanks [' ', ' '] ∧ Blanks ['\n'] ∧ Blanks ['\t'] ∧ Blanks [' '] := by
    simp [Blanks, isBlank]
  have literal : Literal ['b', ' ', 'c', '"'] :=
    .plain (by decide) (by decide) (.plain (by decide) (by decide)
      (.plain (by decide) (by decide) .close))
  have behind : Respaced ([' ', ' '] ++ '"' :: (['b', ' ', 'c', '"'] ++ []))
      (['\n'] ++ '"' :: (['b', ' ', 'c', '"'] ++ [' '])) :=
    .gap blanks.1 (by decide) blanks.2.1 (by decide)
      (.literal literal (.finish none blanks.2.2.2))
  have both : RespacedSources "a  \"b c\"" "\ta\n\"b c\" " :=
    ⟨[], ['\t'], _, _, none, blanks.2.2.1, rfl, rfl, .visible rfl (by decide) behind⟩
  exact ⟨parses, (parse_respaced both ["x"] _).mp parses⟩

end Expression

end Stencil
