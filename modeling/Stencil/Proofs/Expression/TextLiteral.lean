import Stencil.Proofs.Expression.Slices

namespace Stencil

open Lexemes Text

/-! Text literals. What `escape` makes of a text is scanned between quotes as this text and nothing
else, and the token ends at the closing quote, whatever stands before and behind the literal. -/

/-! ## The front of a source -/

/-- A literal is over at its closing quote. -/
theorem textLiteral_append {characters : List Char} {found : List Char × Nat}
    (reads : textLiteral characters = .ok found) (rest : List Char) :
    textLiteral (characters ++ rest) = .ok found := by
  rcases closes_of_textLiteral reads with ⟨literal, behind, whole, rfl⟩
  rcases textLiteral_of_literal whole with ⟨value, scans⟩
  rw [List.append_assoc, scans (behind ++ rest), ← scans behind, reads]

theorem scanToken_append {first : Char} {rest tail : List Char} {found : Token × Nat}
    (scans : scanToken first rest = .ok found) (stops : Stops tail) :
    scanToken first (rest ++ tail) = .ok found := by
  by_cases quote : first = '"'
  · subst quote
    rw [scanToken, if_neg (by decide), if_pos rfl] at scans ⊢
    rcases ok_of_map scans with ⟨literal, reads, rfl⟩
    rw [textLiteral_append reads tail]
    rfl
  · rw [scanToken_stops quote rest stops, scans]

/-- Before a blank or a quote all tokens of a source are over. What follows is scanned from there
on. -/
theorem scanFrom_append {front tail : List Char} {position : Position} {spaced : Bool}
    {lexemes : List Lexeme} (stops : Stops tail)
    (scans : scanFrom position spaced front = .ok lexemes) :
    ∃ tokens touched, lexemes = tokens ++ [⟨.finish, position.after front, touched⟩] ∧
      scanFrom position spaced (front ++ tail) =
        (scanFrom (position.after front) touched tail).map (tokens ++ ·) := by
  -- On how many characters are left: a token is stepped over as a whole.
  induction count : front.length using Nat.strongRecOn
    generalizing front position spaced lexemes with
  | _ count induction =>
      subst count
      cases front with
      | nil =>
          rw [scanFrom_nil] at scans
          cases scans
          refine ⟨[], spaced, rfl, ?_⟩
          change scanFrom position spaced tail =
            (scanFrom position spaced tail).map ([] ++ ·)
          cases scanFrom position spaced tail <;> rfl
      | cons first rest =>
          cases blank : isBlank first with
          | true =>
              rw [scanFrom_blank blank] at scans
              rcases induction rest.length (Nat.lt_succ_self _) scans rfl with
                ⟨tokens, touched, same, behind⟩
              exact ⟨tokens, touched, same, (scanFrom_blank blank ..).trans behind⟩
          | false =>
              cases token : scanToken first rest with
              | error fault =>
                  rw [scanFrom_fault blank token] at scans
                  cases scans
              | ok found =>
                  rcases found with ⟨found, length⟩
                  have short := (spelled_of_scanToken token).2
                  rw [scanFrom_token token] at scans
                  rcases ok_of_map scans with ⟨others, next, rfl⟩
                  have shorter : (rest.drop length).length < (first :: rest).length := by
                    simp only [List.length_drop, List.length_cons]
                    omega
                  rcases induction _ shorter next rfl with ⟨tokens, touched, rfl, behind⟩
                  have whole : (position.after (first :: rest.take length)).after
                      (rest.drop length) = position.after (first :: rest) := by
                    rw [Position.after, Position.after, ← List.foldl_append, List.cons_append,
                      List.take_append_drop]
                    rfl
                  rw [whole] at behind ⊢
                  refine ⟨_ :: tokens, touched, rfl, ?_⟩
                  rw [List.cons_append, scanFrom_token (scanToken_append token stops),
                    List.take_append_of_le_length short, List.drop_append_of_le_length short, behind]
                  cases scanFrom (position.after (first :: rest)) touched tail <;> rfl

/-! ## Literals of texts -/

/-- The literal of a text. -/
def literalOf (text : String) : String := "\"" ++ escape text ++ "\""

theorem toList_literalOf (text : String) :
    (literalOf text).toList = '"' :: ((escape text).toList ++ ['"']) := by
  simp [literalOf]

theorem scanToken_escaped (text : String) (rest : List Char) :
    scanToken '"' ((escape text).toList ++ '"' :: rest) =
      .ok (.text text, (escape text).length + 1) := by
  rw [scanToken, if_neg (by decide), if_pos rfl, escape, String.toList_ofList, textLiteral_escaped,
    String.length_ofList]
  simp [Except.map]

theorem scanFrom_literalOf (position : Position) (spaced : Bool) (text : String)
    (behind : List Char) :
    scanFrom position spaced ((literalOf text).toList ++ behind) =
      (scanFrom (position.after (literalOf text).toList) false behind).map
        (⟨.text text, position, spaced⟩ :: ·) := by
  have token := scanToken_escaped text behind
  have taken : (escape text).toList ++ '"' :: behind = ((escape text).toList ++ ['"']) ++ behind := by
    rw [List.append_assoc, List.singleton_append]
  have length : (escape text).length + 1 = ((escape text).toList ++ ['"']).length := by
    rw [List.length_append, String.length_toList, List.length_singleton]
  rw [taken, length] at token
  rw [toList_literalOf, List.cons_append, scanFrom_token token, List.take_left, List.drop_left]

/-- The literal of a text is one token with this text. In a longer source it is as well, behind the
tokens of what stands before it, and the tokens behind it are those of what follows its closing
quote. -/
theorem scan_literal (text : String) :
    let literal := literalOf text
    let placed (before : String) := Position.start.after before.toList
    scan literal = .ok [⟨.text text, .start, false⟩, ⟨.finish, placed literal, false⟩] ∧
    ∀ (front behind : String) (lexemes : List Lexeme), scan front = .ok lexemes →
      ∃ tokens spaced, lexemes = tokens ++ [⟨.finish, placed front, spaced⟩] ∧
        scan (front ++ literal ++ behind) =
          (scanFrom (placed (front ++ literal)) false behind.toList).map fun others =>
            tokens ++ ⟨.text text, placed front, spaced⟩ :: others := by
  intro literal placed
  constructor
  · have alone := scanFrom_literalOf .start false text []
    rw [List.append_nil, scanFrom_nil] at alone
    exact alone
  · intro front behind lexemes scans
    have stops : Stops (literal.toList ++ behind.toList) := by
      rw [toList_literalOf]
      rintro character ⟨⟩
      exact .inr rfl
    rcases scanFrom_append stops scans with ⟨tokens, spaced, same, whole⟩
    refine ⟨tokens, spaced, same, ?_⟩
    rw [scan, String.toList_append, String.toList_append, List.append_assoc, whole,
      scanFrom_literalOf]
    have position : (Position.start.after front.toList).after literal.toList =
        placed (front ++ literal) := by
      rw [Position.after, Position.after, ← List.foldl_append, ← String.toList_append]
      rfl
    rw [position]
    cases scanFrom (placed (front ++ literal)) false behind.toList <;> rfl

/-- Behind `f(` the literal of a text with a backslash in front of a quote ends at its own closing
quote. -/
theorem scan_literal_backslashes :
    let text := "a\\\"\n"
    literalOf text = "\"a\\\\\\\"\\n\"" ∧
    scan "f(" = .ok [⟨.identifier "f", ⟨1, 1⟩, false⟩, ⟨.leftParenthesis, ⟨1, 2⟩, false⟩,
      ⟨.finish, ⟨1, 3⟩, false⟩] ∧
    scan ("f(" ++ literalOf text ++ ")") =
      .ok [⟨.identifier "f", ⟨1, 1⟩, false⟩, ⟨.leftParenthesis, ⟨1, 2⟩, false⟩,
        ⟨.text text, ⟨1, 3⟩, false⟩, ⟨.rightParenthesis, ⟨1, 12⟩, false⟩,
        ⟨.finish, ⟨1, 13⟩, false⟩] := by
  intro text
  have front : scan "f(" = .ok [⟨.identifier "f", ⟨1, 1⟩, false⟩,
      ⟨.leftParenthesis, ⟨1, 2⟩, false⟩, ⟨.finish, ⟨1, 3⟩, false⟩] := by
    cbv
  rcases (scan_literal text).2 "f(" ")" _ front with ⟨tokens, spaced, same, whole⟩
  have parts : [_, _] ++ [_] = tokens ++ [_] := same
  rcases List.append_inj' parts rfl with ⟨rfl, finish⟩
  cases finish
  refine ⟨by cbv, front, whole.trans ?_⟩
  cbv

end Stencil
