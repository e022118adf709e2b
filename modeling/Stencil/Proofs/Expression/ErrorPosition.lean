import Stencil.Proofs.Expression.Misfit
import Stencil.Proofs.Expression.Slices
import Stencil.Proofs.Expression.Stopping

namespace Stencil

open Lexemes Grammar

/-! Where a parse error points. Of the faults that a refused token makes, some are raised when it
has been stepped over: those point at the token behind it. -/

/-! ## Positions ascend -/

namespace Position

/-- Earlier in the text. -/
def Before (position other : Position) : Prop :=
  position.line < other.line ∨ position.line = other.line ∧ position.column < other.column

theorem Before.trans {first second third : Position} (left : first.Before second)
    (right : second.Before third) : first.Before third := by
  unfold Before at *
  omega

theorem Before.ne {position other : Position} (before : position.Before other) :
    position ≠ other := by
  rintro rfl
  unfold Before at before
  omega

theorem before_next (position : Position) (character : Char) :
    position.Before (position.next character) := by
  unfold next
  split
  · exact .inl (Nat.lt_succ_self _)
  · exact .inr ⟨rfl, Nat.lt_succ_self _⟩

theorem behind_before (characters : List Char) {more : List Char} (some : more ≠ []) :
    (behind characters).Before (behind (characters ++ more)) := by
  induction more using List.reverseRecOn with
  | nil => exact absurd rfl some
  | append_singleton more last induction =>
      rw [← List.append_assoc, behind_concat]
      by_cases first : more = []
      · subst first
        rw [List.append_nil]
        exact before_next _ last
      · exact (induction first).trans (before_next _ last)

end Position

/-- The places of the tokens ascend. -/
theorem Covers.ascends {before rest : List Char} {lexemes : List Lexeme}
    (covers : Covers before rest lexemes) :
    lexemes.Pairwise (fun first second => first.position.Before second.position) ∧
      ∀ lexeme ∈ lexemes, ∃ more, lexeme.position = .behind (before ++ more) := by
  induction covers with
  | finish blank =>
      exact ⟨List.pairwise_singleton _ _, List.forall_mem_singleton.mpr ⟨_, rfl⟩⟩
  | @token before gap text rest token lexemes blank spelled others induction =>
      rcases induction with ⟨ascends, behind⟩
      have some : text ≠ [] := by
        rcases spelled.last with ⟨front, last, rfl, -⟩
        exact List.concat_ne_nil last front
      refine ⟨.cons (fun lexeme member => ?_) ascends,
        List.forall_mem_cons.mpr ⟨⟨gap, rfl⟩, fun lexeme member => ?_⟩⟩
      · rcases behind lexeme member with ⟨more, position⟩
        rw [position, List.append_assoc]
        exact Position.behind_before _ (List.append_ne_nil_of_left_ne_nil some more)
      · rcases behind lexeme member with ⟨more, position⟩
        exact ⟨gap ++ (text ++ more), by simp only [position, List.append_assoc]⟩

theorem scan_ascends {source : String} {lexemes : List Lexeme} (scans : scan source = .ok lexemes) :
    lexemes.Pairwise fun first second => first.position.Before second.position := by
  have covers : Covers [] source.toList lexemes := scanFrom_covers (List.forall_mem_nil _) scans
  exact covers.ascends.1

/-! ## The first token that does not fit -/

theorem Lexemes.Ended.of_append {lexeme : Lexeme} {rest : List Lexeme} :
    ∀ {front : List Lexeme}, Ended (front ++ lexeme :: rest) → Ended (lexeme :: rest)
  | [], ended => ended
  | [_], ended => ended
  | _ :: next :: front, ended => @Ended.of_append _ _ (next :: front) ended

/-- Some expression begins with these lexemes. -/
def Grammar.Begins (place : List String) (lexemes : List Lexeme) : Prop :=
  ∃ behind read, Ended (lexemes ++ behind) ∧ parseLexemes place (lexemes ++ behind) = .ok read

theorem Grammar.Misfit.begins {place : List String} {before : List Lexeme} {refused : Lexeme}
    (misfit : Misfit place .expression before refused) :
    Begins place before ∧ ¬ Begins place (before ++ [refused]) := by
  constructor
  · have finish : Ended [Lexeme.sign .finish false] := rfl
    have ends : Part.EndsBefore [Lexeme.sign .finish false] .expression := rfl
    rcases misfit.viable (List.cons_ne_nil _ _) ends with ⟨middle, read, reads⟩
    have ended := (finish.append middle).append before
    exact ⟨_, read, ended, (parseLexemes_eq_ok_iff ended).mpr ⟨_, reads, rfl⟩⟩
  · rintro ⟨behind, read, ended, parses⟩
    rcases (parseLexemes_eq_ok_iff ended).mp parses with ⟨rest, reads, -⟩
    rw [List.append_assoc] at ended reads
    exact misfit.stuck ended.of_append ⟨read, reads⟩

/-! ## The position of an error -/

namespace ParseFault

theorem raisedAt_refused {fault : ParseFault} {refused : Lexeme} {after : List Lexeme}
    (here : fault.isLate = false ∨ after = []) :
    (fault.raisedAt (refused :: after)).position = refused.position := by
  rcases here with early | rfl
  · simp only [raisedAt, early, Bool.false_eq_true, if_false, current]
  · simp only [raisedAt, advance, ite_self, current]

theorem raisedAt_next {fault : ParseFault} (late : fault.isLate = true) (refused next : Lexeme)
    (after : List Lexeme) :
    (fault.raisedAt (refused :: next :: after)).position = next.position := by
  simp only [raisedAt, late, if_true, advance, current]

end ParseFault

/-- A source whose tokens are no expression has a token that the grammar refuses, inside of the
expression or behind it. The message shows no other token, and where it shows none, this is the
first token that does not fit. The error points at this token, unless its fault is raised when the
token has been stepped over: then it points at the token behind it, if there is one. -/
theorem parse_error_position {source : String} {place : List String} {lexemes : List Lexeme}
    {error : ParseError} (scans : scan source = .ok lexemes)
    (fails : Expression.parse source place = .error error) :
    ∃ (before : List Lexeme) (refused : Lexeme) (after : List Lexeme),
      lexemes = before ++ refused :: after ∧
      (Refuses place .expression lexemes error.fault (refused :: after) ∨
        ∃ read, Reads place (.expression read) lexemes (refused :: after) ∧
          refused.token ≠ .finish ∧ error.fault = .unexpected .expression refused.token) ∧
      (∀ shown ∈ error.fault.shown, shown = refused.token) ∧
      (error.fault.shown = none → Begins place before ∧ ¬ Begins place (before ++ [refused])) ∧
      (error.position = refused.position ↔ error.fault.isLate = false ∨ after = []) ∧
      ∀ next ∈ after.head?, error.fault.isLate = true → error.position = next.position := by
  have scanned : Scanned lexemes := scanFrom_scanned scans
  have fails : parseLexemes place lexemes = .error error := by
    rwa [Expression.parse, scans] at fails
  rcases refuses_of_parseLexemes scanned.ended fails with ⟨fault, rest, rfl, refusal⟩
  have leaves : Leaves lexemes rest := by
    rcases refusal with refuses | ⟨read, reads, -⟩
    · exact refuses.leaves scanned
    · exact (Leaves.refl scanned).reads reads
  have shown : ∀ shown ∈ fault.shown, shown = peek rest := by
    rcases refusal with refuses | ⟨read, reads, -, rfl⟩
    · exact refuses.shown
    · rintro _ ⟨⟩
      rfl
  obtain ⟨refused, after, rfl⟩ := List.exists_cons_of_ne_nil leaves.scanned.more
  rcases leaves.suffix with ⟨before, rfl⟩
  have first (untold : fault.shown = none) :
      Begins place before ∧ ¬ Begins place (before ++ [refused]) := by
    rcases refusal with refuses | ⟨read, reads, -, rfl⟩
    · rcases refuses.misfit scanned untold with ⟨before', refused', after', same, split, -, misfit⟩
      cases same
      cases List.append_cancel_right split
      exact misfit.begins
    · cases untold
  have ascends := (List.pairwise_append.mp (scan_ascends scans)).2.1
  refine ⟨before, refused, after, rfl, refusal, shown, first, ⟨fun same => ?_, fun here => ?_⟩, ?_⟩
  · by_contra elsewhere
    rw [not_or, Bool.not_eq_false] at elsewhere
    obtain ⟨next, after, rfl⟩ := List.exists_cons_of_ne_nil elsewhere.2
    have apart := (List.rel_of_pairwise_cons ascends List.mem_cons_self).ne
    exact apart (same.symm.trans (ParseFault.raisedAt_next elsewhere.1 refused next after))
  · exact ParseFault.raisedAt_refused here
  · intro next member late
    obtain ⟨after, rfl⟩ := List.head?_eq_some_iff.mp member
    exact ParseFault.raisedAt_next late refused next after

/-- The word that is no index is refused, and the error points at the bracket behind it. -/
theorem parse_error_position_index :
    scan "l[x]" = .ok [⟨.identifier "l", ⟨1, 1⟩, false⟩, ⟨.leftBracket, ⟨1, 2⟩, false⟩,
        ⟨.identifier "x", ⟨1, 3⟩, false⟩, ⟨.rightBracket, ⟨1, 4⟩, false⟩,
        ⟨.finish, ⟨1, 5⟩, false⟩] ∧
      Expression.parse "l[x]" [] = .error ⟨.expectedIndex, ⟨1, 4⟩⟩ ∧
      ∃ (before : List Lexeme) (refused : Lexeme) (after : List Lexeme),
        [⟨.identifier "l", ⟨1, 1⟩, false⟩, ⟨.leftBracket, ⟨1, 2⟩, false⟩,
          ⟨.identifier "x", ⟨1, 3⟩, false⟩, ⟨.rightBracket, ⟨1, 4⟩, false⟩,
          ⟨.finish, ⟨1, 5⟩, false⟩] = before ++ refused :: after ∧
        (Refuses [] .expression [⟨.identifier "l", ⟨1, 1⟩, false⟩, ⟨.leftBracket, ⟨1, 2⟩, false⟩,
            ⟨.identifier "x", ⟨1, 3⟩, false⟩, ⟨.rightBracket, ⟨1, 4⟩, false⟩,
            ⟨.finish, ⟨1, 5⟩, false⟩] .expectedIndex (refused :: after) ∨
          ∃ read, Reads [] (.expression read) [⟨.identifier "l", ⟨1, 1⟩, false⟩,
              ⟨.leftBracket, ⟨1, 2⟩, false⟩, ⟨.identifier "x", ⟨1, 3⟩, false⟩,
              ⟨.rightBracket, ⟨1, 4⟩, false⟩, ⟨.finish, ⟨1, 5⟩, false⟩] (refused :: after) ∧
            refused.token ≠ .finish ∧
            ParseFault.expectedIndex = .unexpected .expression refused.token) ∧
        (∀ shown ∈ ParseFault.expectedIndex.shown, shown = refused.token) ∧
        (ParseFault.expectedIndex.shown = none →
          Begins [] before ∧ ¬ Begins [] (before ++ [refused])) ∧
        ((⟨1, 4⟩ : Position) = refused.position ↔
          ParseFault.expectedIndex.isLate = false ∨ after = []) ∧
        ∀ next ∈ after.head?, ParseFault.expectedIndex.isLate = true → ⟨1, 4⟩ = next.position := by
  have scans : scan "l[x]" = .ok [⟨.identifier "l", ⟨1, 1⟩, false⟩, ⟨.leftBracket, ⟨1, 2⟩, false⟩,
      ⟨.identifier "x", ⟨1, 3⟩, false⟩, ⟨.rightBracket, ⟨1, 4⟩, false⟩,
      ⟨.finish, ⟨1, 5⟩, false⟩] := by
    cbv
  have fails : Expression.parse "l[x]" [] = .error ⟨.expectedIndex, ⟨1, 4⟩⟩ := by cbv
  exact ⟨scans, fails, parse_error_position scans fails⟩

/-- A key is expected behind the dot. The message shows the parenthesis that stands there, and the
error points at the word behind that. -/
theorem parse_error_position_key :
    ¬ ∀ (source : String) (place : List String) (lexemes : List Lexeme) (error : ParseError),
      scan source = .ok lexemes → Expression.parse source place = .error error →
        ∀ shown ∈ error.fault.shown,
          ∃ refused ∈ lexemes, refused.token = shown ∧ error.position = refused.position := by
  have scans : scan "a.)b" = .ok [⟨.identifier "a", ⟨1, 1⟩, false⟩, ⟨.dot, ⟨1, 2⟩, false⟩,
      ⟨.rightParenthesis, ⟨1, 3⟩, false⟩, ⟨.identifier "b", ⟨1, 4⟩, false⟩,
      ⟨.finish, ⟨1, 5⟩, false⟩] := by
    cbv
  have fails : Expression.parse "a.)b" [] = .error ⟨.expectedKey .rightParenthesis, ⟨1, 4⟩⟩ := by
    cbv
  intro points
  have pointed := points _ _ _ _ scans fails .rightParenthesis rfl
  revert pointed
  decide

end Stencil
