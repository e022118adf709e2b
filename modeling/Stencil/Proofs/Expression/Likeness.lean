import Mathlib.Data.List.Forall2
import Stencil.Proofs.Expression.Progress

namespace Stencil

open Lexemes Grammar

/-! The grammar looks at the tokens and at whether there is white space before them, and not at
their positions. -/

/-- The same tokens with white space at the same places. -/
def Alike (lexemes lexemes' : List Lexeme) : Prop :=
  List.Forall₂ (fun left right => left.token = right.token ∧ left.spaced = right.spaced)
    lexemes lexemes'

/-! It does not look at all white space: not before the first token, which goes on with nothing,
and before the end only behind a dot. -/

/-- The same tokens with white space at the same places where the grammar looks for it. Before the
first token it does if something was read before it. -/
inductive Similar : Prop → List Lexeme → List Lexeme → Prop where
  | finish {follows : Prop} {last last' : Lexeme} (here : last.token = .finish)
      (there : last'.token = .finish) : Similar follows [last] [last']
  | cons {follows : Prop} {first first' : Lexeme} {rest rest' : List Lexeme}
      (token : first.token = first'.token) (spaced : follows → first.spaced = first'.spaced)
      (dot : first.token = .dot → adjacent rest = adjacent rest')
      (others : Similar True rest rest') : Similar follows (first :: rest) (first' :: rest')

theorem Alike.similar {lexemes lexemes' : List Lexeme} (alike : Alike lexemes lexemes')
    (ended : Ended lexemes) (follows : Prop) : Similar follows lexemes lexemes' := by
  induction alike generalizing follows with
  | nil => exact ended.elim
  | @cons first first' rest rest' same others induction =>
      cases others with
      | nil => exact .finish ended (same.1 ▸ ended)
      | cons next others =>
          refine .cons same.1 (fun _ => same.2) (fun _ => ?_) (induction ended True)
          exact congrArg (!·) next.2

namespace Similar

variable {follows : Prop} {lexemes lexemes' : List Lexeme}

theorem symm (same : Similar follows lexemes lexemes') : Similar follows lexemes' lexemes := by
  induction same with
  | finish here there => exact .finish there here
  | cons token spaced dot _ induction =>
      exact .cons token.symm (fun holds => (spaced holds).symm)
        (fun found => (dot (token.trans found)).symm) induction

theorem weaken {follows' : Prop} (same : Similar follows lexemes lexemes')
    (implies : follows' → follows) : Similar follows' lexemes lexemes' := by
  cases same with
  | finish here there => exact .finish here there
  | cons token spaced dot others =>
      exact .cons token (fun holds => spaced (implies holds)) dot others

theorem strict (same : Similar follows lexemes lexemes') (holds : follows) :
    Similar True lexemes lexemes' :=
  same.weaken fun _ => holds

theorem loose (same : Similar True lexemes lexemes') : Similar follows lexemes lexemes' :=
  same.weaken fun _ => trivial

theorem peek (same : Similar follows lexemes lexemes') : peek lexemes = peek lexemes' := by
  cases same with
  | finish here there => exact here.trans there.symm
  | cons token => exact token

theorem advance (same : Similar follows lexemes lexemes') :
    Similar True (advance lexemes) (advance lexemes') := by
  cases same with
  | finish here there => exact .finish here there
  | cons token spaced dot others =>
      cases others with
      | finish here there => exact .finish here there
      | cons token' spaced' dot' others => exact .cons token' spaced' dot' others

theorem adjacent (same : Similar True lexemes lexemes') (goes : Lexemes.peek lexemes ≠ .finish) :
    adjacent lexemes = adjacent lexemes' := by
  cases same with
  | finish here => exact absurd here goes
  | cons token spaced => exact congrArg (!·) (spaced trivial)

/-- Behind a dot the grammar looks for white space before any token. -/
theorem adjacent_advance (same : Similar follows lexemes lexemes')
    (dot : Lexemes.peek lexemes = .dot) :
    Lexemes.adjacent (Lexemes.advance lexemes) = Lexemes.adjacent (Lexemes.advance lexemes') := by
  cases same with
  | finish here => cases here.symm.trans dot
  | cons token spaced follow others =>
      have same := follow dot
      cases others <;> exact same

/-- Both have the same look ahead. -/
theorem ahead (same : Similar follows lexemes lexemes') :
    Lexemes.peek (Lexemes.advance lexemes) = Lexemes.peek (Lexemes.advance lexemes') :=
  same.advance.peek

/-- A token that directly follows the one before it. -/
theorem touches (same : Similar True lexemes lexemes') {token : Token} (other : token ≠ .finish) :
    Lexemes.peek lexemes = token ∧ Lexemes.adjacent lexemes = true ↔
      Lexemes.peek lexemes' = token ∧ Lexemes.adjacent lexemes' = true := by
  rw [← same.peek]
  refine and_congr_right fun found => ?_
  rw [same.adjacent (found ▸ other)]

theorem startsPreferred (same : Similar follows lexemes lexemes') :
    startsPreferred lexemes ↔ startsPreferred lexemes' := by
  unfold Grammar.startsPreferred
  rw [same.peek, same.ahead]

theorem startsLambda (same : Similar follows lexemes lexemes') :
    startsLambda lexemes ↔ startsLambda lexemes' := by
  unfold Grammar.startsLambda
  rw [same.peek, same.ahead]

theorem startsMapping (same : Similar follows lexemes lexemes') :
    startsMapping lexemes ↔ startsMapping lexemes' := by
  unfold Grammar.startsMapping
  rw [same.peek, same.advance.touches (by simp)]

theorem startsNegative (same : Similar follows lexemes lexemes') :
    startsNegative lexemes ↔ startsNegative lexemes' := by
  unfold Grammar.startsNegative
  simp only [← exists_and_right, same.advance.touches (show Token.integer _ ≠ .finish by simp)]

theorem continuesPath (same : Similar True lexemes lexemes') :
    continuesPath lexemes ↔ continuesPath lexemes' := by
  unfold Grammar.continuesPath
  by_cases finish : Lexemes.peek lexemes = .finish
  · simp [← same.peek, finish]
  · rw [← same.peek, ← same.adjacent finish]
    refine and_congr_right fun _ => or_congr_right (and_congr_right fun dot => ?_)
    rw [same.adjacent_advance dot]

theorem behindReplace (same : Similar True lexemes lexemes') :
    Similar True (behindReplace lexemes) (behindReplace lexemes') := by
  unfold Grammar.behindReplace
  rw [same.peek]
  split
  · exact same.advance
  · exact same

end Similar

/-! ## Paths and parameter lists -/

variable {follows : Prop} {lexemes lexemes' rest : List Lexeme}

theorem parseIndex_similar {step : String} (same : Similar follows lexemes lexemes')
    (ends : parseIndex lexemes = .ok (step, rest)) :
    ∃ rest', Similar True rest rest' ∧ parseIndex lexemes' = .ok (step, rest') := by
  unfold parseIndex at ends ⊢
  split at ends
  · rename_i index number
    rcases ok_of_bind ends with ⟨last, close, ends⟩
    unfold expect at close
    split at close
    · rename_i found
      cases close
      cases ends
      rw [same.peek] at number
      rw [same.ahead] at found
      refine ⟨_, same.advance.advance, ?_⟩
      simp only [number, expect, if_pos found]
      rfl
    · cases close
  · cases ends

theorem parseKey_similar {afterDot : Bool} {step : String} (same : Similar follows lexemes lexemes')
    (ends : parseKey afterDot lexemes = .ok (step, rest)) :
    ∃ rest', Similar True rest rest' ∧ parseKey afterDot lexemes' = .ok (step, rest') := by
  unfold parseKey at ends ⊢
  rw [same.peek] at ends
  split at ends
  · cases ends
    exact ⟨_, same.advance, rfl⟩
  · cases ends
    exact ⟨_, same.advance, rfl⟩
  · exact parseIndex_similar same.advance ends
  · cases ends

theorem Grammar.Steps.similar {steps : List String} (reads : Steps steps lexemes rest)
    (same : Similar True lexemes lexemes') :
    ∃ rest', Similar True rest rest' ∧ Steps steps lexemes' rest' := by
  induction reads generalizing lexemes' with
  | key touches dot follows first others induction =>
      rcases parseKey_similar same.advance first with ⟨behind', behind, first⟩
      rcases induction behind with ⟨rest', rest, others⟩
      rcases (same.touches (by simp)).mp ⟨dot, touches⟩ with ⟨dot', touches'⟩
      rw [same.adjacent_advance dot] at follows
      exact ⟨rest', rest, .key touches' dot' follows first others⟩
  | index touches bracket first others induction =>
      rcases parseIndex_similar same.advance first with ⟨behind', behind, first⟩
      rcases induction behind with ⟨rest', rest, others⟩
      rcases (same.touches (by simp)).mp ⟨bracket, touches⟩ with ⟨bracket, touches⟩
      exact ⟨rest', rest, .index touches bracket first others⟩
  | halt halt =>
      rw [same.continuesPath] at halt
      exact ⟨_, same, .halt halt⟩

theorem Grammar.Path.similar {path : List String} (reads : Path path lexemes rest)
    (same : Similar follows lexemes lexemes') :
    ∃ rest', Similar True rest rest' ∧ Path path lexemes' rest' := by
  cases reads with
  | path first others =>
      rcases parseKey_similar same first with ⟨behind', behind, first⟩
      rcases others.similar behind with ⟨rest', rest, others⟩
      exact ⟨rest', rest, .path first others⟩

theorem Grammar.Parameters.similar {names : List String} (reads : Parameters names lexemes rest)
    (same : Similar follows lexemes lexemes') :
    ∃ rest', Similar True rest rest' ∧ Parameters names lexemes' rest' := by
  induction reads generalizing lexemes' with
  | last word bar =>
      rw [same.peek] at word
      rw [same.ahead] at bar
      exact ⟨_, same.advance.advance, .last word bar⟩
  | more word comma others induction =>
      rcases induction same.advance.advance.loose with ⟨rest', rest, others⟩
      rw [same.peek] at word
      rw [same.ahead] at comma
      exact ⟨rest', rest, .more word comma others⟩

/-! ## Phrases -/

theorem Grammar.Reads.similar {place : List String} {phrase : Phrase}
    (reads : Reads place phrase lexemes rest) (same : Similar (phrase.least = 0) lexemes lexemes') :
    ∃ rest', Similar True rest rest' ∧ Reads place phrase lexemes' rest' := by
  induction reads generalizing lexemes' with
  | preferred starts _ inner =>
      rcases inner same.advance.loose with ⟨rest', rest, inner⟩
      exact ⟨rest', rest, .preferred (same.startsPreferred.mp starts) inner⟩
  | expression starts _ inner =>
      rcases inner same with ⟨rest', rest, inner⟩
      exact ⟨rest', rest, .expression (mt same.startsPreferred.mpr starts) inner⟩
  | conditional _ question _ colon _ first second third =>
      rcases first same with ⟨middle', middle, first⟩
      rcases second middle.advance.loose with ⟨behind', behind, second⟩
      rcases third behind.advance.loose with ⟨rest', rest, third⟩
      rw [middle.peek] at question
      rw [behind.peek] at colon
      exact ⟨rest', rest, .conditional first question second colon third⟩
  | unconditional _ question inner =>
      rcases inner same with ⟨rest', rest, inner⟩
      rw [rest.peek] at question
      exact ⟨rest', rest, .unconditional inner question⟩
  | chain _ _ first others =>
      rcases first same with ⟨middle', middle, first⟩
      rcases others middle.loose with ⟨rest', rest, others⟩
      exact ⟨rest', rest, .chain first others⟩
  | chainOver halt =>
      rw [same.peek] at halt
      exact ⟨_, same.strict rfl, .chainOver halt⟩
  | @chainMore lexemes middle rest level operator left right read sign _ _ next others =>
      have start : Similar True (if operator = .concatenation then lexemes else advance lexemes)
          (if operator = .concatenation then lexemes' else advance lexemes') := by
        split
        · exact same.strict rfl
        · exact same.advance
      rcases next start.loose with ⟨middle', middle, next⟩
      rcases others middle.loose with ⟨rest', rest, others⟩
      rw [same.peek] at sign
      exact ⟨rest', rest, .chainMore sign next others⟩
  | tighter below _ inner =>
      rcases inner same with ⟨rest', rest, inner⟩
      exact ⟨rest', rest, .tighter below inner⟩
  | tightest below _ inner =>
      rcases inner same with ⟨rest', rest, inner⟩
      exact ⟨rest', rest, .tightest below inner⟩
  | not bang _ inner =>
      rcases inner same.advance.loose with ⟨rest', rest, inner⟩
      rw [same.peek] at bang
      exact ⟨rest', rest, .not bang inner⟩
  | negative minus number touches =>
      rcases (same.advance.touches (by simp)).mp ⟨number, touches⟩ with ⟨number, touches⟩
      rw [same.peek] at minus
      exact ⟨_, same.advance.advance, .negative minus number touches⟩
  | minus minus number _ inner =>
      rcases inner same.advance.loose with ⟨rest', rest, inner⟩
      rw [same.peek] at minus
      exact ⟨rest', rest, .minus minus (mt same.startsNegative.mpr number) inner⟩
  | applied bang minus _ _ first others =>
      rcases first same with ⟨middle', middle, first⟩
      rcases others middle.loose with ⟨rest', rest, others⟩
      rw [same.peek] at bang minus
      exact ⟨rest', rest, .applied bang minus first others⟩
  | called parenthesis touches _ _ inside others =>
      rcases inside same.advance.loose with ⟨middle', middle, inside⟩
      rcases others middle.loose with ⟨rest', rest, others⟩
      rcases ((same.strict rfl).touches (by simp)).mp ⟨parenthesis, touches⟩ with
        ⟨parenthesis, touches⟩
      exact ⟨rest', rest, .called parenthesis touches inside others⟩
  | callsOver halt =>
      rw [(same.strict rfl).touches (by simp)] at halt
      exact ⟨_, same.strict rfl, .callsOver halt⟩
  | nothing close =>
      rw [same.peek] at close
      exact ⟨_, same.advance, .nothing close⟩
  | something close _ inner =>
      rcases inner same with ⟨rest', rest, inner⟩
      rw [same.peek] at close
      exact ⟨rest', rest, .something close inner⟩
  | last _ close inner =>
      rcases inner same with ⟨rest', rest, inner⟩
      rw [rest.peek] at close
      exact ⟨_, rest.advance, .last inner close⟩
  | more _ comma _ first others =>
      rcases first same with ⟨middle', middle, first⟩
      rcases others middle.advance.loose with ⟨rest', rest, others⟩
      rw [middle.peek] at comma
      exact ⟨rest', rest, .more first comma others⟩
  | integer number =>
      rw [same.peek] at number
      exact ⟨_, same.advance, .integer number⟩
  | text literal =>
      rw [same.peek] at literal
      exact ⟨_, same.advance, .text literal⟩
  | group parenthesis _ close inner =>
      rcases inner same.advance.loose with ⟨rest', rest, inner⟩
      rw [same.peek] at parenthesis
      rw [rest.peek] at close
      exact ⟨_, rest.advance, .group parenthesis inner close⟩
  | list bracket _ inside =>
      rcases inside same.advance.loose with ⟨rest', rest, inside⟩
      rw [same.peek] at bracket
      exact ⟨rest', rest, .list bracket inside⟩
  | root dot touches steps =>
      rcases steps.similar same.advance with ⟨rest', rest, steps⟩
      rw [same.adjacent_advance dot] at touches
      rw [same.peek] at dot
      exact ⟨rest', rest, .root dot touches steps⟩
  | nil word =>
      rw [same.peek] at word
      exact ⟨_, same.advance, .nil word⟩
  | yes word =>
      rw [same.peek] at word
      exact ⟨_, same.advance, .yes word⟩
  | no word =>
      rw [same.peek] at word
      exact ⟨_, same.advance, .no word⟩
  | auto word =>
      rw [same.peek] at word
      exact ⟨_, same.advance, .auto word⟩
  | redirected word key steps =>
      rcases steps.similar same.advance.behindReplace with ⟨rest', rest, steps⟩
      rw [same.peek] at word
      rw [same.advance.behindReplace.peek] at key
      rw [same.ahead]
      exact ⟨rest', rest, .redirected word key steps⟩
  | merge word key =>
      rw [same.peek] at word
      simp only [same.advance.behindReplace.peek] at key
      rw [same.ahead]
      exact ⟨_, same.advance.behindReplace, .merge word key⟩
  | lambda starts _ inner =>
      rcases inner same.advance.loose with ⟨rest', rest, inner⟩
      exact ⟨rest', rest, .lambda (same.startsLambda.mp starts) inner⟩
  | mapping starts _ inner =>
      rcases inner same.advance.advance.loose with ⟨rest', rest, inner⟩
      exact ⟨rest', rest, .mapping (same.startsMapping.mp starts) inner⟩
  | reference word free lambda mapping steps =>
      rcases steps.similar same with ⟨rest', rest, steps⟩
      rw [same.peek] at word
      exact ⟨rest', rest, .reference word free (mt same.startsLambda.mpr lambda)
        (mt same.startsMapping.mpr mapping) steps⟩
  | bare bars arrow _ inner =>
      rcases inner same.advance.advance.loose with ⟨rest', rest, inner⟩
      rw [same.peek] at bars
      rw [same.ahead] at arrow
      exact ⟨rest', rest, .bare bars arrow inner⟩
  | named bar names arrow _ inner =>
      rcases names.similar same.advance with ⟨middle', middle, names⟩
      rcases inner middle.advance.loose with ⟨rest', rest, inner⟩
      rw [same.peek] at bar
      rw [middle.peek] at arrow
      exact ⟨rest', rest, .named bar names arrow inner⟩
  | mappingOf _ bar _ close first second =>
      rcases first same with ⟨middle', middle, first⟩
      rcases second middle.advance.loose with ⟨rest', rest, second⟩
      rw [middle.peek] at bar
      rw [rest.peek] at close
      exact ⟨_, rest.advance, .mappingOf first bar second close⟩
  | short names arrow _ inner =>
      rcases names.similar same with ⟨middle', middle, names⟩
      rcases inner middle.advance.loose with ⟨rest', rest, inner⟩
      rw [middle.peek] at arrow
      exact ⟨rest', rest, .short names arrow inner⟩
  | full names _ inner =>
      rcases inner same with ⟨rest', rest, inner⟩
      refine ⟨rest', rest, .full ?_ inner⟩
      intro parameters middle' found arrow
      rcases found.similar same.symm with ⟨middle, same, found⟩
      rw [same.peek] at arrow
      exact names _ _ found arrow

end Stencil
