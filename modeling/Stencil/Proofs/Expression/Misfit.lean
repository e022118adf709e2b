import Stencil.Proofs.Expression.Carrying

namespace Stencil

open Lexemes Lexeme Grammar

/-! A fault whose message shows no token is about a step that is missing behind its sign: a key
behind a dot, or a number behind a bracket. The token that stands there is the first one that does
not fit: some expression begins with what is before it, and none with this token as well. -/

variable {place : List String} {lexemes rest tail : List Lexeme}

/-! ## Derivations are unique -/

theorem Grammar.Reads.unique {phrase phrase' : Phrase} {rest' : List Lexeme}
    (reads : Reads place phrase lexemes rest) (reads' : Reads place phrase' lexemes rest')
    (ended : Ended lexemes) (same : phrase.part = phrase'.part) :
    phrase = phrase' ∧ rest = rest' := by
  have enough := Nat.le_add_right (16 * lexemes.length + phrase.rank) phrase'.rank
  have enough' := Nat.le_add_right (16 * lexemes.length + phrase'.rank) phrase.rank
  have found := completes place _ reads ended enough
  have found' := completes place _ reads' ended enough'
  rw [Nat.add_right_comm] at found'
  cases phrase <;> cases phrase' <;> cases same <;>
    (cases Eq.trans (Eq.symm found) found'; exact ⟨rfl, rfl⟩)

/-! ## A primary goes on as its first tokens tell -/

namespace Grammar.Reads

variable {read : Expression}

theorem of_parenthesis (reads : Reads place (.primary read) lexemes rest)
    (parenthesis : peek lexemes = .leftParenthesis) :
    ∃ last, Part.expression.Reads place (advance lexemes) last := by
  cases reads with
  | group _ reads => exact ⟨_, _, reads⟩
  | integer found | text found | list found | root found | nil found | yes found | no found
  | auto found | redirected found | merge found | reference found =>
      cases parenthesis.symm.trans found
  | lambda starts | mapping starts => cases parenthesis.symm.trans starts.1

theorem of_bracket (reads : Reads place (.primary read) lexemes rest)
    (bracket : peek lexemes = .leftBracket) :
    ∃ last, (Part.separated .entries).Reads place (advance lexemes) last := by
  cases reads with
  | list _ inside => exact ⟨_, _, inside⟩
  | integer found | text found | group found | root found | nil found | yes found | no found
  | auto found | redirected found | merge found | reference found =>
      cases bracket.symm.trans found
  | lambda starts | mapping starts => cases bracket.symm.trans starts.1

theorem of_dot (reads : Reads place (.primary read) lexemes rest) (dot : peek lexemes = .dot) :
    adjacent (advance lexemes) = true ∧ ∃ last, Part.path.Reads place (advance lexemes) last := by
  cases reads with
  | root _ touches steps => exact ⟨touches, _, _, steps⟩
  | integer found | text found | group found | list found | nil found | yes found | no found
  | auto found | redirected found | merge found | reference found =>
      cases dot.symm.trans found
  | lambda starts | mapping starts => cases dot.symm.trans starts.1

theorem of_merge {name : String} (reads : Reads place (.primary read) lexemes rest)
    (word : peek lexemes = .identifier "merge")
    (key : peek (behindReplace (advance lexemes)) = .identifier name) :
    ∃ last, Part.path.Reads place (behindReplace (advance lexemes)) last := by
  cases reads with
  | redirected _ _ steps => exact ⟨_, _, steps⟩
  | merge _ other => exact absurd key (other name)
  | integer found | text found | group found | list found | root found | nil found | yes found
  | no found | auto found => exact absurd (word.symm.trans found) (by simp)
  | lambda starts | mapping starts => exact absurd (word.symm.trans starts.1) (by simp)
  | reference found free =>
      cases word.symm.trans found
      exact absurd (by decide) free

theorem of_startsLambda (reads : Reads place (.primary read) lexemes rest)
    (starts : startsLambda lexemes) :
    ∃ last, Part.lambda.Reads place (advance lexemes) last := by
  cases reads with
  | lambda _ reads => exact ⟨_, _, reads⟩
  | integer found | text found | group found | list found | root found | nil found | yes found
  | no found | auto found | redirected found | merge found =>
      exact absurd (starts.1.symm.trans found) (by simp)
  | mapping other => exact absurd (starts.1.symm.trans other.1) (by simp)
  | reference _ _ lambda => exact absurd starts lambda

theorem of_startsMapping (reads : Reads place (.primary read) lexemes rest)
    (starts : startsMapping lexemes) :
    ∃ last, Part.mapping.Reads place (advance (advance lexemes)) last := by
  cases reads with
  | mapping _ reads => exact ⟨_, _, reads⟩
  | integer found | text found | group found | list found | root found | nil found | yes found
  | no found | auto found | redirected found | merge found =>
      exact absurd (starts.1.symm.trans found) (by simp)
  | lambda other => exact absurd (starts.1.symm.trans other.1) (by simp)
  | reference _ _ _ mapping => exact absurd starts mapping

theorem of_name {name : String} (reads : Reads place (.primary read) lexemes rest)
    (word : peek lexemes = .identifier name) (free : name ∉ reserved)
    (lambda : ¬ startsLambda lexemes) (mapping : ¬ startsMapping lexemes) :
    ∃ last, Part.path.Reads place lexemes last := by
  cases reads with
  | reference _ _ _ _ steps => exact ⟨_, _, steps⟩
  | integer found | text found | group found | list found | root found =>
      cases word.symm.trans found
  | nil found | yes found | no found | auto found | redirected found | merge found =>
      cases word.symm.trans found
      exact absurd (by decide) free
  | lambda starts => exact absurd starts lambda
  | mapping starts => exact absurd starts mapping

end Grammar.Reads

/-! ## What mends a part -/

theorem reads_zero (more : tail ≠ []) (closes : (peek tail).closes = true) :
    Reads place (.expression (.integer 0)) (sign (.integer 0) false :: tail) tail := by
  have primary : Reads place (.primary (.integer 0)) (sign (.integer 0) false :: tail) _ :=
    .integer rfl
  rw [advance_cons more] at primary
  have callee : Tier.Reads place (.integer 0) (sign (.integer 0) false :: tail) tail .callee :=
    fun _ _ others => .applied nofun nofun primary others
  have whole : Tier.Reads place (.integer 0) (sign (.integer 0) false :: tail) tail .expression :=
    callee.loosen (Nat.zero_le _) (Tier.ends_of_closing closes _) fun _ _ starts => nomatch starts.1
  exact whole

/-- A key that may stand behind a dot. -/
def someKey : Lexeme := sign (.identifier "a") false

theorem steps_key {dot : Lexeme} (more : tail ≠ []) (closes : (peek tail).closes = true)
    (touches : dot.spaced = false) (found : dot.token = .dot) :
    Steps ["a"] (dot :: someKey :: tail) tail := by
  have first : parseKey true (someKey :: tail) = .ok ("a", advance (someKey :: tail)) := rfl
  rw [advance_cons more] at first
  refine .key (congrArg not touches) found rfl first ?_
  exact .halt (Tier.ends_of_closing closes .expression).path

theorem reads_root {dot : Lexeme} (more : tail ≠ []) (closes : (peek tail).closes = true)
    (found : dot.token = .dot) :
    Reads place (.primary (.reference ["", "a"])) (dot :: someKey :: tail) tail := by
  have first : parseKey false (someKey :: tail) = .ok ("a", advance (someKey :: tail)) := rfl
  rw [advance_cons more] at first
  exact .root found rfl (.path first (.halt (Tier.ends_of_closing closes .expression).path))

theorem reads_root_operand {dot : Lexeme} (more : tail ≠ []) (closes : (peek tail).closes = true)
    (found : dot.token = .dot) :
    Reads place (.operand .additive (.reference ["", "a"])) (dot :: someKey :: tail) tail := by
  have peeked : peek (dot :: someKey :: tail) = .dot := found
  have callee : Tier.Reads place (.reference ["", "a"]) (dot :: someKey :: tail) tail .callee :=
    fun _ _ others => .applied (by simp [peeked]) (by simp [peeked])
      (reads_root more closes found) others
  exact callee.operand (by decide) (Tier.ends_of_closing closes _)

/-- Before a dot an operand goes on with the key behind it, or is joined to it. -/
theorem Grammar.Carries.dot {left : Expression} {front behind : List Lexeme} {dot : Lexeme}
    (carries : Carries place (.operand .additive left) front (dot :: behind)) (more : tail ≠ [])
    (closes : (peek tail).closes = true) (found : dot.token = .dot) :
    ∃ left middle, Reads place (.operand .additive left) (front ++ dot :: someKey :: tail) middle ∧
      ∀ left, ∃ read, Reads place (.chainRest .additive left read) middle tail := by
  have finished (left : Expression) : Reads place (.chainRest .additive left left) tail tail :=
    .chainOver (Level.additive.operator?_of_closes closes)
  have joint : Level.additive.operator? (peek (dot :: someKey :: tail)) =
      Option.some .concatenation := by
    rw [show peek (dot :: someKey :: tail) = .dot from found]
    rfl
  have root (left : Expression) : ∃ read,
      Reads place (.chainRest .additive left read) (dot :: someKey :: tail) tail :=
    ⟨_, .chainMore joint (reads_root_operand more closes found) (finished _)⟩
  cases spaced : dot.spaced with
  | false =>
      have touches : adjacent (dot :: someKey :: tail) = true := congrArg not spaced
      have joined : Joins (dot :: behind) (dot :: someKey :: tail) tail :=
        ⟨found, found, touches, touches, ⟨_, steps_key more closes spaced found⟩, closes⟩
      rcases carries.joins (.inl rfl) joined with ⟨last, rfl | rfl, left, reads⟩
      · exact ⟨left, _, reads, root⟩
      · exact ⟨left, _, reads, fun left => ⟨left, finished left⟩⟩
  | true =>
      have apart : adjacent (dot :: someKey :: tail) = false := congrArg not spaced
      have calm : Calm (dot :: behind) (dot :: someKey :: tail) :=
        ⟨⟨rfl, rfl⟩, fun goes => absurd (goes.1.symm.trans apart) (by decide)⟩
      exact ⟨left, _, carries.carry (List.cons_ne_nil _ _) calm, root⟩

/-! ## Misfits -/

/-- The token opens a step of a path. It is no part of a parameter list, and no word. -/
def Token.opensStep : Token → Bool
  | .dot | .leftBracket => true
  | _ => false

namespace Lexemes

theorem Ended.append (ended : Ended rest) (front : List Lexeme) : Ended (front ++ rest) := by
  induction front with
  | nil => exact ended
  | cons first front induction =>
      cases whole : front ++ rest with
      | nil => rw [whole] at induction; exact induction.elim
      | cons next others => rw [List.cons_append, whole]; rw [whole] at induction; exact induction

/-- The last of these lexemes opens a step. -/
def Opened (before : List Lexeme) : Prop :=
  ∃ front sign, before = front ++ [sign] ∧ sign.token.opensStep = true

namespace Opened

variable {before : List Lexeme}

theorem append (opened : Opened before) (front : List Lexeme) : Opened (front ++ before) := by
  rcases opened with ⟨start, sign, rfl, opens⟩
  exact ⟨front ++ start, sign, (List.append_assoc _ _ _).symm, opens⟩

theorem split (opened : Opened before) :
    (∃ sign, before = [sign] ∧ sign.token.opensStep = true) ∨
      ∃ first second others, before = first :: second :: others := by
  rcases opened with ⟨_ | ⟨first, _ | ⟨second, front⟩⟩, sign, rfl, opens⟩
  · exact .inl ⟨sign, rfl, opens⟩
  · exact .inr ⟨first, sign, [], rfl⟩
  · exact .inr ⟨first, second, front ++ [sign], rfl⟩

theorem some (opened : Opened before) : ∃ first others, before = first :: others := by
  rcases opened.split with ⟨sign, rfl, _⟩ | ⟨first, second, others, rfl⟩
  · exact ⟨sign, [], rfl⟩
  · exact ⟨first, second :: others, rfl⟩

theorem ne_nil (opened : Opened before) : before ≠ [] := by
  obtain ⟨first, others, rfl⟩ := opened.some
  exact List.cons_ne_nil first others

theorem two (opened : Opened before) (word : (peek (before ++ rest)).opensStep = false) :
    ∃ first second others, before = first :: second :: others := by
  rcases opened.split with ⟨sign, rfl, opens⟩ | two
  · exact absurd (word.symm.trans opens) Bool.false_ne_true
  · exact two

/-- Nothing else goes on with these lexemes when others are behind them, unless they are a dot. -/
theorem calm (opened : Opened before) (plain : ∀ dot, before = [dot] → dot.token ≠ .dot)
    (rest rest' : List Lexeme) : Calm (before ++ rest) (before ++ rest') := by
  rcases opened.split with ⟨sign, rfl, _⟩ | ⟨first, second, others, rfl⟩
  · have found : peek (sign :: rest) = sign.token := rfl
    exact .head found (plain sign rfl)
  · exact .behind first (List.cons_ne_nil _ _) (List.cons_ne_nil _ _) rfl

theorem calm_refused (opened : Opened before) (refused : Lexeme) (after after' : List Lexeme) :
    Calm (before ++ refused :: after) (before ++ refused :: after') := by
  obtain ⟨first, others, rfl⟩ := opened.some
  refine .behind first (by simp)
    (by simp) ?_
  cases others <;> rfl

end Opened

end Lexemes

/-- What the part may end before when its misfit is mended. -/
def Grammar.Part.EndsBefore (tail : List Lexeme) : Part → Prop
  | .mapped => peek tail = .rightBracket
  | _ => (peek tail).closes = true

/-- The part may go on behind these lexemes, but not with this one. -/
structure Grammar.Misfit (place : List String) (part : Part) (before : List Lexeme)
    (refused : Lexeme) : Prop where
  viable : ∀ {tail : List Lexeme}, tail ≠ [] → part.EndsBefore tail →
    ∃ middle, part.Reads place (before ++ (middle ++ tail)) tail
  stuck : ∀ {after tail : List Lexeme}, Ended (refused :: after) →
    ¬ part.Reads place (before ++ refused :: after) tail

/-- The lexemes go on with others, which end with a misfit of the part. -/
def Grammar.ReachesMisfit (place : List String) (part : Part) (lexemes before : List Lexeme)
    (refused : Lexeme) (after : List Lexeme) : Prop :=
  ∃ front, lexemes = front ++ (before ++ refused :: after) ∧
    Misfit place part (front ++ before) refused

section

variable {part inner : Part} {behind before after : List Lexeme} {refused : Lexeme}

/-- A part that needs another one behind its front goes on up to the misfit of that one. The marks
are what it needs behind the other one. -/
theorem Grammar.Misfit.reaches (misfit : Misfit place inner before refused)
    (front marks : List Lexeme) (whole : lexemes = front ++ (before ++ refused :: after))
    (closing : ∀ {tail}, part.EndsBefore tail → inner.EndsBefore (marks ++ tail))
    (builds : ∀ {middle tail}, tail ≠ [] → part.EndsBefore tail →
      inner.Reads place (before ++ (middle ++ (marks ++ tail))) (marks ++ tail) →
        part.Reads place (front ++ (before ++ (middle ++ (marks ++ tail)))) tail)
    (needs : ∀ {after tail}, Ended (refused :: after) →
      part.Reads place (front ++ (before ++ refused :: after)) tail →
        ∃ last, inner.Reads place (before ++ refused :: after) last) :
    ReachesMisfit place part lexemes before refused after := by
  refine ⟨front, whole, fun {tail} more ends => ?_, fun {after tail} ended reads => ?_⟩
  · rcases misfit.viable (by simp [more]) (closing ends) with ⟨middle, reads⟩
    refine ⟨middle ++ marks, ?_⟩
    simp only [List.append_assoc]
    exact builds more ends reads
  · rw [List.append_assoc] at reads
    rcases needs ended reads with ⟨last, inside⟩
    exact misfit.stuck ended inside

theorem reaches_expression (enters : Enters place .expression lexemes inner behind)
    (scanned : Scanned lexemes) (same : behind = before ++ refused :: after)
    (opened : Opened before) (misfit : Misfit place inner before refused) :
    ReachesMisfit place .expression lexemes before refused after := by
  cases enters with
  | preferred starts =>
      rcases scanned.split (ne_finish_of_peek starts.1 (by simp)) with ⟨mark, _, rfl, left⟩
      rw [advance_cons left.more] at same
      subst same
      obtain ⟨first, others, rfl⟩ := opened.some
      refine misfit.reaches [mark] [] rfl id (fun _ _ ⟨_, reads⟩ => ⟨_, .preferred starts reads⟩)
        fun _ ⟨_, reads⟩ => ?_
      cases reads with
      | preferred _ reads => exact ⟨_, _, reads⟩
      | expression plain => exact (plain starts).elim
  | expression plain =>
      subst same
      have look {rest : List Lexeme} : ¬ startsPreferred (before ++ rest) := by
        intro starts
        obtain ⟨first, second, others, rfl⟩ := opened.two (by rw [starts.1]; rfl)
        exact plain starts
      refine misfit.reaches [] [] rfl id (fun _ _ ⟨_, reads⟩ => ⟨_, .expression look reads⟩)
        fun _ ⟨_, reads⟩ => ?_
      cases reads with
      | preferred starts => exact (look starts).elim
      | expression _ reads => exact ⟨_, _, reads⟩

theorem reaches_conditional (enters : Enters place .conditional lexemes inner behind)
    (scanned : Scanned lexemes) (same : behind = before ++ refused :: after)
    (opened : Opened before) (misfit : Misfit place inner before refused) :
    ReachesMisfit place .conditional lexemes before refused after := by
  cases enters with
  | condition =>
      subst same
      refine misfit.reaches [] [] rfl id (fun _ ends ⟨_, reads⟩ => ⟨_, .unconditional reads
        ((Tier.ends_of_closing ends .conditional).question (by decide))⟩) fun _ ⟨_, reads⟩ => ?_
      cases reads with
      | conditional reads | unconditional reads => exact ⟨_, _, reads⟩
  | @consequence _ _ condition first question =>
      rcases first.carried scanned with ⟨front, rfl, left, carries⟩
      rcases left.split (ne_finish_of_peek question (by simp)) with ⟨mark, _, rfl, left'⟩
      rw [advance_cons left'.more] at same
      subst same
      obtain ⟨start, others, rfl⟩ := opened.some
      have chain {rest : List Lexeme} : Reads place (.chain .fallback condition)
          (front ++ mark :: rest) (mark :: rest) :=
        carries.carry (List.cons_ne_nil mark rest) (.head question (by simp))
      -- Whatever completes the consequence, a colon and a zero complete the conditional.
      refine misfit.reaches (front ++ [mark]) [sign .colon false, sign (.integer 0) false] (by simp)
        (fun _ => rfl) (fun more ends ⟨_, reads⟩ => ?_) fun {after _} ended ⟨_, reads⟩ => ?_
      · rw [List.append_assoc]
        exact ⟨_, .conditional chain question reads rfl (reads_zero more ends)⟩
      · rw [List.append_assoc] at reads
        have whole := ((ended.append (start :: others)).append [mark]).append front
        cases reads with
        | conditional first' _ second =>
            rcases chain.unique first' whole rfl with ⟨_, rfl⟩
            exact ⟨_, _, second⟩
        | unconditional first' other =>
            rcases chain.unique first' whole rfl with ⟨_, rfl⟩
            exact (other question).elim
  | @alternative _ _ _ condition consequence first question second colon =>
      rcases first.carried scanned with ⟨front, rfl, left, carries⟩
      rcases left.split (ne_finish_of_peek question (by simp)) with ⟨mark, _, rfl, left'⟩
      rw [advance_cons left'.more] at second
      rcases second.carried left' with ⟨front', rfl, left'', carries'⟩
      rcases left''.split (ne_finish_of_peek colon (by simp)) with ⟨mark', _, rfl, last⟩
      rw [advance_cons last.more] at same
      subst same
      obtain ⟨start, others, rfl⟩ := opened.some
      have chain {rest : List Lexeme} : Reads place (.chain .fallback condition)
          (front ++ mark :: rest) (mark :: rest) :=
        carries.carry (List.cons_ne_nil mark rest) (.head question (by simp))
      have inside {rest : List Lexeme} : Reads place (.expression consequence)
          (advance (mark :: (front' ++ mark' :: rest))) (mark' :: rest) :=
        (carries'.carry (List.cons_ne_nil mark' rest) (.head colon (by simp))).pass (by simp) mark
      refine misfit.reaches (front ++ mark :: (front' ++ [mark'])) [] (by simp) id
        (fun _ _ ⟨_, reads⟩ => ?_) fun {after _} ended ⟨_, reads⟩ => ?_
      · simp only [List.append_assoc, List.cons_append]
        exact ⟨_, .conditional chain question inside colon reads⟩
      · simp only [List.append_assoc, List.cons_append] at reads
        have rest := ((ended.append (start :: others)).append [mark']).append front'
        cases reads with
        | conditional first' _ second' _ third =>
            rcases chain.unique first' ((rest.append [mark]).append front) rfl with ⟨_, rfl⟩
            rcases inside.unique second' (rest.append [mark]).advance rfl with ⟨_, rfl⟩
            exact ⟨_, _, third⟩
        | unconditional first' other =>
            rcases chain.unique first' ((rest.append [mark]).append front) rfl with ⟨_, rfl⟩
            exact (other question).elim

theorem Grammar.Reads.operator {level : Level} {left read : Expression}
    (reads : Reads place (.chainRest level left read) lexemes rest) :
    lexemes = rest ∨ ∃ operator, level.operator? (peek lexemes) = some operator := by
  cases reads with
  | chainOver => exact .inl rfl
  | chainMore sign => exact .inr ⟨_, sign⟩

/-- Only the level of concatenation goes on with a dot. -/
theorem Grammar.Misfit.additive {level : Level} {left : Expression} {dot : Lexeme}
    (misfit : Misfit place (.chainRest level left) [dot] refused) (found : dot.token = .dot) :
    level = .additive := by
  rcases misfit.viable (List.cons_ne_nil (sign .finish false) []) rfl with ⟨middle, read, reads⟩
  rcases reads.operator with same | ⟨operator, goes⟩
  · have := congrArg List.length same
    simp at this
  · have goes : level.operator? dot.token = some operator := goes
    rw [found] at goes
    cases level <;> first | rfl | cases goes

/-- Up to a dot the operand may have gone on with the key behind it, so what mends it is not what
mends the rest of the chain. -/
theorem reaches_chain {level : Level} (enters : Enters place (.chain level) lexemes inner behind)
    (scanned : Scanned lexemes) (same : behind = before ++ refused :: after)
    (opened : Opened before) (misfit : Misfit place inner before refused) :
    ReachesMisfit place (.chain level) lexemes before refused after := by
  cases enters with
  | first =>
      subst same
      refine misfit.reaches [] [] rfl id (fun _ ends ⟨_, reads⟩ =>
        ⟨_, .chain reads (.chainOver (level.operator?_of_closes ends))⟩) fun _ ⟨_, reads⟩ => ?_
      cases reads with
      | chain first => exact ⟨_, _, first⟩
  | @chain _ _ _ left first =>
      rcases first.carried scanned with ⟨front, rfl, last, carries⟩
      subst same
      refine ⟨front, rfl, fun {tail} more ends => ?_, fun {after tail} ended => ?_⟩
      · by_cases dotted : ∃ dot, before = [dot] ∧ dot.token = .dot
        · -- A dot alone is the root of the next operand for the misfit, but may be a step of the
          -- operand before it. With a key behind it the chain is read either way.
          rcases dotted with ⟨dot, rfl, found⟩
          cases misfit.additive found
          rcases carries.dot more ends found with ⟨left, middle, first, others⟩
          rcases others left with ⟨read, others⟩
          refine ⟨[someKey], ?_⟩
          rw [List.append_assoc]
          exact ⟨read, .chain first others⟩
        · rcases misfit.viable more ends with ⟨middle, read, others⟩
          have calm := opened.calm (fun dot same found => dotted ⟨dot, same, found⟩)
            (refused :: after) (middle ++ tail)
          refine ⟨middle, ?_⟩
          rw [List.append_assoc]
          exact ⟨read, .chain (carries.carry (by simp [more]) calm) others⟩
      · have again := carries.carry (by simp) (opened.calm_refused refused _ after)
        rw [List.append_assoc]
        rintro ⟨read, reads⟩
        cases reads with
        | chain first' others =>
            rcases again.unique first' ((ended.append before).append front) rfl with ⟨same, rfl⟩
            cases same
            exact misfit.stuck ended ⟨_, others⟩

/-- The right operand starts at the sign for it, or behind it. Only its first lexeme counts for
that. -/
theorem operandStart {level : Level} {operator : Operator} (scanned : Scanned lexemes)
    (sign : level.operator? (peek lexemes) = some operator) :
    ∃ front, lexemes = front ++ (if operator = .concatenation then lexemes else advance lexemes) ∧
      ∀ {start behind : List Lexeme}, start ≠ [] →
        (if operator = .concatenation then lexemes else advance lexemes) = start ++ behind →
        ∀ behind', level.operator? (peek (front ++ (start ++ behind'))) = some operator ∧
          (if operator = .concatenation then front ++ (start ++ behind')
            else advance (front ++ (start ++ behind'))) = start ++ behind' := by
  by_cases joint : operator = .concatenation
  · simp only [if_pos joint]
    refine ⟨[], rfl, ?_⟩
    rintro start behind more rfl behind'
    obtain ⟨first, start, rfl⟩ := List.exists_cons_of_ne_nil more
    exact ⟨sign, rfl⟩
  · rcases scanned.split (Level.passes_of_operator sign joint).goes with ⟨mark, behind, rfl, left⟩
    simp only [if_neg joint, advance_cons left.more]
    refine ⟨[mark], rfl, ?_⟩
    rintro start behind more rfl behind'
    obtain ⟨first, start, rfl⟩ := List.exists_cons_of_ne_nil more
    exact ⟨sign, rfl⟩

theorem reaches_chainRest {level : Level} {left : Expression}
    (enters : Enters place (.chainRest level left) lexemes inner behind)
    (scanned : Scanned lexemes) (same : behind = before ++ refused :: after)
    (opened : Opened before) (misfit : Misfit place inner before refused) :
    ReachesMisfit place (.chainRest level left) lexemes before refused after := by
  cases enters with
  | @right _ _ operator _ sign =>
      rcases operandStart scanned sign with ⟨front, whole, start⟩
      have start := start opened.ne_nil same
      rw [same] at whole
      refine misfit.reaches front [] whole id (fun {middle tail} _ ends ⟨_, reads⟩ => ?_)
        fun {after _} _ ⟨_, reads⟩ => ?_
      · rcases start (middle ++ tail) with ⟨sign, next⟩
        exact ⟨_, .chainMore sign (next.symm ▸ reads)
          (.chainOver (level.operator?_of_closes ends))⟩
      · rcases start (refused :: after) with ⟨sign, next⟩
        cases reads with
        | chainOver halt => cases halt.symm.trans sign
        | chainMore sign' reads =>
            cases sign'.symm.trans sign
            rw [next] at reads
            exact ⟨_, _, reads⟩
  | @chainMore _ _ _ operator _ right sign next =>
      rcases operandStart scanned sign with ⟨front, whole, start⟩
      have started : Scanned (if operator = .concatenation then lexemes else advance lexemes) := by
        split <;> [exact scanned; exact scanned.advance]
      rcases next.carried started with ⟨front', split, last, carries⟩
      have start := start (carries.some Nat.zero_lt_one) split
      rw [split, same, ← List.append_assoc] at whole
      rw [same] at carries
      refine ⟨front ++ front', whole, fun {tail} more ends => ?_, fun {after tail} ended => ?_⟩
      · by_cases dotted : ∃ dot, before = [dot] ∧ dot.token = .dot
        · rcases dotted with ⟨dot, rfl, found⟩
          cases misfit.additive found
          rcases carries.dot more ends found with ⟨right, middle, reads, rests⟩
          rcases rests (.binary operator left right) with ⟨read, rests⟩
          rcases start (dot :: someKey :: tail) with ⟨sign, next⟩
          refine ⟨[someKey], ?_⟩
          simp only [List.append_assoc]
          exact ⟨read, .chainMore sign (next.symm ▸ reads) rests⟩
        · rcases misfit.viable more ends with ⟨middle, read, rests⟩
          have calm := opened.calm (fun dot same found => dotted ⟨dot, same, found⟩)
            (refused :: after) (middle ++ tail)
          have reads := carries.carry (by simp [more]) calm
          rcases start (before ++ (middle ++ tail)) with ⟨sign, next⟩
          refine ⟨middle, ?_⟩
          simp only [List.append_assoc]
          exact ⟨read, .chainMore sign (next.symm ▸ reads) rests⟩
      · have again := carries.carry (by simp) (opened.calm_refused refused _ after)
        simp only [List.append_assoc]
        rcases start (before ++ refused :: after) with ⟨sign, next⟩
        rintro ⟨read, reads⟩
        cases reads with
        | chainOver halt => cases halt.symm.trans sign
        | chainMore sign' reads rests =>
            cases sign'.symm.trans sign
            rw [next] at reads
            rcases again.unique reads ((ended.append before).append front') rfl with ⟨same, rfl⟩
            cases same
            exact misfit.stuck ended ⟨_, rests⟩

theorem reaches_operand {level : Level}
    (enters : Enters place (.operand level) lexemes inner behind)
    (same : behind = before ++ refused :: after) (misfit : Misfit place inner before refused) :
    ReachesMisfit place (.operand level) lexemes before refused after := by
  cases enters with
  | tighter below =>
      subst same
      refine misfit.reaches [] [] rfl id (fun _ _ ⟨_, reads⟩ => ⟨_, .tighter below reads⟩)
        fun _ ⟨_, reads⟩ => ?_
      cases reads with
      | tighter below' reads =>
          cases below.symm.trans below'
          exact ⟨_, _, reads⟩
      | tightest below' => cases below.symm.trans below'
  | tightest below =>
      subst same
      refine misfit.reaches [] [] rfl id (fun _ _ ⟨_, reads⟩ => ⟨_, .tightest below reads⟩)
        fun _ ⟨_, reads⟩ => ?_
      cases reads with
      | tighter below' => cases below.symm.trans below'
      | tightest _ reads => exact ⟨_, _, reads⟩

theorem Grammar.Reads.parenthesis {function read : Expression}
    (reads : Reads place (.calls function read) lexemes rest) :
    lexemes = rest ∨ peek lexemes = .leftParenthesis := by
  cases reads with
  | callsOver => exact .inl rfl
  | called parenthesis => exact .inr parenthesis

/-- Calls do not go on with a dot. -/
theorem Grammar.Misfit.call {function : Expression} {dot : Lexeme}
    (misfit : Misfit place (.calls function) [dot] refused) : dot.token ≠ .dot := by
  intro found
  rcases misfit.viable (List.cons_ne_nil (sign .finish false) []) rfl with ⟨middle, read, reads⟩
  rcases reads.parenthesis with same | parenthesis
  · have := congrArg List.length same
    simp at this
  · exact nomatch found.symm.trans parenthesis

theorem reaches_unary (enters : Enters place .unary lexemes inner behind)
    (scanned : Scanned lexemes) (same : behind = before ++ refused :: after)
    (opened : Opened before) (misfit : Misfit place inner before refused) :
    ReachesMisfit place .unary lexemes before refused after := by
  cases enters with
  | not bang =>
      rcases scanned.split (ne_finish_of_peek bang (by simp)) with ⟨mark, _, rfl, left⟩
      rw [advance_cons left.more] at same
      subst same
      obtain ⟨first, others, rfl⟩ := opened.some
      refine misfit.reaches [mark] [] rfl id (fun _ _ ⟨_, reads⟩ => ⟨_, .not bang reads⟩)
        fun _ ⟨_, reads⟩ => ?_
      cases reads with
      | not _ reads => exact ⟨_, _, reads⟩
      | negative minus | minus minus => cases bang.symm.trans minus
      | applied other => exact (other bang).elim
  | minus minus number =>
      rcases scanned.split (ne_finish_of_peek minus (by simp)) with ⟨mark, _, rfl, left⟩
      rw [advance_cons left.more] at same
      subst same
      obtain ⟨first, others, rfl⟩ := opened.some
      refine misfit.reaches [mark] [] rfl id (fun _ _ ⟨_, reads⟩ => ⟨_, .minus minus number reads⟩)
        fun _ ⟨_, reads⟩ => ?_
      cases reads with
      | not bang => cases minus.symm.trans bang
      | negative _ found touches => exact (number ⟨⟨_, found⟩, touches⟩).elim
      | minus _ _ reads => exact ⟨_, _, reads⟩
      | applied _ other => exact (other minus).elim
  | function bang minus =>
      subst same
      obtain ⟨first, others, rfl⟩ := opened.some
      refine misfit.reaches [] [] rfl id (fun _ ends ⟨_, reads⟩ => ⟨_, .applied bang minus reads
        (.callsOver ((Tier.ends_of_closing ends .unary).call (by decide)))⟩) fun _ ⟨_, reads⟩ => ?_
      cases reads with
      | not found => exact (bang found).elim
      | negative found | minus found => exact (minus found).elim
      | applied _ _ first => exact ⟨_, _, first⟩
  | @applied _ _ function bang minus primary =>
      rcases primary.carried scanned with ⟨front, rfl, last, carries⟩
      subst same
      obtain ⟨first, others, rfl⟩ := List.exists_cons_of_ne_nil (carries.some Nat.zero_lt_one)
      refine misfit.reaches (first :: others) [] rfl id (fun {middle tail} more _ ⟨_, reads⟩ => ?_)
        fun {after _} ended ⟨_, reads⟩ => ?_
      · have calm := opened.calm (by rintro dot rfl; exact misfit.call) (refused :: after)
          (middle ++ tail)
        exact ⟨_, .applied bang minus (carries.carry (by simp [more]) calm) reads⟩
      · have again := carries.carry (by simp) (opened.calm_refused refused _ after)
        cases reads with
        | not found => exact (bang found).elim
        | negative found | minus found => exact (minus found).elim
        | applied _ _ first' calls =>
            rcases again.unique first' ((ended.append before).append _) rfl with ⟨same, rfl⟩
            cases same
            exact ⟨_, _, calls⟩

theorem reaches_calls {function : Expression}
    (enters : Enters place (.calls function) lexemes inner behind) (scanned : Scanned lexemes)
    (same : behind = before ++ refused :: after) (opened : Opened before)
    (misfit : Misfit place inner before refused) :
    ReachesMisfit place (.calls function) lexemes before refused after := by
  cases enters with
  | arguments parenthesis touches =>
      rcases scanned.split (ne_finish_of_peek parenthesis (by simp)) with ⟨mark, _, rfl, left⟩
      rw [advance_cons left.more] at same
      subst same
      obtain ⟨first, others, rfl⟩ := opened.some
      refine misfit.reaches [mark] [] rfl id (fun _ ends ⟨_, reads⟩ => ⟨_,
        .called parenthesis touches reads
          (.callsOver ((Tier.ends_of_closing ends .unary).call (by decide)))⟩)
        fun _ ⟨_, reads⟩ => ?_
      cases reads with
      | called _ _ inside => exact ⟨_, _, inside⟩
      | callsOver halt => exact (halt ⟨parenthesis, touches⟩).elim
  | @called _ _ _ arguments parenthesis touches inside =>
      rcases scanned.split (ne_finish_of_peek parenthesis (by simp)) with ⟨mark, _, rfl, left⟩
      rw [advance_cons left.more] at inside
      rcases inside.carried left with ⟨front, rfl, last, carries⟩
      subst same
      have inside {rest : List Lexeme} (more : rest ≠ []) : Reads place
          (.separated .arguments arguments) (advance (mark :: (front ++ rest))) rest :=
        (carries.carry more trivial).pass (by simp [more]) mark
      refine misfit.reaches (mark :: front) [] rfl id (fun more _ ⟨_, reads⟩ =>
        ⟨_, .called parenthesis touches (inside (by simp [more])) reads⟩)
        fun {after _} ended ⟨_, reads⟩ => ?_
      cases reads with
      | called _ _ inside' calls =>
          have whole := ((ended.append before).append front).append [mark]
          rcases (inside (by simp)).unique inside' whole.advance rfl with ⟨same, rfl⟩
          cases same
          exact ⟨_, _, calls⟩
      | callsOver halt => exact (halt ⟨parenthesis, touches⟩).elim

theorem reaches_separated {enclosure : Enclosure}
    (enters : Enters place (.separated enclosure) lexemes inner behind)
    (same : behind = before ++ refused :: after) (opened : Opened before)
    (misfit : Misfit place inner before refused) :
    ReachesMisfit place (.separated enclosure) lexemes before refused after := by
  cases enters with
  | something close =>
      subst same
      obtain ⟨first, others, rfl⟩ := opened.some
      refine misfit.reaches [] [] rfl id (fun _ _ ⟨_, reads⟩ => ⟨_, .something close reads⟩)
        fun _ ⟨_, reads⟩ => ?_
      cases reads with
      | nothing found => exact (close found).elim
      | something _ reads => exact ⟨_, _, reads⟩

theorem reaches_entries {enclosure : Enclosure}
    (enters : Enters place (.entries enclosure) lexemes inner behind) (scanned : Scanned lexemes)
    (same : behind = before ++ refused :: after) (opened : Opened before)
    (misfit : Misfit place inner before refused) :
    ReachesMisfit place (.entries enclosure) lexemes before refused after := by
  cases enters with
  | entry =>
      subst same
      refine misfit.reaches [] [sign enclosure.close false] rfl (fun _ => enclosure.closes)
        (fun more _ ⟨_, reads⟩ => ?_) fun _ ⟨_, reads⟩ => ?_
      · have entries := Grammar.Reads.last reads rfl
        rw [List.singleton_append, advance_cons more] at entries
        exact ⟨_, entries⟩
      · cases reads with
        | last reads | more reads => exact ⟨_, _, reads⟩
  | @more _ _ _ entry first comma =>
      rcases first.carried scanned with ⟨front, rfl, left, carries⟩
      rcases left.split (ne_finish_of_peek comma (by simp)) with ⟨mark, _, rfl, left'⟩
      rw [advance_cons left'.more] at same
      subst same
      obtain ⟨start, others, rfl⟩ := opened.some
      have first {rest : List Lexeme} : Reads place (.expression entry)
          (front ++ mark :: rest) (mark :: rest) :=
        carries.carry (List.cons_ne_nil mark rest) (.head comma (by simp))
      refine misfit.reaches (front ++ [mark]) [] (by simp) id (fun _ _ ⟨_, reads⟩ => ?_)
        fun {after _} ended ⟨_, reads⟩ => ?_
      · rw [List.append_assoc]
        exact ⟨_, .more first comma reads⟩
      · rw [List.append_assoc] at reads
        have whole := ((ended.append (start :: others)).append [mark]).append front
        cases reads with
        | last first' close =>
            rcases first.unique first' whole rfl with ⟨_, rfl⟩
            cases enclosure <;> exact nomatch close.symm.trans comma
        | more first' _ others =>
            rcases first.unique first' whole rfl with ⟨_, rfl⟩
            exact ⟨_, _, others⟩

/-- What a merge goes on with starts behind the word `replace`, if that stands there. -/
theorem replaceStart (scanned : Scanned lexemes) :
    ∃ front, lexemes = front ++ behindReplace lexemes ∧
      ∀ {start behind : List Lexeme}, start ≠ [] → behindReplace lexemes = start ++ behind →
        ∀ behind', behindReplace (front ++ (start ++ behind')) = start ++ behind' := by
  by_cases replacing : peek lexemes = .identifier "replace"
  · rcases scanned.split (ne_finish_of_peek replacing (by simp)) with ⟨mark, behind, rfl, left⟩
    rw [behindReplace, if_pos replacing, advance_cons left.more]
    refine ⟨[mark], rfl, ?_⟩
    rintro start behind more rfl behind'
    obtain ⟨first, start, rfl⟩ := List.exists_cons_of_ne_nil more
    exact if_pos replacing
  · rw [behindReplace, if_neg replacing]
    refine ⟨[], rfl, ?_⟩
    rintro start behind more rfl behind'
    obtain ⟨first, start, rfl⟩ := List.exists_cons_of_ne_nil more
    exact if_neg replacing

theorem reaches_primary (enters : Enters place .primary lexemes inner behind)
    (scanned : Scanned lexemes) (same : behind = before ++ refused :: after)
    (opened : Opened before) (misfit : Misfit place inner before refused) :
    ReachesMisfit place .primary lexemes before refused after := by
  cases enters with
  | group parenthesis =>
      rcases scanned.split (ne_finish_of_peek parenthesis (by simp)) with ⟨mark, _, rfl, left⟩
      rw [advance_cons left.more] at same
      subst same
      obtain ⟨first, others, rfl⟩ := opened.some
      refine misfit.reaches [mark] [sign .rightParenthesis false] rfl (fun _ => rfl)
        (fun {middle tail} more _ ⟨read, reads⟩ => ?_) fun _ ⟨_, reads⟩ => ?_
      · have group : Reads place (.primary (.group read))
            (mark :: (first :: others ++ (middle ++ sign .rightParenthesis false :: tail))) _ :=
          .group parenthesis reads rfl
        rw [List.singleton_append, advance_cons more] at group
        exact ⟨_, group⟩
      · exact reads.of_parenthesis parenthesis
  | list bracket =>
      rcases scanned.split (ne_finish_of_peek bracket (by simp)) with ⟨mark, _, rfl, left⟩
      rw [advance_cons left.more] at same
      subst same
      obtain ⟨first, others, rfl⟩ := opened.some
      exact misfit.reaches [mark] [] rfl id (fun _ _ ⟨_, reads⟩ => ⟨_, .list bracket reads⟩)
        fun _ ⟨_, reads⟩ => reads.of_bracket bracket
  | root dot touches =>
      rcases scanned.split (ne_finish_of_peek dot (by simp)) with ⟨mark, _, rfl, left⟩
      rw [advance_cons left.more] at same touches
      subst same
      obtain ⟨first, others, rfl⟩ := opened.some
      exact misfit.reaches [mark] [] rfl id (fun _ _ ⟨_, steps⟩ => ⟨_, .root dot touches steps⟩)
        fun _ ⟨_, reads⟩ => (reads.of_dot dot).2
  | redirected word key =>
      rcases scanned.split (ne_finish_of_peek word (by simp)) with ⟨mark, _, rfl, left⟩
      rw [advance_cons left.more] at same key
      rcases replaceStart left with ⟨front, whole, start⟩
      have skip := start opened.ne_nil same
      rw [same] at whole key
      subst whole
      obtain ⟨first, others, rfl⟩ := opened.some
      refine misfit.reaches (mark :: front) [] rfl id (fun {middle tail} _ _ ⟨_, steps⟩ => ⟨_,
        .mergedPath word (by simp) (skip (middle ++ tail)) key steps⟩)
        fun {after _} _ ⟨_, reads⟩ => ?_
      have more : front ++ (first :: others ++ refused :: after) ≠ [] := by simp
      have skip := skip (refused :: after)
      rw [← advance_cons more mark] at skip
      rcases reads.of_merge word ((congrArg peek skip).trans key) with ⟨last, steps⟩
      rw [List.cons_append, skip] at steps
      exact ⟨last, steps⟩
  | lambda starts =>
      rcases scanned.split (ne_finish_of_peek starts.1 (by simp)) with ⟨mark, _, rfl, left⟩
      rw [advance_cons left.more] at same
      subst same
      obtain ⟨first, others, rfl⟩ := opened.some
      exact misfit.reaches [mark] [] rfl id (fun _ _ ⟨_, reads⟩ => ⟨_, .lambda starts reads⟩)
        fun _ ⟨_, reads⟩ => reads.of_startsLambda starts
  | mapping starts =>
      rcases scanned.split (ne_finish_of_peek starts.1 (by simp)) with ⟨mark, _, rfl, left⟩
      have bracket := starts.2.1
      rw [advance_cons left.more] at bracket same
      rcases left.split (ne_finish_of_peek bracket (by simp)) with ⟨mark', _, rfl, left'⟩
      rw [advance_cons left'.more] at same
      subst same
      obtain ⟨first, others, rfl⟩ := opened.some
      exact misfit.reaches [mark, mark'] [] rfl id
        (fun _ _ ⟨_, reads⟩ => ⟨_, .mapping starts reads⟩)
        fun _ ⟨_, reads⟩ => reads.of_startsMapping starts
  | reference word free lambda mapping =>
      subst same
      obtain ⟨first, second, others, rfl⟩ := opened.two (by rw [word]; rfl)
      exact misfit.reaches [] [] rfl id
        (fun _ _ ⟨_, steps⟩ => ⟨_, .reference word free lambda mapping steps⟩)
        fun _ ⟨_, reads⟩ => reads.of_name word free lambda mapping

theorem reaches_lambda (enters : Enters place .lambda lexemes inner behind)
    (scanned : Scanned lexemes) (same : behind = before ++ refused :: after)
    (unlisted : inner ≠ .parameters) (opened : Opened before)
    (misfit : Misfit place inner before refused) :
    ReachesMisfit place .lambda lexemes before refused after := by
  cases enters with
  | bare bars arrow =>
      rcases scanned.split (ne_finish_of_peek bars (by simp)) with ⟨mark, _, rfl, left⟩
      rw [advance_cons left.more] at arrow same
      rcases left.split (ne_finish_of_peek arrow (by simp)) with ⟨mark', _, rfl, left'⟩
      rw [advance_cons left'.more] at same
      subst same
      obtain ⟨first, others, rfl⟩ := opened.some
      refine misfit.reaches [mark, mark'] [] rfl id
        (fun _ _ ⟨_, reads⟩ => ⟨_, .bare bars arrow reads⟩) fun _ ⟨_, reads⟩ => ?_
      cases reads with
      | bare _ _ reads => exact ⟨_, _, reads⟩
      | named bar => cases bars.symm.trans bar
  | names => exact absurd rfl unlisted
  | @named _ _ parameters bar names arrow =>
      rcases scanned.split (ne_finish_of_peek bar (by simp)) with ⟨mark, _, rfl, left⟩
      rw [advance_cons left.more] at names
      rcases names.carried left with ⟨front, rfl, _, left', carry⟩
      rcases left'.split (ne_finish_of_peek arrow (by simp)) with ⟨mark', _, rfl, last⟩
      rw [advance_cons last.more] at same
      subst same
      obtain ⟨first, others, rfl⟩ := opened.some
      have names {rest : List Lexeme} :
          Parameters parameters (advance (mark :: (front ++ mark' :: rest))) (mark' :: rest) := by
        rw [advance_cons (by simp)]
        exact carry (List.cons_ne_nil _ _)
      refine misfit.reaches (mark :: (front ++ [mark'])) [] (by simp) id (fun _ _ ⟨_, reads⟩ => ?_)
        fun _ ⟨_, reads⟩ => ?_
      · rw [List.cons_append, List.append_assoc]
        exact ⟨_, .named bar names arrow reads⟩
      · rw [List.cons_append, List.append_assoc] at reads
        cases reads with
        | bare bars => cases bar.symm.trans bars
        | named _ names' _ reads =>
            rcases names.unique names' with ⟨_, rfl⟩
            exact ⟨_, _, reads⟩

/-- The token before the misfit is no part of a parameter list, so that it is no help to one. -/
theorem Lexemes.Opened.unlisted (opened : Opened before)
    (names : ∀ parameters middle, Parameters parameters (before ++ rest) middle →
      peek middle ≠ .arrow) (rest' : List Lexeme) (parameters : List String)
    (middle : List Lexeme) (reads : Parameters parameters (before ++ rest') middle) :
    peek middle ≠ .arrow := by
  rcases opened with ⟨front, sign, rfl, opens⟩
  rw [List.append_assoc] at reads names
  have other {token : Token} (plain : token.opensStep = false) :
      peek ([sign] ++ rest') ≠ token := by
    rintro rfl
    exact absurd (plain.symm.trans opens) (by decide)
  rcases reads.within rfl (List.cons_ne_nil sign rest') (fun _ => other rfl) (other rfl) (other rfl)
    with ⟨front', rfl, back⟩
  have plain := names parameters _ (back (List.cons_ne_nil sign rest))
  cases front' with
  | nil => exact plain
  | cons first front' => exact plain

theorem reads_mapped_zero (tail : List Lexeme) :
    Reads place (.mapped (.integer 0)) (sign (.integer 0) false :: sign .rightBracket false :: tail)
      (sign .rightBracket false :: tail) := by
  refine .full (fun parameters middle names => ?_) (reads_zero (List.cons_ne_nil _ _) rfl)
  rcases names.separates.1 with ⟨name, word⟩
  cases word

theorem reaches_mapping (enters : Enters place .mapping lexemes inner behind)
    (scanned : Scanned lexemes) (same : behind = before ++ refused :: after)
    (opened : Opened before) (misfit : Misfit place inner before refused) :
    ReachesMisfit place .mapping lexemes before refused after := by
  cases enters with
  | collection =>
      subst same
      refine misfit.reaches []
        [sign .pipe false, sign (.integer 0) false, sign .rightBracket false] rfl (fun _ => rfl)
        (fun {_ tail} more _ ⟨_, reads⟩ => ?_) fun _ ⟨_, reads⟩ => ?_
      · have mapping := Grammar.Reads.mappingOf reads rfl (reads_mapped_zero tail) rfl
        rw [advance_cons more] at mapping
        exact ⟨_, mapping⟩
      · cases reads with
        | mappingOf first => exact ⟨_, _, first⟩
  | @mapped _ _ collection first bar =>
      rcases first.carried scanned with ⟨front, rfl, left, carries⟩
      rcases left.split (ne_finish_of_peek bar (by simp)) with ⟨mark, _, rfl, left'⟩
      rw [advance_cons left'.more] at same
      subst same
      obtain ⟨start, others, rfl⟩ := opened.some
      have first {rest : List Lexeme} : Reads place (.expression collection)
          (front ++ mark :: rest) (mark :: rest) :=
        carries.carry (List.cons_ne_nil mark rest) (.head bar (by simp))
      refine misfit.reaches (front ++ [mark]) [sign .rightBracket false] (by simp) (fun _ => rfl)
        (fun {middle tail} more _ ⟨read, reads⟩ => ?_) fun {after _} ended ⟨_, reads⟩ => ?_
      · rw [List.append_assoc]
        have mapping : Reads place (.mapping (.mapping collection read))
            (front ++ mark :: (start :: others ++ (middle ++ sign .rightBracket false :: tail)))
            _ :=
          .mappingOf first bar reads rfl
        rw [List.singleton_append, advance_cons more] at mapping
        exact ⟨_, mapping⟩
      · rw [List.append_assoc] at reads
        have whole := ((ended.append (start :: others)).append [mark]).append front
        cases reads with
        | mappingOf first' _ second =>
            rcases first.unique first' whole rfl with ⟨_, rfl⟩
            exact ⟨_, _, second⟩

theorem reaches_mapped (enters : Enters place .mapped lexemes inner behind)
    (scanned : Scanned lexemes) (same : behind = before ++ refused :: after)
    (opened : Opened before) (misfit : Misfit place inner before refused) :
    ReachesMisfit place .mapped lexemes before refused after := by
  cases enters with
  | @short _ _ parameters names arrow =>
      rcases names.carried scanned with ⟨front, rfl, _, left, carry⟩
      rcases left.split (ne_finish_of_peek arrow (by simp)) with ⟨mark, _, rfl, last⟩
      rw [advance_cons last.more] at same
      subst same
      obtain ⟨first, others, rfl⟩ := opened.some
      have names {rest : List Lexeme} :
          Parameters parameters (front ++ mark :: rest) (mark :: rest) :=
        carry (List.cons_ne_nil _ _)
      refine misfit.reaches (front ++ [mark]) [] (by simp) (congrArg Token.closes)
        (fun _ _ ⟨_, reads⟩ => ?_) fun _ ⟨_, reads⟩ => ?_
      · rw [List.append_assoc]
        exact ⟨_, .short names arrow reads⟩
      · rw [List.append_assoc] at reads
        cases reads with
        | short names' _ reads =>
            rcases names.unique names' with ⟨_, rfl⟩
            exact ⟨_, _, reads⟩
        | full other => exact (other _ _ names arrow).elim
  | full names =>
      subst same
      refine misfit.reaches [] [] rfl (congrArg Token.closes)
        (fun _ _ ⟨_, reads⟩ => ⟨_, .full (opened.unlisted names _) reads⟩) fun _ ⟨_, reads⟩ => ?_
      cases reads with
      | short names' arrow => exact (opened.unlisted names _ _ _ names' arrow).elim
      | full _ reads => exact ⟨_, _, reads⟩

/-! Paths. -/

theorem reaches_path (enters : Enters place .path lexemes inner behind)
    (scanned : Scanned lexemes) (same : behind = before ++ refused :: after)
    (misfit : Misfit place inner before refused) :
    ReachesMisfit place .path lexemes before refused after := by
  cases enters with
  | step =>
      subst same
      refine misfit.reaches [] [] rfl id (fun _ ends ⟨_, reads⟩ =>
        ⟨_, .path reads (.halt (Tier.ends_of_closing ends .expression).path)⟩)
        fun _ ⟨_, reads⟩ => ?_
      cases reads with
      | path first => exact ⟨_, _, first⟩
  | steps first =>
      rcases parseKey_carried scanned first with ⟨front, rfl, _, left, carries⟩
      subst same
      refine misfit.reaches front [] rfl id (fun more _ ⟨_, reads⟩ =>
        ⟨_, .path (carries (by simp [more])) reads⟩) fun _ ⟨_, reads⟩ => ?_
      cases reads with
      | path first' others =>
          cases first'.symm.trans (carries (by simp))
          exact ⟨_, _, others⟩

theorem reaches_steps (enters : Enters place .steps lexemes inner behind)
    (scanned : Scanned lexemes) (same : behind = before ++ refused :: after)
    (opened : inner ≠ .index → Opened before) (misfit : Misfit place inner before refused) :
    ReachesMisfit place .steps lexemes before refused after := by
  cases enters with
  | dot touches dot follows =>
      rcases scanned.split (ne_finish_of_peek dot (by simp)) with ⟨mark, _, rfl, left⟩
      rw [advance_cons left.more] at same follows
      subst same
      obtain ⟨first, others, rfl⟩ := (opened nofun).some
      refine misfit.reaches [mark] [] rfl id (fun _ ends ⟨_, reads⟩ => ⟨_,
        .key touches dot follows reads (.halt (Tier.ends_of_closing ends .expression).path)⟩)
        fun _ ⟨_, reads⟩ => ?_
      cases reads with
      | key _ _ _ first => exact ⟨_, _, first⟩
      | index _ bracket => cases dot.symm.trans bracket
      | halt halt => exact (halt ⟨touches, .inr ⟨dot, follows⟩⟩).elim
  | behindKey touches dot follows first =>
      rcases scanned.split (ne_finish_of_peek dot (by simp)) with ⟨mark, _, rfl, left⟩
      rw [advance_cons left.more] at first follows
      rcases parseKey_carried left first with ⟨front, rfl, some, left', carries⟩
      obtain ⟨start, front, rfl⟩ := List.exists_cons_of_ne_nil some
      subst same
      refine misfit.reaches (mark :: start :: front) [] rfl id (fun more _ ⟨_, reads⟩ =>
        ⟨_, .key touches dot follows (carries (by simp [more])) reads⟩)
        fun {after _} _ ⟨_, reads⟩ => ?_
      have first := @carries (before ++ refused :: after) (by simp)
      cases reads with
      | key _ _ _ first' others =>
          cases first.symm.trans first'
          exact ⟨_, _, others⟩
      | index _ bracket => cases dot.symm.trans bracket
      | halt halt => exact (halt ⟨touches, .inr ⟨dot, follows⟩⟩).elim
  | bracket touches bracket =>
      rcases scanned.split (ne_finish_of_peek bracket (by simp)) with ⟨mark, _, rfl, left⟩
      rw [advance_cons left.more] at same
      subst same
      have behind {rest : List Lexeme} (more : rest ≠ []) :
          parseIndex (advance (mark :: rest)) = parseIndex rest := by rw [advance_cons more]
      refine misfit.reaches [mark] [] rfl id (fun more ends ⟨_, reads⟩ => ⟨_, .index touches bracket
        ((behind (by simp [more])).trans reads)
          (.halt (Tier.ends_of_closing ends .expression).path)⟩) fun _ ⟨_, reads⟩ => ?_
      cases reads with
      | key _ dot => cases bracket.symm.trans dot
      | index _ _ first => exact ⟨_, _, (behind (by simp)).symm.trans first⟩
      | halt halt => exact (halt ⟨touches, .inl bracket⟩).elim
  | behindIndex touches bracket first =>
      rcases scanned.split (ne_finish_of_peek bracket (by simp)) with ⟨mark, _, rfl, left⟩
      rw [advance_cons left.more] at first
      rcases parseIndex_carried left first with ⟨front, rfl, some, left', carries⟩
      obtain ⟨start, front, rfl⟩ := List.exists_cons_of_ne_nil some
      subst same
      refine misfit.reaches (mark :: start :: front) [] rfl id (fun more _ ⟨_, reads⟩ =>
        ⟨_, .index touches bracket (carries (by simp [more])) reads⟩)
        fun {after _} _ ⟨_, reads⟩ => ?_
      have first := @carries (before ++ refused :: after) (by simp)
      cases reads with
      | key _ dot => cases bracket.symm.trans dot
      | index _ _ first' others =>
          cases first.symm.trans first'
          exact ⟨_, _, others⟩
      | halt halt => exact (halt ⟨touches, .inl bracket⟩).elim

theorem reaches_key {afterDot : Bool} (enters : Enters place (.key afterDot) lexemes inner behind)
    (scanned : Scanned lexemes) (same : behind = before ++ refused :: after)
    (misfit : Misfit place inner before refused) :
    ReachesMisfit place (.key afterDot) lexemes before refused after := by
  cases enters with
  | keyIndex bracket =>
      rcases scanned.split (ne_finish_of_peek bracket (by simp)) with ⟨mark, _, rfl, left⟩
      rw [advance_cons left.more] at same
      subst same
      have index {rest : List Lexeme} (more : rest ≠ []) :
          parseKey afterDot (mark :: rest) = parseIndex rest := by
        have bracket : peek (mark :: rest) = .leftBracket := bracket
        simp only [parseKey, bracket, advance_cons more]
      refine misfit.reaches [mark] [] rfl id (fun more _ reads => ?_) fun _ reads => ?_
      · rcases reads with ⟨step, reads⟩
        exact ⟨step, (index (by simp [more])).trans reads⟩
      · rcases reads with ⟨step, reads⟩
        exact ⟨_, step, (index (by simp)).symm.trans reads⟩

theorem Grammar.Enters.of_index (enters : Enters place part lexemes .index behind) :
    peek lexemes = .leftBracket ∧ behind = advance lexemes := by
  cases enters with
  | bracket _ bracket | keyIndex bracket => exact ⟨bracket, rfl⟩

/-- A part goes on up to the misfit of the part that it comes to. -/
theorem Grammar.Enters.reaches (enters : Enters place part lexemes inner behind)
    (scanned : Scanned lexemes) (same : behind = before ++ refused :: after)
    (unlisted : inner ≠ .parameters) (opened : inner ≠ .index → Opened before)
    (misfit : Misfit place inner before refused) :
    ReachesMisfit place part lexemes before refused after := by
  cases part with
  | expression =>
      exact reaches_expression enters scanned same (opened (by rintro rfl; cases enters)) misfit
  | conditional =>
      exact reaches_conditional enters scanned same (opened (by rintro rfl; cases enters)) misfit
  | chain level =>
      exact reaches_chain enters scanned same (opened (by rintro rfl; cases enters)) misfit
  | chainRest level left =>
      exact reaches_chainRest enters scanned same (opened (by rintro rfl; cases enters)) misfit
  | unary =>
      exact reaches_unary enters scanned same (opened (by rintro rfl; cases enters)) misfit
  | calls function =>
      exact reaches_calls enters scanned same (opened (by rintro rfl; cases enters)) misfit
  | separated enclosure =>
      exact reaches_separated enters same (opened (by rintro rfl; cases enters)) misfit
  | entries enclosure =>
      exact reaches_entries enters scanned same (opened (by rintro rfl; cases enters)) misfit
  | primary =>
      exact reaches_primary enters scanned same (opened (by rintro rfl; cases enters)) misfit
  | lambda =>
      exact reaches_lambda enters scanned same unlisted (opened (by rintro rfl; cases enters))
        misfit
  | mapping =>
      exact reaches_mapping enters scanned same (opened (by rintro rfl; cases enters)) misfit
  | mapped =>
      exact reaches_mapped enters scanned same (opened (by rintro rfl; cases enters)) misfit
  | operand level => exact reaches_operand enters same misfit
  | path => exact reaches_path enters scanned same misfit
  | steps => exact reaches_steps enters scanned same opened misfit
  | key afterDot => exact reaches_key enters scanned same misfit
  | index => cases enters
  | parameters =>
      cases enters
      exact absurd rfl unlisted

end

/-! ## Where a step is missing -/

section

variable {part : Part} {fault : ParseFault} {refused : Lexeme}

theorem misfit_index (number : ∀ index, refused.token ≠ .integer index) :
    Misfit place .index [] refused where
  viable more _ := ⟨[sign (.integer 0) false, sign .rightBracket false], indexStep 0,
    parseIndex_written more 0 false⟩
  stuck {after tail} _ := by
    rintro ⟨step, reads⟩
    have ends : parseIndex (refused :: after) = .ok (step, tail) := reads
    unfold parseIndex at ends
    split at ends
    · rename_i index found
      exact number index found
    · cases ends

theorem misfit_root {dot : Lexeme} (found : dot.token = .dot) (apart : refused.spaced = true) :
    Misfit place .primary [dot] refused where
  viable more ends := ⟨[someKey], _, reads_root more ends found⟩
  stuck {after tail} _ := by
    rintro ⟨read, reads⟩
    have touches : adjacent (refused :: after) = true := (reads.of_dot found).1
    rw [adjacent, current, apart] at touches
    cases touches

theorem Grammar.Refuses.unlisted (refuses : Refuses place part lexemes fault rest)
    (untold : fault.shown = none) : part ≠ .parameters := by
  induction refuses with
  | here misses =>
      rintro rfl
      cases misses <;> cases untold
  | inside enters _ induction =>
      rintro rfl
      cases enters
      exact induction untold rfl

/-- The refused token of a fault whose message shows none is the misfit of the part. -/
theorem Grammar.Refuses.misfit (refuses : Refuses place part lexemes fault rest)
    (scanned : Scanned lexemes) (untold : fault.shown = none) :
    ∃ before refused after, rest = refused :: after ∧ lexemes = before ++ refused :: after ∧
      (part = .index ∧ before = [] ∨ Opened before) ∧ Misfit place part before refused := by
  induction refuses with
  | here misses =>
      -- Every other fault shows the token it found.
      cases misses with
      | rootKey dot touches =>
          rcases scanned.split (ne_finish_of_peek dot (by simp)) with ⟨mark, _, rfl, left⟩
          rw [advance_cons left.more] at touches ⊢
          obtain ⟨refused, after, rfl⟩ := List.exists_cons_of_ne_nil left.more
          have found : mark.token = .dot := dot
          have apart : refused.spaced = true := by simpa [adjacent, current] using touches
          exact ⟨[mark], refused, after, rfl, rfl, .inr ⟨[], mark, rfl, by rw [found]; rfl⟩,
            misfit_root found apart⟩
      | number number =>
          obtain ⟨refused, after, rfl⟩ := List.exists_cons_of_ne_nil scanned.more
          exact ⟨[], refused, after, rfl, rfl, .inl ⟨rfl, rfl⟩, misfit_index number⟩
      | _ => cases untold
  | @inside part inner lexemes behind rest fault enters refuses induction =>
      rcases induction (enters.leaves scanned).scanned untold with
        ⟨before, refused, after, rfl, same, opened, misfit⟩
      have opened' (other : inner ≠ .index) : Opened before :=
        opened.resolve_left fun index => other index.1
      rcases enters.reaches scanned same (refuses.unlisted untold) opened' misfit with
        ⟨front, whole, outer⟩
      refine ⟨front ++ before, refused, after, rfl, ?_, .inr ?_, outer⟩
      · rw [whole, List.append_assoc]
      · rcases opened with ⟨rfl, rfl⟩ | opened
        · -- Nothing stands before the number of an index; its bracket does, one part further out.
          rcases enters.of_index with ⟨bracket, rfl⟩
          rcases scanned.split (ne_finish_of_peek bracket (by simp)) with ⟨mark, _, rfl, left⟩
          rw [advance_cons left.more] at same
          subst same
          cases @List.append_cancel_right _ [mark] _ _ whole
          have found : mark.token = .leftBracket := bracket
          exact ⟨[], mark, rfl, by rw [found]; rfl⟩
        · exact opened.append front

end

end Stencil
