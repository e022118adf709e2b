import Stencil.Proofs.Expression.Progress

namespace Stencil

open Lexemes Grammar

/-! A phrase that has a derivation is read as soon as the depth is sixteen times the number of
lexemes and a little more. So `parse` reads the expressions with a derivation and no others. -/

variable {place : List String} {depth : Nat} {lexemes rest : List Lexeme}

/-! ## Paths and parameter lists -/

theorem parseSteps_of_steps {steps : List String} (reads : Steps steps lexemes rest)
    (ended : Ended lexemes) (enough : lexemes.length < depth) :
    parseSteps depth lexemes = .ok (steps, rest) := by
  induction reads generalizing depth with
  | @key lexemes behind rest step steps touches dot follows first others induction =>
      obtain ⟨depth, rfl⟩ := Nat.exists_eq_succ_of_ne_zero (Nat.ne_zero_of_lt enough)
      have sign := (Behind.refl ended).step (ne_finish_of_peek dot (by simp))
      have key := sign.trans ((parseKey_through first).behind sign.ended)
      have next : parseSteps depth behind = _ := induction key.ended (by have := key.shorter; omega)
      rw [parseSteps, if_pos touches]
      simp only [dot]
      rw [if_pos follows, first]
      simp only [bind, Except.bind, next, pure, Except.pure]
  | @index lexemes behind rest step steps touches bracket first others induction =>
      obtain ⟨depth, rfl⟩ := Nat.exists_eq_succ_of_ne_zero (Nat.ne_zero_of_lt enough)
      have sign := (Behind.refl ended).step (ne_finish_of_peek bracket (by simp))
      have index := sign.trans ((parseIndex_through first).behind sign.ended)
      have next : parseSteps depth behind = _ := induction index.ended (by have := index.shorter; omega)
      rw [parseSteps, if_pos touches]
      simp only [bracket, first, bind, Except.bind, next, pure, Except.pure]
  | @halt lexemes halt =>
      obtain ⟨depth, rfl⟩ := Nat.exists_eq_succ_of_ne_zero (Nat.ne_zero_of_lt enough)
      unfold parseSteps
      split
      · rename_i touches
        split
        · rename_i dot
          rw [if_neg fun follows => halt ⟨touches, .inr ⟨dot, follows⟩⟩]
        · rename_i bracket
          exact absurd ⟨touches, .inl bracket⟩ halt
        · rfl
      · rfl

theorem parsePath_of_path {path : List String} (reads : Path path lexemes rest)
    (ended : Ended lexemes) (enough : lexemes.length < depth) :
    parsePath depth lexemes = .ok (path, rest) := by
  cases reads with
  | path first others =>
      have key := (parseKey_through first).behind ended
      have next : parseSteps depth _ = _ := parseSteps_of_steps others key.ended
        (by have := key.shorter; omega)
      simp only [parsePath, first, next, bind, Except.bind, pure, Except.pure]

theorem parseParameters_of_parameters {names : List String}
    (reads : Parameters names lexemes rest) (ended : Ended lexemes)
    (enough : lexemes.length < depth) :
    parseParameters depth lexemes = .ok (names, rest) := by
  induction reads generalizing depth with
  | last word bar =>
      obtain ⟨depth, rfl⟩ := Nat.exists_eq_succ_of_ne_zero (Nat.ne_zero_of_lt enough)
      simp only [parseParameters, word, bar]
  | more word comma others induction =>
      obtain ⟨depth, rfl⟩ := Nat.exists_eq_succ_of_ne_zero (Nat.ne_zero_of_lt enough)
      have name := (Behind.refl ended).step (ne_finish_of_peek word (by simp))
      have sign := name.step (ne_finish_of_peek comma (by simp))
      have next : parseParameters depth _ = _ := induction sign.ended (by have := sign.shorter; omega)
      simp only [parseParameters, word, comma, next, bind, Except.bind, pure, Except.pure]

/-- Reading a parameter list does not use up the depth. -/
theorem parseParameters_ne_depth (ended : Ended lexemes) (enough : lexemes.length < depth) :
    parseParameters depth lexemes ≠ .error .depth := by
  induction depth generalizing lexemes with
  | zero => exact absurd enough (Nat.not_lt_zero _)
  | succ depth induction =>
      unfold parseParameters
      split
      · rename_i name word
        dsimp only
        split
        · rename_i comma
          have sign := ((Behind.refl ended).step (ne_finish_of_peek word (by simp))).step
            (ne_finish_of_peek comma (by simp))
          have next := induction sign.ended (by have := sign.shorter; omega)
          intro fails
          cases held : parseParameters depth (advance (advance lexemes)) with
          | ok result =>
              rw [held] at fails
              cases fails
          | error cause =>
              rw [held] at fails next
              cases fails
              exact next rfl
        · simp
        · simp [faultAt]
      · simp [faultAt]

/-! ## Phrases -/

/-- What an operand of this level needs beyond sixteen for each lexeme. -/
def Level.rank : Level → Nat
  | .fallback => 12
  | .logical => 10
  | .comparison => 8
  | .additive => 6
  | .multiplicative => 4

/-- The depth that a phrase needs beyond sixteen for each lexeme. -/
def Grammar.Phrase.rank : Phrase → Nat
  | .expression _ => 15
  | .conditional _ => 14
  | .chain level _ | .chainRest level _ _ => level.rank + 1
  | .operand level _ => level.rank
  | .unary _ => 3
  | .primary _ | .calls _ _ => 2
  | .separated _ _ => 17
  | .entries _ _ | .lambda _ | .mapping _ | .mapped _ => 16

theorem Level.rank_tighter {level tighter : Level} (below : level.tighter = some tighter) :
    tighter.rank + 1 < level.rank := by
  cases level <;> cases below <;> decide

theorem Level.rank_bounds (level : Level) : 4 ≤ level.rank ∧ level.rank ≤ 12 := by
  cases level <;> decide

theorem Grammar.Phrase.rank_pos (phrase : Phrase) : 0 < phrase.rank := by
  cases phrase with
  | operand level read => exact Nat.lt_of_lt_of_le (by decide) level.rank_bounds.1
  | _ => exact Nat.succ_pos _

/-- At this depth every phrase with a derivation is read for which the depth suffices. -/
def Grammar.Completes (place : List String) (depth : Nat) : Prop :=
  ∀ {phrase : Phrase} {lexemes rest : List Lexeme}, Reads place phrase lexemes rest →
    Ended lexemes → 16 * lexemes.length + phrase.rank ≤ depth →
      phrase.IsRead place depth lexemes rest

/-- A phrase behind lexemes that were stepped over has sixteen more for each of them. -/
theorem Grammar.Completes.behind (below : Completes place depth) {phrase : Phrase}
    {origin : List Lexeme} {least : Nat} (behind : Behind origin least lexemes)
    (reads : Reads place phrase lexemes rest)
    (enough : 16 * origin.length + phrase.rank ≤ depth + 16 * least) :
    phrase.IsRead place depth lexemes rest :=
  below reads behind.ended (by have := behind.shorter; omega)

section

variable {read : Expression}

theorem parse_expression (below : Completes place depth) (ended : Ended lexemes)
    (reads : Reads place (.expression read) lexemes rest)
    (enough : 16 * lexemes.length + 15 ≤ depth + 1) :
    parseExpression place (depth + 1) lexemes = .ok (read, rest) := by
  rw [parseExpression]
  cases reads with
  | preferred starts inner =>
      have sign := (Behind.refl ended).step (ne_finish_of_peek starts.1 (by simp))
      have next : parseConditional place depth (advance lexemes) = _ :=
        below.behind sign inner (by simp only [Phrase.rank]; omega)
      refine (if_pos starts).trans ?_
      rw [next]
      rfl
  | expression starts inner =>
      have next : parseConditional place depth lexemes = _ :=
        below inner ended (by simp only [Phrase.rank]; omega)
      exact (if_neg starts).trans next

theorem parse_conditional (below : Completes place depth) (ended : Ended lexemes)
    (reads : Reads place (.conditional read) lexemes rest)
    (enough : 16 * lexemes.length + 14 ≤ depth + 1) :
    parseConditional place (depth + 1) lexemes = .ok (read, rest) := by
  rw [parseConditional]
  cases reads with
  | @conditional _ middle behind _ condition consequence alternative first question second colon
      third =>
      have inside := (first.behind ended).step (ne_finish_of_peek question (by simp))
      have other := (inside.trans (second.behind inside.ended)).step
        (ne_finish_of_peek colon (by simp))
      have firstRead : parseChain place depth .fallback lexemes = _ :=
        below first ended (by simp only [Phrase.rank, Level.rank]; omega)
      have secondRead : parseExpression place depth (advance middle) = _ :=
        below.behind inside second (by simp only [Phrase.rank, Phrase.least]; omega)
      have thirdRead : parseExpression place depth (advance behind) = _ :=
        below.behind other third (by simp only [Phrase.rank, Phrase.least]; omega)
      simp only [firstRead, question, secondRead, expect_of_peek .conditional colon, thirdRead,
        bind, Except.bind, pure, Except.pure, if_true]
  | unconditional first question =>
      have firstRead : parseChain place depth .fallback lexemes = _ :=
        below first ended (by simp only [Phrase.rank, Level.rank]; omega)
      simp only [firstRead, question, bind, Except.bind, pure, Except.pure, if_false]

theorem parse_chain (below : Completes place depth) (ended : Ended lexemes) {level : Level}
    (reads : Reads place (.chain level read) lexemes rest)
    (enough : 16 * lexemes.length + (level.rank + 1) ≤ depth + 1) :
    parseChain place (depth + 1) level lexemes = .ok (read, rest) := by
  rw [parseChain]
  have bounds := level.rank_bounds
  cases reads with
  | @chain _ middle _ _ left _ first others =>
      have firstRead : parseOperand place depth level lexemes = _ :=
        below first ended (by simp only [Phrase.rank]; omega)
      have othersRead : parseChainRest place depth level left middle = _ :=
        below.behind (first.behind ended) others (by simp only [Phrase.rank, Phrase.least]; omega)
      simp only [firstRead, othersRead, bind, Except.bind]

theorem parse_chainRest (below : Completes place depth) (ended : Ended lexemes) {level : Level}
    {left : Expression} (reads : Reads place (.chainRest level left read) lexemes rest)
    (enough : 16 * lexemes.length + (level.rank + 1) ≤ depth + 1) :
    parseChainRest place (depth + 1) level left lexemes = .ok (read, rest) := by
  rw [parseChainRest]
  have bounds := level.rank_bounds
  cases reads with
  | chainOver halt => simp only [halt]
  | @chainMore _ middle _ _ operator _ right _ sign next others =>
      have start := (Level.through_sign sign).behind ended
      have nextRead : parseOperand place depth level
          (if operator = .concatenation then lexemes else advance lexemes) = _ :=
        below.behind start next (by simp only [Phrase.rank]; omega)
      have othersRead : parseChainRest place depth level (.binary operator left right) middle = _ :=
        below.behind (start.trans (next.behind start.ended)) others
          (by simp only [Phrase.rank, Phrase.least]; omega)
      simp only [sign, nextRead, othersRead, bind, Except.bind]

theorem parse_operand (below : Completes place depth) (ended : Ended lexemes) {level : Level}
    (reads : Reads place (.operand level read) lexemes rest)
    (enough : 16 * lexemes.length + level.rank ≤ depth + 1) :
    parseOperand place (depth + 1) level lexemes = .ok (read, rest) := by
  rw [parseOperand]
  have bounds := level.rank_bounds
  cases reads with
  | @tighter _ _ _ tighter _ held inner =>
      have less := Level.rank_tighter held
      have next : parseChain place depth tighter lexemes = _ :=
        below inner ended (by simp only [Phrase.rank]; omega)
      simp only [held, next]
  | tightest held inner =>
      have next : parseUnary place depth lexemes = _ :=
        below inner ended (by simp only [Phrase.rank]; omega)
      simp only [held, next]

theorem parse_unary (below : Completes place depth) (ended : Ended lexemes)
    (reads : Reads place (.unary read) lexemes rest)
    (enough : 16 * lexemes.length + 3 ≤ depth + 1) :
    parseUnary place (depth + 1) lexemes = .ok (read, rest) := by
  unfold parseUnary
  cases reads with
  | not bang inner =>
      have sign := (Behind.refl ended).step (ne_finish_of_peek bang (by simp))
      have next : parseUnary place depth (advance lexemes) = _ :=
        below.behind sign inner (by simp only [Phrase.rank]; omega)
      simp only [bang, next, bind, Except.bind, pure, Except.pure]
  | negative minus number touches => simp only [minus, number, touches]
  | minus minus number inner =>
      have sign := (Behind.refl ended).step (ne_finish_of_peek minus (by simp))
      have next : parseUnary place depth (advance lexemes) = _ :=
        below.behind sign inner (by simp only [Phrase.rank]; omega)
      simp only [minus]
      split
      · rename_i value found touches
        exact absurd ⟨⟨value, found⟩, touches⟩ number
      · simp only [next, bind, Except.bind, pure, Except.pure]
  | @applied _ middle _ function _ bang minus first others =>
      have firstRead : parsePrimary place depth lexemes = _ :=
        below first ended (by simp only [Phrase.rank]; omega)
      have othersRead : parseCalls place depth function middle = _ :=
        below.behind (first.behind ended) others (by simp only [Phrase.rank, Phrase.least]; omega)
      split
      · rename_i found
        exact absurd found bang
      · rename_i found
        exact absurd found minus
      · simp only [firstRead, othersRead, bind, Except.bind]

theorem parse_calls (below : Completes place depth) (ended : Ended lexemes)
    {function : Expression} (reads : Reads place (.calls function read) lexemes rest)
    (enough : 16 * lexemes.length + 2 ≤ depth + 1) :
    parseCalls place (depth + 1) function lexemes = .ok (read, rest) := by
  rw [parseCalls]
  cases reads with
  | @called _ middle _ _ _ arguments parenthesis touches inside others =>
      have sign := (Behind.refl ended).step (ne_finish_of_peek parenthesis (by simp))
      have insideRead :
          parseSeparated place depth .rightParenthesis .call (advance lexemes) = _ :=
        below.behind sign inside (by simp only [Phrase.rank]; omega)
      have othersRead : parseCalls place depth (.call function arguments) middle = _ :=
        below.behind (sign.trans (inside.behind sign.ended)) others
          (by simp only [Phrase.rank, Phrase.least]; omega)
      simp only [parenthesis, touches, insideRead, othersRead, bind, Except.bind, and_self,
        if_true]
  | callsOver halt => rw [if_neg halt]

theorem parse_separated (below : Completes place depth) (ended : Ended lexemes)
    {enclosure : Enclosure} {read : List Expression}
    (reads : Reads place (.separated enclosure read) lexemes rest)
    (enough : 16 * lexemes.length + 17 ≤ depth + 1) :
    parseSeparated place (depth + 1) enclosure.close enclosure.rule lexemes =
      .ok (read, rest) := by
  rw [parseSeparated]
  cases reads with
  | nothing close => rw [if_pos close]
  | something close inner =>
      have next : parseEntries place depth enclosure.close enclosure.rule lexemes = _ :=
        below inner ended (by simp only [Phrase.rank]; omega)
      rw [if_neg close, next]

theorem parse_entries (below : Completes place depth) (ended : Ended lexemes)
    {enclosure : Enclosure} {read : List Expression}
    (reads : Reads place (.entries enclosure read) lexemes rest)
    (enough : 16 * lexemes.length + 16 ≤ depth + 1) :
    parseEntries place (depth + 1) enclosure.close enclosure.rule lexemes =
      .ok (read, rest) := by
  rw [parseEntries]
  cases reads with
  | last first close =>
      have firstRead : parseExpression place depth lexemes = _ :=
        below first ended (by simp only [Phrase.rank]; omega)
      simp only [firstRead, close, bind, Except.bind, pure, Except.pure, if_true]
  | @more _ middle _ _ entry entries first comma others =>
      have behind := (first.behind ended).step (ne_finish_of_peek comma (by simp))
      have firstRead : parseExpression place depth lexemes = _ :=
        below first ended (by simp only [Phrase.rank]; omega)
      have othersRead :
          parseEntries place depth enclosure.close enclosure.rule (advance middle) = _ :=
        below.behind behind others (by simp only [Phrase.rank, Phrase.least]; omega)
      have open' : peek middle ≠ enclosure.close := by
        rw [comma]
        cases enclosure <;> simp [Enclosure.close]
      simp only [firstRead, open', expect_of_peek _ comma, othersRead, bind, Except.bind, pure,
        Except.pure, if_false]

/-- A word that is no expression of its own starts a lambda, a mapping or a path. -/
theorem parsePrimary_word {name : String} (word : peek lexemes = .identifier name)
    (free : name ∉ reserved) :
    parsePrimary place (depth + 1) lexemes =
      if name = "lambda" ∧
          (peek (advance lexemes) = .pipe ∨ peek (advance lexemes) = .fallback) then
        parseLambda place depth (advance lexemes)
      else if name = "map" ∧ peek (advance lexemes) = .leftBracket ∧
          adjacent (advance lexemes) = true then
        parseMapping place depth (advance (advance lexemes))
      else do
        let (path, lexemes) ← parsePath depth lexemes
        return (.reference path, lexemes) := by
  rw [parsePrimary]
  simp only [word]
  split
  case h_11 found =>
    cases found
    rfl
  case h_12 other => exact absurd rfl (other name)
  -- The words with a rule of their own are all reserved.
  all_goals
    rename_i found
    cases found
    try exact absurd (by simp [reserved]) free

theorem parse_primary (below : Completes place depth) (ended : Ended lexemes)
    (reads : Reads place (.primary read) lexemes rest)
    (enough : 16 * lexemes.length + 2 ≤ depth + 1) :
    parsePrimary place (depth + 1) lexemes = .ok (read, rest) := by
  cases reads with
  | integer number => simp only [parsePrimary, number]
  | text literal => simp only [parsePrimary, literal]
  | group parenthesis inner close =>
      have sign := (Behind.refl ended).step (ne_finish_of_peek parenthesis (by simp))
      have next : parseExpression place depth (advance lexemes) = _ :=
        below.behind sign inner (by simp only [Phrase.rank]; omega)
      simp only [parsePrimary, parenthesis, next, expect_of_peek .grouping close, bind, Except.bind, pure,
        Except.pure]
  | list bracket inside =>
      have sign := (Behind.refl ended).step (ne_finish_of_peek bracket (by simp))
      have next : parseSeparated place depth .rightBracket .list (advance lexemes) = _ :=
        below.behind sign inside (by simp only [Phrase.rank]; omega)
      simp only [parsePrimary, bracket, next, bind, Except.bind, pure, Except.pure]
  | root dot touches steps =>
      have sign := (Behind.refl ended).step (ne_finish_of_peek dot (by simp))
      have next : parsePath depth (advance lexemes) = _ := parsePath_of_path steps sign.ended
        (by have := sign.shorter; omega)
      simp only [parsePrimary, dot, touches, next, bind, Except.bind, pure, Except.pure, if_true]
  | nil word | yes word | no word | auto word => simp only [parsePrimary, word]
  | redirected word key steps =>
      have sign := (Behind.refl ended).step (ne_finish_of_peek word (by simp))
      have start := sign.trans (behindReplace_through.behind sign.ended)
      have next : parsePath depth _ = _ := parsePath_of_path steps start.ended
        (by have := start.shorter; omega)
      unfold behindReplace at key next
      simp only [parsePrimary, word, parseMerge, key, next, bind, Except.bind, pure,
        Except.pure]
  | merge word key =>
      simp only [parsePrimary, word, parseMerge]
      split
      · rename_i name found
        exact absurd found (key name)
      · rfl
  | lambda starts inner =>
      have sign := (Behind.refl ended).step (ne_finish_of_peek starts.1 (by simp))
      have next : parseLambda place depth (advance lexemes) = _ :=
        below.behind sign inner (by simp only [Phrase.rank]; omega)
      rw [parsePrimary_word starts.1 (by simp [reserved]), if_pos ⟨rfl, starts.2⟩, next]
  | mapping starts inner =>
      have sign := ((Behind.refl ended).step (ne_finish_of_peek starts.1 (by simp))).step
        (ne_finish_of_peek starts.2.1 (by simp))
      have next : parseMapping place depth (advance (advance lexemes)) = _ :=
        below.behind sign inner (by simp only [Phrase.rank]; omega)
      rw [parsePrimary_word starts.1 (by simp [reserved]), if_neg (by simp),
        if_pos ⟨rfl, starts.2⟩, next]
  | reference word free lambda mapping steps =>
      have next : parsePath depth lexemes = _ := parsePath_of_path steps ended (by omega)
      rw [parsePrimary_word word free, if_neg, if_neg, next]
      · rfl
      · rintro ⟨rfl, opens⟩
        exact mapping ⟨word, opens⟩
      · rintro ⟨rfl, bars⟩
        exact lambda ⟨word, bars⟩

theorem parse_lambda (below : Completes place depth) (ended : Ended lexemes)
    (reads : Reads place (.lambda read) lexemes rest)
    (enough : 16 * lexemes.length + 16 ≤ depth + 1) :
    parseLambda place (depth + 1) lexemes = .ok (read, rest) := by
  rw [parseLambda]
  cases reads with
  | bare bars arrow inner =>
      have start := ((Behind.refl ended).step (ne_finish_of_peek bars (by simp))).step
        (ne_finish_of_peek arrow (by simp))
      have next : parseExpression place depth (advance (advance lexemes)) = _ :=
        below.behind start inner (by simp only [Phrase.rank]; omega)
      simp only [bars, expect_of_peek .lambda arrow, next, bind, Except.bind, pure, Except.pure,
        if_true]
  | @named _ middle _ parameters body bar names arrow inner =>
      have sign := (Behind.refl ended).step (ne_finish_of_peek bar (by simp))
      have start := (sign.trans (names.through.behind sign.ended)).step (ne_finish_of_peek arrow (by simp))
      have namesRead : parseParameters depth (advance lexemes) = _ :=
        parseParameters_of_parameters names sign.ended
        (by have := sign.shorter; omega)
      have next : parseExpression place depth (advance middle) = _ :=
        below.behind start inner (by simp only [Phrase.rank]; omega)
      have apart : peek lexemes ≠ .fallback := by
        rw [bar]
        simp
      simp only [apart, expect_of_peek .lambda bar, namesRead, expect_of_peek .lambda arrow, next,
        bind, Except.bind, pure, Except.pure, if_false]

theorem parse_mapping (below : Completes place depth) (ended : Ended lexemes)
    (reads : Reads place (.mapping read) lexemes rest)
    (enough : 16 * lexemes.length + 16 ≤ depth + 1) :
    parseMapping place (depth + 1) lexemes = .ok (read, rest) := by
  rw [parseMapping]
  cases reads with
  | @mappingOf _ middle _ collection function first bar second close =>
      have behind := (first.behind ended).step (ne_finish_of_peek bar (by simp))
      have firstRead : parseExpression place depth lexemes = _ :=
        below first ended (by simp only [Phrase.rank]; omega)
      have secondRead : parseMapped place depth (advance middle) = _ :=
        below.behind behind second (by simp only [Phrase.rank, Phrase.least]; omega)
      simp only [firstRead, expect_of_peek .mapping bar, secondRead,
        expect_of_peek .mapping close, bind, Except.bind, pure, Except.pure]

theorem parse_mapped (below : Completes place depth) (ended : Ended lexemes)
    (reads : Reads place (.mapped read) lexemes rest)
    (enough : 16 * lexemes.length + 16 ≤ depth + 1) :
    parseMapped place (depth + 1) lexemes = .ok (read, rest) := by
  rw [parseMapped]
  cases reads with
  | @short _ middle _ parameters body names arrow inner =>
      have start := (names.through.behind ended).step (ne_finish_of_peek arrow (by simp))
      have namesRead : parseParameters depth lexemes = _ :=
        parseParameters_of_parameters names ended (by omega)
      have next : parseExpression place depth (advance middle) = _ :=
        below.behind start inner (by simp only [Phrase.rank]; omega)
      simp only [namesRead, arrow, next, bind, Except.bind, pure, Except.pure, if_true]
  | full names inner =>
      have next : parseExpression place depth lexemes = _ :=
        below inner ended (by simp only [Phrase.rank]; omega)
      have ends : parseParameters depth lexemes ≠ _ :=
        parseParameters_ne_depth ended (by omega)
      split
      · rename_i fails
        exact absurd fails ends
      · exact next
      · rename_i parameters behind found
        rw [if_neg (names _ _ (parameters_of_parse found)), next]

end

theorem completes (place : List String) (depth : Nat) : Completes place depth := by
  induction depth with
  | zero =>
      intro phrase lexemes rest reads ended enough
      have positive := phrase.rank_pos
      omega
  | succ depth below =>
      intro phrase lexemes rest reads ended enough
      cases phrase with
      | expression read => exact parse_expression below ended reads enough
      | conditional read => exact parse_conditional below ended reads enough
      | chain level read => exact parse_chain below ended reads enough
      | chainRest level left read => exact parse_chainRest below ended reads enough
      | operand level read => exact parse_operand below ended reads enough
      | unary read => exact parse_unary below ended reads enough
      | calls function read => exact parse_calls below ended reads enough
      | separated enclosure read => exact parse_separated below ended reads enough
      | entries enclosure read => exact parse_entries below ended reads enough
      | primary read => exact parse_primary below ended reads enough
      | lambda read => exact parse_lambda below ended reads enough
      | mapping read => exact parse_mapping below ended reads enough
      | mapped read => exact parse_mapped below ended reads enough

/-! ## Whole sources -/

/-- The grammar reads all of the lexemes as one expression. -/
def Grammar.ReadsAll (place : List String) (lexemes : List Lexeme) (read : Expression) : Prop :=
  ∃ rest, Reads place (.expression read) lexemes rest ∧ peek rest = .finish

theorem parseLexemes_eq_ok_iff (ended : Ended lexemes) {read : Expression} :
    parseLexemes place lexemes = .ok read ↔ ReadsAll place lexemes read := by
  unfold parseLexemes
  constructor
  · intro ends
    split at ends
    · cases ends
    · cases ends
    · rename_i found rest parsed
      split at ends
      · rename_i finish
        cases ends
        exact ⟨rest, derives place _ (.expression _) parsed, finish⟩
      · cases ends
  · rintro ⟨rest, reads, finish⟩
    have parsed : parseExpression place (parsingDepth lexemes) lexemes = _ :=
      completes place _ reads ended (by simp only [Phrase.rank, parsingDepth]; omega)
    rw [parsed]
    exact if_pos finish

end Stencil
