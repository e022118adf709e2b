import Stencil.Proofs.Expression.Refusal

namespace Stencil

open Lexemes Grammar

/-! The grammar functions stop only because of a refused token, if the depth suffices. -/

variable {place : List String} {depth : Nat} {lexemes : List Lexeme} {stop : Stop}

/-! ## Paths and parameter lists -/

theorem refused_index (stops : parseIndex lexemes = .error stop) :
    Refused place .index lexemes stop := by
  unfold parseIndex at stops
  split at stops
  · rename_i index number
    rcases error_of_bind stops with stops | ⟨behind, close, stops⟩
    · rcases expect_eq_error stops with ⟨close, rfl⟩
      exact (Misses.indexBracket number close).refused
    · cases stops
  · rename_i number
    cases stops
    exact (Misses.number number).refused

theorem refused_key {afterDot : Bool} (stops : parseKey afterDot lexemes = .error stop) :
    Refused place (.key afterDot) lexemes stop := by
  unfold parseKey at stops
  split at stops
  · cases stops
  · cases stops
  · rename_i bracket
    exact (refused_index stops).inside (.keyIndex bracket)
  · rename_i word bracket number
    cases stops
    exact (Misses.key word number bracket).refused

theorem refused_steps (ended : Ended lexemes) (enough : lexemes.length < depth)
    (stops : parseSteps depth lexemes = .error stop) : Refused place .steps lexemes stop := by
  induction depth generalizing lexemes with
  | zero => exact absurd enough (Nat.not_lt_zero _)
  | succ depth induction =>
      unfold parseSteps at stops
      split at stops
      · rename_i touches
        split at stops
        · rename_i dot
          split at stops
          · rename_i follows
            rcases error_of_bind stops with stops | ⟨⟨step, behind⟩, first, stops⟩
            · exact (refused_key stops).inside (.dot touches dot follows)
            · rcases error_of_bind stops with stops | ⟨others, next, stops⟩
              · have sign := (Behind.refl ended).step (ne_finish_of_peek dot (by simp))
                have key := sign.trans ((parseKey_through first).behind sign.ended)
                have next := induction key.ended (by have := key.shorter; omega) stops
                exact next.inside (.behindKey touches dot follows first)
              · cases stops
          · cases stops
        · rename_i bracket
          rcases error_of_bind stops with stops | ⟨⟨step, behind⟩, first, stops⟩
          · exact (refused_index stops).inside (.bracket touches bracket)
          · rcases error_of_bind stops with stops | ⟨others, next, stops⟩
            · have sign := (Behind.refl ended).step (ne_finish_of_peek bracket (by simp))
              have index := sign.trans ((parseIndex_through first).behind sign.ended)
              have next := induction index.ended (by have := index.shorter; omega) stops
              exact next.inside (.behindIndex touches bracket first)
            · cases stops
        · cases stops
      · cases stops

theorem refused_path (ended : Ended lexemes) (enough : lexemes.length < depth)
    (stops : parsePath depth lexemes = .error stop) : Refused place .path lexemes stop := by
  rcases error_of_bind stops with stops | ⟨⟨step, behind⟩, first, stops⟩
  · exact (refused_key stops).inside (.step lexemes)
  · rcases error_of_bind stops with stops | ⟨others, next, stops⟩
    · have key := (parseKey_through first).behind ended
      have next := @refused_steps place _ _ _ key.ended (by have := key.shorter; omega) stops
      exact next.inside (.steps first)
    · cases stops

theorem refused_parameters (ended : Ended lexemes) (enough : lexemes.length < depth)
    (stops : parseParameters depth lexemes = .error stop) :
    Refused place .parameters lexemes stop := by
  induction depth generalizing lexemes with
  | zero => exact absurd enough (Nat.not_lt_zero _)
  | succ depth induction =>
      unfold parseParameters at stops
      split at stops
      · rename_i name word
        dsimp only at stops
        split at stops
        · rename_i comma
          rcases error_of_bind stops with stops | ⟨others, next, stops⟩
          · have sign := ((Behind.refl ended).step (ne_finish_of_peek word (by simp))).step
              (ne_finish_of_peek comma (by simp))
            have next := induction sign.ended (by have := sign.shorter; omega) stops
            exact next.inside (.name word comma)
          · cases stops
        · cases stops
        · rename_i comma bar
          cases stops
          exact (Misses.separator word comma bar).refused
      · rename_i word
        cases stops
        exact (Misses.parameter word).refused

/-! ## Expressions -/

section

variable (below : Refusing place depth) (ended : Ended lexemes)

include below ended

theorem refused_expression (enough : 16 * lexemes.length + 15 ≤ depth + 1)
    (stops : parseExpression place (depth + 1) lexemes = .error stop) :
    Refused place .expression lexemes stop := by
  unfold parseExpression at stops
  dsimp only at stops
  split at stops
  · rename_i starts
    rcases error_of_bind stops with stops | ⟨inner, next, stops⟩
    · have sign := (Behind.refl ended).step (ne_finish_of_peek starts.1 (by simp))
      have inner := below.behind .conditional sign (by simp only [Part.rank]; omega) stops
      exact inner.inside (.preferred starts)
    · cases stops
  · rename_i starts
    have inner := below .conditional ended (by simp only [Part.rank]; omega) stops
    exact inner.inside (.expression starts)

theorem refused_conditional (enough : 16 * lexemes.length + 14 ≤ depth + 1)
    (stops : parseConditional place (depth + 1) lexemes = .error stop) :
    Refused place .conditional lexemes stop := by
  unfold parseConditional at stops
  rcases error_of_bind stops with stops | ⟨⟨condition, middle⟩, first, stops⟩
  · have inner := below (.chain .fallback) ended (by simp only [Part.rank, Level.rank]; omega) stops
    exact inner.inside (.condition lexemes)
  have first := derives place depth (.chain .fallback condition) first
  dsimp only at stops
  split at stops
  case isFalse => cases stops
  rename_i question
  have inside := (first.behind ended).step (ne_finish_of_peek question (by simp))
  rcases error_of_bind stops with stops | ⟨⟨consequence, behind⟩, second, stops⟩
  · have inner := below.behind .expression inside
      (by simp only [Part.rank, Phrase.least]; omega) stops
    exact inner.inside (.consequence first question)
  have second := derives place depth (.expression consequence) second
  rcases error_of_bind stops with stops | ⟨last, sign, stops⟩
  · rcases expect_eq_error stops with ⟨colon, rfl⟩
    exact (Misses.colon first question second colon).refused
  rcases expect_eq_ok sign with ⟨colon, rfl⟩
  rcases error_of_bind stops with stops | ⟨alternative, third, stops⟩
  · have other := (inside.trans (second.behind inside.ended)).step
      (ne_finish_of_peek colon (by simp))
    have inner := below.behind .expression other
      (by simp only [Part.rank, Phrase.least]; omega) stops
    exact inner.inside (.alternative first question second colon)
  · cases stops

theorem refused_chain {level : Level}
    (enough : 16 * lexemes.length + (level.rank + 1) ≤ depth + 1)
    (stops : parseChain place (depth + 1) level lexemes = .error stop) :
    Refused place (.chain level) lexemes stop := by
  have bounds := level.rank_bounds
  unfold parseChain at stops
  rcases error_of_bind stops with stops | ⟨⟨left, middle⟩, first, stops⟩
  · have inner := below (.operand level) ended (by simp only [Part.rank]; omega) stops
    exact inner.inside (.first level lexemes)
  · have first := derives place depth (.operand level left) first
    have inner := below.behind (.chainRest level left) (first.behind ended)
      (by simp only [Part.rank, Phrase.least]; omega) stops
    exact inner.inside (.chain first)

theorem refused_chainRest {level : Level} {left : Expression}
    (enough : 16 * lexemes.length + (level.rank + 1) ≤ depth + 1)
    (stops : parseChainRest place (depth + 1) level left lexemes = .error stop) :
    Refused place (.chainRest level left) lexemes stop := by
  have bounds := level.rank_bounds
  unfold parseChainRest at stops
  split at stops
  · cases stops
  · rename_i operator sign
    have start := (Level.through_sign sign).behind ended
    rcases error_of_bind stops with stops | ⟨⟨right, middle⟩, next, stops⟩
    · have inner := below.behind (.operand level) start (by simp only [Part.rank]; omega) stops
      exact inner.inside (.right sign)
    · have next := derives place depth (.operand level right) next
      have inner := below.behind (.chainRest level (.binary operator left right))
        (start.trans (next.behind start.ended))
        (by simp only [Part.rank, Phrase.least]; omega) stops
      exact inner.inside (.chainMore sign next)

theorem refused_operand {level : Level}
    (enough : 16 * lexemes.length + level.rank ≤ depth + 1)
    (stops : parseOperand place (depth + 1) level lexemes = .error stop) :
    Refused place (.operand level) lexemes stop := by
  have bounds := level.rank_bounds
  unfold parseOperand at stops
  split at stops
  · rename_i tighter held
    have less := Level.rank_tighter held
    have inner := below (.chain tighter) ended (by simp only [Part.rank]; omega) stops
    exact inner.inside (.tighter held)
  · rename_i held
    have inner := below .unary ended (by simp only [Part.rank]; omega) stops
    exact inner.inside (.tightest held)

theorem refused_unary (enough : 16 * lexemes.length + 3 ≤ depth + 1)
    (stops : parseUnary place (depth + 1) lexemes = .error stop) :
    Refused place .unary lexemes stop := by
  unfold parseUnary at stops
  split at stops
  · rename_i bang
    rcases error_of_bind stops with stops | ⟨operand, next, stops⟩
    · have sign := (Behind.refl ended).step (ne_finish_of_peek bang (by simp))
      have inner := below.behind .unary sign (by simp only [Part.rank]; omega) stops
      exact inner.inside (.not bang)
    · cases stops
  · rename_i minus
    dsimp only at stops
    split at stops
    · cases stops
    · rename_i other
      have number : ¬ startsNegative lexemes := by
        rintro ⟨⟨value, number⟩, touches⟩
        exact other value number touches
      rcases error_of_bind stops with stops | ⟨operand, next, stops⟩
      · have sign := (Behind.refl ended).step (ne_finish_of_peek minus (by simp))
        have inner := below.behind .unary sign (by simp only [Part.rank]; omega) stops
        exact inner.inside (.minus minus number)
      · cases stops
  · rename_i bang minus
    rcases error_of_bind stops with stops | ⟨⟨function, middle⟩, first, stops⟩
    · have inner := below .primary ended (by simp only [Part.rank]; omega) stops
      exact inner.inside (.function bang minus)
    · have first := derives place depth (.primary function) first
      have inner := below.behind (.calls function) (first.behind ended)
        (by simp only [Part.rank, Phrase.least]; omega) stops
      exact inner.inside (.applied bang minus first)

theorem refused_calls {function : Expression} (enough : 16 * lexemes.length + 2 ≤ depth + 1)
    (stops : parseCalls place (depth + 1) function lexemes = .error stop) :
    Refused place (.calls function) lexemes stop := by
  unfold parseCalls at stops
  split at stops
  case isFalse => cases stops
  rename_i opens
  have sign := (Behind.refl ended).step (ne_finish_of_peek opens.1 (by simp))
  rcases error_of_bind stops with stops | ⟨⟨arguments, middle⟩, inside, stops⟩
  · have inner := below.behind (.separated .arguments) sign (by simp only [Part.rank]; omega) stops
    exact inner.inside (.arguments opens.1 opens.2)
  · have inside := derives place depth (.separated .arguments arguments) inside
    have inner := below.behind (.calls (.call function arguments))
      (sign.trans (inside.behind sign.ended))
      (by simp only [Part.rank, Phrase.least]; omega) stops
    exact inner.inside (.called opens.1 opens.2 inside)

theorem refused_separated {enclosure : Enclosure}
    (enough : 16 * lexemes.length + 17 ≤ depth + 1)
    (stops : parseSeparated place (depth + 1) enclosure.close enclosure.rule lexemes =
      .error stop) :
    Refused place (.separated enclosure) lexemes stop := by
  unfold parseSeparated at stops
  split at stops
  · cases stops
  · rename_i close
    have inner := below (.entries enclosure) ended (by simp only [Part.rank]; omega) stops
    exact inner.inside (.something close)

theorem refused_entries {enclosure : Enclosure} (enough : 16 * lexemes.length + 16 ≤ depth + 1)
    (stops : parseEntries place (depth + 1) enclosure.close enclosure.rule lexemes =
      .error stop) :
    Refused place (.entries enclosure) lexemes stop := by
  unfold parseEntries at stops
  rcases error_of_bind stops with stops | ⟨⟨entry, middle⟩, first, stops⟩
  · have inner := below .expression ended (by simp only [Part.rank]; omega) stops
    exact inner.inside (.entry enclosure lexemes)
  have first := derives place depth (.expression entry) first
  dsimp only at stops
  split at stops
  · cases stops
  · rename_i close
    rcases error_of_bind stops with stops | ⟨last, sign, stops⟩
    · rcases expect_eq_error stops with ⟨comma, rfl⟩
      exact (Misses.comma first close comma).refused
    rcases expect_eq_ok sign with ⟨comma, rfl⟩
    rcases error_of_bind stops with stops | ⟨entries, next, stops⟩
    · have behind := (first.behind ended).step (ne_finish_of_peek comma (by simp))
      have inner := below.behind (.entries enclosure) behind
        (by simp only [Part.rank, Phrase.least]; omega) stops
      exact inner.inside (.more first comma)
    · cases stops

omit below in
theorem refused_merge (word : peek lexemes = .identifier "merge")
    (enough : 16 * lexemes.length + 2 ≤ depth + 1)
    (stops : parseMerge place depth (advance lexemes) = .error stop) :
    Refused place .primary lexemes stop := by
  simp only [parseMerge] at stops
  split at stops
  · rename_i name key
    rcases error_of_bind stops with stops | ⟨path, steps, stops⟩
    · have sign := (Behind.refl ended).step (ne_finish_of_peek word (by simp))
      have start := sign.trans (behindReplace_through.behind sign.ended)
      have inner := @refused_path place _ _ _ start.ended (by have := start.shorter; omega) stops
      exact inner.inside (.redirected word key)
    · cases stops
  · cases stops

theorem refused_primary (enough : 16 * lexemes.length + 2 ≤ depth + 1)
    (stops : parsePrimary place (depth + 1) lexemes = .error stop) :
    Refused place .primary lexemes stop := by
  unfold parsePrimary at stops
  dsimp only at stops
  split at stops
  · cases stops
  · cases stops
  · rename_i parenthesis
    have sign := (Behind.refl ended).step (ne_finish_of_peek parenthesis (by simp))
    rcases error_of_bind stops with stops | ⟨⟨inner, middle⟩, first, stops⟩
    · have inner := below.behind .expression sign (by simp only [Part.rank]; omega) stops
      exact inner.inside (.group parenthesis)
    · have first := derives place depth (.expression inner) first
      rcases error_of_bind stops with stops | ⟨last, close, stops⟩
      · rcases expect_eq_error stops with ⟨close, rfl⟩
        exact (Misses.parenthesis parenthesis first close).refused
      · cases stops
  · rename_i bracket
    have sign := (Behind.refl ended).step (ne_finish_of_peek bracket (by simp))
    rcases error_of_bind stops with stops | ⟨entries, inside, stops⟩
    · have inner := below.behind (.separated .entries) sign (by simp only [Part.rank]; omega) stops
      exact inner.inside (.list bracket)
    · cases stops
  · rename_i dot
    split at stops
    · rename_i touches
      rcases error_of_bind stops with stops | ⟨path, steps, stops⟩
      · have sign := (Behind.refl ended).step (ne_finish_of_peek dot (by simp))
        have inner := @refused_path place _ _ _ sign.ended (by have := sign.shorter; omega) stops
        exact inner.inside (.root dot touches)
      · cases stops
    · rename_i touches
      cases stops
      exact (Misses.rootKey dot (Bool.eq_false_iff.mpr touches)).refused
  · cases stops
  · cases stops
  · cases stops
  · rename_i word
    exact refused_merge ended word enough stops
  · cases stops
  · rename_i name nil yes no merge auto word
    have sign := (Behind.refl ended).step (ne_finish_of_peek word (by simp))
    split at stops
    · rename_i starts
      rcases starts with ⟨rfl, bars⟩
      have inner := below.behind .lambda sign (by simp only [Part.rank]; omega) stops
      exact inner.inside (.lambda ⟨word, bars⟩)
    · rename_i lambda
      split at stops
      · rename_i starts
        rcases starts with ⟨rfl, opens⟩
        have start := sign.step (ne_finish_of_peek opens.1 (by simp))
        have inner := below.behind .mapping start (by simp only [Part.rank]; omega) stops
        exact inner.inside (.mapping ⟨word, opens⟩)
      · rename_i mapping
        have named : ∀ {other : String}, peek lexemes = .identifier other → name = other := by
          intro other found
          rw [word] at found
          exact Token.identifier.inj found
        have free : name ∉ reserved := by
          simp only [reserved, List.mem_cons, List.not_mem_nil, or_false, not_or]
          exact ⟨nil, yes, no, merge, auto⟩
        rcases error_of_bind stops with stops | ⟨path, steps, stops⟩
        · have inner := @refused_path place _ _ _ ended (by omega) stops
          exact inner.inside (.reference word free
            (fun starts => lambda ⟨named starts.1, starts.2⟩)
            fun starts => mapping ⟨named starts.1, starts.2⟩)
        · cases stops
  · rename_i integer text parenthesis bracket dot _ _ _ _ _ word
    cases stops
    refine (Misses.operand ?_).refused
    cases found : peek lexemes with
    | integer value => exact absurd found (integer value)
    | text value => exact absurd found (text value)
    | leftParenthesis => exact absurd found parenthesis
    | leftBracket => exact absurd found bracket
    | dot => exact absurd found dot
    | identifier name => exact absurd found (word name)
    | bang => exact .inr rfl
    | _ => exact .inl rfl

theorem refused_lambda (enough : 16 * lexemes.length + 16 ≤ depth + 1)
    (stops : parseLambda place (depth + 1) lexemes = .error stop) :
    Refused place .lambda lexemes stop := by
  unfold parseLambda at stops
  dsimp only at stops
  split at stops
  · rename_i bars
    change (expect .arrow .lambda (advance lexemes) >>= _) = .error stop at stops
    have sign := (Behind.refl ended).step (ne_finish_of_peek bars (by simp))
    rcases error_of_bind stops with stops | ⟨behind, points, stops⟩
    · rcases expect_eq_error stops with ⟨arrow, rfl⟩
      exact (Misses.bareArrow bars arrow).refused
    rcases expect_eq_ok points with ⟨arrow, rfl⟩
    rcases error_of_bind stops with stops | ⟨body, next, stops⟩
    · have start := sign.step (ne_finish_of_peek arrow (by simp))
      have inner := below.behind .expression start (by simp only [Part.rank]; omega) stops
      exact inner.inside (.bare bars arrow)
    · cases stops
  · rename_i bars
    rcases error_of_bind stops with stops | ⟨behind, opens, stops⟩
    · rcases expect_eq_error stops with ⟨bar, rfl⟩
      exact (Misses.bar bars bar).refused
    rcases expect_eq_ok opens with ⟨bar, rfl⟩
    have sign := (Behind.refl ended).step (ne_finish_of_peek bar (by simp))
    rcases error_of_bind stops with stops | ⟨⟨parameters, middle⟩, names, stops⟩
    · have inner := @refused_parameters place _ _ _ sign.ended
        (by have := sign.shorter; omega) stops
      exact inner.inside (.names bar)
    have names := parameters_of_parse names
    have list := sign.trans (names.through.behind sign.ended)
    rcases error_of_bind stops with stops | ⟨behind, points, stops⟩
    · rcases expect_eq_error stops with ⟨arrow, rfl⟩
      exact (Misses.namedArrow bar names arrow).refused
    rcases expect_eq_ok points with ⟨arrow, rfl⟩
    rcases error_of_bind stops with stops | ⟨body, next, stops⟩
    · have start := list.step (ne_finish_of_peek arrow (by simp))
      have inner := below.behind .expression start (by simp only [Part.rank]; omega) stops
      exact inner.inside (.named bar names arrow)
    · cases stops

theorem refused_mapping (enough : 16 * lexemes.length + 16 ≤ depth + 1)
    (stops : parseMapping place (depth + 1) lexemes = .error stop) :
    Refused place .mapping lexemes stop := by
  unfold parseMapping at stops
  rcases error_of_bind stops with stops | ⟨⟨collection, middle⟩, first, stops⟩
  · have inner := below .expression ended (by simp only [Part.rank]; omega) stops
    exact inner.inside (.collection lexemes)
  have first := derives place depth (.expression collection) first
  rcases error_of_bind stops with stops | ⟨behind, opens, stops⟩
  · rcases expect_eq_error stops with ⟨bar, rfl⟩
    exact (Misses.mappingBar first bar).refused
  rcases expect_eq_ok opens with ⟨bar, rfl⟩
  have sign := (first.behind ended).step (ne_finish_of_peek bar (by simp))
  rcases error_of_bind stops with stops | ⟨⟨function, behind⟩, second, stops⟩
  · have inner := below.behind .mapped sign (by simp only [Part.rank, Phrase.least]; omega) stops
    exact inner.inside (.mapped first bar)
  have second := derives place depth (.mapped function) second
  rcases error_of_bind stops with stops | ⟨last, close, stops⟩
  · rcases expect_eq_error stops with ⟨close, rfl⟩
    exact (Misses.mappingBracket first bar second close).refused
  · cases stops

theorem refused_mapped (enough : 16 * lexemes.length + 16 ≤ depth + 1)
    (stops : parseMapped place (depth + 1) lexemes = .error stop) :
    Refused place .mapped lexemes stop := by
  unfold parseMapped at stops
  split at stops
  · rename_i fails
    exact absurd fails (parseParameters_ne_depth ended (by omega))
  · -- A parameter list that fails is only tried: an expression may start with the same names.
    rename_i error fails
    have inner := below .expression ended (by simp only [Part.rank]; omega) stops
    exact inner.inside (.full fun names middle found =>
      absurd found (not_parameters_of_fault fails _ _))
  · rename_i parameters behind names
    have names := parameters_of_parse names
    split at stops
    · rename_i arrow
      rcases error_of_bind stops with stops | ⟨body, next, stops⟩
      · have start := (names.through.behind ended).step (ne_finish_of_peek arrow (by simp))
        have inner := below.behind .expression start (by simp only [Part.rank]; omega) stops
        exact inner.inside (.short names arrow)
      · cases stops
    · rename_i arrow
      have inner := below .expression ended (by simp only [Part.rank]; omega) stops
      refine inner.inside (.full fun others middle found => ?_)
      rcases names.unique found with ⟨_, rfl⟩
      exact arrow

end

theorem Grammar.Part.rank_pos (part : Part) : 0 < part.rank := by
  cases part with
  | operand level => exact Nat.lt_of_lt_of_le (by decide) level.rank_bounds.1
  | _ => exact Nat.succ_pos _

theorem refusing (place : List String) (depth : Nat) : Refusing place depth := by
  induction depth with
  | zero =>
      intro part lexemes stop ended enough stops
      have positive := part.rank_pos
      omega
  | succ depth below =>
      intro part lexemes stop ended enough stops
      cases part with
      | expression => exact refused_expression below ended enough stops
      | conditional => exact refused_conditional below ended enough stops
      | chain level => exact refused_chain below ended enough stops
      | chainRest level left => exact refused_chainRest below ended enough stops
      | operand level => exact refused_operand below ended enough stops
      | unary => exact refused_unary below ended enough stops
      | calls function => exact refused_calls below ended enough stops
      | separated enclosure => exact refused_separated below ended enough stops
      | entries enclosure => exact refused_entries below ended enough stops
      | primary => exact refused_primary below ended enough stops
      | lambda => exact refused_lambda below ended enough stops
      | mapping => exact refused_mapping below ended enough stops
      | mapped => exact refused_mapped below ended enough stops
      | path => exact refused_path ended (by simp only [Part.rank] at enough; omega) stops
      | steps => exact refused_steps ended (by simp only [Part.rank] at enough; omega) stops
      | key afterDot => exact refused_key stops
      | index => exact refused_index stops
      | parameters =>
          exact refused_parameters ended (by simp only [Part.rank] at enough; omega) stops

/-! ## Whole sources -/

/-- Where the lexemes are no expression, a token is refused: one inside the expression, or the one
behind it. -/
theorem refuses_of_parseLexemes {error : ParseError} (ended : Ended lexemes)
    (fails : parseLexemes place lexemes = .error error) :
    ∃ fault rest, error = fault.raisedAt rest ∧
      (Refuses place .expression lexemes fault rest ∨
        ∃ read, Reads place (.expression read) lexemes rest ∧ peek rest ≠ .finish ∧
          fault = .unexpected .expression (peek rest)) := by
  have enough : 16 * lexemes.length + Part.expression.rank ≤ parsingDepth lexemes := by
    simp only [Part.rank, parsingDepth]
    omega
  have refused {stop : Stop} (stops : parseExpression place (parsingDepth lexemes) lexemes =
      .error stop) : Refused place .expression lexemes stop :=
    refusing place _ .expression ended enough stops
  unfold parseLexemes at fails
  split at fails
  · rename_i found stops
    cases fails
    rcases refused stops with ⟨fault, rest, same, refuses⟩
    cases same
    exact ⟨fault, rest, rfl, .inl refuses⟩
  · rename_i stops
    rcases refused stops with ⟨fault, rest, same, -⟩
    cases same
  · rename_i read rest parsed
    split at fails
    · cases fails
    · rename_i more
      cases fails
      exact ⟨_, rest, rfl, .inr ⟨read, derives place _ (.expression _) parsed, more, rfl⟩⟩

end Stencil
