import Stencil.Proofs.Expression.Refusal
import Stencil.Proofs.Expression.Shape

namespace Stencil

open Lexemes Grammar

/-! What the grammar reads from the front of some lexemes it also reads from there before others,
if nothing goes on there that did not go on before. A path before a dot is an exception of its own:
before a dot and a key it goes on with them. -/

variable {place : List String} {lexemes rest rest' : List Lexeme}

/-! ## Lexemes behind a first one -/

namespace Lexemes

/-- A token that is no end has lexemes behind it. -/
theorem Scanned.split (scanned : Scanned lexemes) (goes : Lexemes.peek lexemes ≠ .finish) :
    ∃ first behind, lexemes = first :: behind ∧ Scanned behind := by
  match lexemes, scanned with
  | [_], scanned => exact absurd scanned goes
  | first :: next :: behind, scanned => exact ⟨first, next :: behind, rfl, scanned.2⟩

end Lexemes

/-! ## What goes on -/

/-- These lexemes start there with the token that those start with here. -/
structure Lexemes.Quiet (rest rest' : List Lexeme) : Prop where
  spaced : adjacent rest = adjacent rest'
  token : peek rest = peek rest'

/-- Nothing goes on with these lexemes there that does not go on with those here. -/
structure Lexemes.Calm (rest rest' : List Lexeme) : Prop extends Quiet rest rest' where
  path : continuesPath rest' → continuesPath rest

namespace Lexemes.Quiet

theorem call (quiet : Quiet rest rest')
    (goes : peek rest' = .leftParenthesis ∧ adjacent rest' = true) :
    peek rest = .leftParenthesis ∧ adjacent rest = true :=
  ⟨quiet.token.trans goes.1, quiet.spaced.trans goes.2⟩

/-! The words and signs that look at the token behind them. -/

variable {lexeme : Lexeme}

theorem startsPreferred (quiet : Quiet rest rest') (more : rest ≠ []) (more' : rest' ≠ [])
    (starts : startsPreferred (lexeme :: rest')) : startsPreferred (lexeme :: rest) := by
  unfold Grammar.startsPreferred at *
  rw [advance_cons more', ← quiet.token] at starts
  rwa [advance_cons more]

theorem startsLambda (quiet : Quiet rest rest') (more : rest ≠ []) (more' : rest' ≠ [])
    (starts : startsLambda (lexeme :: rest')) : startsLambda (lexeme :: rest) := by
  unfold Grammar.startsLambda at *
  rw [advance_cons more', ← quiet.token] at starts
  rwa [advance_cons more]

theorem startsMapping (quiet : Quiet rest rest') (more : rest ≠ []) (more' : rest' ≠ [])
    (starts : startsMapping (lexeme :: rest')) : startsMapping (lexeme :: rest) := by
  unfold Grammar.startsMapping at *
  rw [advance_cons more', ← quiet.token, ← quiet.spaced] at starts
  rwa [advance_cons more]

theorem startsNegative (quiet : Quiet rest rest') (more : rest ≠ []) (more' : rest' ≠ [])
    (starts : startsNegative (lexeme :: rest')) : startsNegative (lexeme :: rest) := by
  unfold Grammar.startsNegative at *
  rw [advance_cons more', ← quiet.token, ← quiet.spaced] at starts
  rwa [advance_cons more]

end Lexemes.Quiet

namespace Lexemes.Calm

/-- Behind the same token that is no dot nothing is looked at. -/
theorem head {lexeme : Lexeme} {behind : List Lexeme} {token : Token}
    (found : peek (lexeme :: behind) = token) (other : token ≠ .dot) :
    Calm (lexeme :: rest) (lexeme :: rest') := by
  refine ⟨⟨rfl, rfl⟩, fun goes => ⟨goes.1, goes.2.imp_right fun dot => ?_⟩⟩
  exact absurd (found.symm.trans dot.1) other

theorem behind (lexeme : Lexeme) (more : rest ≠ []) (more' : rest' ≠ [])
    (spaced : adjacent rest = adjacent rest') : Calm (lexeme :: rest) (lexeme :: rest') := by
  refine ⟨⟨rfl, rfl⟩, fun goes => ⟨goes.1, goes.2.imp_right fun dot => ⟨dot.1, ?_⟩⟩⟩
  have follows := dot.2
  rw [advance_cons more'] at follows
  rw [advance_cons more, spaced, follows]

theorem append (calm : Calm rest rest') (more : rest ≠ []) (more' : rest' ≠ [])
    (front : List Lexeme) : Calm (front ++ rest) (front ++ rest') := by
  induction front with
  | nil => exact calm
  | cons lexeme front induction =>
      exact .behind lexeme (by simp [more]) (by simp [more']) induction.spaced

end Lexemes.Calm

/-- Before a dot here and there a path may end here and goes on there, up to the tail. -/
structure Lexemes.Joins (rest rest' tail : List Lexeme) : Prop where
  here : peek rest = .dot
  there : peek rest' = .dot
  touches : adjacent rest = true
  touches' : adjacent rest' = true
  steps : ∃ steps, Steps steps rest' tail
  closes : (peek tail).closes = true

namespace Lexemes.Joins

variable {tail : List Lexeme}

theorem more (joins : Joins rest rest' tail) : rest ≠ [] := by
  rintro rfl
  cases joins.here

theorem more' (joins : Joins rest rest' tail) : rest' ≠ [] := by
  rintro rfl
  cases joins.there

theorem quiet (joins : Joins rest rest' tail) : Quiet rest rest' :=
  ⟨joins.touches.trans joins.touches'.symm, joins.here.trans joins.there.symm⟩

/-- Behind a lexeme nothing else is looked at than before. -/
theorem calm (joins : Joins rest rest' tail) {front : List Lexeme} (some : front ≠ []) :
    Calm (front ++ rest) (front ++ rest') := by
  obtain ⟨lexeme, front, rfl⟩ := List.exists_cons_of_ne_nil some
  cases front with
  | nil => exact .behind lexeme joins.more joins.more' joins.quiet.spaced
  | cons next front =>
      exact .behind lexeme (by simp)
        (by simp) rfl

theorem append_quiet (joins : Joins rest rest' tail) (front : List Lexeme) :
    Quiet (front ++ rest) (front ++ rest') := by
  cases front with
  | nil => exact joins.quiet
  | cons lexeme front => exact (joins.calm (List.cons_ne_nil lexeme front)).toQuiet

end Lexemes.Joins

/-! ## Paths and parameter lists -/

theorem parseIndex_carried {step : String} (scanned : Scanned lexemes)
    (ends : parseIndex lexemes = .ok (step, rest)) :
    ∃ front, lexemes = front ++ rest ∧ front ≠ [] ∧ Scanned rest ∧
      ∀ {rest'}, rest' ≠ [] → parseIndex (front ++ rest') = .ok (step, rest') := by
  unfold parseIndex at ends
  split at ends
  · rename_i index number
    rcases ok_of_bind ends with ⟨last, close, ends⟩
    rcases expect_eq_ok close with ⟨found, rfl⟩
    cases ends
    rcases scanned.split (ne_finish_of_peek number (by simp)) with ⟨first, behind, rfl, scanned'⟩
    rw [advance_cons scanned'.more] at found ⊢
    rcases scanned'.split (ne_finish_of_peek found (by simp)) with ⟨second, behind, rfl, left⟩
    rw [advance_cons left.more]
    refine ⟨[first, second], rfl, List.cons_ne_nil _ _, left, fun {rest'} more => ?_⟩
    have number : peek (first :: second :: rest') = .integer index := number
    have found : peek (second :: rest') = .rightBracket := found
    simp only [parseIndex, List.cons_append, List.nil_append, number,
      advance_cons (List.cons_ne_nil second rest'), expect_of_peek .index found,
      advance_cons more, bind, Except.bind, pure, Except.pure]
  · cases ends

theorem parseKey_carried {afterDot : Bool} {step : String} (scanned : Scanned lexemes)
    (ends : parseKey afterDot lexemes = .ok (step, rest)) :
    ∃ front, lexemes = front ++ rest ∧ front ≠ [] ∧ Scanned rest ∧
      ∀ {rest'}, rest' ≠ [] → parseKey afterDot (front ++ rest') = .ok (step, rest') := by
  rcases scanned.split (ne_finish_of_parseKey ends) with ⟨first, behind, rfl, left⟩
  unfold parseKey at ends
  rw [advance_cons left.more] at ends
  split at ends
  · rename_i name word
    cases ends
    refine ⟨[first], rfl, List.cons_ne_nil _ _, left, fun {rest'} more => ?_⟩
    have word : peek (first :: rest') = .identifier step := word
    simp only [parseKey, List.cons_append, List.nil_append, word, advance_cons more]
  · rename_i index number
    cases ends
    refine ⟨[first], rfl, List.cons_ne_nil _ _, left, fun {rest'} more => ?_⟩
    have number : peek (first :: rest') = .integer index := number
    simp only [parseKey, List.cons_append, List.nil_append, number, advance_cons more]
  · rename_i bracket
    rcases parseIndex_carried left ends with ⟨front, rfl, -, left, index⟩
    refine ⟨first :: front, rfl, List.cons_ne_nil _ _, left, fun {rest'} more => ?_⟩
    have bracket : peek (first :: (front ++ rest')) = .leftBracket := bracket
    have behind : advance (first :: (front ++ rest')) = front ++ rest' :=
      advance_cons (by simp [more]) first
    simp only [parseKey, List.cons_append, bracket, behind, index more]
  · cases ends

/-- Steps are read before others that they do not go on with, and go on with a key behind a dot. -/
theorem Grammar.Steps.carried {steps : List String} (reads : Steps steps lexemes rest)
    (scanned : Scanned lexemes) :
    ∃ front, lexemes = front ++ rest ∧ Scanned rest ∧
      (∀ {rest'}, rest' ≠ [] → Calm rest rest' → Steps steps (front ++ rest') rest') ∧
      ∀ {rest' tail}, Joins rest rest' tail → ∃ steps', Steps steps' (front ++ rest') tail := by
  induction reads with
  | @key _ _ _ step _ touches dot follows first others induction =>
      rcases scanned.split (ne_finish_of_peek dot (by simp)) with ⟨sign, behind, rfl, left⟩
      rw [advance_cons left.more] at follows first
      rcases parseKey_carried left first with ⟨key, rfl, some, left, carries⟩
      rcases induction left with ⟨front, rfl, left', calm, joins⟩
      obtain ⟨start, key, rfl⟩ := List.exists_cons_of_ne_nil some
      have build {last rest' : List Lexeme} {steps : List String} (more : rest' ≠ [])
          (others : Steps steps rest' last) :
          Steps (step :: steps) (sign :: start :: key ++ rest') last := by
        have behind : advance (sign :: start :: key ++ rest') = start :: key ++ rest' := rfl
        exact .key touches dot (behind ▸ follows) (behind ▸ carries more) others
      refine ⟨sign :: start :: key ++ front, by simp, left', fun more rest => ?_, fun joined => ?_⟩
      · rw [List.append_assoc]
        exact build (by simp [more]) (calm more rest)
      · rcases joins joined with ⟨steps, others⟩
        rw [List.append_assoc]
        exact ⟨_, build (by simp [joined.more']) others⟩
  | @index _ _ _ step _ touches bracket first others induction =>
      rcases scanned.split (ne_finish_of_peek bracket (by simp)) with ⟨sign, behind, rfl, left⟩
      rw [advance_cons left.more] at first
      rcases parseIndex_carried left first with ⟨index, rfl, -, left, carries⟩
      rcases induction left with ⟨front, rfl, left, calm, joins⟩
      have build {last rest' : List Lexeme} {steps : List String} (more : rest' ≠ [])
          (others : Steps steps rest' last) :
          Steps (step :: steps) (sign :: index ++ rest') last := by
        have behind : advance (sign :: index ++ rest') = index ++ rest' :=
          advance_cons (by simp [more]) sign
        exact .index touches bracket (behind ▸ carries more) others
      refine ⟨sign :: index ++ front, by simp, left, fun more rest => ?_, fun joined => ?_⟩
      · rw [List.append_assoc]
        exact build (by simp [more]) (calm more rest)
      · rcases joins joined with ⟨steps, others⟩
        rw [List.append_assoc]
        exact ⟨_, build (by simp [joined.more']) others⟩
  | halt halt =>
      exact ⟨[], rfl, scanned, fun _ calm => .halt fun goes => halt (calm.path goes),
        fun joined => joined.steps⟩

theorem Grammar.Path.carried {path : List String} (reads : Path path lexemes rest)
    (scanned : Scanned lexemes) :
    ∃ front, lexemes = front ++ rest ∧ front ≠ [] ∧ Scanned rest ∧
      (∀ {rest'}, rest' ≠ [] → Calm rest rest' → Path path (front ++ rest') rest') ∧
      ∀ {rest' tail}, Joins rest rest' tail → ∃ path', Path path' (front ++ rest') tail := by
  cases reads with
  | path first others =>
      rcases parseKey_carried scanned first with ⟨key, rfl, some, left, carries⟩
      rcases others.carried left with ⟨front, rfl, left, calm, joins⟩
      refine ⟨key ++ front, by simp, by simp [some], left, fun more rest => ?_, fun joined => ?_⟩
      · rw [List.append_assoc]
        exact .path (carries (by simp [more])) (calm more rest)
      · rcases joins joined with ⟨steps, others⟩
        rw [List.append_assoc]
        exact ⟨_, .path (carries (by simp [joined.more'])) others⟩

theorem Grammar.Parameters.carried {names : List String} (reads : Parameters names lexemes rest)
    (scanned : Scanned lexemes) :
    ∃ front, lexemes = front ++ rest ∧ front ≠ [] ∧ Scanned rest ∧
      ∀ {rest'}, rest' ≠ [] → Parameters names (front ++ rest') rest' := by
  induction reads with
  | last word bar =>
      rcases scanned.split (ne_finish_of_peek word (by simp)) with ⟨first, behind, rfl, left⟩
      rw [advance_cons left.more] at bar ⊢
      rcases left.split (ne_finish_of_peek bar (by simp)) with ⟨second, behind, rfl, left'⟩
      rw [advance_cons left'.more]
      refine ⟨[first, second], rfl, List.cons_ne_nil _ _, left', fun {rest'} more => ?_⟩
      have last : Parameters [_] (first :: second :: rest') _ := .last word bar
      rwa [advance_cons (List.cons_ne_nil second rest'), advance_cons more] at last
  | more word comma others induction =>
      rcases scanned.split (ne_finish_of_peek word (by simp)) with ⟨first, behind, rfl, left⟩
      rw [advance_cons left.more] at comma induction
      rcases left.split (ne_finish_of_peek comma (by simp)) with ⟨second, behind, rfl, left'⟩
      rw [advance_cons left'.more] at induction
      rcases induction left' with ⟨front, rfl, -, left, carries⟩
      refine ⟨first :: second :: front, rfl, List.cons_ne_nil _ _, left, fun {rest'} more => ?_⟩
      refine .more word comma ?_
      rw [List.cons_append, List.cons_append, advance_cons (List.cons_ne_nil _ _),
        advance_cons (by simp [more])]
      exact carries more

/-- A parameter list does not go on with a token that is none of its own. -/
theorem Grammar.Parameters.within {names : List String} {front whole last : List Lexeme}
    (reads : Parameters names whole last) (same : whole = front ++ rest) (more : rest ≠ [])
    (word : ∀ name, peek rest ≠ .identifier name) (comma : peek rest ≠ .comma)
    (bar : peek rest ≠ .pipe) :
    ∃ front', last = front' ++ rest ∧
      ∀ {rest'}, rest' ≠ [] → Parameters names (front ++ rest') (front' ++ rest') := by
  induction reads generalizing front with
  | last name sign =>
      subst same
      cases front with
      | nil => exact absurd name (word _)
      | cons first front =>
          rw [List.cons_append, advance_cons (by simp [more])] at sign ⊢
          cases front with
          | nil => exact absurd sign bar
          | cons second front =>
              rw [List.cons_append, advance_cons (by simp [more])]
              refine ⟨front, rfl, fun {rest'} more' => ?_⟩
              have last : Parameters [_] (first :: second :: (front ++ rest')) _ := .last name sign
              rwa [advance_cons (List.cons_ne_nil _ _),
                advance_cons (by simp [more'])] at last
  | more name sign others induction =>
      subst same
      cases front with
      | nil => exact absurd name (word _)
      | cons first front =>
          rw [List.cons_append, advance_cons (by simp [more])] at sign induction
          cases front with
          | nil => exact absurd sign comma
          | cons second front =>
              rw [List.cons_append, advance_cons (by simp [more])] at induction
              rcases induction rfl with ⟨front', same, reads⟩
              refine ⟨front', same, fun {rest'} more' => .more name sign ?_⟩
              rw [List.cons_append, List.cons_append, advance_cons (List.cons_ne_nil _ _),
                advance_cons (by simp [more'])]
              exact reads more'

/-! ## Phrases -/

namespace Grammar

/-- What a phrase may stand before that stands before other lexemes here. A phrase that ends with a
closing token may stand before anything, and the function of a mapping before its bracket. -/
def Phrase.Allows (rest rest' : List Lexeme) : Phrase → Prop
  | .separated _ _ | .entries _ _ | .mapping _ => True
  | .mapped _ => peek rest' = .rightBracket ∧ Calm rest rest'
  | _ => Calm rest rest'

/-- A phrase that may end before a dot. -/
def Phrase.IsTight : Phrase → Prop
  | .unary _ | .calls _ _ | .primary _ => True
  | .chain level _ | .chainRest level _ _ => level = .multiplicative
  | .operand level _ => level = .additive ∨ level = .multiplicative
  | _ => False

/-- The phrase that takes the front before the rest takes it before other lexemes as well. -/
structure Carries (place : List String) (phrase : Phrase) (front rest : List Lexeme) : Prop where
  some : 0 < phrase.least → front ≠ []
  carry : ∀ {rest'}, rest' ≠ [] → phrase.Allows rest rest' →
    Reads place phrase (front ++ rest') rest'
  joins : phrase.IsTight → ∀ {rest' tail}, Joins rest rest' tail →
    ∃ last, (last = rest' ∨ last = tail) ∧ phrase.part.Reads place (front ++ rest') last

end Grammar

/-- A primary that may stand before anything. -/
theorem Grammar.Carries.closed {read : Expression} {front : List Lexeme} (some : front ≠ [])
    (reads : ∀ {rest'}, rest' ≠ [] → Reads place (.primary read) (front ++ rest') rest') :
    Carries place (.primary read) front rest :=
  ⟨fun _ => some, fun more _ => reads more,
    fun _ _ _ joined => ⟨_, .inl rfl, _, reads joined.more'⟩⟩

theorem Lexemes.Joins.operator? {tail last : List Lexeme} (joins : Joins rest rest' tail)
    (ends : last = rest' ∨ last = tail) : Level.multiplicative.operator? (peek last) = none := by
  rcases ends with rfl | rfl
  · rw [joins.there]
    rfl
  · exact Level.multiplicative.operator?_of_closes joins.closes

theorem Lexemes.Joins.call {tail last : List Lexeme} (joins : Joins rest rest' tail)
    (ends : last = rest' ∨ last = tail) :
    ¬ (peek last = .leftParenthesis ∧ adjacent last = true) := by
  rcases ends with rfl | rfl
  · rintro ⟨parenthesis, _⟩
    cases joins.there.symm.trans parenthesis
  · exact (Tier.ends_of_closing joins.closes .unary).call (by decide)

/-- A phrase behind one lexeme more. -/
theorem Grammar.Reads.pass {phrase : Phrase} (reads : Reads place phrase lexemes rest)
    (more : lexemes ≠ []) (first : Lexeme) :
    Reads place phrase (advance (first :: lexemes)) rest := by
  rwa [advance_cons more]

/-- A merge of another path, which starts behind the word `replace` if that stands there. -/
theorem Grammar.Reads.mergedPath {sign : Lexeme} {behind start : List Lexeme} {path : List String}
    {name : String} (word : sign.token = .identifier "merge") (more : behind ≠ [])
    (skip : behindReplace behind = start) (key : peek start = .identifier name)
    (steps : Path path start rest) :
    Reads place (.primary (.merge path true (decide (peek behind = .identifier "replace"))))
      (sign :: behind) rest := by
  obtain ⟨next, behind, rfl⟩ := List.exists_cons_of_ne_nil more
  subst skip
  have word : peek (sign :: next :: behind) = .identifier "merge" := word
  exact .redirected word key steps

/-- A merge of the place. -/
theorem Grammar.Reads.mergedHere {sign : Lexeme} {behind start : List Lexeme}
    (word : sign.token = .identifier "merge") (more : behind ≠ [])
    (skip : behindReplace behind = start) (key : ∀ name, peek start ≠ .identifier name) :
    Reads place (.primary (.merge place false (decide (peek behind = .identifier "replace"))))
      (sign :: behind) start := by
  obtain ⟨next, behind, rfl⟩ := List.exists_cons_of_ne_nil more
  subst skip
  have word : peek (sign :: next :: behind) = .identifier "merge" := word
  exact .merge word key

/-! ### One rule after the other

Each rule of the grammar carries over when the phrases it reads do. Where a phrase may end before a
dot, the case split is on what stands behind its first part: if nothing does, that part is the one
that joins the path. -/

namespace Grammar

/-- What the phrase takes here it takes before other lexemes as well. -/
def Carried (place : List String) (phrase : Phrase) (lexemes rest : List Lexeme) : Prop :=
  Scanned lexemes →
    ∃ front, lexemes = front ++ rest ∧ Scanned rest ∧ Carries place phrase front rest

end Grammar

/-- A phrase that starts behind one lexeme. -/
theorem Grammar.Carried.behind {phrase : Phrase} (inner : Carried place phrase (advance lexemes) rest)
    (goes : peek lexemes ≠ .finish) (scanned : Scanned lexemes) :
    ∃ sign front, lexemes = sign :: (front ++ rest) ∧ Scanned rest ∧
      Carries place phrase front rest := by
  rcases scanned.split goes with ⟨sign, behind, rfl, left⟩
  rw [advance_cons left.more] at inner
  rcases inner left with ⟨front, rfl, left, carries⟩
  exact ⟨sign, front, rfl, left, carries⟩

theorem Grammar.Carried.preferred {read : Expression} (starts : startsPreferred lexemes)
    (inner : Carried place (.conditional read) (advance lexemes) rest) :
    Carried place (.expression (.prefer read)) lexemes rest := by
  intro scanned
  rcases inner.behind (ne_finish_of_peek starts.1 (by simp)) scanned with
    ⟨sign, front, rfl, left, carries⟩
  refine ⟨sign :: front, rfl, left, fun _ => List.cons_ne_nil _ _, fun more calm => ?_, nofun⟩
  have next := carries.carry more calm
  obtain ⟨first, front, rfl⟩ := List.exists_cons_of_ne_nil (carries.some Nat.zero_lt_one)
  exact .preferred starts next

theorem Grammar.Carried.expression {read : Expression} (starts : ¬ startsPreferred lexemes)
    (inner : Carried place (.conditional read) lexemes rest) :
    Carried place (.expression read) lexemes rest := by
  intro scanned
  rcases inner scanned with ⟨front, rfl, left, carries⟩
  refine ⟨front, rfl, left, carries.some, fun more calm => ?_, nofun⟩
  have next := carries.carry more calm
  obtain ⟨first, front, rfl⟩ := List.exists_cons_of_ne_nil (carries.some Nat.zero_lt_one)
  refine .expression (fun again => starts ?_) next
  exact (Calm.append calm left.more more front).startsPreferred (by simp [left.more])
    (by simp [more]) again

theorem Grammar.Carried.conditional {middle behind : List Lexeme}
    {condition consequence alternative : Expression} (question : peek middle = .question)
    (colon : peek behind = .colon) (first : Carried place (.chain .fallback condition) lexemes middle)
    (second : Carried place (.expression consequence) (advance middle) behind)
    (third : Carried place (.expression alternative) (advance behind) rest) :
    Carried place (.conditional (.conditional condition consequence alternative)) lexemes rest := by
  intro scanned
  rcases first scanned with ⟨front, rfl, left, condition⟩
  rcases second.behind (ne_finish_of_peek question (by simp)) left with
    ⟨sign, front', rfl, left, consequence⟩
  rcases third.behind (ne_finish_of_peek colon (by simp)) left with
    ⟨sign', front'', rfl, left, alternative⟩
  refine ⟨front ++ sign :: (front' ++ sign' :: front''), by simp, left, fun _ => by simp,
    fun {rest'} more calm => ?_, nofun⟩
  have third := alternative.carry more calm
  have second := consequence.carry (List.cons_ne_nil sign' (front'' ++ rest'))
    (.head colon (by simp))
  have first := condition.carry (List.cons_ne_nil sign (front' ++ sign' :: (front'' ++ rest')))
    (.head question (by simp))
  simp only [List.append_assoc, List.cons_append]
  exact .conditional first question (second.pass (by simp) sign) colon
    (third.pass (by simp [more]) sign')

theorem Grammar.Carried.chain {middle : List Lexeme} {level : Level} {left read : Expression}
    (first : Carried place (.operand level left) lexemes middle)
    (others : Carried place (.chainRest level left read) middle rest) :
    Carried place (.chain level read) lexemes rest := by
  intro scanned
  rcases first scanned with ⟨front, rfl, left, operand⟩
  rcases others left with ⟨front', rfl, left', following⟩
  refine ⟨front ++ front', by simp, left', fun _ => by simp [operand.some Nat.zero_lt_one],
    fun more calm => ?_, fun tight {rest' tail} joined => ?_⟩
  · rw [List.append_assoc]
    exact .chain (operand.carry (by simp [more])
      (Calm.append calm left'.more more front')) (following.carry more calm)
  · cases tight
    rw [List.append_assoc]
    rcases List.eq_nil_or_concat' front' with rfl | ⟨_, _, rfl⟩
    · rcases operand.joins (.inr rfl) joined with ⟨last, ends, _, reads⟩
      exact ⟨last, ends, _, .chain reads (.chainOver (joined.operator? ends))⟩
    · have first := operand.carry (by simp) (joined.calm (by simp))
      rcases following.joins rfl joined with ⟨last, ends, _, reads⟩
      exact ⟨last, ends, _, .chain first reads⟩

/-- A concatenation has no sign of its own: its operand starts where the operator is seen. -/
theorem Grammar.Carried.chainJoint {middle : List Lexeme} {level : Level}
    {left right read : Expression} (sign : level.operator? (peek lexemes) = some .concatenation)
    (next : Carried place (.operand level right) lexemes middle)
    (others : Carried place (.chainRest level (.binary .concatenation left right) read) middle
      rest) :
    Carried place (.chainRest level left read) lexemes rest := by
  intro scanned
  rcases next scanned with ⟨front, rfl, left, operand⟩
  rcases others left with ⟨front', rfl, left', following⟩
  obtain ⟨first, front, rfl⟩ := List.exists_cons_of_ne_nil (operand.some Nat.zero_lt_one)
  refine ⟨first :: front ++ front', by simp, left', nofun, fun more calm => ?_, ?_⟩
  · rw [List.append_assoc]
    have next := operand.carry (by simp [more]) (Calm.append calm left'.more more front')
    exact .chainMore sign (by rwa [if_pos rfl]) (following.carry more calm)
  · rintro rfl
    cases (Level.of_operator? sign).1

theorem Grammar.Carried.chainSigned {middle : List Lexeme} {level : Level} {operator : Operator}
    {left right read : Expression} (sign : level.operator? (peek lexemes) = some operator)
    (joint : operator ≠ .concatenation)
    (next : Carried place (.operand level right) (advance lexemes) middle)
    (others : Carried place (.chainRest level (.binary operator left right) read) middle rest) :
    Carried place (.chainRest level left read) lexemes rest := by
  intro scanned
  rcases next.behind (Level.passes_of_operator sign joint).goes scanned with
    ⟨first, front, rfl, left', operand⟩
  rcases others left' with ⟨front', rfl, left', following⟩
  have build {right read : Expression} {start middle last : List Lexeme}
      (next : Reads place (.operand level right) start middle) (more : start ≠ [])
      (others : Reads place (.chainRest level (.binary operator left right) read) middle last) :
      Reads place (.chainRest level left read) (first :: start) last :=
    .chainMore sign (by rw [if_neg joint]; exact next.pass more first) others
  refine ⟨first :: front ++ front', by simp, left', nofun, fun more calm => ?_,
    fun tight {rest' tail} joined => ?_⟩
  · rw [List.append_assoc]
    exact build (operand.carry (by simp [more]) (Calm.append calm left'.more more front'))
      (by simp [more]) (following.carry more calm)
  · cases tight
    have some : front ++ (front' ++ rest') ≠ [] := by simp [joined.more']
    rw [List.append_assoc]
    rcases List.eq_nil_or_concat' front' with rfl | ⟨_, _, rfl⟩
    · rcases operand.joins (.inr rfl) joined with ⟨last, ends, _, reads⟩
      exact ⟨last, ends, _, build reads some (.chainOver (joined.operator? ends))⟩
    · have next := operand.carry (by simp) (joined.calm (by simp))
      rcases following.joins rfl joined with ⟨last, ends, _, reads⟩
      exact ⟨last, ends, _, build next some reads⟩

theorem Grammar.Carried.tighter {level tighter : Level} {read : Expression}
    (below : level.tighter = some tighter) (inner : Carried place (.chain tighter read) lexemes rest) :
    Carried place (.operand level read) lexemes rest := by
  intro scanned
  rcases inner scanned with ⟨front, rfl, left, carries⟩
  refine ⟨front, rfl, left, carries.some, fun more calm => .tighter below (carries.carry more calm),
    fun tight {rest' tail} joined => ?_⟩
  have multiplicative : tighter = .multiplicative := by
    rcases tight with rfl | rfl <;> cases below
    rfl
  rcases carries.joins multiplicative joined with ⟨last, ends, _, reads⟩
  exact ⟨last, ends, _, .tighter below reads⟩

theorem Grammar.Carried.tightest {level : Level} {read : Expression} (below : level.tighter = none)
    (inner : Carried place (.unary read) lexemes rest) :
    Carried place (.operand level read) lexemes rest := by
  intro scanned
  rcases inner scanned with ⟨front, rfl, left, carries⟩
  refine ⟨front, rfl, left, carries.some, fun more calm => .tightest below (carries.carry more calm),
    fun _ {rest' tail} joined => ?_⟩
  rcases carries.joins trivial joined with ⟨last, ends, _, reads⟩
  exact ⟨last, ends, _, .tightest below reads⟩

theorem Grammar.Carried.not {operand : Expression} (bang : peek lexemes = .bang)
    (inner : Carried place (.unary operand) (advance lexemes) rest) :
    Carried place (.unary (.not operand)) lexemes rest := by
  intro scanned
  rcases inner.behind (ne_finish_of_peek bang (by simp)) scanned with
    ⟨sign, front, rfl, left, carries⟩
  have build {read : Expression} {start last : List Lexeme} (more : start ≠ [])
      (reads : Reads place (.unary read) start last) :
      Reads place (.unary (.not read)) (sign :: start) last := .not bang (reads.pass more sign)
  refine ⟨sign :: front, rfl, left, fun _ => List.cons_ne_nil _ _,
    fun more calm => build (by simp [more]) (carries.carry more calm),
    fun _ {rest' tail} joined => ?_⟩
  rcases carries.joins trivial joined with ⟨last, ends, _, reads⟩
  exact ⟨last, ends, _, build (by simp [joined.more']) reads⟩

theorem Grammar.Carried.negative {value : Int64} (minus : peek lexemes = .minus)
    (number : peek (advance lexemes) = .integer value)
    (touches : adjacent (advance lexemes) = true) :
    Carried place (.unary (.integer (-value))) lexemes (advance (advance lexemes)) := by
  intro scanned
  rcases scanned.split (ne_finish_of_peek minus (by simp)) with ⟨sign, _, rfl, left⟩
  rw [advance_cons left.more] at number touches ⊢
  rcases left.split (ne_finish_of_peek number (by simp)) with ⟨digits, _, rfl, left'⟩
  rw [advance_cons left'.more]
  have build {rest' : List Lexeme} (more : rest' ≠ []) :
      Reads place (.unary (.integer (-value))) (sign :: digits :: rest') rest' := by
    have reads : Reads place (.unary (.integer (-value))) (sign :: digits :: rest') _ :=
      .negative minus number touches
    rwa [advance_cons (List.cons_ne_nil _ _), advance_cons more] at reads
  exact ⟨[sign, digits], rfl, left', fun _ => List.cons_ne_nil _ _, fun more _ => build more,
    fun _ _ _ joined => ⟨_, .inl rfl, _, build joined.more'⟩⟩

theorem Grammar.Carried.minus {operand : Expression} (minus : peek lexemes = .minus)
    (number : ¬ startsNegative lexemes)
    (inner : Carried place (.unary operand) (advance lexemes) rest) :
    Carried place (.unary (.binary .subtract (.integer 0) operand)) lexemes rest := by
  intro scanned
  rcases inner.behind (ne_finish_of_peek minus (by simp)) scanned with
    ⟨sign, front, rfl, left, carries⟩
  -- The sign of no integer here is the sign of none there: the token behind it is the same one.
  have build {read : Expression} {start last : List Lexeme} (more : start ≠ [])
      (calm : Calm (front ++ rest) start) (reads : Reads place (.unary read) start last) :
      Reads place (.unary (.binary .subtract (.integer 0) read)) (sign :: start) last :=
    .minus minus (fun again => number (calm.startsNegative (by simp [left.more]) more again))
      (reads.pass more sign)
  refine ⟨sign :: front, rfl, left, fun _ => List.cons_ne_nil _ _, fun more calm => ?_,
    fun _ {rest' tail} joined => ?_⟩
  · exact build (by simp [more]) (Calm.append calm left.more more front) (carries.carry more calm)
  · have calm := joined.calm (carries.some Nat.zero_lt_one)
    rcases carries.joins trivial joined with ⟨last, ends, _, reads⟩
    exact ⟨last, ends, _, build (by simp [joined.more']) calm reads⟩

theorem Grammar.Carried.applied {middle : List Lexeme} {function read : Expression}
    (bang : peek lexemes ≠ .bang) (minus : peek lexemes ≠ .minus)
    (first : Carried place (.primary function) lexemes middle)
    (others : Carried place (.calls function read) middle rest) :
    Carried place (.unary read) lexemes rest := by
  intro scanned
  rcases first scanned with ⟨front, rfl, left, primary⟩
  rcases others left with ⟨front', rfl, left', following⟩
  obtain ⟨start, front, rfl⟩ := List.exists_cons_of_ne_nil (primary.some Nat.zero_lt_one)
  refine ⟨start :: front ++ front', by simp, left', fun _ => by simp, fun more calm => ?_,
    fun _ {rest' tail} joined => ?_⟩
  · rw [List.append_assoc]
    exact .applied bang minus (primary.carry (by simp [more])
      (Calm.append calm left'.more more front')) (following.carry more calm)
  · rw [List.append_assoc]
    rcases List.eq_nil_or_concat' front' with rfl | ⟨_, _, rfl⟩
    · rcases primary.joins trivial joined with ⟨last, ends, _, reads⟩
      exact ⟨last, ends, _, .applied bang minus reads (.callsOver (joined.call ends))⟩
    · have first := primary.carry (by simp) (joined.calm (by simp))
      rcases following.joins trivial joined with ⟨last, ends, _, reads⟩
      exact ⟨last, ends, _, .applied bang minus first reads⟩

theorem Grammar.Carried.called {middle : List Lexeme} {function read : Expression}
    {list : List Expression} (parenthesis : peek lexemes = .leftParenthesis)
    (touches : adjacent lexemes = true)
    (inside : Carried place (.separated .arguments list) (advance lexemes) middle)
    (others : Carried place (.calls (.call function list) read) middle rest) :
    Carried place (.calls function read) lexemes rest := by
  intro scanned
  rcases inside.behind (ne_finish_of_peek parenthesis (by simp)) scanned with
    ⟨sign, front, rfl, left, arguments⟩
  rcases others left with ⟨front', rfl, left, following⟩
  have build {read : Expression} {start last : List Lexeme} (more : start ≠ [])
      (others : Reads place (.calls (.call function list) read) start last) :
      Reads place (.calls function read) (sign :: (front ++ start)) last :=
    .called parenthesis touches ((arguments.carry more trivial).pass (by simp [more]) sign) others
  refine ⟨sign :: (front ++ front'), by simp, left, fun _ => List.cons_ne_nil _ _,
    fun more calm => ?_, fun _ {rest' tail} joined => ?_⟩
  · rw [List.cons_append, List.append_assoc]
    exact build (by simp [more]) (following.carry more calm)
  · rw [List.cons_append, List.append_assoc]
    rcases following.joins trivial joined with ⟨last, ends, _, reads⟩
    exact ⟨last, ends, _, build (by simp [joined.more']) reads⟩

theorem Grammar.Carried.nothing {enclosure : Enclosure} (close : peek lexemes = enclosure.close) :
    Carried place (.separated enclosure []) lexemes (advance lexemes) := by
  intro scanned
  rcases scanned.split (ne_finish_of_peek close enclosure.close_ne_finish) with
    ⟨sign, _, rfl, left⟩
  rw [advance_cons left.more]
  refine ⟨[sign], rfl, left, fun _ => List.cons_ne_nil _ _, fun {rest'} more _ => ?_, nofun⟩
  have reads : Reads place (.separated enclosure []) (sign :: rest') _ := .nothing close
  rwa [advance_cons more] at reads

theorem Grammar.Carried.something {enclosure : Enclosure} {read : List Expression}
    (close : peek lexemes ≠ enclosure.close)
    (inner : Carried place (.entries enclosure read) lexemes rest) :
    Carried place (.separated enclosure read) lexemes rest := by
  intro scanned
  rcases inner scanned with ⟨front, rfl, left, carries⟩
  obtain ⟨first, front, rfl⟩ := List.exists_cons_of_ne_nil (carries.some Nat.zero_lt_one)
  exact ⟨first :: front, rfl, left, carries.some,
    fun more _ => .something close (carries.carry more trivial), nofun⟩

theorem Grammar.Carried.last {enclosure : Enclosure} {entry : Expression}
    (close : peek rest = enclosure.close)
    (inner : Carried place (.expression entry) lexemes rest) :
    Carried place (.entries enclosure [entry]) lexemes (advance rest) := by
  intro scanned
  rcases inner scanned with ⟨front, rfl, left, carries⟩
  rcases left.split (ne_finish_of_peek close enclosure.close_ne_finish) with ⟨sign, _, rfl, left'⟩
  rw [advance_cons left'.more]
  refine ⟨front ++ [sign], by simp, left', fun _ => by simp, fun {rest'} more _ => ?_, nofun⟩
  have inside := carries.carry (List.cons_ne_nil sign rest') (.head close enclosure.close_ne_dot)
  have reads : Reads place (.entries enclosure [entry]) (front ++ sign :: rest') _ :=
    .last inside close
  rw [advance_cons more] at reads
  rwa [List.append_assoc]

theorem Grammar.Carried.more {middle : List Lexeme} {enclosure : Enclosure} {entry : Expression}
    {entries : List Expression} (comma : peek middle = .comma)
    (first : Carried place (.expression entry) lexemes middle)
    (others : Carried place (.entries enclosure entries) (advance middle) rest) :
    Carried place (.entries enclosure (entry :: entries)) lexemes rest := by
  intro scanned
  rcases first scanned with ⟨front, rfl, left, entry⟩
  rcases others.behind (ne_finish_of_peek comma (by simp)) left with
    ⟨sign, front', rfl, left, following⟩
  refine ⟨front ++ sign :: front', by simp, left, fun _ => by simp, fun {rest'} more _ => ?_, nofun⟩
  rw [List.append_assoc]
  exact .more (entry.carry (List.cons_ne_nil sign (front' ++ rest')) (.head comma (by simp)))
    comma ((following.carry more trivial).pass (by simp [more]) sign)

/-- A primary of one lexeme. -/
theorem Grammar.Carried.single {read : Expression} {token : Token} (found : peek lexemes = token)
    (goes : token ≠ .finish)
    (reads : ∀ {lexemes}, peek lexemes = token →
      Reads place (.primary read) lexemes (advance lexemes)) :
    Carried place (.primary read) lexemes (advance lexemes) := by
  intro scanned
  rcases scanned.split (ne_finish_of_peek found goes) with ⟨first, behind, rfl, left⟩
  rw [advance_cons left.more]
  refine ⟨[first], rfl, left, .closed (List.cons_ne_nil first []) fun {rest'} more => ?_⟩
  have whole : Reads place (.primary read) (first :: rest') _ := reads found
  rwa [advance_cons more] at whole

theorem Grammar.Carried.group {inner : Expression} (parenthesis : peek lexemes = .leftParenthesis)
    (close : peek rest = .rightParenthesis)
    (within : Carried place (.expression inner) (advance lexemes) rest) :
    Carried place (.primary (.group inner)) lexemes (advance rest) := by
  intro scanned
  rcases within.behind (ne_finish_of_peek parenthesis (by simp)) scanned with
    ⟨sign, front, rfl, left, carries⟩
  rcases left.split (ne_finish_of_peek close (by simp)) with ⟨sign', _, rfl, left'⟩
  rw [advance_cons left'.more]
  refine ⟨sign :: (front ++ [sign']), by simp, left',
    .closed (List.cons_ne_nil _ _) fun {rest'} more => ?_⟩
  have inside := carries.carry (List.cons_ne_nil sign' rest') (.head close (by simp))
  have reads : Reads place (.primary (.group inner)) (sign :: (front ++ sign' :: rest')) _ :=
    .group parenthesis (inside.pass (by simp) sign) close
  rw [advance_cons more] at reads
  rwa [List.cons_append, List.append_assoc]

theorem Grammar.Carried.list {entries : List Expression} (bracket : peek lexemes = .leftBracket)
    (inside : Carried place (.separated .entries entries) (advance lexemes) rest) :
    Carried place (.primary (.list entries)) lexemes rest := by
  intro scanned
  rcases inside.behind (ne_finish_of_peek bracket (by simp)) scanned with
    ⟨sign, front, rfl, left, entries⟩
  exact ⟨sign :: front, rfl, left, .closed (List.cons_ne_nil _ _) fun more =>
    .list bracket ((entries.carry more trivial).pass (by simp [more]) sign)⟩

/-- A primary that ends with a path. What its reading looks at behind the first key of the path is
the same before other lexemes. -/
theorem Grammar.Path.carries {path : List String} (read : List String → Expression)
    (before : List Lexeme) (steps : Path path lexemes rest) (scanned : Scanned lexemes)
    (reads : ∀ {first front path rest' last}, lexemes = first :: front ++ rest → rest ≠ [] →
      rest' ≠ [] → Quiet (front ++ rest) (front ++ rest') → Path path (first :: front ++ rest') last →
      Reads place (.primary (read path)) (before ++ (first :: front ++ rest')) last) :
    ∃ front, before ++ lexemes = front ++ rest ∧ Scanned rest ∧
      Carries place (.primary (read path)) front rest := by
  rcases steps.carried scanned with ⟨front, rfl, some, left, calm, joins⟩
  obtain ⟨first, front, rfl⟩ := List.exists_cons_of_ne_nil some
  refine ⟨before ++ first :: front, by simp, left, fun _ => by simp, fun more calmly => ?_,
    fun _ {rest' tail} joined => ?_⟩
  · rw [List.append_assoc]
    exact reads rfl left.more more (Calm.append calmly left.more more front).toQuiet (calm more calmly)
  · rcases joins joined with ⟨path, steps⟩
    rw [List.append_assoc]
    exact ⟨_, .inr rfl, _, reads rfl left.more joined.more' (joined.append_quiet front) steps⟩

theorem Grammar.Carried.root {path : List String} (dot : peek lexemes = .dot)
    (touches : adjacent (advance lexemes) = true) (steps : Path path (advance lexemes) rest) :
    Carried place (.primary (.reference ("" :: path))) lexemes rest := by
  intro scanned
  rcases scanned.split (ne_finish_of_peek dot (by simp)) with ⟨sign, _, rfl, left⟩
  rw [advance_cons left.more] at touches steps
  refine steps.carries (fun path => .reference ("" :: path)) [sign] left ?_
  rintro first front path rest' last rfl - - - steps
  exact .root dot touches steps

/-- No function ends before a dot: its body would go on with it. -/
theorem Grammar.Carried.lambda {read : Expression} (starts : startsLambda lexemes)
    (reads : Reads place (.lambda read) (advance lexemes) rest)
    (inner : Carried place (.lambda read) (advance lexemes) rest) :
    Carried place (.primary read) lexemes rest := by
  intro scanned
  have shaped := reads.shaped scanned.advance
  rcases inner.behind (ne_finish_of_peek starts.1 (by simp)) scanned with
    ⟨sign, front, rfl, left, carries⟩
  refine ⟨sign :: front, rfl, left, fun _ => List.cons_ne_nil _ _, fun more calm => ?_,
    fun _ {rest' tail} joined => ?_⟩
  · have next := carries.carry more calm
    obtain ⟨first, front, rfl⟩ := List.exists_cons_of_ne_nil (carries.some Nat.zero_lt_one)
    exact .lambda starts next
  · rcases shaped with ⟨formed, parameters, body, rfl⟩
    have halt := (formed.before.body rfl).sign .additive (by decide)
    rw [joined.here] at halt
    cases halt

theorem Grammar.Carried.mapping {read : Expression} (starts : startsMapping lexemes)
    (inner : Carried place (.mapping read) (advance (advance lexemes)) rest) :
    Carried place (.primary read) lexemes rest := by
  intro scanned
  rcases scanned.split (ne_finish_of_peek starts.1 (by simp)) with ⟨sign, _, rfl, left⟩
  have bracket := starts.2.1
  rw [advance_cons left.more] at bracket inner
  rcases inner.behind (ne_finish_of_peek bracket (by simp)) left with
    ⟨sign', front, rfl, left, carries⟩
  refine ⟨sign :: sign' :: front, rfl, left, .closed (List.cons_ne_nil _ _) fun more => ?_⟩
  exact .mapping starts ((carries.carry more trivial).pass (by simp [more]) sign')

theorem Grammar.Carried.reference {name : String} {path : List String}
    (word : peek lexemes = .identifier name) (free : name ∉ reserved)
    (lambda : ¬ startsLambda lexemes) (mapping : ¬ startsMapping lexemes)
    (steps : Path path lexemes rest) :
    Carried place (.primary (.reference path)) lexemes rest := by
  intro scanned
  refine steps.carries (fun path => .reference path) [] scanned ?_
  rintro first front path rest' last rfl here there quiet steps
  exact .reference word free
    (fun again => lambda (quiet.startsLambda (by simp [here]) (by simp [there]) again))
    (fun again => mapping (quiet.startsMapping (by simp [here]) (by simp [there]) again)) steps

theorem Grammar.Carried.bare {body : Expression} (bars : peek lexemes = .fallback)
    (arrow : peek (advance lexemes) = .arrow)
    (inner : Carried place (.expression body) (advance (advance lexemes)) rest) :
    Carried place (.lambda (.lambda [] body)) lexemes rest := by
  intro scanned
  rcases scanned.split (ne_finish_of_peek bars (by simp)) with ⟨sign, _, rfl, left⟩
  rw [advance_cons left.more] at arrow inner
  rcases inner.behind (ne_finish_of_peek arrow (by simp)) left with
    ⟨sign', front, rfl, left, carries⟩
  refine ⟨sign :: sign' :: front, rfl, left, fun _ => List.cons_ne_nil _ _,
    fun more calm => ?_, nofun⟩
  exact .bare bars arrow ((carries.carry more calm).pass (by simp [more]) sign')

theorem Grammar.Carried.named {middle : List Lexeme} {parameters : List String} {body : Expression}
    (bar : peek lexemes = .pipe) (names : Parameters parameters (advance lexemes) middle)
    (arrow : peek middle = .arrow)
    (inner : Carried place (.expression body) (advance middle) rest) :
    Carried place (.lambda (.lambda parameters body)) lexemes rest := by
  intro scanned
  rcases scanned.split (ne_finish_of_peek bar (by simp)) with ⟨sign, _, rfl, left⟩
  rw [advance_cons left.more] at names
  rcases names.carried left with ⟨front, rfl, _, left, carry⟩
  rcases inner.behind (ne_finish_of_peek arrow (by simp)) left with
    ⟨sign', front', rfl, left, carries⟩
  refine ⟨sign :: (front ++ sign' :: front'), by simp, left, fun _ => List.cons_ne_nil _ _,
    fun {rest'} more calm => ?_, nofun⟩
  have names : Parameters parameters (advance (sign :: (front ++ sign' :: (front' ++ rest'))))
      (sign' :: (front' ++ rest')) := by
    rw [advance_cons (by simp)]
    exact carry (List.cons_ne_nil _ _)
  have arrow : peek (sign' :: (front' ++ rest')) = .arrow := arrow
  rw [List.cons_append, List.append_assoc, List.cons_append]
  exact .named bar names arrow ((carries.carry more calm).pass (by simp [more]) sign')

theorem Grammar.Carried.mappingOf {middle : List Lexeme} {collection function : Expression}
    (bar : peek middle = .pipe) (close : peek rest = .rightBracket)
    (first : Carried place (.expression collection) lexemes middle)
    (second : Carried place (.mapped function) (advance middle) rest) :
    Carried place (.mapping (.mapping collection function)) lexemes (advance rest) := by
  intro scanned
  rcases first scanned with ⟨front, rfl, left, collection⟩
  rcases second.behind (ne_finish_of_peek bar (by simp)) left with
    ⟨sign, front', rfl, left, function⟩
  rcases left.split (ne_finish_of_peek close (by simp)) with ⟨sign', _, rfl, left'⟩
  rw [advance_cons left'.more]
  refine ⟨front ++ sign :: (front' ++ [sign']), by simp, left', fun _ => by simp,
    fun {rest'} more _ => ?_, nofun⟩
  have second := function.carry (List.cons_ne_nil sign' rest') ⟨close, .head close (by simp)⟩
  have first := collection.carry (List.cons_ne_nil sign (front' ++ sign' :: rest'))
    (.head bar (by simp))
  have reads := Grammar.Reads.mappingOf first bar (second.pass (by simp) sign) close
  rw [advance_cons more] at reads
  simpa using reads

theorem Grammar.Carried.short {middle : List Lexeme} {parameters : List String} {body : Expression}
    (names : Parameters parameters lexemes middle) (arrow : peek middle = .arrow)
    (inner : Carried place (.expression body) (advance middle) rest) :
    Carried place (.mapped (.lambda parameters body)) lexemes rest := by
  intro scanned
  rcases names.carried scanned with ⟨front, rfl, some, left, carry⟩
  rcases inner.behind (ne_finish_of_peek arrow (by simp)) left with
    ⟨sign, front', rfl, left, carries⟩
  refine ⟨front ++ sign :: front', by simp, left, fun _ => by simp,
    fun {rest'} more calm => ?_, nofun⟩
  have names := carry (List.cons_ne_nil sign (front' ++ rest'))
  have arrow : peek (sign :: (front' ++ rest')) = .arrow := arrow
  rw [List.append_assoc, List.cons_append]
  exact .short names arrow ((carries.carry more calm.2).pass (by simp [more]) sign)

/-- Before another bracket a mapped expression is no parameter list either: a list that were one
there would be one here, since it has no bracket in it. -/
theorem Grammar.Carried.full {read : Expression}
    (names : ∀ parameters middle, Parameters parameters lexemes middle → peek middle ≠ .arrow)
    (inner : Carried place (.expression read) lexemes rest) :
    Carried place (.mapped read) lexemes rest := by
  intro scanned
  rcases inner scanned with ⟨front, rfl, left, carries⟩
  refine ⟨front, rfl, left, carries.some, fun {rest'} more calm => ?_, nofun⟩
  refine .full (fun parameters middle found arrow => ?_) (carries.carry more calm.2)
  rcases found.within rfl more (by simp [calm.1]) (by simp [calm.1]) (by simp [calm.1]) with
    ⟨front', rfl, back⟩
  cases front' with
  | nil => cases calm.1.symm.trans arrow
  | cons first front' => exact names _ _ (back left.more) arrow

/-- A merge of another path. The word `replace` before the path is none of its keys. -/
theorem Grammar.Carried.redirected {path : List String} {name : String}
    (word : peek lexemes = .identifier "merge")
    (key : peek (behindReplace (advance lexemes)) = .identifier name)
    (steps : Path path (behindReplace (advance lexemes)) rest) :
    Carried place
      (.primary (.merge path true (decide (peek (advance lexemes) = .identifier "replace"))))
      lexemes rest := by
  intro scanned
  rcases scanned.split (ne_finish_of_peek word (by simp)) with ⟨sign, behind, rfl, left⟩
  rw [advance_cons left.more] at key steps ⊢
  by_cases replacing : peek behind = .identifier "replace"
  · rcases left.split (ne_finish_of_peek replacing (by simp)) with ⟨sign', _, rfl, left'⟩
    rw [behindReplace, if_pos replacing, advance_cons left'.more] at key steps
    refine steps.carries (fun path => .merge path true _) [sign, sign'] left' ?_
    rintro first front path rest' last rfl - - - steps
    have skip : behindReplace (sign' :: (first :: front ++ rest')) = first :: front ++ rest' :=
      if_pos replacing
    exact .mergedPath word (List.cons_ne_nil _ _) skip key steps
  · rw [behindReplace, if_neg replacing] at key steps
    refine steps.carries (fun path => .merge path true _) [sign] left ?_
    rintro first front path rest' last rfl - - - steps
    have skip : behindReplace (first :: front ++ rest') = first :: front ++ rest' :=
      if_neg replacing
    exact .mergedPath word (List.cons_ne_nil _ _) skip key steps

/-- A merge of the place. It looks at the token behind it, which may be the word `replace` or the
start of a path. -/
theorem Grammar.Carried.merge (word : peek lexemes = .identifier "merge")
    (key : ∀ name, peek (behindReplace (advance lexemes)) ≠ .identifier name) :
    Carried place
      (.primary (.merge place false (decide (peek (advance lexemes) = .identifier "replace"))))
      lexemes (behindReplace (advance lexemes)) := by
  intro scanned
  rcases scanned.split (ne_finish_of_peek word (by simp)) with ⟨sign, rest, rfl, left⟩
  rw [advance_cons left.more] at key ⊢
  have unnamed {rest rest' : List Lexeme} (quiet : Quiet rest rest')
      (key : ∀ name, peek rest ≠ .identifier name) (name : String) :
      peek rest' ≠ .identifier name := quiet.token ▸ key name
  by_cases replacing : peek rest = .identifier "replace"
  · rcases left.split (ne_finish_of_peek replacing (by simp)) with ⟨sign', rest, rfl, left'⟩
    rw [behindReplace, if_pos replacing, advance_cons left'.more] at key ⊢
    have build {rest' : List Lexeme} (more : rest' ≠ []) (quiet : Quiet rest rest') :
        Reads place
          (.primary (.merge place false (decide (sign'.token = .identifier "replace"))))
          (sign :: sign' :: rest') rest' := by
      have skip : behindReplace (sign' :: rest') = rest' :=
        (if_pos replacing).trans (advance_cons more sign')
      exact .mergedHere word (List.cons_ne_nil sign' rest') skip (unnamed quiet key)
    exact ⟨[sign, sign'], rfl, left', fun _ => List.cons_ne_nil _ _,
      fun more calm => build more calm.toQuiet,
      fun _ _ _ joined => ⟨_, .inl rfl, _, build joined.more' joined.quiet⟩⟩
  · rw [behindReplace, if_neg replacing] at key ⊢
    have build {rest' : List Lexeme} (more : rest' ≠ []) (quiet : Quiet rest rest') :
        Reads place
          (.primary (.merge place false (decide (peek rest = .identifier "replace"))))
          (sign :: rest') rest' := by
      have plain : peek rest' ≠ .identifier "replace" := unnamed quiet key "replace"
      have reads : Reads place
          (.primary (.merge place false (decide (peek rest' = .identifier "replace"))))
          (sign :: rest') rest' :=
        .mergedHere word more (if_neg plain) (unnamed quiet key)
      rw [decide_eq_false plain] at reads
      rwa [decide_eq_false replacing]
    exact ⟨[sign], rfl, left, fun _ => List.cons_ne_nil _ _,
      fun more calm => build more calm.toQuiet,
      fun _ _ _ joined => ⟨_, .inl rfl, _, build joined.more' joined.quiet⟩⟩

/-- What the grammar reads before some lexemes it reads before others too. -/
theorem Grammar.Reads.carried {phrase : Phrase} (reads : Reads place phrase lexemes rest) :
    Carried place phrase lexemes rest := by
  induction reads with
  | preferred starts _ inner => exact .preferred starts inner
  | expression starts _ inner => exact .expression starts inner
  | conditional _ question _ colon _ first second third =>
      exact .conditional question colon first second third
  | unconditional _ question inner =>
      intro scanned
      rcases inner scanned with ⟨front, rfl, left, carries⟩
      refine ⟨front, rfl, left, carries.some, fun more calm => ?_, nofun⟩
      exact .unconditional (carries.carry more calm) (calm.token ▸ question)
  | chain _ _ first others => exact .chain first others
  | chainOver halt =>
      refine fun scanned => ⟨[], rfl, scanned, nofun,
        fun more calm => .chainOver (calm.token ▸ halt), ?_⟩
      rintro rfl rest' tail joined
      exact ⟨_, .inl rfl, _, .chainOver (joined.operator? (.inl rfl))⟩
  | @chainMore _ _ _ _ operator _ _ _ sign _ _ next others =>
      by_cases joint : operator = .concatenation
      · cases joint
        exact .chainJoint sign next others
      · rw [if_neg joint] at next
        exact .chainSigned sign joint next others
  | tighter below _ inner => exact .tighter below inner
  | tightest below _ inner => exact .tightest below inner
  | not bang _ inner => exact .not bang inner
  | negative minus number touches => exact .negative minus number touches
  | minus minus number _ inner => exact .minus minus number inner
  | applied bang minus _ _ first others => exact .applied bang minus first others
  | called parenthesis touches _ _ inside others =>
      exact .called parenthesis touches inside others
  | callsOver halt =>
      exact fun scanned => ⟨[], rfl, scanned, nofun,
        fun more calm => .callsOver fun again => halt (calm.call again),
        fun _ _ _ joined => ⟨_, .inl rfl, _, .callsOver (joined.call (.inl rfl))⟩⟩
  | nothing close => exact .nothing close
  | something close _ inner => exact .something close inner
  | last _ close inner => exact .last close inner
  | more _ comma _ first others => exact .more comma first others
  | integer number => exact .single number (by simp) .integer
  | text literal => exact .single literal (by simp) .text
  | group parenthesis _ close within => exact .group parenthesis close within
  | list bracket _ inside => exact .list bracket inside
  | root dot touches steps => exact .root dot touches steps
  | nil word => exact .single word (by simp) .nil
  | yes word => exact .single word (by simp) .yes
  | no word => exact .single word (by simp) .no
  | auto word => exact .single word (by simp) .auto
  | lambda starts reads inner => exact .lambda starts reads inner
  | mapping starts _ inner => exact .mapping starts inner
  | reference word free lambda mapping steps =>
      exact .reference word free lambda mapping steps
  | bare bars arrow _ inner => exact .bare bars arrow inner
  | named bar names arrow _ inner => exact .named bar names arrow inner
  | mappingOf _ bar _ close first second => exact .mappingOf bar close first second
  | short names arrow _ inner => exact .short names arrow inner
  | full names _ inner => exact .full names inner
  | redirected word key steps => exact .redirected word key steps
  | merge word key => exact .merge word key

/-! ## What is left -/

/-- These lexemes are left of the others. -/
structure Lexemes.Leaves (lexemes rest : List Lexeme) : Prop where
  suffix : rest <:+ lexemes
  scanned : Scanned rest

namespace Lexemes.Leaves

variable {place : List String} {lexemes middle rest : List Lexeme}

theorem refl (scanned : Scanned lexemes) : Leaves lexemes lexemes := ⟨List.suffix_refl _, scanned⟩

theorem trans (first : Leaves lexemes middle) (second : Leaves middle rest) :
    Leaves lexemes rest :=
  ⟨second.suffix.trans first.suffix, second.scanned⟩

theorem step (leaves : Leaves lexemes rest) : Leaves lexemes (advance rest) := by
  refine ⟨.trans ?_ leaves.suffix, leaves.scanned.advance⟩
  match rest with
  | [] | [_] => exact List.suffix_refl _
  | first :: next :: rest => exact List.suffix_cons first _

theorem reads {phrase : Phrase} (leaves : Leaves lexemes middle)
    (reads : Reads place phrase middle rest) : Leaves lexemes rest := by
  rcases reads.carried leaves.scanned with ⟨front, rfl, scanned, -⟩
  exact ⟨.trans ⟨front, rfl⟩ leaves.suffix, scanned⟩

theorem parameters {names : List String} (leaves : Leaves lexemes middle)
    (reads : Parameters names middle rest) : Leaves lexemes rest := by
  rcases reads.carried leaves.scanned with ⟨front, rfl, -, scanned, -⟩
  exact ⟨.trans ⟨front, rfl⟩ leaves.suffix, scanned⟩

theorem key {afterDot : Bool} {step : String} (leaves : Leaves lexemes middle)
    (ends : parseKey afterDot middle = .ok (step, rest)) : Leaves lexemes rest := by
  rcases parseKey_carried leaves.scanned ends with ⟨front, rfl, -, scanned, -⟩
  exact ⟨.trans ⟨front, rfl⟩ leaves.suffix, scanned⟩

theorem index {step : String} (leaves : Leaves lexemes middle)
    (ends : parseIndex middle = .ok (step, rest)) : Leaves lexemes rest := by
  rcases parseIndex_carried leaves.scanned ends with ⟨front, rfl, -, scanned, -⟩
  exact ⟨.trans ⟨front, rfl⟩ leaves.suffix, scanned⟩

theorem behindReplace (leaves : Leaves lexemes rest) :
    Leaves lexemes (Grammar.behindReplace rest) := by
  unfold Grammar.behindReplace
  split
  · exact leaves.step
  · exact leaves

end Lexemes.Leaves

namespace Grammar

variable {place : List String} {part inner : Part} {lexemes rest : List Lexeme} {fault : ParseFault}

theorem Enters.leaves (enters : Enters place part lexemes inner rest) (scanned : Scanned lexemes) :
    Leaves lexemes rest := by
  have here := Leaves.refl scanned
  cases enters with
  | preferred | not | minus | arguments | group | list | root | lambda | names | dot | bracket
  | keyIndex => exact here.step
  | expression | condition | first | tighter | tightest | function | something | entry | reference
  | collection | full | step => exact here
  | consequence first => exact (here.reads first).step
  | alternative first _ second => exact ((here.reads first).step.reads second).step
  | chain first | applied _ _ first => exact here.reads first
  | right => split <;> [exact here; exact here.step]
  | chainMore _ next =>
      split at next
      · exact here.reads next
      · exact here.step.reads next
  | called _ _ inside => exact here.step.reads inside
  | more first | mapped first => exact (here.reads first).step
  | redirected => exact here.step.behindReplace
  | mapping | bare | name => exact here.step.step
  | named _ names => exact (here.step.parameters names).step
  | short names => exact (here.parameters names).step
  | steps first => exact here.key first
  | behindKey _ _ _ first => exact here.step.key first
  | behindIndex _ _ first => exact here.step.index first

theorem Misses.leaves (misses : Misses place part lexemes fault rest) (scanned : Scanned lexemes) :
    Leaves lexemes rest := by
  have here := Leaves.refl scanned
  cases misses with
  | operand | bar | number | key | parameter => exact here
  | rootKey | bareArrow | indexBracket | separator => exact here.step
  | colon first _ second => exact (here.reads first).step.reads second
  | comma first | mappingBar first => exact here.reads first
  | parenthesis _ first => exact here.step.reads first
  | namedArrow _ names => exact here.step.parameters names
  | mappingBracket first _ second => exact (here.reads first).step.reads second

theorem Refuses.leaves (refuses : Refuses place part lexemes fault rest)
    (scanned : Scanned lexemes) : Leaves lexemes rest := by
  induction refuses with
  | here misses => exact misses.leaves scanned
  | inside enters _ induction =>
      have leaves := enters.leaves scanned
      exact leaves.trans (induction leaves.scanned)

end Grammar

end Stencil
