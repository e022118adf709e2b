import Stencil.Proofs.Expression.Layers

namespace Stencil

open Lexemes Lexeme Grammar

/-! The grammar reads legible expressions only, and well-layered ones only but for two
abbreviations: a minus sign before an operand, and a mapping with a function that has no
parameters. -/

variable {place : List String} {lexemes rest : List Lexeme}

/-! ## Scanned lexemes -/

namespace Lexemes.Scanned

theorem name (scanned : Scanned lexemes) {name : String}
    (word : Lexemes.peek lexemes = .identifier name) : isName name = true := by
  have writable := scanned.isWritable (by rw [word]; exact nofun)
  rwa [word] at writable

theorem integer (scanned : Scanned lexemes) {value : Int64}
    (number : Lexemes.peek lexemes = .integer value) : 0 ≤ value.toInt := by
  have writable := scanned.isWritable (by rw [number]; exact nofun)
  rwa [number] at writable

/-- The operand behind an operator starts behind its sign, if it has one. -/
theorem operand {operator : Operator} (scanned : Scanned lexemes) :
    Scanned (if operator = .concatenation then lexemes else Lexemes.advance lexemes) := by
  split
  · exact scanned
  · exact scanned.advance

end Lexemes.Scanned

theorem parseIndex_legible {step : String} (scanned : Scanned lexemes)
    (ends : parseIndex lexemes = .ok (step, rest)) : isStep step ∧ Scanned rest := by
  unfold parseIndex at ends
  split at ends
  · rename_i index number
    rcases ok_of_bind ends with ⟨last, close, ends⟩
    rcases expect_eq_ok close with ⟨_, rfl⟩
    cases ends
    exact ⟨.inr ⟨index, scanned.integer number, rfl⟩, scanned.advance.advance⟩
  · cases ends

theorem parseKey_legible {afterDot : Bool} {step : String} (scanned : Scanned lexemes)
    (ends : parseKey afterDot lexemes = .ok (step, rest)) : isStep step ∧ Scanned rest := by
  unfold parseKey at ends
  split at ends
  · rename_i word
    cases ends
    exact ⟨.inl (scanned.name word), scanned.advance⟩
  · rename_i number
    cases ends
    exact ⟨.inr ⟨_, scanned.integer number, rfl⟩, scanned.advance⟩
  · exact parseIndex_legible scanned.advance ends
  · cases ends

theorem Grammar.Steps.legible {steps : List String} (reads : Steps steps lexemes rest)
    (scanned : Scanned lexemes) : (∀ step ∈ steps, isStep step) ∧ Scanned rest := by
  induction reads with
  | key _ _ _ first _ induction =>
      have key := parseKey_legible scanned.advance first
      have others := induction key.2
      exact ⟨List.forall_mem_cons.mpr ⟨key.1, others.1⟩, others.2⟩
  | index _ _ first _ induction =>
      have index := parseIndex_legible scanned.advance first
      have others := induction index.2
      exact ⟨List.forall_mem_cons.mpr ⟨index.1, others.1⟩, others.2⟩
  | halt => exact ⟨nofun, scanned⟩

theorem Grammar.Path.legible {path : List String} (reads : Path path lexemes rest)
    (scanned : Scanned lexemes) :
    (∃ key steps, path = key :: steps ∧ isStep key ∧ ∀ step ∈ steps, isStep step) ∧
      Scanned rest := by
  cases reads with
  | path first others =>
      have key := parseKey_legible scanned first
      have steps := others.legible key.2
      exact ⟨⟨_, _, rfl, key.1, steps.1⟩, steps.2⟩

/-- A path that starts with a word. -/
theorem Grammar.Path.of_word {path : List String} {name : String}
    (reads : Path path lexemes rest) (word : peek lexemes = .identifier name) :
    ∃ steps, path = name :: steps ∧ Steps steps (advance lexemes) rest := by
  cases reads with
  | path first others =>
      unfold parseKey at first
      rw [word] at first
      cases first
      exact ⟨_, rfl, others⟩

theorem Grammar.Parameters.legible {names : List String} (reads : Parameters names lexemes rest)
    (scanned : Scanned lexemes) :
    (∀ name ∈ names, isName name = true) ∧ names ≠ [] ∧ Scanned rest := by
  induction reads with
  | last word =>
      exact ⟨List.forall_mem_singleton.mpr (scanned.name word), List.cons_ne_nil _ _,
        scanned.advance.advance⟩
  | more word _ _ induction =>
      have others := induction scanned.advance.advance
      exact ⟨List.forall_mem_cons.mpr ⟨scanned.name word, others.1⟩, List.cons_ne_nil _ _,
        others.2.2⟩

theorem behindReplace_scanned (scanned : Scanned lexemes) : Scanned (behindReplace lexemes) := by
  unfold behindReplace
  split
  · exact scanned.advance
  · exact scanned

theorem Level.of_operator? {level : Level} {token : Token} {operator : Operator}
    (sign : level.operator? token = some operator) :
    operator.level = level ∧ (operator = .concatenation → startsOperand token = true) ∧
      (operator ≠ .concatenation → token = operator.token) := by
  unfold Level.operator? at sign
  split at sign
  case h_12 =>
    split at sign
    · rename_i operand
      cases sign
      exact ⟨rfl, fun _ => operand, fun other => absurd rfl other⟩
    · cases sign
  all_goals
    cases sign
    try exact ⟨rfl, nofun, fun _ => rfl⟩

namespace Expression

/-! ## Abbreviations -/

/-- A subtraction from zero, as which the grammar reads a minus sign before an operand. -/
def isNegation : Expression → Bool
  | .binary .subtract (.integer value) _ => value == 0
  | _ => false

mutual
/-- No abbreviation is lost in print. A negation is printed as a subtraction, which is no
operand of a tighter sign, and a lambda without parameters has no bar before it in a mapping. -/
def IsFaithful : Expression → Prop
  | .nil | .boolean _ | .integer _ | .text _ | .reference _ | .merge _ _ _ | .auto _ => True
  | .list entries => AllFaithful entries
  | .group inner | .prefer inner | .lambda _ inner => inner.IsFaithful
  | .binary operator left right =>
      left.IsFaithful ∧ right.IsFaithful ∧
        (left.isNegation = true → operator.level ≠ .multiplicative) ∧
        (right.isNegation = true → operator.level ≠ .multiplicative ∧
          operator.level ≠ .additive)
  | .not operand => operand.IsFaithful ∧ operand.isNegation = false
  | .conditional condition consequence alternative =>
      condition.IsFaithful ∧ consequence.IsFaithful ∧ alternative.IsFaithful
  | .call function arguments => function.IsFaithful ∧ AllFaithful arguments
  | .mapping collection function =>
      collection.IsFaithful ∧ function.IsFaithful ∧ ∀ body, function ≠ .lambda [] body

def AllFaithful : List Expression → Prop
  | [] => True
  | entry :: entries => entry.IsFaithful ∧ AllFaithful entries
end

/-! ## Shape -/

/-- What is read before the rest. -/
structure Formed (place : List String) (rest : List Lexeme) (read : Expression) : Prop where
  scanned : Scanned rest
  legible : read.IsLegible
  layered : read.IsFaithful → read.IsLayered place
  before : read.EndsBefore rest

/-- What is read from the lexemes, at a tier of the rank or a tighter one. Its written form
starts as they do, unless with a minus sign. -/
structure Shape (place : List String) (rank : Nat) (lexemes rest : List Lexeme)
    (read : Expression) : Prop extends Formed place rest read where
  tight : rank ≤ read.tier.rank ∨ read.isNegation = true
  first : peek lexemes ≠ .minus →
    ∃ tail, ∀ spaced, read.written spaced = sign (peek lexemes) spaced :: tail
  prefers : ∀ {after : List Lexeme}, after ≠ [] → ((peek after).starts → (peek rest).starts) →
    startsPreferred (read.written false ++ after) → startsPreferred lexemes

theorem tier_of_isNegation {expression : Expression} (negation : expression.isNegation = true) :
    expression.tier = .chain .additive := by
  unfold isNegation at negation
  split at negation
  · rfl
  · cases negation

/-- No sign of a level of the rank, or of a tighter one, is here. -/
def NoSign (rank : Nat) (lexemes : List Lexeme) : Prop :=
  ∀ level : Level, rank ≤ (Tier.chain level).rank → level.operator? (peek lexemes) = none

namespace Shape

variable {middle start : List Lexeme} {read : Expression} {rank rank' : Nat}

theorem weaken (shape : Shape place rank lexemes rest read) (less : rank' ≤ rank) :
    Shape place rank' lexemes rest read where
  toFormed := shape.toFormed
  tight := shape.tight.imp_left (Nat.le_trans less)
  first := shape.first
  prefers := shape.prefers

theorem stands (shape : Shape place rank lexemes rest read) (plain : ¬ startsPreferred lexemes) :
    read.StandsAlone := by
  refine .inr fun looks => plain ?_
  refine shape.prefers (List.cons_ne_nil _ _) ?_ looks
  rintro (starts | starts) <;> cases starts

theorem binary {level : Level} {operator : Operator} {left right : Expression}
    (sign : level.operator? (peek lexemes) = some operator)
    (first : Shape place (Tier.chain level).rank start lexemes left)
    (second : Shape place ((Tier.chain level).rank + 1)
      (if operator = .concatenation then lexemes else advance lexemes) rest right) :
    Shape place (Tier.chain level).rank start rest (.binary operator left right) := by
  rcases Level.of_operator? sign with ⟨rfl, operand, mark⟩
  have joined (faithful : (Expression.binary operator left right).IsFaithful) :
      Joined operator left right := by
    refine ⟨?_, ?_, ?_, ?_, ?_⟩
    · rcases first.tight with tight | negation
      · exact tight
      · have other := faithful.2.2.1 negation
        rw [tier_of_isNegation negation]
        revert other
        cases operator.level <;> simp [Tier.rank]
    · rcases second.tight with tight | negation
      · exact tight
      · have other := faithful.2.2.2 negation
        rw [tier_of_isNegation negation]
        revert other
        cases operator.level <;> simp [Tier.rank]
    · rw [Bool.eq_false_iff]
      intro unclosed
      have halt := (first.before.body unclosed).sign operator.level
        (by cases operator.level <;> decide)
      rw [sign] at halt
      cases halt
    · rintro rfl
      have operand := operand rfl
      rw [if_pos rfl] at second
      have other : peek lexemes ≠ .minus := by
        intro minus
        rw [minus] at operand
        cases operand
      rcases second.first other with ⟨tail, same⟩
      exact ⟨_, tail, same true, operand, first.before.merge⟩
    · rintro rfl
      rw [Bool.eq_false_iff]
      intro key
      exact (first.before.bars key).2 (mark (by simp))
  refine ⟨⟨second.scanned, ⟨first.legible, second.legible⟩, ?_, ?_⟩, ?_, ?_, ?_⟩
  · intro faithful
    exact ⟨first.layered faithful.1, second.layered faithful.2.1, joined faithful⟩
  · exact ⟨second.before.more, second.before.body, second.before.merge, second.before.bars⟩
  · exact .inl (Nat.le_refl _)
  · intro other
    rcases first.first other with ⟨tail, same⟩
    exact ⟨_, fun spaced => by rw [written, same, List.cons_append]⟩
  · intro after more _ looks
    rw [written, List.append_assoc, List.append_assoc] at looks
    refine first.prefers (by simp [written_more second.legible]) ?_ looks
    intro starts
    rw [Written.operator] at starts
    split at starts
    · rename_i concatenation
      exact .inl (operand concatenation)
    · rename_i other
      rw [mark other]
      exact starts

theorem conditional {behind : List Lexeme} {condition consequence alternative : Expression}
    (first : Shape place (Tier.chain .fallback).rank lexemes middle condition)
    (question : peek middle = .question)
    (second : Formed place behind consequence) (stands : consequence.StandsAlone)
    (third : Formed place rest alternative) (stands' : alternative.StandsAlone)
    (ends : Tier.expression.Ends rest) :
    Shape place Tier.conditional.rank lexemes rest
      (.conditional condition consequence alternative) := by
  have loose : (Tier.chain .fallback).rank ≤ condition.tier.rank := by
    rcases first.tight with tight | negation
    · exact tight
    · rw [tier_of_isNegation negation]
      decide
  have closed : condition.isOpen = false := by
    rw [Bool.eq_false_iff]
    intro unclosed
    exact (first.before.body unclosed).question (by decide) question
  refine ⟨⟨third.scanned, ⟨first.legible, second.legible, third.legible⟩, ?_, ?_⟩, ?_, ?_, ?_⟩
  · intro faithful
    exact ⟨⟨first.layered faithful.1, loose, closed⟩, ⟨second.layered faithful.2.1, stands⟩,
      ⟨third.layered faithful.2.2, stands'⟩⟩
  · exact ⟨third.before.more, fun _ => ends, third.before.merge, third.before.bars⟩
  · exact .inl (Nat.le_refl _)
  · intro other
    rcases first.first other with ⟨tail, same⟩
    exact ⟨_, fun spaced => by rw [written, same, List.cons_append]⟩
  · intro after more _ looks
    rw [written, List.append_assoc] at looks
    refine first.prefers (List.cons_ne_nil _ _) ?_ looks
    rintro (starts | starts) <;> cases starts

theorem call {function : Expression} {arguments : List Expression}
    (first : Shape place Tier.unary.rank start lexemes function)
    (callee : Tier.callee.rank ≤ function.tier.rank)
    (parenthesis : peek lexemes = .leftParenthesis) (scanned : Scanned rest)
    (legible : AllLegible arguments)
    (layered : AllFaithful arguments → AllLayered place arguments) :
    Shape place Tier.unary.rank start rest (.call function arguments) := by
  refine ⟨⟨scanned, ⟨first.legible, legible⟩, ?_, ?_⟩, ?_, ?_, ?_⟩
  · intro faithful
    exact ⟨⟨first.layered faithful.1, callee⟩, layered faithful.2⟩
  · exact .of_closed scanned.more rfl rfl rfl
  · exact .inl (Nat.le_succ _)
  · intro other
    rcases first.first other with ⟨tail, same⟩
    exact ⟨_, fun spaced => by rw [written, same, List.cons_append]⟩
  · intro after more _ looks
    rw [written, List.append_assoc] at looks
    refine first.prefers (List.cons_ne_nil _ _) ?_ looks
    intro _
    rw [parenthesis]
    exact .inl rfl

/-- What does not start with the word `prefer`. -/
theorem unmarked {token : Token} (formed : Formed place rest read) (tight : rank ≤ read.tier.rank)
    (found : peek lexemes = token) (other : token ≠ .identifier "prefer")
    (same : ∃ tail, ∀ spaced, read.written spaced = sign token spaced :: tail) :
    Shape place rank lexemes rest read := by
  rcases same with ⟨tail, same⟩
  refine ⟨formed, .inl tight, fun _ => ⟨tail, fun spaced => ?_⟩, fun {after} _ _ looks => ?_⟩
  · rw [same, found]
  · rw [same] at looks
    exact absurd looks.1 other

theorem reference {path : List String} {name : String} (scanned : Scanned lexemes)
    (word : peek lexemes = .identifier name) (free : name ∉ reserved)
    (lambda : ¬ startsLambda lexemes) (steps : Path path lexemes rest) :
    Shape place Tier.callee.rank lexemes rest (.reference path) := by
  have legible := steps.legible scanned
  rcases steps.of_word word with ⟨keys, rfl, others⟩
  have named := scanned.name word
  have keyPath : isKeyPath (name :: keys) := by
    rcases legible.1 with ⟨_, _, same, _, legible⟩
    cases same
    exact ⟨named, legible⟩
  have same (spaced : Bool) : (Expression.reference (name :: keys)).written spaced =
      sign (.identifier name) spaced :: Written.steps keys := by
    rw [written, Written.path_of_key named, Written.keys, Written.step_of_name named]
    rfl
  refine ⟨⟨legible.2, isPath_of_isKeyPath keyPath, fun _ => ?_, legible.2.more,
      (absurd · Bool.false_ne_true), (absurd · Bool.false_ne_true), ?_⟩,
    .inl (Nat.le_refl _), fun _ => ⟨Written.steps keys, fun spaced => ?_⟩, ?_⟩
  · rintro key ⟨⟩
    exact free
  · intro key
    have alone : name :: keys = ["lambda"] := by simpa [last, isLambdaKey] using key
    cases alone
    cases others with
    | halt => exact ⟨fun bar => lambda ⟨word, .inl bar⟩, fun bars => lambda ⟨word, .inr bars⟩⟩
  · rw [same, word]
  · intro after more goes looks
    rw [same] at looks
    refine ⟨word.trans looks.1, ?_⟩
    cases others with
    | key _ dot => exact .inl (by rw [dot]; rfl)
    | index _ bracket => exact .inl (by rw [bracket]; rfl)
    | halt =>
        refine goes ?_
        rw [Written.steps, List.flatMap_nil, List.cons_append, List.nil_append] at looks
        rw [← advance_cons more]
        exact looks.2

theorem prefer {inner : Expression} (starts : startsPreferred lexemes)
    (shape : Shape place Tier.conditional.rank (advance lexemes) rest inner)
    (ends : Tier.expression.Ends rest) :
    Shape place Tier.expression.rank lexemes rest (.prefer inner) := by
  have loose : Tier.conditional.rank ≤ inner.tier.rank := by
    rcases shape.tight with tight | negation
    · exact tight
    · rw [tier_of_isNegation negation]
      decide
  refine ⟨⟨shape.scanned, shape.legible, fun faithful => ⟨shape.layered faithful, loose⟩,
    shape.before.more, fun _ => ends, shape.before.merge, shape.before.bars⟩,
    .inl (Nat.le_refl _), fun _ => ⟨inner.written true, fun spaced => ?_⟩, fun _ _ _ => starts⟩
  rw [starts.1, written]

theorem not {operand : Expression} (bang : peek lexemes = .bang)
    (shape : Shape place Tier.unary.rank (advance lexemes) rest operand) :
    Shape place Tier.unary.rank lexemes rest (.not operand) := by
  have formed : Formed place rest (.not operand) := by
    refine ⟨shape.scanned, shape.legible, fun faithful => ?_, shape.before.more,
      shape.before.body, shape.before.merge, shape.before.bars⟩
    have plain := Bool.eq_false_iff.mp faithful.2
    exact ⟨shape.layered faithful.1, shape.tight.resolve_right plain⟩
  exact .unmarked formed (Nat.le_refl _) bang (by simp) ⟨operand.written false, fun _ => rfl⟩

theorem negative {value : Int64} (minus : peek lexemes = .minus) (positive : 0 ≤ value.toInt)
    (scanned : Scanned rest) : Shape place Tier.unary.rank lexemes rest (.integer (-value)) := by
  have fits : Number.minimum < value.toInt := Int.lt_of_lt_of_le (by decide) positive
  have legible : (Expression.integer (-value)).IsLegible := by
    have upper := value.toInt_lt
    rw [IsLegible, toInt_neg fits, Number.minimum]
    omega
  refine ⟨⟨scanned, legible, fun _ => trivial, .of_closed scanned.more rfl rfl rfl⟩, ?_,
    fun other => absurd minus other, ?_⟩
  · rw [tier]
    split
    · exact .inl (Nat.le_refl _)
    · exact .inl (Nat.le_succ _)
  · intro after _ _ looks
    rw [written, Written.integer] at looks
    split at looks <;> cases looks.1

theorem minus {operand : Expression} (minus : peek lexemes = .minus)
    (shape : Shape place Tier.unary.rank (advance lexemes) rest operand) :
    Shape place Tier.unary.rank lexemes rest (.binary .subtract (.integer 0) operand) := by
  have zero : Number.minimum < (0 : Int64).toInt := by decide
  refine ⟨⟨shape.scanned, ⟨zero, shape.legible⟩, fun faithful => ?_, shape.before.more,
    shape.before.body, shape.before.merge, shape.before.bars⟩, .inr rfl,
    fun other => absurd minus other, fun _ _ looks => nomatch looks.1⟩
  have tight : (Tier.chain .additive).rank < operand.tier.rank := by
    rcases shape.tight with tight | negation
    · exact Nat.lt_of_lt_of_le (by decide) tight
    · exact absurd rfl (faithful.2.2.2 negation).2
  exact ⟨trivial, shape.layered faithful.2.1, by decide, tight, rfl, by simp, by simp⟩

end Shape

/-- Only what is closed may be called. -/
def IsCallable (function : Expression) : Prop :=
  function.isOpen = false → Tier.callee.rank ≤ function.tier.rank

end Expression

open Expression

/-! ## Signs that have been looked for -/

theorem NoSign.looser {level : Level} (halt : NoSign ((Tier.chain level).rank + 1) lexemes)
    (sign : level.operator? (peek lexemes) = none) : NoSign (Tier.chain level).rank lexemes := by
  intro level' loose
  rcases Nat.eq_or_lt_of_le loose with same | less
  · cases Tier.rank_injective same
    exact sign
  · exact halt level' less

/-- Where no operator goes on, no path and no call does. -/
theorem Tier.ends_of_noSign (halt : NoSign (Tier.chain .fallback).rank lexemes)
    (question : peek lexemes ≠ .question) : Tier.expression.Ends lexemes := by
  have all (level : Level) : level.operator? (peek lexemes) = none :=
    halt level (by cases level <;> decide)
  have operand : startsOperand (peek lexemes) = true → False := by
    intro operand
    have none := all .additive
    rw [Level.operator?_of_startsOperand operand] at none
    cases none
  refine ⟨?_, ?_, fun level _ => all level, fun _ => question⟩
  · rintro ⟨_, bracket | ⟨dot, _⟩⟩
    · exact operand (by rw [bracket]; rfl)
    · exact operand (by rw [dot]; rfl)
  · rintro _ ⟨parenthesis, _⟩
    exact operand (by rw [parenthesis]; rfl)

/-! ## The grammar -/

/-- What each phrase tells about the expressions in it. -/
def Grammar.Phrase.IsShaped (place : List String) (lexemes rest : List Lexeme) : Phrase → Prop
  | .expression read =>
      Shape place Tier.expression.rank lexemes rest read ∧ read.StandsAlone ∧
        Tier.expression.Ends rest
  | .conditional read =>
      Shape place Tier.conditional.rank lexemes rest read ∧ Tier.expression.Ends rest
  | .chain level read =>
      Shape place (Tier.chain level).rank lexemes rest read ∧ NoSign (Tier.chain level).rank rest
  | .chainRest level left read =>
      ∀ start, Shape place (Tier.chain level).rank start lexemes left →
        NoSign ((Tier.chain level).rank + 1) lexemes →
          Shape place (Tier.chain level).rank start rest read ∧
            NoSign (Tier.chain level).rank rest
  | .operand level read =>
      Shape place ((Tier.chain level).rank + 1) lexemes rest read ∧
        NoSign ((Tier.chain level).rank + 1) rest
  | .unary read => Shape place Tier.unary.rank lexemes rest read
  | .calls function read =>
      ∀ start, Shape place Tier.unary.rank start lexemes function → function.IsCallable →
        Shape place Tier.unary.rank start rest read
  | .separated _ read | .entries _ read =>
      Scanned rest ∧ AllLegible read ∧ (AllFaithful read → AllLayered place read)
  | .primary read => Shape place Tier.unary.rank lexemes rest read ∧ read.IsCallable
  | .lambda read => Formed place rest read ∧ ∃ parameters body, read = .lambda parameters body
  | .mapping read =>
      Formed place rest read ∧ ∃ collection function, read = .mapping collection function
  | .mapped read => Formed place rest read ∧ read.StandsAlone

theorem shape_lambda {body : Expression} {parameters : List String}
    (named : ∀ name ∈ parameters, isName name = true) (formed : Formed place rest body)
    (stands : body.StandsAlone) (ends : Tier.expression.Ends rest) :
    Formed place rest (.lambda parameters body) where
  scanned := formed.scanned
  legible := ⟨named, formed.legible⟩
  layered faithful := ⟨formed.layered faithful, stands⟩
  before := ⟨formed.before.more, fun _ => ends, formed.before.merge, formed.before.bars⟩

theorem shape_mapping {middle : List Lexeme} {collection function : Expression}
    (first : Formed place middle collection) (stands : collection.StandsAlone)
    (bar : peek middle = .pipe) (second : Formed place rest function)
    (stands' : function.StandsAlone) : Formed place (advance rest) (.mapping collection function) where
  scanned := second.scanned.advance
  legible := ⟨first.legible, second.legible⟩
  layered faithful := by
    refine ⟨⟨first.layered faithful.1, stands, ?_⟩, second.layered faithful.2.1, stands',
      faithful.2.2⟩
    rw [Bool.eq_false_iff]
    intro key
    exact (first.before.bars key).1 bar
  before := .of_closed second.scanned.advance.more rfl rfl rfl

/-- What is closed on both sides. -/
theorem formed_closed {read : Expression} (scanned : Scanned rest) (legible : read.IsLegible)
    (layered : read.IsFaithful → read.IsLayered place) (closed : read.isOpen = false)
    (merge : read.last.isBareMerge = false) (bars : read.last.isLambdaKey = false) :
    Formed place rest read :=
  ⟨scanned, legible, layered, .of_closed scanned.more closed merge bars⟩

theorem shape_primary {read : Expression} {token : Token} (formed : Formed place rest read)
    (callee : Tier.callee.rank ≤ read.tier.rank) (found : peek lexemes = token)
    (other : token ≠ .identifier "prefer")
    (same : ∃ tail, ∀ spaced, read.written spaced = sign token spaced :: tail) :
    (Phrase.primary read).IsShaped place lexemes rest :=
  ⟨.unmarked formed (Nat.le_of_succ_le callee) found other same, fun _ => callee⟩

/-- One token that is an expression. -/
theorem shape_single {read : Expression} {token : Token} (scanned : Scanned lexemes)
    (found : peek lexemes = token) (other : token ≠ .identifier "prefer")
    (same : ∀ spaced, read.written spaced = [sign token spaced]) (legible : read.IsLegible)
    (layered : read.IsLayered place) (callee : Tier.callee.rank ≤ read.tier.rank)
    (closed : read.isOpen = false) (merge : read.last.isBareMerge = false)
    (bars : read.last.isLambdaKey = false) :
    (Phrase.primary read).IsShaped place lexemes (advance lexemes) :=
  shape_primary (formed_closed scanned.advance legible (fun _ => layered) closed merge bars)
    callee found other ⟨_, same⟩

theorem Grammar.Reads.shaped {phrase : Phrase} (reads : Reads place phrase lexemes rest)
    (scanned : Scanned lexemes) : phrase.IsShaped place lexemes rest := by
  induction reads with
  | preferred starts _ inner =>
      rcases inner scanned.advance with ⟨shape, ends⟩
      exact ⟨.prefer starts shape ends, .inl rfl, ends⟩
  | expression plain _ inner =>
      rcases inner scanned with ⟨shape, ends⟩
      exact ⟨shape.weaken (Nat.zero_le _), shape.stands plain, ends⟩
  | conditional _ question _ colon _ first second third =>
      rcases first scanned with ⟨condition, _⟩
      rcases second condition.scanned.advance with ⟨consequence, stands, _⟩
      rcases third consequence.scanned.advance with ⟨alternative, stands', ends⟩
      exact ⟨.conditional condition question consequence.toFormed stands alternative.toFormed
        stands' ends, ends⟩
  | unconditional _ question inner =>
      rcases inner scanned with ⟨shape, halt⟩
      exact ⟨shape.weaken (Nat.le_succ _), Tier.ends_of_noSign halt question⟩
  | chain _ _ first others =>
      rcases first scanned with ⟨shape, halt⟩
      exact others shape.scanned _ (shape.weaken (Nat.le_succ _)) halt
  | chainOver sign => exact fun start shape halt => ⟨shape, NoSign.looser halt sign⟩
  | chainMore sign _ _ next others =>
      intro start shape _
      rcases next scanned.operand with ⟨right, halt⟩
      exact others right.scanned start (.binary sign shape right) halt
  | tighter below _ inner =>
      have rank := Tier.rank_tighter below
      rcases inner scanned with ⟨shape, halt⟩
      rw [rank] at shape halt
      exact ⟨shape, halt⟩
  | @tightest _ _ level _ below _ inner =>
      cases level <;> cases below
      refine ⟨inner scanned, fun level tight => ?_⟩
      cases level <;> exact absurd tight (by decide)
  | not bang _ inner => exact .not bang (inner scanned.advance)
  | negative minus number _ =>
      exact .negative minus (scanned.advance.integer number) scanned.advance.advance
  | minus minus _ _ inner => exact .minus minus (inner scanned.advance)
  | applied bang minus _ _ first others =>
      rcases first scanned with ⟨shape, callable⟩
      exact others shape.scanned _ shape callable
  | called parenthesis touches _ _ inside others =>
      intro start shape callable
      rcases inside scanned.advance with ⟨behind, legible, layered⟩
      have closed : Expression.isOpen _ = false := Bool.eq_false_iff.mpr fun unclosed =>
        (shape.before.body unclosed).call (Nat.zero_le _) ⟨parenthesis, touches⟩
      have called := Shape.call shape (callable closed) parenthesis behind legible layered
      exact others behind start called fun _ => Nat.le_refl _
  | callsOver => exact fun start shape _ => shape
  | nothing => exact ⟨scanned.advance, trivial, fun _ => trivial⟩
  | something _ _ inner => exact inner scanned
  | last _ _ inner =>
      rcases inner scanned with ⟨shape, stands, _⟩
      exact ⟨shape.scanned.advance, ⟨shape.legible, trivial⟩,
        fun faithful => ⟨⟨shape.layered faithful.1, stands⟩, trivial⟩⟩
  | more _ _ _ first others =>
      rcases first scanned with ⟨shape, stands, _⟩
      rcases others shape.scanned.advance with ⟨behind, legible, layered⟩
      exact ⟨behind, ⟨shape.legible, legible⟩,
        fun faithful => ⟨⟨shape.layered faithful.1, stands⟩, layered faithful.2⟩⟩
  | @integer _ value number =>
      have positive := scanned.integer number
      have callee : Tier.callee.rank ≤ (Expression.integer value).tier.rank :=
        Nat.le_of_eq (by rw [tier, if_neg (Int.not_lt.mpr positive)])
      exact shape_single scanned number (by simp) (fun _ => if_neg (Int.not_lt.mpr positive))
        (Int.lt_of_lt_of_le (by decide) positive) trivial callee rfl rfl rfl
  | text literal =>
      exact shape_single scanned literal (by simp) (fun _ => rfl) trivial trivial (Nat.le_refl _) rfl
        rfl rfl
  | group parenthesis _ _ inner =>
      rcases inner scanned.advance with ⟨shape, stands, _⟩
      have formed : Formed place _ (.group _) := formed_closed shape.scanned.advance shape.legible
        (fun faithful => ⟨shape.layered faithful, stands⟩) rfl rfl rfl
      exact shape_primary formed (Nat.le_refl _) parenthesis (by simp) ⟨_, fun _ => rfl⟩
  | list bracket _ inside =>
      rcases inside scanned.advance with ⟨behind, legible, layered⟩
      have formed : Formed place _ (.list _) := formed_closed behind legible layered rfl rfl rfl
      exact shape_primary formed (Nat.le_refl _) bracket (by simp) ⟨_, fun _ => rfl⟩
  | root dot _ steps =>
      rcases steps.legible scanned.advance with ⟨⟨key, keys, rfl, legible⟩, behind⟩
      have layered : (Expression.reference ("" :: key :: keys)).IsLayered place := by
        rintro _ ⟨⟩
        decide
      have formed : Formed place _ (.reference ("" :: key :: keys)) :=
        formed_closed behind legible (fun _ => layered) rfl rfl rfl
      exact shape_primary formed (Nat.le_refl _) dot (by simp) ⟨_, fun _ => rfl⟩
  | nil word | yes word | no word | auto word =>
      exact shape_single scanned word (by decide) (fun _ => rfl) trivial (by trivial)
        (Nat.le_refl _) rfl rfl rfl
  | @redirected lexemes rest path name word key steps =>
      have behind := behindReplace_scanned scanned.advance
      rcases steps.of_word key with ⟨keys, rfl, _⟩
      rcases steps.legible behind with ⟨⟨_, _, ⟨⟩, _, legible⟩, ended⟩
      have other (replacing : decide (peek (advance lexemes) = .identifier "replace") = false) :
          (name :: keys).head? ≠ some "replace" := by
        have other := of_decide_eq_false replacing
        rw [behindReplace_other other] at key
        rintro ⟨⟩
        exact other key
      have formed : Formed place rest (.merge (name :: keys) true
          (peek (advance lexemes) = .identifier "replace")) :=
        formed_closed ended (fun _ => ⟨behind.name key, legible⟩) 
          (fun _ => ⟨by simp, fun _ => other⟩) rfl rfl rfl
      exact shape_primary formed (Nat.le_refl _) word (by decide) ⟨_, fun _ => rfl⟩
  | @merge lexemes word key =>
      have behind := behindReplace_scanned scanned.advance
      have formed : Formed place (behindReplace (advance lexemes)) (.merge place false
          (peek (advance lexemes) = .identifier "replace")) :=
        ⟨behind, (absurd · Bool.false_ne_true), fun _ => ⟨fun _ => rfl, by simp⟩, behind.more,
          (absurd · Bool.false_ne_true), fun _ => key, (absurd · Bool.false_ne_true)⟩
      exact shape_primary formed (Nat.le_refl _) word (by decide) ⟨_, fun _ => rfl⟩
  | lambda starts _ inner =>
      rcases inner scanned.advance with ⟨formed, parameters, body, rfl⟩
      exact ⟨.unmarked formed (Nat.le_refl _) starts.1 (by decide) ⟨_, fun _ => rfl⟩,
        (absurd · Bool.noConfusion)⟩
  | mapping starts _ inner =>
      rcases inner scanned.advance.advance with ⟨formed, collection, function, rfl⟩
      refine shape_primary formed (Nat.le_refl _) starts.1 (by decide) ?_
      rcases lambda_or_plain function with ⟨parameters, body, rfl⟩ | plain
      · exact ⟨_, fun _ => rfl⟩
      · exact ⟨_, fun spaced => written_mapping plain spaced collection⟩
  | reference word free lambda mapping steps =>
      have shape : Shape place Tier.callee.rank _ _ _ :=
        .reference scanned word free lambda steps
      exact ⟨shape.weaken (Nat.le_succ _), fun _ => Nat.le_refl _⟩
  | bare _ _ _ inner =>
      rcases inner scanned.advance.advance with ⟨shape, stands, ends⟩
      exact ⟨shape_lambda (by simp) shape.toFormed stands ends, _, _, rfl⟩
  | named _ names _ _ inner =>
      rcases names.legible scanned.advance with ⟨named, _, behind⟩
      rcases inner behind.advance with ⟨shape, stands, ends⟩
      exact ⟨shape_lambda named shape.toFormed stands ends, _, _, rfl⟩
  | mappingOf _ bar _ close first second =>
      rcases first scanned with ⟨shape, stands, _⟩
      rcases second shape.scanned.advance with ⟨formed, stands'⟩
      exact ⟨shape_mapping shape.toFormed stands bar formed stands', _, _, rfl⟩
  | short names _ _ inner =>
      rcases names.legible scanned with ⟨named, _, behind⟩
      rcases inner behind.advance with ⟨shape, stands, ends⟩
      refine ⟨shape_lambda named shape.toFormed stands ends, .inr ?_⟩
      rintro ⟨word, _⟩
      have other : Token.identifier "lambda" = .identifier "prefer" := word
      exact absurd other (by decide)
  | full _ _ inner =>
      rcases inner scanned with ⟨shape, stands, _⟩
      exact ⟨shape.toFormed, stands⟩

end Stencil
