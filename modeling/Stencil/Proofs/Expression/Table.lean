import Stencil.Proofs.Expression.RoundTrip

namespace Stencil

open Lexemes Lexeme Grammar

/-! The parser implements its table of precedence. The expressions whose operands stand as the
table asks are read from their printed form, as long as no word in it is taken for another; and
of the expressions that stand in the table the parser reads no others. -/

variable {place : List String}

/-! ## The table -/

/-- What the right operand of an operator binds as tightly as, at least. -/
def Level.next : Level → Tier
  | .fallback => .chain .logical
  | .logical => .chain .comparison
  | .comparison => .chain .additive
  | .additive => .chain .multiplicative
  | .multiplicative => .unary

theorem Level.rank_next (level : Level) : level.next.rank = (Tier.chain level).rank + 1 := by
  cases level <;> rfl

theorem Operator.loosest (operator : Operator) :
    (Tier.chain .fallback).rank ≤ (Tier.chain operator.level).rank := by
  cases operator <;> decide

namespace Expression

def isLambda : Expression → Bool
  | .lambda _ _ => true
  | _ => false

def isMarked : Expression → Bool
  | .prefer _ => true
  | _ => false

def isNegativeLiteral : Expression → Bool
  | .integer value => value.toInt < 0
  | _ => false

/-- The part that stands first. -/
def first : Expression → Expression
  | .binary _ left _ => left.first
  | .conditional condition _ _ => condition.first
  | .call function _ => function.first
  | part => part

/-- It binds as tightly as the tier, at least. A lambda, whose body takes all that follows, is
an operand only inside parentheses. -/
structure IsOperand (expression : Expression) (loosest : Tier) : Prop where
  tight : loosest.rank ≤ expression.tier.rank
  plain : expression.isLambda = false

mutual
/-- Each operand binds as tightly as the table of precedence asks for. Entries, arguments,
branches, bodies and what stands in parentheses may be any expression. -/
def IsTabular : Expression → Prop
  | .nil | .boolean _ | .integer _ | .text _ | .reference _ | .merge _ _ _ | .auto _ => True
  | .list entries => AllTabular entries
  | .group inner | .lambda _ inner => inner.IsTabular
  | .binary operator left right =>
      (left.IsTabular ∧ left.IsOperand (.chain operator.level)) ∧
        (right.IsTabular ∧ right.IsOperand operator.level.next) ∧
          (operator = .concatenation → right.first.isNegativeLiteral = false)
  | .not operand => operand.IsTabular ∧ operand.IsOperand .unary
  | .conditional condition consequence alternative =>
      (condition.IsTabular ∧ condition.IsOperand (.chain .fallback)) ∧
        consequence.IsTabular ∧ alternative.IsTabular
  | .call function arguments =>
      (function.IsTabular ∧ function.IsOperand .callee) ∧ AllTabular arguments
  | .mapping collection function =>
      collection.IsTabular ∧ function.IsTabular ∧
        ∃ parameters body, function = .lambda parameters body ∧ parameters ≠ []
  | .prefer inner => inner.IsTabular ∧ inner.isMarked = false

def AllTabular : List Expression → Prop
  | [] => True
  | entry :: entries => entry.IsTabular ∧ AllTabular entries
end

/-! ## Words -/

/-- Its written form is a word or starts with one. -/
def isWord : Expression → Bool
  | .nil | .boolean _ | .merge _ _ _ | .auto _ | .lambda _ _ | .mapping _ _ | .prefer _ => true
  | .reference path => path.head? != some ""
  | _ => false

def isPreferKey : Expression → Bool
  | .reference path => path == ["prefer"]
  | _ => false

/-- It starts with the word `prefer` before something that is marked by it. What stands behind
the key `prefer` is taken for that, be it the next step of the path. -/
def startsMarked : Expression → Bool
  | .prefer _ => true
  | .reference path => path.head? == some "prefer" && path != ["prefer"]
  | .binary operator left _ =>
      left.startsMarked ||
        left.isPreferKey && (operator == .concatenation || operator == .subtract)
  | .conditional condition _ _ => condition.startsMarked
  | .call function _ => function.startsMarked || function.isPreferKey
  | _ => false

/-- As a whole it is marked if and only if it starts with the mark. -/
def IsClear (expression : Expression) : Prop :=
  expression.isMarked = true ∨ expression.startsMarked = false

mutual
/-- No word in the written form is taken for another. The keywords are no keys that a reference
starts with, a `merge` without a path has no word behind it and the key `lambda` no bar, the key
`prefer` does not stand where it would be a mark; and `merge` and `auto` hold the place. -/
def IsUnambiguous (place : List String) : Expression → Prop
  | .nil | .boolean _ | .integer _ | .text _ => True
  | .list entries => AllUnambiguous place entries
  | .reference path => ∀ key ∈ path.head?, key ∉ reserved
  | .merge path redirected replacing =>
      (redirected = false → path = place) ∧
        (redirected = true → replacing = false → path.head? ≠ some "replace")
  | .auto path => path = place
  | .group inner | .lambda _ inner => inner.IsUnambiguous place ∧ inner.IsClear
  | .binary operator left right =>
      left.IsUnambiguous place ∧ right.IsUnambiguous place ∧
        (operator = .concatenation → left.last.isBareMerge = true → right.first.isWord = false) ∧
          (operator = .fallback → left.last.isLambdaKey = false)
  | .not operand => operand.IsUnambiguous place
  | .conditional condition consequence alternative =>
      condition.IsUnambiguous place ∧
        (consequence.IsUnambiguous place ∧ consequence.IsClear) ∧
          (alternative.IsUnambiguous place ∧ alternative.IsClear)
  | .call function arguments =>
      function.IsUnambiguous place ∧ AllUnambiguous place arguments
  | .mapping collection function =>
      (collection.IsUnambiguous place ∧ collection.IsClear ∧
        collection.last.isLambdaKey = false) ∧ function.IsUnambiguous place
  | .prefer inner => inner.IsUnambiguous place

def AllUnambiguous (place : List String) : List Expression → Prop
  | [] => True
  | entry :: entries =>
      (entry.IsUnambiguous place ∧ entry.IsClear) ∧ AllUnambiguous place entries
end

/-- It stands in the table of precedence as a whole, and can be written. -/
structure WellLayered (place : List String) (expression : Expression) : Prop where
  legible : expression.IsLegible
  tabular : expression.IsTabular
  unambiguous : expression.IsUnambiguous place
  clear : expression.IsClear

/-! ## The first token -/

/-- What the first part says about the token that the written form starts with. -/
structure Opens (expression : Expression) (token : Token) (rest : List Lexeme) : Prop where
  same : ∀ spaced, expression.written spaced = sign token spaced :: rest
  starts : token.starts
  operand : startsOperand token = !expression.first.isNegativeLiteral
  word : (∃ name, token = .identifier name) ↔ expression.first.isWord = true

theorem Opens.before {expression whole : Expression} {token : Token} {rest behind : List Lexeme}
    (opens : expression.Opens token rest) (first : whole.first = expression.first)
    (same : ∀ spaced, whole.written spaced = expression.written spaced ++ behind) :
    whole.Opens token (rest ++ behind) where
  same spaced := by rw [same, opens.same, List.cons_append]
  starts := opens.starts
  operand := by rw [first, opens.operand]
  word := by rw [first, opens.word]

theorem opens_reference {path : List String} (legible : isPath path) :
    ∃ token rest, (reference path).Opens token rest := by
  unfold isPath at legible
  split at legible
  · exact ⟨.dot, _, fun _ => rfl, .inl rfl, rfl, by simp [first, isWord]⟩
  · cases path with
    | nil => exact legible.elim
    | cons key path =>
        refine ⟨.identifier key, Written.steps path, fun spaced => ?_, .inl rfl, rfl, ?_⟩
        · rw [written, Written.path_of_key legible.1, Written.keys,
            Written.step_of_name legible.1]
          rfl
        · have named : key ≠ "" := by
            rintro rfl
            cases legible.1
          simp [first, isWord, named]

theorem exists_opens : ∀ {expression : Expression}, expression.IsLegible →
    ∃ token rest, expression.Opens token rest
  | .nil, _ | .boolean _, _ | .auto _, _ | .merge _ _ _, _ | .lambda _ _, _ | .prefer _, _ =>
      ⟨_, _, fun _ => rfl, .inl rfl, rfl, by simp [first, isWord]⟩
  | .text _, _ | .list _, _ | .group _, _ | .not _, _ =>
      ⟨_, _, fun _ => rfl, .inl rfl, rfl, by simp [first, isWord]⟩
  | .integer value, _ => by
      by_cases negative : value.toInt < 0
      · exact ⟨.minus, _, fun _ => if_pos negative, .inr rfl,
          by simp [startsOperand, first, isNegativeLiteral, negative], by simp [first, isWord]⟩
      · exact ⟨.integer value, _, fun _ => if_neg negative, .inl rfl,
          by simp [startsOperand, first, isNegativeLiteral, negative], by simp [first, isWord]⟩
  | .reference _, legible => opens_reference legible
  | .binary _ _ _, legible => by
      rcases exists_opens legible.1 with ⟨token, rest, opens⟩
      exact ⟨token, _, opens.before rfl fun _ => rfl⟩
  | .conditional _ _ _, legible => by
      rcases exists_opens legible.1 with ⟨token, rest, opens⟩
      exact ⟨token, _, opens.before rfl fun _ => rfl⟩
  | .call _ _, legible => by
      rcases exists_opens legible.1 with ⟨token, rest, opens⟩
      exact ⟨token, _, opens.before rfl fun _ => rfl⟩
  | .mapping collection function, _ => by
      rcases lambda_or_plain function with ⟨parameters, body, rfl⟩ | plain
      · exact ⟨_, _, fun _ => rfl, .inl rfl, rfl, by simp [first, isWord]⟩
      · exact ⟨_, _, fun spaced => written_mapping plain spaced collection, .inl rfl, rfl,
          by simp [first, isWord]⟩

/-! ## The mark -/

theorem starts_operator (operator : Operator) {right : Expression} (legible : right.IsLegible)
    (rest : List Lexeme) :
    (peek (Written.operator operator ++ (right.written true ++ rest))).starts ↔
      operator = .concatenation ∨ operator = .subtract := by
  rcases exists_opens legible with ⟨token, tail, opens⟩
  rw [opens.same]
  cases operator with
  | concatenation => exact ⟨fun _ => .inl rfl, fun _ => opens.starts⟩
  | subtract => exact ⟨fun _ => .inr rfl, fun _ => .inr rfl⟩
  | _ => simp [Written.operator, Operator.token, Token.starts, startsOperand]

/-- Only the word `prefer` starts a mark. -/
theorem startsPreferred_other {token : Token} (other : token ≠ .identifier "prefer") (spaced : Bool)
    (rest : List Lexeme) : ¬ startsPreferred (sign token spaced :: rest) :=
  fun marked => other marked.1

theorem startsPreferred_reference {path : List String} (legible : isPath path) (spaced : Bool)
    {rest : List Lexeme} (more : rest ≠ []) :
    startsPreferred ((reference path).written spaced ++ rest) ↔
      (reference path).startsMarked = true ∨
        (reference path).isPreferKey = true ∧ (peek rest).starts := by
  unfold isPath at legible
  split at legible
  · simp [written, Written.path, startsPreferred, startsMarked, isPreferKey]
  · cases path with
    | nil => exact legible.elim
    | cons key path =>
        rw [written, Written.path_of_key legible.1, Written.keys, Written.step_of_name legible.1]
        cases path with
        | nil =>
            rw [Written.steps, List.flatMap_nil, List.append_nil, List.singleton_append,
              startsPreferred, advance_cons more]
            simp [startsMarked, isPreferKey, Token.starts]
        | cons next path =>
            rw [Written.steps_cons]
            simp [startsPreferred, startsMarked, isPreferKey, startsOperand]

/-- The grammar takes the start for a mark if it is one, or if it is the key and what follows it
could be marked. -/
theorem startsPreferred_written : ∀ {expression : Expression}, expression.IsLegible →
    ∀ (spaced : Bool) {rest : List Lexeme}, rest ≠ [] →
      (startsPreferred (expression.written spaced ++ rest) ↔
        expression.startsMarked = true ∨
          expression.isPreferKey = true ∧ (peek rest).starts)
  | .nil, _, spaced, rest, _ | .boolean true, _, spaced, rest, _
  | .boolean false, _, spaced, rest, _ | .auto _, _, spaced, rest, _
  | .text _, _, spaced, rest, _ | .list _, _, spaced, rest, _ | .group _, _, spaced, rest, _
  | .merge _ _ _, _, spaced, rest, _ | .not _, _, spaced, rest, _
  | .lambda _ _, _, spaced, rest, _ =>
      iff_of_false (startsPreferred_other (by simp) spaced _)
        (by simp [startsMarked, isPreferKey])
  | .integer value, _, spaced, rest, _ => by
      refine iff_of_false ?_ (by simp [startsMarked, isPreferKey])
      rw [written, Written.integer]
      split <;> simp [startsPreferred]
  | .reference _, legible, spaced, _, more => startsPreferred_reference legible spaced more
  | .prefer inner, legible, spaced, rest, _ => by
      have legible : inner.IsLegible := legible
      rcases exists_opens legible with ⟨token, tail, opens⟩
      refine iff_of_true ?_ (.inl rfl)
      rw [written, opens.same]
      exact ⟨rfl, opens.starts⟩
  | .binary operator left right, legible, spaced, rest, _ => by
      have sign := starts_operator operator legible.2 rest
      have behind : Written.operator operator ++ (right.written true ++ rest) ≠ [] := by
        simp [written_more legible.2]
      rw [written, List.append_assoc, List.append_assoc,
        startsPreferred_written legible.1 spaced behind, sign]
      simp [startsMarked, isPreferKey]
  | .conditional _ _ _, legible, spaced, rest, _ => by
      rw [written, List.append_assoc, List.cons_append,
        startsPreferred_written legible.1 spaced (List.cons_ne_nil _ _)]
      simp [startsMarked, isPreferKey, Token.starts, startsOperand]
  | .call _ _, legible, spaced, rest, _ => by
      rw [written, List.append_assoc, List.cons_append,
        startsPreferred_written legible.1 spaced (List.cons_ne_nil _ _)]
      simp [startsMarked, isPreferKey, Token.starts, startsOperand]
  | .mapping collection function, _, spaced, rest, _ => by
      refine iff_of_false ?_ (by simp [startsMarked, isPreferKey])
      rcases lambda_or_plain function with ⟨parameters, body, rfl⟩ | plain
      · exact startsPreferred_other (by decide) spaced _
      · rw [written_mapping plain]
        exact startsPreferred_other (by decide) spaced _

theorem looksPreferred_iff {expression : Expression} (legible : expression.IsLegible) :
    expression.looksPreferred ↔ expression.startsMarked = true := by
  rw [looksPreferred, startsPreferred_written legible false (List.cons_ne_nil _ _)]
  simp [Token.starts, startsOperand]

theorem tier_eq_expression_iff {expression : Expression} :
    expression.tier = .expression ↔ expression.isMarked = true := by
  cases expression with
  | integer value =>
      rw [tier]
      split <;> simp [isMarked]
  | _ => simp [tier, isMarked]

theorem rank_of_unmarked {expression : Expression} (plain : expression.isMarked = false) :
    Tier.conditional.rank ≤ expression.tier.rank := by
  refine Nat.one_le_iff_ne_zero.mpr fun loosest => ?_
  have marked := tier_eq_expression_iff.mp (Tier.rank_injective loosest)
  rw [plain] at marked
  cases marked

theorem standsAlone_iff {expression : Expression} (legible : expression.IsLegible) :
    expression.StandsAlone ↔ expression.IsClear := by
  rw [StandsAlone, IsClear, tier_eq_expression_iff, looksPreferred_iff legible, Bool.not_eq_true]

/-! ## Operands -/

theorem IsOperand.looser {expression : Expression} {tier looser : Tier}
    (operand : expression.IsOperand tier) (loose : looser.rank ≤ tier.rank) :
    expression.IsOperand looser :=
  ⟨Nat.le_trans loose operand.tight, operand.plain⟩

/-- What stands last in an operand is no part that takes all that follows. -/
theorem closed_of_isOperand : ∀ {expression : Expression}, expression.IsTabular →
    expression.IsOperand (.chain .fallback) → expression.isOpen = false
  | .nil, _, _ | .boolean _, _, _ | .integer _, _, _ | .text _, _, _ | .list _, _, _
  | .reference _, _, _ | .merge _ _ _, _, _ | .auto _, _, _ | .group _, _, _ | .call _ _, _, _
  | .mapping _ _, _, _ => rfl
  | .binary operator left right, tabular, _ => by
      have operand : right.IsOperand (.chain .fallback) := by
        refine tabular.2.1.2.looser ?_
        rw [Level.rank_next]
        exact Nat.le_succ_of_le (Operator.loosest operator)
      have closed : right.isOpen = false := closed_of_isOperand tabular.2.1.1 operand
      exact closed
  | .not part, tabular, _ => by
      have operand : part.IsOperand (.chain .fallback) := tabular.2.looser (by decide)
      have closed : part.isOpen = false := closed_of_isOperand tabular.1 operand
      exact closed
  | .lambda _ _, _, operand => nomatch operand.plain
  | .conditional _ _ _, _, operand | .prefer _, _, operand => by
      have tight := operand.tight
      simp [tier, Tier.rank] at tight

/-- A negation stands in the table as the subtraction that it is. -/
theorem isNegation_of_isOperand {expression : Expression} {tier : Tier}
    (operand : expression.IsOperand tier) (tight : (Tier.chain .additive).rank < tier.rank) :
    expression.isNegation = false := by
  rw [Bool.eq_false_iff]
  intro negation
  have loose := operand.tight
  rw [tier_of_isNegation negation] at loose
  exact Nat.not_le.mpr tight loose

mutual
theorem isFaithful_of_isTabular : ∀ {expression : Expression}, expression.IsTabular →
    expression.IsFaithful
  | .nil, _ | .boolean _, _ | .integer _, _ | .text _, _ | .reference _, _ | .merge _ _ _, _
  | .auto _, _ => trivial
  | .list entries, tabular => by
      have faithful : AllFaithful entries := allFaithful_of_allTabular tabular
      exact faithful
  | .group inner, tabular | .lambda _ inner, tabular => by
      have faithful : inner.IsFaithful := isFaithful_of_isTabular tabular
      exact faithful
  | .prefer inner, tabular => by
      have faithful : inner.IsFaithful := isFaithful_of_isTabular tabular.1
      exact faithful
  | .binary operator left right, tabular => by
      refine ⟨isFaithful_of_isTabular tabular.1.1, isFaithful_of_isTabular tabular.2.1.1, ?_, ?_⟩
      · intro negation multiplicative
        have tight := tabular.1.2
        rw [multiplicative] at tight
        rw [isNegation_of_isOperand tight (by decide)] at negation
        cases negation
      · intro negation
        have tight := tabular.2.1.2
        constructor
        all_goals
          intro level
          rw [level] at tight
          rw [isNegation_of_isOperand tight (by decide)] at negation
          cases negation
  | .not _, tabular =>
      ⟨isFaithful_of_isTabular tabular.1, isNegation_of_isOperand tabular.2 (by decide)⟩
  | .conditional _ _ _, tabular =>
      ⟨isFaithful_of_isTabular tabular.1.1, isFaithful_of_isTabular tabular.2.1,
        isFaithful_of_isTabular tabular.2.2⟩
  | .call _ _, tabular =>
      ⟨isFaithful_of_isTabular tabular.1.1, allFaithful_of_allTabular tabular.2⟩
  | .mapping _ _, tabular => by
      refine ⟨isFaithful_of_isTabular tabular.1, isFaithful_of_isTabular tabular.2.1, ?_⟩
      rintro body rfl
      rcases tabular.2.2 with ⟨_, _, ⟨⟩, some⟩
      exact some rfl

theorem allFaithful_of_allTabular : ∀ {entries : List Expression}, AllTabular entries →
    AllFaithful entries
  | [], _ => trivial
  | _ :: _, tabular =>
      ⟨isFaithful_of_isTabular tabular.1, allFaithful_of_allTabular tabular.2⟩
end

/-! ## Layers -/

/-- The operands that the table asks for are joined to their operator, if no word of the one is
taken for a part of the other. -/
theorem joined_iff {operator : Operator} {left right : Expression} (legible : right.IsLegible)
    (tabular : (Expression.binary operator left right).IsTabular) :
    Joined operator left right ↔
      (operator = .concatenation → left.last.isBareMerge = true → right.first.isWord = false) ∧
        (operator = .fallback → left.last.isLambdaKey = false) := by
  rcases exists_opens legible with ⟨token, rest, opens⟩
  constructor
  · intro joined
    refine ⟨fun concatenation merge => ?_, joined.bars⟩
    rcases joined.beside concatenation with ⟨other, tail, same, _, apart⟩
    cases (opens.same true).symm.trans same
    rw [Bool.eq_false_iff]
    intro word
    rcases opens.word.mpr word with ⟨name, found⟩
    exact apart merge name found
  · rintro ⟨words, bars⟩
    have tight : (Tier.chain operator.level).rank < right.tier.rank := by
      have tight := tabular.2.1.2.tight
      rwa [Level.rank_next] at tight
    have closed := closed_of_isOperand tabular.1.1 (tabular.1.2.looser operator.loosest)
    refine ⟨tabular.1.2.tight, tight, closed, fun concatenation => ?_, bars⟩
    have operand : startsOperand token = true := by
      rw [opens.operand, tabular.2.2 concatenation]
      rfl
    refine ⟨token, rest, opens.same true, operand, fun merge name found => ?_⟩
    have word := opens.word.mp ⟨name, found⟩
    rw [words concatenation merge] at word
    cases word

mutual
/-- In the table an expression is layered if and only if its words are not ambiguous. -/
theorem isLayered_iff : ∀ {expression : Expression}, expression.IsLegible →
    expression.IsTabular → (expression.IsLayered place ↔ expression.IsUnambiguous place)
  | .nil, _, _ | .boolean _, _, _ | .integer _, _, _ | .text _, _, _ | .reference _, _, _
  | .merge _ _ _, _, _ | .auto _, _, _ => Iff.rfl
  | .list entries, legible, tabular => by
      have entries : AllLayered place entries ↔ AllUnambiguous place entries :=
        allLayered_iff legible tabular
      exact entries
  | .group inner, legible, tabular => by
      have legible : inner.IsLegible := legible
      have tabular : inner.IsTabular := tabular
      rw [IsLayered, IsUnambiguous, isLayered_iff legible tabular, standsAlone_iff legible]
  | .lambda _ body, legible, tabular => by
      have tabular : body.IsTabular := tabular
      rw [IsLayered, IsUnambiguous, isLayered_iff legible.2 tabular, standsAlone_iff legible.2]
  | .binary operator left right, legible, tabular => by
      rw [IsLayered, IsUnambiguous, isLayered_iff legible.1 tabular.1.1,
        isLayered_iff legible.2 tabular.2.1.1, joined_iff legible.2 tabular]
  | .not part, legible, tabular => by
      have legible : part.IsLegible := legible
      rw [IsLayered, IsUnambiguous, isLayered_iff legible tabular.1]
      exact and_iff_left tabular.2.tight
  | .conditional condition consequence alternative, legible, tabular => by
      have closed := closed_of_isOperand tabular.1.1 tabular.1.2
      rw [IsLayered, IsUnambiguous, isLayered_iff legible.1 tabular.1.1,
        isLayered_iff legible.2.1 tabular.2.1, isLayered_iff legible.2.2 tabular.2.2,
        standsAlone_iff legible.2.1, standsAlone_iff legible.2.2]
      exact and_congr_left' (and_iff_left ⟨tabular.1.2.tight, closed⟩)
  | .call function arguments, legible, tabular => by
      rw [IsLayered, IsUnambiguous, isLayered_iff legible.1 tabular.1.1,
        allLayered_iff legible.2 tabular.2]
      exact and_congr_left' (and_iff_left tabular.1.2.tight)
  | .mapping collection function, legible, tabular => by
      rw [IsLayered, IsUnambiguous, isLayered_iff legible.1 tabular.1,
        isLayered_iff legible.2 tabular.2.1, standsAlone_iff legible.1,
        standsAlone_iff legible.2]
      refine and_congr_right' (and_iff_left ?_)
      rcases tabular.2.2 with ⟨parameters, body, rfl, some⟩
      refine ⟨.inr rfl, ?_⟩
      rintro _ ⟨⟩
      exact some rfl
  | .prefer inner, legible, tabular => by
      have legible : inner.IsLegible := legible
      rw [IsLayered, IsUnambiguous, isLayered_iff legible tabular.1]
      exact and_iff_left (rank_of_unmarked tabular.2)

theorem allLayered_iff : ∀ {entries : List Expression}, AllLegible entries →
    AllTabular entries → (AllLayered place entries ↔ AllUnambiguous place entries)
  | [], _, _ => Iff.rfl
  | entry :: entries, legible, tabular => by
      rw [AllLayered, AllUnambiguous, isLayered_iff legible.1 tabular.1,
        allLayered_iff legible.2 tabular.2, standsAlone_iff legible.1]
end

/-! ## The parser -/

/-- Of the expressions that stand in the table the parser reads the well-layered ones, each from
its printed form, and no others from any source. -/
theorem parse_print_wellLayered (place : List String) (expression : Expression) :
    (expression.WellLayered place → parse expression.print place = .ok expression) ∧
      ∀ source : String, expression.IsTabular → parse source place = .ok expression →
        expression.WellLayered place := by
  constructor
  · intro layered
    have stands := (standsAlone_iff layered.legible).mpr layered.clear
    have layers := (isLayered_iff layered.legible layered.tabular).mpr layered.unambiguous
    exact parse_print_of_isLayered layered.legible stands layers
  · intro source tabular parses
    rcases shape_of_parse parses with ⟨legible, stands, layered⟩
    have layers := layered (isFaithful_of_isTabular tabular)
    exact ⟨legible, tabular, (isLayered_iff legible tabular).mp layers,
      (standsAlone_iff legible).mp stands⟩

/-- All levels of the table in one expression: `!a -or 1 - 2 * -3 < 7 ? prefer merge : map[l|i|->i]`. -/
theorem parse_print_wellLayered_levels :
    let left := Expression.not (.reference ["a"])
    let difference := Expression.binary .subtract (.integer 1)
      (.binary .multiply (.integer 2) (.integer (-3)))
    let right := Expression.binary .less difference (.integer 7)
    let mapped := Expression.mapping (.reference ["l"]) (.lambda ["i"] (.reference ["i"]))
    let whole := Expression.conditional (.binary .or left right) (.prefer (.merge ["x"] false false))
      mapped
    whole.WellLayered ["x"] ∧ parse whole.print ["x"] = .ok whole ∧
      parse "!a -or 1-2 * -3<7 ? prefer merge:map[l | i|->i]" ["x"] = .ok whole := by
  intro left difference right mapped whole
  have parses : parse "!a -or 1-2 * -3<7 ? prefer merge:map[l | i|->i]" ["x"] = .ok whole := by cbv
  have factor : (Expression.binary .multiply (.integer 2) (.integer (-3))).IsTabular :=
    ⟨⟨trivial, by decide, rfl⟩, ⟨trivial, by decide, rfl⟩, by simp⟩
  have condition : (Expression.binary .or left right).IsTabular :=
    ⟨⟨⟨trivial, by decide, rfl⟩, by decide, rfl⟩,
      ⟨⟨⟨⟨⟨trivial, by decide, rfl⟩, ⟨factor, by decide, rfl⟩, by simp⟩, by decide, rfl⟩,
        ⟨trivial, by decide, rfl⟩, by simp⟩, by decide, rfl⟩, by simp⟩
  have tabular : whole.IsTabular :=
    ⟨⟨condition, by decide, rfl⟩, ⟨trivial, rfl⟩, trivial, trivial, _, _, rfl, by decide⟩
  have layered := (parse_print_wellLayered ["x"] whole).2 _ tabular parses
  exact ⟨layered, (parse_print_wellLayered ["x"] whole).1 layered, parses⟩

end Expression

end Stencil
