import Stencil.Proofs.Expression.Writing

namespace Stencil

open Lexemes Lexeme Grammar

/-! The grammar reads an expression from its written form when the operands of each operator
bind as tightly as the table of precedence asks for. -/

/-! ## Paths and parameter lists -/

@[simp]
theorem Lexemes.peek_sign (token : Token) (spaced : Bool) (rest : List Lexeme) :
    peek (sign token spaced :: rest) = token := rfl

@[simp]
theorem Lexemes.adjacent_sign (token : Token) (spaced : Bool) (rest : List Lexeme) :
    adjacent (sign token spaced :: rest) = !spaced := rfl

theorem Lexemes.advance_cons {rest : List Lexeme} (more : rest ≠ []) (lexeme : Lexeme) :
    advance (lexeme :: rest) = rest := by
  cases rest with
  | nil => exact absurd rfl more
  | cons next rest => rfl

@[simp]
theorem Lexemes.advance_sign (lexeme : Lexeme) (token : Token) (spaced : Bool)
    (rest : List Lexeme) :
    advance (lexeme :: sign token spaced :: rest) = sign token spaced :: rest := rfl

@[simp]
theorem Lexemes.advance_append (lexeme : Lexeme) (front : List Lexeme) (token : Token)
    (spaced : Bool) (rest : List Lexeme) :
    advance (lexeme :: (front ++ sign token spaced :: rest)) = front ++ sign token spaced :: rest :=
  advance_cons (by simp) lexeme

variable {rest : List Lexeme}

theorem parseIndex_written (more : rest ≠ []) (index : Int64) (spaced : Bool) :
    parseIndex (sign (.integer index) spaced :: sign .rightBracket false :: rest) =
      .ok (indexStep index, rest) := by
  simp only [parseIndex, peek_sign, advance_sign, expect_of_peek .index (peek_sign _ _ _),
    advance_cons more]
  rfl

theorem parseKey_written (more : rest ≠ []) {key : String} (legible : isStep key)
    (afterDot spaced : Bool) :
    parseKey afterDot (Written.step spaced key ++ rest) = .ok (key, rest) := by
  rcases legible with named | ⟨index, positive, rfl⟩
  · simp [Written.step_of_name named, parseKey, advance_cons more]
  · rw [Written.step_of_index positive]
    exact parseIndex_written more index false

theorem steps_written (more : rest ≠ []) (halt : ¬ continuesPath rest) {path : List String}
    (legible : ∀ step ∈ path, isStep step) : Steps path (Written.steps path ++ rest) rest := by
  induction path with
  | nil => exact .halt halt
  | cons key path induction =>
      have others := induction fun step member => legible step (List.mem_cons_of_mem _ member)
      have first : parseKey true (Written.step false key ++ (Written.steps path ++ rest)) = _ :=
        parseKey_written (by simp [more]) (legible key List.mem_cons_self) true false
      rcases Written.step_starts (legible key List.mem_cons_self) with ⟨token, tail, same⟩
      rw [same] at first
      rw [Written.steps_cons, List.cons_append, List.append_assoc, same]
      exact .key rfl rfl rfl first others

theorem keys_written (more : rest ≠ []) (halt : ¬ continuesPath rest) {key : String}
    {path : List String} (first : isStep key) (others : ∀ step ∈ path, isStep step)
    (spaced : Bool) : Path (key :: path) (Written.keys spaced (key :: path) ++ rest) rest := by
  rw [Written.keys, List.append_assoc]
  exact .path (parseKey_written (by simp [more]) first false spaced)
    (steps_written more halt others)

theorem keyPath_written (more : rest ≠ []) (halt : ¬ continuesPath rest) {path : List String}
    (legible : isKeyPath path) (spaced : Bool) :
    Path path (Written.path spaced path ++ rest) rest := by
  cases path with
  | nil => exact legible.elim
  | cons key path =>
      rw [Written.path_of_key legible.1]
      exact keys_written more halt (.inl legible.1) legible.2 spaced

theorem parameters_written (more : rest ≠ []) {parameters : List String}
    (some : parameters ≠ []) :
    Parameters parameters (Written.names parameters ++ sign .pipe false :: rest) rest := by
  fun_induction Written.names parameters with
  | case1 => exact absurd rfl some
  | case2 name =>
      have last : Parameters [name] (sign (.identifier name) false :: sign .pipe false :: rest)
          _ := .last rfl rfl
      rwa [advance_sign, advance_cons more] at last
  | case3 name others several induction =>
      have next := induction (by rintro rfl; exact several rfl)
      cases others with
      | nil => exact absurd rfl several
      | cons second others =>
          rcases Written.names_cons second others with ⟨tail, same⟩
          rw [same] at next ⊢
          exact .more rfl rfl next

theorem behindReplace_replace (more : rest ≠ []) (spaced : Bool) :
    behindReplace (sign (.identifier "replace") spaced :: rest) = rest := by
  rw [behindReplace, if_pos (peek_sign _ _ _), advance_cons more]

theorem behindReplace_other {lexemes : List Lexeme}
    (other : peek lexemes ≠ .identifier "replace") : behindReplace lexemes = lexemes :=
  if_neg other

/-! ## Tiers -/

def Operator.level : Operator → Level
  | .multiply | .divide | .modulo => .multiplicative
  | .add | .subtract | .concatenation => .additive
  | .equal | .notEqual | .less | .lessOrEqual | .greater | .greaterOrEqual => .comparison
  | .and | .or => .logical
  | .fallback => .fallback

theorem Level.operator?_of_startsOperand {token : Token} (operand : startsOperand token = true) :
    Level.additive.operator? token = some .concatenation := by
  cases token <;> first | rfl | cases operand

/-- A sign stands for its operator at its level and for none at the tighter ones. -/
theorem Operator.operator?_token {operator : Operator} (sign : operator ≠ .concatenation) :
    operator.level.operator? operator.token = some operator := by
  cases operator <;> first | rfl | exact absurd rfl sign

/-- How tightly an expression holds together. -/
inductive Tier where
  | expression
  | conditional
  | chain (level : Level)
  | unary
  | callee
deriving DecidableEq

namespace Tier

/-- The tighter, the higher. -/
def rank : Tier → Nat
  | .expression => 0
  | .conditional => 1
  | .chain .fallback => 2
  | .chain .logical => 3
  | .chain .comparison => 4
  | .chain .additive => 5
  | .chain .multiplicative => 6
  | .unary => 7
  | .callee => 8

/-- What stands at the tier ends before these lexemes. -/
structure Ends (lexemes : List Lexeme) (tier : Tier) : Prop where
  path : ¬ continuesPath lexemes
  call : tier.rank ≤ 7 → ¬ (peek lexemes = .leftParenthesis ∧ adjacent lexemes = true)
  sign : ∀ level : Level, tier.rank < (chain level).rank →
    level.operator? (peek lexemes) = none
  question : tier.rank ≤ 1 → peek lexemes ≠ .question

theorem Ends.tighter {tier tier' : Tier} (ends : tier.Ends rest) (tight : tier.rank ≤ tier'.rank) :
    tier'.Ends rest where
  path := ends.path
  call loose := ends.call (Nat.le_trans tight loose)
  sign level above := ends.sign level (Nat.lt_of_le_of_lt tight above)
  question loose := ends.question (Nat.le_trans tight loose)

/-- The grammar reads the expression at the tier. At the tier of a level it may be the left
operand of what is read, and at the tier of callees the function. -/
def Reads (place : List String) (read : Expression) (lexemes rest : List Lexeme) : Tier → Prop
  | .expression => Grammar.Reads place (.expression read) lexemes rest
  | .conditional => Grammar.Reads place (.conditional read) lexemes rest
  | .chain level => ∀ (whole : Expression) (last : List Lexeme),
      Grammar.Reads place (.chainRest level read whole) rest last →
        Grammar.Reads place (.chain level whole) lexemes last
  | .unary => Grammar.Reads place (.unary read) lexemes rest
  | .callee => ∀ (whole : Expression) (last : List Lexeme),
      Grammar.Reads place (.calls read whole) rest last →
        Grammar.Reads place (.unary whole) lexemes last

variable {place : List String} {read : Expression} {lexemes : List Lexeme}

theorem Reads.chain_of_tighter {level tighter : Level} (below : level.tighter = some tighter)
    (reads : Tier.Reads place read lexemes rest (.chain tighter))
    (halt : tighter.operator? (peek rest) = none) :
    Tier.Reads place read lexemes rest (.chain level) :=
  fun _ _ others => .chain (.tighter below (reads _ _ (.chainOver halt))) others

theorem rank_injective {tier tier' : Tier} (same : tier.rank = tier'.rank) : tier = tier' := by
  rcases tier with _ | _ | (_ | _ | _ | _ | _) | _ | _ <;>
    rcases tier' with _ | _ | (_ | _ | _ | _ | _) | _ | _ <;> first | rfl | cases same

/-- What is read at a tier and ends there is also read at the next looser one. -/
theorem Reads.loosen_once {tier : Tier} {n : Nat} (reads : Tier.Reads place read lexemes rest tier)
    (rank : tier.rank = n + 1) (ends : ∀ looser : Tier, looser.rank = n → looser.Ends rest)
    (plain : n = 0 → ¬ startsPreferred lexemes) :
    ∃ looser : Tier, looser.rank = n ∧ Tier.Reads place read lexemes rest looser := by
  cases tier with
  | callee =>
      cases rank
      exact ⟨.unary, rfl, reads _ _ (.callsOver ((ends .unary rfl).call (by decide)))⟩
  | unary =>
      cases rank
      exact ⟨.chain .multiplicative, rfl, fun _ _ others => .chain (.tightest rfl reads) others⟩
  | chain level =>
      cases level with
      | multiplicative =>
          cases rank
          have halt := (ends (.chain .additive) rfl).sign .multiplicative (by decide)
          exact ⟨.chain .additive, rfl, chain_of_tighter rfl reads halt⟩
      | additive =>
          cases rank
          have halt := (ends (.chain .comparison) rfl).sign .additive (by decide)
          exact ⟨.chain .comparison, rfl, chain_of_tighter rfl reads halt⟩
      | comparison =>
          cases rank
          have halt := (ends (.chain .logical) rfl).sign .comparison (by decide)
          exact ⟨.chain .logical, rfl, chain_of_tighter rfl reads halt⟩
      | logical =>
          cases rank
          have halt := (ends (.chain .fallback) rfl).sign .logical (by decide)
          exact ⟨.chain .fallback, rfl, chain_of_tighter rfl reads halt⟩
      | fallback =>
          cases rank
          have halt := ends .conditional rfl
          exact ⟨.conditional, rfl, .unconditional
            (reads _ _ (.chainOver (halt.sign _ (by decide)))) (halt.question (by decide))⟩
  | conditional =>
      cases rank
      exact ⟨.expression, rfl, .expression (plain rfl) reads⟩
  | expression => cases rank

/-- What is read at a tier is also read at every looser one at which it ends. -/
theorem Reads.loosen {tier tier' : Tier} (reads : Tier.Reads place read lexemes rest tier)
    (loose : tier'.rank ≤ tier.rank) (ends : tier'.Ends rest)
    (plain : tier'.rank < tier.rank → tier'.rank = 0 → ¬ startsPreferred lexemes) :
    Tier.Reads place read lexemes rest tier' := by
  obtain ⟨steps, rank⟩ := Nat.exists_eq_add_of_le loose
  induction steps generalizing tier with
  | zero =>
      cases rank_injective rank
      exact reads
  | succ steps induction =>
      have strict : tier'.rank < tier.rank := by omega
      have rank : tier.rank = (tier'.rank + steps) + 1 := rank
      rcases Reads.loosen_once reads rank
        (fun looser same => ends.tighter (by omega))
        (fun last => plain strict (by omega)) with ⟨looser, same, reads⟩
      exact induction reads (by omega) (fun _ => plain strict) same

theorem rank_tighter {level tighter : Level} (below : level.tighter = some tighter) :
    (chain tighter).rank = (chain level).rank + 1 := by
  cases level <;> cases below <;> rfl

/-- An operand of a level is read at any tighter tier. -/
theorem Reads.operand {tier : Tier} {level : Level}
    (reads : Tier.Reads place read lexemes rest tier) (tight : (chain level).rank < tier.rank)
    (ends : (chain level).Ends rest) : Grammar.Reads place (.operand level read) lexemes rest := by
  cases below : level.tighter with
  | some tighter =>
      have rank := rank_tighter below
      have chain : Tier.Reads place read lexemes rest (.chain tighter) :=
        reads.loosen (by omega) (ends.tighter (by omega)) (by omega)
      exact .tighter below (chain _ _ (.chainOver (ends.sign _ (by omega))))
  | none =>
      cases level <;> cases below
      have unary : Tier.Reads place read lexemes rest .unary :=
        reads.loosen tight (ends.tighter (by decide)) (fun _ zero => absurd zero (by decide))
      exact .tightest rfl unary

end Tier

/-! ## Well-layered expressions -/

namespace Expression

def tier : Expression → Tier
  | .prefer _ => .expression
  | .conditional _ _ _ => .conditional
  | .binary operator _ _ => .chain operator.level
  | .not _ | .lambda _ _ => .unary
  | .integer value => if value.toInt < 0 then .unary else .callee
  | _ => .callee

/-- Whatever follows would belong to the last part, which takes all it can. -/
def isOpen : Expression → Bool
  | .lambda _ _ | .conditional _ _ _ | .prefer _ => true
  | .binary _ _ right => right.isOpen
  | .not operand => operand.isOpen
  | _ => false

/-- The part that stands last. -/
def last : Expression → Expression
  | .binary _ _ right => right.last
  | .not operand => operand.last
  | .conditional _ _ alternative => alternative.last
  | .lambda _ body => body.last
  | .prefer inner => inner.last
  | part => part

/-- A `merge` without a path takes a word behind it for one. -/
def isBareMerge : Expression → Bool
  | .merge _ redirected _ => !redirected
  | _ => false

/-- The key `lambda` starts a parameter list when a bar follows. -/
def isLambdaKey : Expression → Bool
  | .reference path => path == ["lambda"]
  | _ => false

/-- The written form starts with the key `prefer` and what would be marked by it. -/
def looksPreferred (expression : Expression) : Prop :=
  startsPreferred (expression.written false ++ [sign .finish false])

/-- The expression may stand where the grammar asks for a whole one. -/
def StandsAlone (expression : Expression) : Prop :=
  expression.tier = .expression ∨ ¬ expression.looksPreferred

/-- The operands bind more tightly than the operator, the left one as tightly at least, and
what stands around the sign of the operator does not take it for its own. -/
structure Joined (operator : Operator) (left right : Expression) : Prop where
  loose : (Tier.chain operator.level).rank ≤ left.tier.rank
  tight : (Tier.chain operator.level).rank < right.tier.rank
  closed : left.isOpen = false
  beside : operator = .concatenation → ∃ token rest, right.written true = sign token true :: rest ∧
    startsOperand token = true ∧ (left.last.isBareMerge = true → ∀ name, token ≠ .identifier name)
  bars : operator = .fallback → left.last.isLambdaKey = false

mutual
/-- The parts of the expression stand where the grammar asks for such. -/
def IsLayered (place : List String) : Expression → Prop
  | .nil | .boolean _ | .integer _ | .text _ => True
  | .list entries => AllLayered place entries
  | .reference path => ∀ key ∈ path.head?, key ∉ reserved
  | .merge path redirected replacing =>
      (redirected = false → path = place) ∧
        (redirected = true → replacing = false → path.head? ≠ some "replace")
  | .auto path => path = place
  | .group inner => inner.IsLayered place ∧ inner.StandsAlone
  | .binary operator left right =>
      left.IsLayered place ∧ right.IsLayered place ∧ Joined operator left right
  | .not operand => operand.IsLayered place ∧ Tier.unary.rank ≤ operand.tier.rank
  | .conditional condition consequence alternative =>
      (condition.IsLayered place ∧ (Tier.chain .fallback).rank ≤ condition.tier.rank ∧
        condition.isOpen = false) ∧
      (consequence.IsLayered place ∧ consequence.StandsAlone) ∧
        (alternative.IsLayered place ∧ alternative.StandsAlone)
  | .call function arguments =>
      (function.IsLayered place ∧ Tier.callee.rank ≤ function.tier.rank) ∧
        AllLayered place arguments
  | .lambda _ body => body.IsLayered place ∧ body.StandsAlone
  | .mapping collection function =>
      (collection.IsLayered place ∧ collection.StandsAlone ∧
        collection.last.isLambdaKey = false) ∧
      (function.IsLayered place ∧ function.StandsAlone ∧
        ∀ body, function ≠ .lambda [] body)
  | .prefer inner => inner.IsLayered place ∧ Tier.conditional.rank ≤ inner.tier.rank

def AllLayered (place : List String) : List Expression → Prop
  | [] => True
  | entry :: entries =>
      (entry.IsLayered place ∧ entry.StandsAlone) ∧ AllLayered place entries
end

/-- What follows the expression is not taken for a part of it. -/
structure EndsBefore (lexemes : List Lexeme) (expression : Expression) : Prop where
  more : lexemes ≠ []
  body : expression.isOpen = true → Tier.expression.Ends lexemes
  merge : expression.last.isBareMerge = true → ∀ name, peek lexemes ≠ .identifier name
  bars : expression.last.isLambdaKey = true → peek lexemes ≠ .pipe ∧ peek lexemes ≠ .fallback

/-- What is closed and does not end in a bare key may stand before anything. -/
theorem EndsBefore.of_closed {lexemes : List Lexeme} {expression : Expression}
    (more : lexemes ≠ []) (closed : expression.isOpen = false)
    (merge : expression.last.isBareMerge = false) (bars : expression.last.isLambdaKey = false) :
    expression.EndsBefore lexemes :=
  ⟨more, by simp [closed], by simp [merge], by simp [bars]⟩

end Expression

/-! ## Tokens that end an expression -/

/-- The token ends every expression. -/
def Token.closes : Token → Bool
  | .rightParenthesis | .rightBracket | .comma | .pipe | .colon | .finish => true
  | _ => false

theorem Grammar.Enclosure.closes (enclosure : Enclosure) : enclosure.close.closes = true := by
  cases enclosure <;> rfl

theorem Level.operator?_of_closes (level : Level) {token : Token} (closes : token.closes = true) :
    level.operator? token = none := by
  cases token <;> first | exact absurd closes Bool.false_ne_true | (cases level <;> rfl)

/-- What ends every expression ends what stands at any tier. -/
theorem Tier.ends_of_closing {lexemes : List Lexeme} (closes : (peek lexemes).closes = true)
    (tier : Tier) : tier.Ends lexemes := by
  constructor
  · rintro ⟨_, bracket | ⟨dot, _⟩⟩
    · rw [bracket] at closes
      cases closes
    · rw [dot] at closes
      cases closes
  · rintro _ ⟨parenthesis, _⟩
    rw [parenthesis] at closes
    cases closes
  · intro level _
    exact level.operator?_of_closes closes
  · rintro _ question
    rw [question] at closes
    cases closes

theorem Tier.ends_of_closes {token : Token} (closes : token.closes = true) (spaced : Bool)
    (rest : List Lexeme) (tier : Tier) : tier.Ends (sign token spaced :: rest) :=
  @ends_of_closing (sign token spaced :: rest) closes tier

/-- The token goes on with a parameter list behind a name. -/
def Token.separates : Token → Bool
  | .comma | .pipe => true
  | _ => false

theorem Token.separates_of_starts {token : Token} (starts : token.starts) :
    token.separates = false := by
  cases token <;> first | rfl | (rcases starts with starts | starts <;> cases starts)

theorem Grammar.Parameters.separates {parameters : List String} {lexemes : List Lexeme}
    (names : Parameters parameters lexemes rest) :
    (∃ name, peek lexemes = .identifier name) ∧ (peek (advance lexemes)).separates = true := by
  cases names with
  | last word bar => exact ⟨⟨_, word⟩, bar ▸ rfl⟩
  | more word comma others => exact ⟨⟨_, word⟩, comma ▸ rfl⟩

namespace Expression

theorem endsBefore_of_closes {expression : Expression} {token : Token} (closes : token.closes = true)
    (bars : expression.last.isLambdaKey = true → token ≠ .pipe) (spaced : Bool)
    (rest : List Lexeme) : expression.EndsBefore (sign token spaced :: rest) := by
  have tier := Tier.ends_of_closes closes spaced rest .expression
  refine ⟨List.cons_ne_nil _ _, fun _ => tier, ?_, fun key => ⟨bars key, ?_⟩⟩
  · rintro _ name rfl
    cases closes
  · rintro rfl
    cases closes

/-! ## Reading the written form -/

variable {place : List String}

theorem written_more {expression : Expression} (legible : expression.IsLegible) (spaced : Bool)
    (rest : List Lexeme) : expression.written spaced ++ rest ≠ [] := by
  rcases written_starts legible with ⟨token, tail, _, same⟩
  rw [same]
  exact List.cons_ne_nil _ _

/-- Only what starts with the word `prefer` is read as preferred. -/
theorem not_startsPreferred {expression : Expression} (legible : expression.IsLegible)
    (plain : ¬ expression.looksPreferred) {rest : List Lexeme} (more : rest ≠ [])
    (ends : Tier.expression.Ends rest) (spaced : Bool) :
    ¬ startsPreferred (expression.written spaced ++ rest) := by
  rcases written_starts legible with ⟨token, tail, _, same⟩
  unfold looksPreferred at plain
  rw [same] at plain ⊢
  rintro ⟨word, behind⟩
  cases tail with
  | nil =>
      rw [List.singleton_append, advance_cons more] at behind
      have halt := ends.sign .additive (by decide)
      rcases behind with operand | minus
      · rw [Level.operator?_of_startsOperand operand] at halt
        cases halt
      · rw [minus] at halt
        cases halt
  | cons second tail => exact plain ⟨word, behind⟩

theorem closed_of_callee {expression : Expression} (callee : Tier.callee.rank ≤ expression.tier.rank) :
    expression.isOpen = false := by
  cases expression with
  | binary operator left right =>
      rw [tier] at callee
      cases operator <;> simp [Operator.level, Tier.rank] at callee
  | integer value => rfl
  | not | lambda | conditional | prefer => simp [tier, Tier.rank] at callee
  | _ => rfl

theorem tier_ends_of_sign {operator : Operator} (sign : operator ≠ .concatenation)
    (rest : List Lexeme) :
    (Tier.chain operator.level).Ends (Lexeme.sign operator.token true :: rest) := by
  refine ⟨by simp [continuesPath], by simp, ?_, ?_⟩
  · intro level above
    cases operator <;> cases level <;>
      first | rfl | exact absurd above (by decide)
  · intro loose
    cases operator <;> exact absurd loose (by decide)

theorem tier_ends_of_operand {token : Token} (operand : startsOperand token = true)
    (rest : List Lexeme) : (Tier.chain .additive).Ends (Lexeme.sign token true :: rest) := by
  refine ⟨by simp [continuesPath], by simp, ?_, fun loose => absurd loose (by decide)⟩
  intro level above
  cases level with
  | multiplicative => cases token <;> first | rfl | cases operand
  | _ => exact absurd above (by decide)

/-- The parts of a binary operation that its own surroundings tell about. -/
theorem EndsBefore.right {operator : Operator} {left right : Expression} {rest : List Lexeme}
    (before : (binary operator left right).EndsBefore rest) : right.EndsBefore rest :=
  ⟨before.more, before.body, before.merge, before.bars⟩

/-- The grammar reads the written form, whatever stands behind it that is no part of it. -/
def ReadsBack (place : List String) (expression : Expression) : Prop :=
  ∀ (spaced : Bool) {rest : List Lexeme}, expression.EndsBefore rest →
    expression.tier.Ends rest →
      Tier.Reads place expression (expression.written spaced ++ rest) rest expression.tier

namespace ReadsBack

variable {expression : Expression} {rest : List Lexeme}

/-- One that stands alone is read as a whole expression. -/
theorem alone (reads : expression.ReadsBack place) (legible : expression.IsLegible)
    (stands : expression.StandsAlone) (before : expression.EndsBefore rest)
    (ends : Tier.expression.Ends rest) (spaced : Bool) :
    Grammar.Reads place (.expression expression) (expression.written spaced ++ rest) rest := by
  have own := reads spaced before (ends.tighter (Nat.zero_le _))
  have whole : Tier.Reads place expression (expression.written spaced ++ rest) rest .expression :=
    own.loosen (Nat.zero_le _) ends fun strict _ => by
      rcases stands with prefer | plain
      · rw [prefer] at strict
        exact absurd strict (Nat.lt_irrefl _)
      · exact not_startsPreferred legible plain before.more ends spaced
  exact whole

/-- The same before a closing token. -/
theorem closed (reads : expression.ReadsBack place) (legible : expression.IsLegible)
    (stands : expression.StandsAlone) {token : Token} (closes : token.closes = true)
    (bars : expression.last.isLambdaKey = true → token ≠ .pipe) (spaced spaced' : Bool) :
    Grammar.Reads place (.expression expression)
      (expression.written spaced ++ sign token spaced' :: rest) (sign token spaced' :: rest) :=
  reads.alone legible stands (endsBefore_of_closes closes bars _ _)
    (Tier.ends_of_closes closes _ _ _) spaced

theorem integer (value : Int64) :
    (Expression.integer value).ReadsBack place := by
  intro spaced rest before ends
  rw [written, Written.integer, tier] at *
  split
  · have reads : Reads place (.unary (.integer (- -value)))
        (sign .minus spaced :: sign (.integer (-value)) false :: rest) _ := .negative rfl rfl rfl
    rwa [Int64.neg_neg, advance_sign, advance_cons before.more] at reads
  · intro whole last others
    refine .applied (by simp) (by simp) (.integer rfl) ?_
    rwa [List.singleton_append, advance_cons before.more]

theorem list {entries : List Expression}
    (inside : ∀ {rest : List Lexeme}, rest ≠ [] → Grammar.Reads place (.separated .entries entries)
      (writtenSeparated false entries ++ sign .rightBracket false :: rest) rest) :
    (Expression.list entries).ReadsBack place := by
  intro spaced rest before _ whole last others
  rw [written, List.cons_append, List.append_assoc, List.singleton_append]
  refine .applied (by simp) (by simp) (.list rfl ?_) others
  rw [advance_append]
  exact inside before.more

theorem reference {path : List String} (legible : isPath path)
    (free : ∀ key ∈ path.head?, key ∉ reserved) : (Expression.reference path).ReadsBack place := by
  intro spaced rest before ends whole last others
  have halt := ends.path
  unfold isPath at legible
  split at legible
  · rename_i key path
    have keys := keys_written before.more halt legible.1 legible.2 false
    rcases Written.step_starts legible.1 with ⟨token, tail, same⟩
    rw [Written.keys, same] at keys
    rw [written, Written.path, Written.keys, same]
    exact .applied (by simp) (by simp) (.root rfl rfl keys) others
  · cases path with
    | nil => exact legible.elim
    | cons key path =>
        have steps := keyPath_written before.more halt legible spaced
        rw [written]
        rw [Written.path_of_key legible.1, Written.keys, Written.step_of_name legible.1] at steps ⊢
        refine .applied (by simp) (by simp) (.reference rfl (free key rfl) ?_ ?_ steps) others
        · rintro ⟨word, bar⟩
          cases word
          cases path with
          | nil =>
              rw [Written.steps, List.flatMap_nil, List.append_nil, List.singleton_append,
                advance_cons before.more] at bar
              have apart := before.bars rfl
              exact bar.elim apart.1 apart.2
          | cons next path => rcases bar with bar | bar <;> cases bar
        · rintro ⟨word, bracket, touches⟩
          cases path with
          | nil =>
              rw [Written.steps, List.flatMap_nil, List.append_nil, List.singleton_append,
                advance_cons before.more] at bracket touches
              exact halt ⟨touches, .inl bracket⟩
          | cons next path => cases bracket

theorem group {inner : Expression} (reads : inner.ReadsBack place) (legible : inner.IsLegible)
    (stands : inner.StandsAlone) : (Expression.group inner).ReadsBack place := by
  intro spaced rest before _ whole last others
  rw [written, List.cons_append, List.append_assoc, List.singleton_append]
  have inside : Reads place (.expression inner) (advance (sign .leftParenthesis spaced ::
      (inner.written false ++ sign .rightParenthesis false :: rest)))
      (sign .rightParenthesis false :: rest) := by
    rw [advance_append]
    exact reads.closed legible stands rfl (fun _ => by decide) false false
  have close := Reads.group rfl inside rfl
  rw [advance_cons before.more] at close
  exact .applied (by simp) (by simp) close others

theorem merge {path : List String} {redirected replacing : Bool}
    (legible : redirected = true → isKeyPath path) (own : redirected = false → path = place)
    (free : redirected = true → replacing = false → path.head? ≠ some "replace") :
    (Expression.merge path redirected replacing).ReadsBack place := by
  intro spaced rest before ends whole last others
  rw [written, List.cons_append, List.append_assoc]
  cases redirected with
  | true =>
      have steps := keyPath_written before.more ends.path (legible rfl) true
      cases path with
      | nil => exact (legible rfl).elim
      | cons key path =>
          have named := (legible rfl).1
          rw [Written.path_of_key named, Written.keys, Written.step_of_name named] at steps
          simp only [if_true, Written.path_of_key named, Written.keys,
            Written.step_of_name named]
          cases replacing with
          | true => exact .applied (by simp) (by simp) (.redirected rfl rfl steps) others
          | false =>
              have other : Token.identifier key ≠ .identifier "replace" := by
                simpa using free rfl rfl
              have behind : behindReplace (sign (.identifier key) true ::
                  (Written.steps path ++ rest)) = _ := behindReplace_other other
              have reads : Reads place _ (sign (.identifier "merge") spaced ::
                  sign (.identifier key) true :: (Written.steps path ++ rest)) rest :=
                .redirected rfl (congrArg peek behind) (by rw [advance_sign, behind]; exact steps)
              rw [advance_sign, peek_sign, decide_eq_false other] at reads
              exact .applied (by simp) (by simp) reads others
  | false =>
      cases own rfl
      have word := before.merge rfl
      cases replacing with
      | true =>
          have behind := behindReplace_replace before.more true
          have reads : Reads place _ (sign (.identifier "merge") spaced ::
              sign (.identifier "replace") true :: rest) _ :=
            .merge rfl (by rwa [advance_sign, behind])
          rw [advance_sign, behind] at reads
          exact .applied (by simp) (by simp) reads others
      | false =>
          have other : peek rest ≠ .identifier "replace" := word "replace"
          have behind := behindReplace_other other
          have reads : Reads place _ (sign (.identifier "merge") spaced :: rest) _ :=
            .merge rfl (by rwa [advance_cons before.more, behind])
          rw [advance_cons before.more, behind, decide_eq_false other] at reads
          exact .applied (by simp) (by simp) reads others

theorem not {operand : Expression} (reads : operand.ReadsBack place)
    (legible : operand.IsLegible) (tight : Tier.unary.rank ≤ operand.tier.rank) :
    (Expression.not operand).ReadsBack place := by
  intro spaced rest before ends
  have own := reads false ⟨before.more, before.body, before.merge, before.bars⟩
    (ends.tighter tight)
  have unary : Tier.Reads place operand _ rest .unary :=
    own.loosen tight ends (fun _ zero => absurd zero (by decide))
  have next : Reads place (.unary operand)
      (advance (sign .bang spaced :: (operand.written false ++ rest))) rest := by
    rwa [advance_cons (written_more legible false rest)]
  exact Reads.not rfl next

theorem binary {operator : Operator} {left right : Expression} (first : left.ReadsBack place)
    (second : right.ReadsBack place) (legible : right.IsLegible)
    (joined : Joined operator left right) :
    (Expression.binary operator left right).ReadsBack place := by
  intro spaced rest before ends
  have next := (second true before.right (ends.tighter (Nat.le_of_lt joined.tight))).operand
    joined.tight ends
  have closed : left.isOpen = true → Tier.expression.Ends (Written.operator operator ++
      (right.written true ++ rest)) := by simp [joined.closed]
  have positive : (Tier.chain operator.level).rank ≠ 0 := by cases operator <;> decide
  rw [written, List.append_assoc, List.append_assoc, tier]
  by_cases sign : operator = .concatenation
  · subst sign
    rcases joined.beside rfl with ⟨token, tail, same, operand, apart⟩
    have stops : (Tier.chain .additive).Ends (right.written true ++ rest) := by
      rw [same]
      exact tier_ends_of_operand operand _
    have mark : peek (right.written true ++ rest) = token := by rw [same]; rfl
    have ahead : left.EndsBefore (right.written true ++ rest) := by
      refine ⟨written_more legible true rest, closed, ?_, ?_⟩
      · rw [mark]
        exact apart
      · rw [mark]
        rintro _
        constructor <;> (rintro rfl; cases operand)
    have chain : Tier.Reads place left _ _ (.chain .additive) :=
      (first spaced ahead (stops.tighter joined.loose)).loosen joined.loose stops
        (fun _ zero => absurd zero positive)
    intro whole last others
    have more : Level.additive.operator? (peek (right.written true ++ rest)) =
        some .concatenation := by
      rw [mark]
      exact Level.operator?_of_startsOperand operand
    exact chain _ _ (.chainMore more next others)
  · have stops := tier_ends_of_sign sign (right.written true ++ rest)
    rw [Written.operator, if_neg sign] at closed ⊢
    have ahead : left.EndsBefore (Lexeme.sign operator.token true ::
        (right.written true ++ rest)) := by
      refine ⟨List.cons_ne_nil _ _, closed, ?_, ?_⟩
      · rintro _ name
        cases operator <;> exact nofun
      · intro key
        refine ⟨by cases operator <;> exact nofun, ?_⟩
        intro same
        have fallback : operator = .fallback := by
          cases operator <;> first | rfl | exact absurd same nofun
        rw [joined.bars fallback] at key
        cases key
    have chain : Tier.Reads place left _ _ (.chain operator.level) :=
      (first spaced ahead (stops.tighter joined.loose)).loosen joined.loose stops
        (fun _ zero => absurd zero positive)
    intro whole last others
    refine chain _ _ (.chainMore (Operator.operator?_token sign) ?_ others)
    rwa [if_neg sign, advance_cons (written_more legible true rest)]

theorem conditional {condition consequence alternative : Expression}
    (first : condition.ReadsBack place) (second : consequence.ReadsBack place)
    (third : alternative.ReadsBack place)
    (legible : (Expression.conditional condition consequence alternative).IsLegible)
    (loose : (Tier.chain .fallback).rank ≤ condition.tier.rank) (closed : condition.isOpen = false)
    (stands : consequence.StandsAlone) (stands' : alternative.StandsAlone) :
    (Expression.conditional condition consequence alternative).ReadsBack place := by
  intro spaced rest before ends
  have whole : Tier.expression.Ends rest := before.body rfl
  have middle : Grammar.Reads place (.expression consequence) _
      (sign .colon true :: (alternative.written true ++ rest)) :=
    second.closed legible.2.1 stands rfl (fun _ => by decide) true true
  have last := third.alone legible.2.2 stands'
    ⟨before.more, fun _ => whole, before.merge, before.bars⟩ whole true
  have ahead : condition.EndsBefore (sign .question true :: (consequence.written true ++
      sign .colon true :: (alternative.written true ++ rest))) :=
    ⟨List.cons_ne_nil _ _, by simp [closed], fun _ => nofun, fun _ => ⟨nofun, nofun⟩⟩
  have stops : (Tier.chain .fallback).Ends (sign .question true :: (consequence.written true ++
      sign .colon true :: (alternative.written true ++ rest))) := by
    refine ⟨by simp [continuesPath], by simp, ?_, fun low => absurd low (by decide)⟩
    intro level _
    cases level <;> rfl
  have chain : Tier.Reads place condition _ _ (.chain .fallback) :=
    (first spaced ahead (stops.tighter loose)).loosen loose stops
      (fun _ zero => absurd zero (by decide))
  have start := chain _ _ (.chainOver rfl)
  have middle : Grammar.Reads place (.expression consequence)
      (advance (sign .question true :: (consequence.written true ++
        sign .colon true :: (alternative.written true ++ rest))))
      (sign .colon true :: (alternative.written true ++ rest)) := by
    rwa [advance_append]
  have last : Grammar.Reads place (.expression alternative)
      (advance (sign .colon true :: (alternative.written true ++ rest))) rest := by
    rwa [advance_cons (written_more legible.2.2 true rest)]
  rw [written]
  simp only [List.append_assoc, List.cons_append]
  exact Grammar.Reads.conditional start rfl middle rfl last

theorem call {function : Expression} {arguments : List Expression}
    (reads : function.ReadsBack place) (callee : Tier.callee.rank ≤ function.tier.rank)
    (inside : ∀ {rest : List Lexeme}, rest ≠ [] →
      Grammar.Reads place (.separated .arguments arguments)
        (writtenSeparated false arguments ++ sign .rightParenthesis false :: rest) rest) :
    (Expression.call function arguments).ReadsBack place := by
  intro spaced rest before _ whole last others
  have ahead : function.EndsBefore (sign .leftParenthesis false ::
      (writtenSeparated false arguments ++ sign .rightParenthesis false :: rest)) :=
    ⟨List.cons_ne_nil _ _, by simp [closed_of_callee callee], fun _ => nofun,
      fun _ => ⟨nofun, nofun⟩⟩
  have stops : Tier.callee.Ends (sign .leftParenthesis false ::
      (writtenSeparated false arguments ++ sign .rightParenthesis false :: rest)) := by
    refine ⟨by simp [continuesPath], fun low => absurd low (by decide), ?_,
      fun low => absurd low (by decide)⟩
    intro level above
    cases level <;> exact absurd above (by decide)
  have own : Tier.Reads place function _ _ .callee :=
    (reads spaced ahead (stops.tighter callee)).loosen callee stops
      (fun _ zero => absurd zero (by decide))
  rw [written]
  simp only [List.append_assoc, List.cons_append, List.nil_append]
  refine own _ _ (.called rfl rfl ?_ others)
  rw [advance_append]
  exact inside before.more

theorem lambda {parameters : List String} {body : Expression} (reads : body.ReadsBack place)
    (legible : body.IsLegible) (stands : body.StandsAlone) :
    (Expression.lambda parameters body).ReadsBack place := by
  intro spaced rest before ends
  have whole : Tier.expression.Ends rest := before.body rfl
  have inside := reads.alone legible stands
    ⟨before.more, fun _ => whole, before.merge, before.bars⟩ whole false
  have more := written_more legible false rest
  have behind : Reads place (.lambda (.lambda parameters body))
      (Written.bars true parameters ++ sign .arrow false :: (body.written false ++ rest))
      rest := by
    have arrow : Reads place (.expression body)
        (advance (sign .arrow false :: (body.written false ++ rest))) rest := by
      rwa [advance_cons more]
    unfold Written.bars
    split
    · rename_i none
      subst none
      rw [List.singleton_append]
      exact .bare rfl rfl arrow
    · rename_i some
      rw [List.cons_append, List.append_assoc, List.singleton_append]
      refine .named rfl ?_ (peek_sign _ _ _) arrow
      rw [advance_append]
      exact parameters_written (List.cons_ne_nil _ _) some
  rcases Written.bars_starts parameters with ⟨token, tail, known, same⟩
  rw [written]
  simp only [List.append_assoc, List.cons_append]
  rw [same, List.cons_append] at behind ⊢
  exact Reads.applied (by simp) (by simp) (.lambda ⟨rfl, known.symm⟩ behind)
    (.callsOver (ends.call (Nat.le_refl _)))

theorem prefer {inner : Expression} (reads : inner.ReadsBack place) (legible : inner.IsLegible)
    (loose : Tier.conditional.rank ≤ inner.tier.rank) :
    (Expression.prefer inner).ReadsBack place := by
  intro spaced rest before ends
  have own := reads true ⟨before.more, fun _ => before.body rfl, before.merge, before.bars⟩
    (ends.tighter (Nat.zero_le _))
  have inside : Tier.Reads place inner _ rest .conditional :=
    own.loosen loose (ends.tighter (Nat.zero_le _)) (fun _ zero => absurd zero (by decide))
  have behind : Reads place (.conditional inner) (advance (sign (.identifier "prefer") spaced ::
      (inner.written true ++ rest))) rest := by
    rwa [advance_cons (written_more legible true rest)]
  rcases written_starts legible with ⟨token, tail, starts, same⟩
  have starts : startsPreferred (sign (.identifier "prefer") spaced ::
      (inner.written true ++ rest)) := by
    rw [same]
    exact ⟨rfl, starts⟩
  exact Reads.preferred starts behind

theorem single {token : Token} (whole : expression.tier = .callee)
    (same : ∀ spaced, expression.written spaced = [sign token spaced])
    (other : token ≠ .bang ∧ token ≠ .minus)
    (reads : ∀ {lexemes : List Lexeme}, peek lexemes = token →
      Reads place (.primary expression) lexemes (advance lexemes)) :
    expression.ReadsBack place := by
  intro spaced rest before _
  rw [whole, same, List.singleton_append]
  intro read last others
  refine .applied other.1 other.2 (reads rfl) ?_
  rwa [advance_cons before.more]

theorem mapping {collection function : Expression} {front : List Lexeme}
    (same : ∀ spaced, (Expression.mapping collection function).written spaced =
      sign (.identifier "map") spaced :: sign .leftBracket false :: (collection.written false ++
        sign .pipe false :: (front ++ [sign .rightBracket false])))
    (reads : collection.ReadsBack place) (legible : collection.IsLegible)
    (stands : collection.StandsAlone) (key : collection.last.isLambdaKey = false)
    (mapped : ∀ {rest : List Lexeme}, Reads place (.mapped function)
      (front ++ sign .rightBracket false :: rest) (sign .rightBracket false :: rest)) :
    (Expression.mapping collection function).ReadsBack place := by
  intro spaced rest before _ whole last others
  have first : Grammar.Reads place (.expression collection) _
      (sign .pipe false :: (front ++ sign .rightBracket false :: rest)) :=
    reads.closed legible stands rfl (by simp [key]) false false
  have second : Reads place (.mapped function)
      (advance (sign .pipe false :: (front ++ sign .rightBracket false :: rest)))
      (sign .rightBracket false :: rest) := by
    rw [advance_append]
    exact mapped
  have all := Reads.mappingOf first rfl second rfl
  rw [advance_cons before.more] at all
  rw [same]
  simp only [List.append_assoc, List.cons_append, List.nil_append]
  refine .applied (by simp) (by simp) (.mapping ⟨rfl, rfl, rfl⟩ ?_) others
  rwa [advance_sign, advance_append]

end ReadsBack

/-! ## What stands behind the first token -/

theorem second_written : ∀ {expression : Expression}, expression.IsLegible →
    expression.IsLayered place → (∀ parameters body, expression ≠ .lambda parameters body) →
    ∀ (spaced : Bool) {rest : List Lexeme}, rest ≠ [] → (peek rest).separates = false →
      ∀ {name : String}, peek (expression.written spaced ++ rest) = .identifier name →
        (peek (advance (expression.written spaced ++ rest))).separates = false
  | .nil, _, _, _, _, _, more, apart, _, _ | .boolean _, _, _, _, _, _, more, apart, _, _
  | .auto _, _, _, _, _, _, more, apart, _, _ => by
      rwa [written, List.singleton_append, advance_cons more]
  | .integer value, _, _, _, _, _, _, _, _, word => by
      rw [written, Written.integer] at word
      split at word <;> cases word
  | .text _, _, _, _, _, _, _, _, _, word | .list _, _, _, _, _, _, _, _, _, word
  | .group _, _, _, _, _, _, _, _, _, word | .not _, _, _, _, _, _, _, _, _, word => by cases word
  | .reference path, legible, _, _, spaced, _, more, apart, _, word => by
      rw [written] at word ⊢
      have legible : isPath path := legible
      unfold isPath at legible
      split at legible
      · cases word
      · cases path with
        | nil => exact legible.elim
        | cons key path =>
            rw [Written.path_of_key legible.1, Written.keys, Written.step_of_name legible.1]
            cases path with
            | nil => rwa [Written.steps, List.flatMap_nil, List.append_nil,
                List.singleton_append, advance_cons more]
            | cons next path => rfl
  | .merge path redirected replacing, legible, _, _, spaced, rest, more, apart, _, _ => by
      rw [written]
      cases replacing with
      | true =>
          rw [if_pos rfl]
          cases redirected <;> rfl
      | false =>
          cases redirected with
          | true =>
              rcases Written.path_starts (isPath_of_isKeyPath (legible rfl)) with
                ⟨token, tail, starts, same⟩
              simp only [if_true, same]
              exact Token.separates_of_starts starts
          | false => exact (advance_cons more _).symm ▸ apart
  | .binary operator left right, legible, layered, _, spaced, rest, more, apart, _, word => by
      have plain : ∀ parameters body, left ≠ .lambda parameters body := by
        rintro parameters body rfl
        cases layered.2.2.closed
      rw [written, List.append_assoc] at word ⊢
      refine second_written legible.1 layered.1 plain spaced ?_ ?_ word
      · simp [written_more legible.2]
      · rcases written_starts legible.2 with ⟨token, tail, starts, same⟩
        rw [same, Written.operator]
        split
        · exact Token.separates_of_starts starts
        · cases operator <;> rfl
  | .conditional condition _ _, legible, layered, _, spaced, _, _, _, _, word => by
      have plain : ∀ parameters body, condition ≠ .lambda parameters body := by
        rintro parameters body rfl
        cases layered.1.2.2
      rw [written, List.append_assoc] at word ⊢
      exact second_written legible.1 layered.1.1 plain spaced (List.cons_ne_nil _ _) rfl word
  | .call function _, legible, layered, _, spaced, _, _, _, _, word => by
      have plain : ∀ parameters body, function ≠ .lambda parameters body := by
        rintro parameters body rfl
        exact absurd layered.1.2 (by simp [tier, Tier.rank])
      rw [written, List.append_assoc] at word ⊢
      exact second_written legible.1 layered.1.1 plain spaced (List.cons_ne_nil _ _) rfl word
  | .lambda parameters body, _, _, plain, _, _, _, _, _, _ => absurd rfl (plain parameters body)
  | .mapping collection function, _, _, _, spaced, _, _, _, _, _ => by
      rcases lambda_or_plain function with ⟨parameters, body, rfl⟩ | plain
      · rfl
      · rw [written_mapping plain]
        rfl
  | .prefer inner, legible, _, _, _, rest, _, _, _, _ => by
      have legible : inner.IsLegible := legible
      rcases written_starts legible with ⟨token, tail, starts, same⟩
      rw [written, same]
      exact Token.separates_of_starts starts

/-! ## The grammar reads the written form -/

/-- The body of a lambda is read in a mapping as in the lambda itself. -/
theorem ReadsBack.mapping_lambda {collection body : Expression} {parameters : List String}
    (first : collection.ReadsBack place) (second : body.ReadsBack place)
    (legible : (Expression.mapping collection (.lambda parameters body)).IsLegible)
    (layered : (Expression.mapping collection (.lambda parameters body)).IsLayered place) :
    (Expression.mapping collection (.lambda parameters body)).ReadsBack place := by
  have named : parameters ≠ [] := by
    rintro rfl
    exact layered.2.2.2 body rfl
  have same (spaced : Bool) : (Expression.mapping collection (.lambda parameters body)).written
      spaced = sign (.identifier "map") spaced :: sign .leftBracket false ::
        (collection.written false ++ sign .pipe false :: ((Written.names parameters ++
          sign .pipe false :: sign .arrow false :: body.written false) ++
            [sign .rightBracket false])) := by
    rw [written, Written.bars, if_neg named]
    simp only [List.append_assoc, List.cons_append, List.nil_append]
  refine .mapping same first legible.1 layered.1.2.1 layered.1.2.2 ?_
  intro rest
  have inside : Reads place (.expression body) _ (sign .rightBracket false :: rest) :=
    second.closed legible.2.2 layered.2.1.2 rfl (fun _ => by decide) false false
  rw [List.append_assoc, List.cons_append, List.cons_append]
  refine .short (parameters_written (List.cons_ne_nil _ _) named) rfl ?_
  rwa [advance_append]

/-- Another function is not mistaken for a parameter list. -/
theorem ReadsBack.mapping_plain {collection function : Expression}
    (first : collection.ReadsBack place) (second : function.ReadsBack place)
    (plain : ∀ parameters body, function ≠ .lambda parameters body)
    (legible : (Expression.mapping collection function).IsLegible)
    (layered : (Expression.mapping collection function).IsLayered place) :
    (Expression.mapping collection function).ReadsBack place := by
  refine .mapping (fun spaced => written_mapping plain spaced collection) first legible.1
    layered.1.2.1 layered.1.2.2 ?_
  intro rest
  refine .full ?_ (second.closed legible.2 layered.2.2.1 rfl (fun _ => by decide) false false)
  intro parameters middle names
  rcases names.separates with ⟨⟨name, word⟩, separates⟩
  have other := second_written legible.2 layered.2.1 plain false
    (List.cons_ne_nil (sign .rightBracket false) rest) rfl word
  rw [other] at separates
  cases separates

/-- A list of entries is read once its entries are. -/
theorem separated_of_entries {entries : List Expression} (enclosure : Enclosure)
    (legible : AllLegible entries) (more : rest ≠ [])
    (reads : entries ≠ [] → Reads place (.entries enclosure entries)
      (writtenSeparated false entries ++ sign enclosure.close false :: rest) rest) :
    Reads place (.separated enclosure entries)
      (writtenSeparated false entries ++ sign enclosure.close false :: rest) rest := by
  cases entries with
  | nil =>
      have nothing : Reads place (.separated enclosure [])
          (sign enclosure.close false :: rest) _ := .nothing rfl
      rwa [advance_cons more] at nothing
  | cons entry entries =>
      refine .something ?_ (reads (List.cons_ne_nil _ _))
      rcases written_starts legible.1 with ⟨token, tail, starts, same⟩
      have first : peek (writtenSeparated false (entry :: entries) ++
          sign enclosure.close false :: rest) = token := by
        cases entries with
        | nil => rw [writtenSeparated, same, List.cons_append, peek_sign]
        | cons next entries =>
            rw [writtenSeparated_cons, same, List.cons_append, List.cons_append, peek_sign]
      rw [first]
      rintro rfl
      cases enclosure <;> rcases starts with starts | starts <;> cases starts

mutual
/-- The grammar reads what is written from a legible and well-layered expression. -/
theorem readsBack : ∀ {expression : Expression}, expression.IsLegible →
    expression.IsLayered place → expression.ReadsBack place
  | .nil, _, _ => .single rfl (fun _ => rfl) ⟨nofun, nofun⟩ .nil
  | .boolean true, _, _ => .single rfl (fun _ => rfl) ⟨nofun, nofun⟩ .yes
  | .boolean false, _, _ => .single rfl (fun _ => rfl) ⟨nofun, nofun⟩ .no
  | .auto path, _, layered => by
      have own : path = place := layered
      subst own
      exact .single rfl (fun _ => rfl) ⟨nofun, nofun⟩ .auto
  | .integer value, _, _ => .integer value
  | .text value, _, _ => .single rfl (fun _ => rfl) ⟨nofun, nofun⟩ .text
  | .list entries, legible, layered =>
      .list fun more => separated_of_entries .entries legible more
        (entries_written .entries legible layered false more)
  | .reference path, legible, layered => .reference legible layered
  | .merge path redirected replacing, legible, layered => .merge legible layered.1 layered.2
  | .group inner, legible, layered =>
      .group (readsBack legible layered.1) legible layered.2
  | .binary operator left right, legible, layered =>
      .binary (readsBack legible.1 layered.1) (readsBack legible.2 layered.2.1) legible.2
        layered.2.2
  | .not operand, legible, layered => .not (readsBack legible layered.1) legible layered.2
  | .conditional condition consequence alternative, legible, layered =>
      .conditional (readsBack legible.1 layered.1.1) (readsBack legible.2.1 layered.2.1.1)
        (readsBack legible.2.2 layered.2.2.1) legible layered.1.2.1 layered.1.2.2
        layered.2.1.2 layered.2.2.2
  | .call function arguments, legible, layered =>
      .call (readsBack legible.1 layered.1.1) layered.1.2 fun more =>
        separated_of_entries .arguments legible.2 more
          (entries_written .arguments legible.2 layered.2 false more)
  | .lambda parameters body, legible, layered =>
      .lambda (readsBack legible.2 layered.1) legible.2 layered.2
  | .mapping collection function, legible, layered => by
      have first := readsBack legible.1 layered.1.1
      cases function with
      | lambda parameters body =>
          exact .mapping_lambda first (readsBack legible.2.2 layered.2.1.1) legible layered
      | _ => exact .mapping_plain first (readsBack legible.2 layered.2.1) nofun legible layered
  | .prefer inner, legible, layered => .prefer (readsBack legible layered.1) legible layered.2

theorem entries_written (enclosure : Enclosure) : ∀ {entries : List Expression},
    AllLegible entries → AllLayered place entries → ∀ (spaced : Bool) {rest : List Lexeme},
      rest ≠ [] → entries ≠ [] → Reads place (.entries enclosure entries)
        (writtenSeparated spaced entries ++ sign enclosure.close false :: rest) rest
  | [], _, _, _, _, _, other => absurd rfl other
  | [entry], legible, layered, spaced, rest, more, _ => by
      have reads : Reads place (.expression entry) _ (sign enclosure.close false :: rest) :=
        (readsBack legible.1 layered.1.1).closed legible.1 layered.1.2 enclosure.closes
          (fun _ => by cases enclosure <;> exact nofun) spaced false
      have last := Reads.last reads rfl
      rwa [advance_cons more] at last
  | entry :: next :: entries, legible, layered, spaced, rest, more, _ => by
      have others := entries_written enclosure legible.2 layered.2 true more (List.cons_ne_nil _ _)
      have first : Reads place (.expression entry) _ (sign .comma false ::
          (writtenSeparated true (next :: entries) ++ sign enclosure.close false :: rest)) :=
        (readsBack legible.1 layered.1.1).closed legible.1 layered.1.2 rfl
          (fun _ => by decide) spaced false
      rw [writtenSeparated_cons, List.append_assoc, List.cons_append]
      refine .more first rfl ?_
      rwa [advance_append]
end

end Expression

end Stencil
