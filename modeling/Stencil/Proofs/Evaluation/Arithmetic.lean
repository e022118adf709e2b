import Mathlib.Tactic.Linarith
import Stencil.Evaluation.Evaluate
import Stencil.Proofs.Evaluation.Precedence

namespace Stencil

/-! Arithmetic on words is arithmetic on unbounded integers, as long as the result fits. -/

def Operator.isArithmetic : Operator → Bool
  | .add | .subtract | .multiply | .divide | .modulo => true
  | _ => false

/-- The operators that divide. -/
def Operator.divides (operator : Operator) : Prop :=
  operator = .divide ∨ operator = .modulo

namespace Number

/-! ## Exact results -/

/-- The quotient is truncated towards zero, and the remainder has the sign of the dividend. -/
structure Division (left right quotient remainder : Int) : Prop where
  whole : left = quotient * right + remainder
  truncated : (quotient * right).natAbs ≤ left.natAbs
  small : remainder.natAbs < right.natAbs
  sign : 0 ≤ remainder * left

theorem Division.ne_zero {left right quotient remainder : Int}
    (division : Division left right quotient remainder) : right ≠ 0 := by
  rintro rfl
  exact absurd division.small (Nat.not_lt_zero _)

theorem division_tdiv (left : Int) {right : Int} (other : right ≠ 0) :
    Division left right (left.tdiv right) (left.tmod right) where
  whole := (Int.tdiv_mul_add_tmod left right).symm
  truncated := by
    rw [Int.natAbs_mul, Int.natAbs_tdiv]
    exact Nat.div_mul_le_self _ _
  small := by
    rw [Int.natAbs_tmod]
    exact Nat.mod_lt _ (Int.natAbs_pos.mpr other)
  sign := by
    rcases Int.le_total 0 left with positive | negative
    · exact Int.mul_nonneg (Int.tmod_nonneg right positive) positive
    · have opposite := Int.tmod_nonneg right (Int.neg_nonneg_of_nonpos negative)
      rw [Int.neg_tmod] at opposite
      exact Int.mul_nonneg_of_nonpos_of_nonpos (by omega) negative

/-- There is one quotient and one remainder. -/
theorem Division.unique {left right quotient remainder : Int}
    (division : Division left right quotient remainder) :
    quotient = left.tdiv right ∧ remainder = left.tmod right := by
  have other := division.ne_zero
  have small := division.small
  have whole : remainder + right * quotient = left := by
    rw [division.whole, Int.mul_comm, Int.add_comm]
  have held : left.tdiv right = quotient ∧ left.tmod right = remainder := by
    rcases Int.lt_trichotomy left 0 with negative | rfl | positive
    · have sign : remainder ≤ 0 := by
        by_contra above
        have product := Int.mul_neg_of_pos_of_neg (Int.not_le.mp above) negative
        exact absurd division.sign (Int.not_le.mpr product)
      exact (Int.tdiv_tmod_unique' negative.le other).mpr ⟨whole, by omega, sign⟩
    · have nothing : quotient * right = 0 := by
        have truncated := division.truncated
        omega
      have rest : remainder = 0 := by
        have whole := division.whole
        omega
      have none := (Int.mul_eq_zero.mp nothing).resolve_right other
      exact ⟨by rw [Int.zero_tdiv, none], by rw [Int.zero_tmod, rest]⟩
    · have sign : 0 ≤ remainder := by
        by_contra below
        have product := Int.mul_neg_of_neg_of_pos (Int.not_le.mp below) positive
        exact absurd division.sign (Int.not_le.mpr product)
      exact (Int.tdiv_tmod_unique positive.le other).mpr ⟨whole, sign, by omega⟩
  exact ⟨held.1.symm, held.2.symm⟩

/-- The result of an operator on unbounded integers. -/
inductive Exact (left right : Int) : Operator → Int → Prop where
  | add : Exact left right .add (left + right)
  | subtract : Exact left right .subtract (left - right)
  | multiply : Exact left right .multiply (left * right)
  | divide {quotient remainder : Int} (division : Division left right quotient remainder) :
      Exact left right .divide quotient
  | modulo {quotient remainder : Int} (division : Division left right quotient remainder) :
      Exact left right .modulo remainder

namespace Exact

variable {left right result result' : Int} {operator : Operator}

theorem unique (exact : Exact left right operator result)
    (exact' : Exact left right operator result') : result = result' := by
  cases exact with
  | add | subtract | multiply =>
      cases exact'
      rfl
  | divide division =>
      cases exact' with
      | divide division' => exact division.unique.1.trans division'.unique.1.symm
  | modulo division =>
      cases exact' with
      | modulo division' => exact division.unique.2.trans division'.unique.2.symm

/-- The quotient and the remainder belong together. -/
theorem whole {quotient remainder : Int} (divided : Exact left right .divide quotient)
    (rest : Exact left right .modulo remainder) : left = quotient * right + remainder := by
  cases divided with
  | divide division =>
      cases rest with
      | modulo division' =>
          rw [division'.unique.2, ← division.unique.2]
          exact division.whole

/-- Only a division by zero has none. -/
theorem exists_iff (arithmetic : operator.isArithmetic) :
    (∃ result, Exact left right operator result) ↔ ¬ (operator.divides ∧ right = 0) := by
  constructor
  · rintro ⟨result, exact⟩ ⟨divides, zero⟩
    cases exact with
    | add | subtract | multiply => simp [Operator.divides] at divides
    | divide division | modulo division => exact division.ne_zero zero
  · intro defined
    cases operator with
    | add => exact ⟨_, .add⟩
    | subtract => exact ⟨_, .subtract⟩
    | multiply => exact ⟨_, .multiply⟩
    | divide => exact ⟨_, .divide (division_tdiv left fun zero => defined ⟨.inl rfl, zero⟩)⟩
    | modulo => exact ⟨_, .modulo (division_tdiv left fun zero => defined ⟨.inr rfl, zero⟩)⟩
    | _ => cases arithmetic

end Exact

/-! ## Words -/

/-- A word has this value. -/
def Fits (value : Int) : Prop := minimum ≤ value ∧ value ≤ maximum

theorem fits_toInt (word : Int64) : Fits word.toInt := by
  have lower := word.le_toInt
  have upper := word.toInt_lt
  unfold Fits minimum maximum
  omega

theorem word?_eq_none_iff_not_fits {value : Int} : word? value = none ↔ ¬ Fits value := by
  rw [word?_eq_none_iff, Fits]
  omega

/-- Only one quotient of words leaves their range, by one. -/
theorem fits_tdiv {left right : Int} (bounds : Fits left) (other : right ≠ 0) :
    Fits (left.tdiv right) ↔ ¬ (left = minimum ∧ right = -1) := by
  have magnitude : (left.tdiv right).natAbs = left.natAbs / right.natAbs := Int.natAbs_tdiv _ _
  unfold Fits minimum maximum at *
  constructor
  · rintro fits ⟨rfl, rfl⟩
    exact absurd fits (by decide)
  · intro regular
    by_cases unit : right.natAbs = 1
    · rcases (show right = 1 ∨ right = -1 by omega) with rfl | rfl
      · rw [Int.tdiv_one]
        exact bounds
      · rw [Int.tdiv_neg, Int.tdiv_one]
        omega
    · have half : left.natAbs / right.natAbs ≤ left.natAbs / 2 :=
        Nat.div_le_div_left (by omega) (by decide)
      omega

/-! ## The operators on words -/

theorem toInt_eq_zero_iff {word : Int64} : word.toInt = 0 ↔ word = 0 := by
  rw [← Int64.toInt_zero, Int64.toInt_inj]

/-- The least word modulo minus one. The remainder is zero, but the quotient does not fit. -/
def IsLeastRemainder (operator : Operator) (left right : Int64) : Prop :=
  operator = .modulo ∧ left.toInt = minimum ∧ right.toInt = -1

section

variable {operator : Operator} {left right : Int64}

/-- The exact result if it fits, and an overflow otherwise. -/
theorem arithmetic_of_exact {result : Int} (exact : Exact left.toInt right.toInt operator result)
    (regular : ¬ IsLeastRemainder operator left right) :
    arithmetic operator left right = (word? result).elim (.error .overflow) .ok := by
  cases exact with
  | add | subtract | multiply =>
      simp only [arithmetic]
      split <;> (rename_i found; rw [found]; rfl)
  | divide division =>
      have other : right ≠ 0 := mt toInt_eq_zero_iff.mpr division.ne_zero
      rw [division.unique.1]
      simp only [arithmetic, if_neg other]
      split <;> (rename_i found; rw [found]; rfl)
  | modulo division =>
      have other : right ≠ 0 := mt toInt_eq_zero_iff.mpr division.ne_zero
      have fits : Fits (left.toInt.tdiv right.toInt) :=
        (fits_tdiv (fits_toInt left) division.ne_zero).mpr fun least => regular ⟨rfl, least⟩
      rw [division.unique.2]
      simp only [arithmetic, if_neg other]
      cases quotient : word? (left.toInt.tdiv right.toInt) with
      | none => exact absurd fits (word?_eq_none_iff_not_fits.mp quotient)
      | some word => cases word? (left.toInt.tmod right.toInt) <;> rfl

theorem arithmetic_zero (divides : operator.divides) (zero : right = 0) :
    arithmetic operator left right = .error .divisionByZero := by
  subst zero
  rcases divides with rfl | rfl <;> rfl

theorem arithmetic_least (least : IsLeastRemainder operator left right) :
    arithmetic operator left right = .error .overflow := by
  rcases least with ⟨rfl, least, minus⟩
  have same : left = Int64.ofInt minimum := by rw [← least, Int64.ofInt_toInt]
  have one : right = -1 := Int64.toInt_inj.mp minus
  rw [same, one]
  rfl

/-- What each result says about the operands. -/
theorem arithmetic_iff (computes : operator.isArithmetic) :
    (∀ result, arithmetic operator left right = .ok result ↔
      Exact left.toInt right.toInt operator result.toInt ∧
        ¬ IsLeastRemainder operator left right) ∧
    (arithmetic operator left right = .error .divisionByZero ↔ operator.divides ∧ right = 0) ∧
    (arithmetic operator left right = .error .overflow ↔
      (∃ result, Exact left.toInt right.toInt operator result ∧ ¬ Fits result) ∨
        IsLeastRemainder operator left right) := by
  have defined := @Exact.exists_iff left.toInt right.toInt operator computes
  rw [toInt_eq_zero_iff] at defined
  by_cases undefined : operator.divides ∧ right = 0
  · have none (result : Int) : ¬ Exact left.toInt right.toInt operator result :=
      fun exact => defined.mp ⟨result, exact⟩ undefined
    rw [arithmetic_zero undefined.1 undefined.2]
    refine ⟨fun result => iff_of_false nofun fun exact => none _ exact.1,
      iff_of_true rfl undefined, iff_of_false nofun ?_⟩
    rintro (⟨result, exact, -⟩ | ⟨-, -, minus⟩)
    · exact none result exact
    · rw [undefined.2] at minus
      cases minus
  · by_cases least : IsLeastRemainder operator left right
    · rw [arithmetic_least least]
      exact ⟨fun result => iff_of_false nofun fun exact => exact.2 least,
        iff_of_false nofun undefined, iff_of_true rfl (.inr least)⟩
    · rcases defined.mpr undefined with ⟨exact, held⟩
      rw [arithmetic_of_exact held least]
      cases word : word? exact with
      | none =>
          have wide := word?_eq_none_iff_not_fits.mp word
          refine ⟨fun result => iff_of_false nofun fun exact' => ?_,
            iff_of_false nofun undefined, iff_of_true rfl (.inl ⟨exact, held, wide⟩)⟩
          rw [held.unique exact'.1] at wide
          exact wide (fits_toInt result)
      | some found =>
          have same : found.toInt = exact := word?_eq_some_iff.mp word
          refine ⟨fun result => ⟨?_, fun exact' => ?_⟩, iff_of_false nofun undefined,
            iff_of_false nofun ?_⟩
          · rintro ⟨⟩
            exact ⟨same ▸ held, least⟩
          · have values := same.trans (held.unique exact'.1)
            exact congrArg Except.ok (Int64.toInt_inj.mp values)
          · rintro (⟨result, exact', wide⟩ | least')
            · rw [exact'.unique held, ← same] at wide
              exact wide (fits_toInt found)
            · exact least least'

theorem arithmetic_cases (computes : operator.isArithmetic) :
    (∃ result, arithmetic operator left right = .ok result) ∨
      arithmetic operator left right = .error .divisionByZero ∨
        arithmetic operator left right = .error .overflow := by
  rcases @arithmetic_iff operator left right computes with ⟨value, zero, overflow⟩
  by_cases undefined : operator.divides ∧ right = 0
  · exact .inr (.inl (zero.mpr undefined))
  by_cases least : IsLeastRemainder operator left right
  · exact .inr (.inr (overflow.mpr (.inr least)))
  have defined : ¬ (operator.divides ∧ right.toInt = 0) := by rwa [toInt_eq_zero_iff]
  rcases (Exact.exists_iff computes).mpr defined with ⟨exact, held⟩
  cases word : word? exact with
  | none =>
      exact .inr (.inr (overflow.mpr (.inl ⟨exact, held, word?_eq_none_iff_not_fits.mp word⟩)))
  | some found =>
      have same : found.toInt = exact := word?_eq_some_iff.mp word
      exact .inl ⟨found, (value found).mpr ⟨same ▸ held, least⟩⟩

end

end Number

/-! ## Evaluation -/

namespace Report

theorem empty_join (report : Report) : Report.join {} report = report.join {} := by
  simp only [join, Bool.false_or, Bool.or_false]
  cases report.issue <;> cases report.source <;> rfl

theorem join_empty_join (before after : Report) :
    (before.join {}).join after = before.join after := by
  simp [join]

theorem join_join_empty (before after : Report) :
    (before.join after).join {} = before.join after := by
  simp [join]

end Report

/-- What is computed from values, after what was reported with them. -/
def called (source : Option String) (report : Report) : Except Obstacle Value → Outcome
  | .ok value => .value (.ofSource source value) report
  | .error .unresolved => .deferred report
  | .error (.issue issue) => .failed { report with issue := some issue }

theorem ofResult_after (source : Option String) (report : Report) (result : Except Obstacle Value) :
    (Outcome.ofResult source result).after report = called source (report.join {}) result := by
  cases result with
  | ok value => rfl
  | error obstacle =>
      cases obstacle with
      | unresolved => rfl
      | issue cause =>
          simp [called, Outcome.ofResult, Outcome.ofObstacle, Outcome.ofIssue, Outcome.after,
            Report.ofIssue, Report.join]

namespace Expression

open Number

variable {evaluator : Evaluator} {binding : Binding} {operator : Operator}
  {first second : Expression} {node other : Node} {before after : Report} {left right : Int64}

/-- What arithmetic makes of the values of both operands, after both of their reports. -/
theorem evaluateWith_values (arithmetic : operator.isArithmetic)
    (here : evaluateWith evaluator binding first = .ok (.value node before))
    (there : evaluateWith evaluator binding second = .ok (.value other after)) :
    evaluateWith evaluator binding (.binary operator first second) =
      .ok (called binding.source (before.join after)
        (orIssue (Value.arithmetic operator node.value other.value))) := by
  have computes : Value.operate operator node.value other.value =
      Value.arithmetic operator node.value other.value := by
    cases operator <;> first | rfl | cases arithmetic
  have binary : evaluateWith evaluator binding (.binary operator first second) =
      .ok (binaryOutcome binding.source operator node other
        ((Report.join {} before).join after)) := by
    rw [evaluateWith, here]
    cases operator <;> try cases arithmetic
    all_goals
      simp only [bind, Except.bind, Outcome.operand, there]
      rfl
  rw [binary, Report.empty_join, Report.join_empty_join, binaryOutcome, computes, ofResult_after,
    Report.join_join_empty]

theorem evaluateWith_arithmetic (arithmetic : operator.isArithmetic)
    (here : evaluateWith evaluator binding first = .ok (.value node before))
    (there : evaluateWith evaluator binding second = .ok (.value other after))
    (word : node.value = .integer left) (word' : other.value = .integer right) :
    evaluateWith evaluator binding (.binary operator first second) =
      .ok (match Number.arithmetic operator left right with
        | .ok result => .value (.ofSource binding.source (.integer result)) (before.join after)
        | .error issue => .failed { before.join after with issue := some issue }) := by
  have computes : Value.arithmetic operator (.integer left) (.integer right) =
      (Number.arithmetic operator left right).map .integer := rfl
  rw [evaluateWith_values arithmetic here there, word, word', computes]
  cases Number.arithmetic operator left right <;> rfl

/-- Arithmetic on words is exact or fails: the value is the result on unbounded integers, a division
by zero fails as such, and a result that does not fit is an overflow. So is the least word modulo
minus one, whose quotient does not fit. -/
theorem integer_arithmetic (arithmetic : operator.isArithmetic)
    (here : evaluateWith evaluator binding first = .ok (.value node before))
    (there : evaluateWith evaluator binding second = .ok (.value other after))
    (word : node.value = .integer left) (word' : other.value = .integer right) :
    let outcome := evaluateWith evaluator binding (.binary operator first second)
    let report := before.join after
    let failed (issue : Issue) := Outcome.failed { report with issue := some issue }
    (∀ result, outcome = .ok (.value (.ofSource binding.source (.integer result)) report) ↔
      Exact left.toInt right.toInt operator result.toInt ∧
        ¬ IsLeastRemainder operator left right) ∧
    (outcome = .ok (failed .divisionByZero) ↔ operator.divides ∧ right = 0) ∧
    (outcome = .ok (failed .overflow) ↔
      (∃ result, Exact left.toInt right.toInt operator result ∧ ¬ Fits result) ∨
        IsLeastRemainder operator left right) ∧
    ((∃ result, outcome = .ok (.value (.ofSource binding.source (.integer result)) report)) ∨
      outcome = .ok (failed .divisionByZero) ∨ outcome = .ok (failed .overflow)) ∧
    (∀ quotient remainder, Exact left.toInt right.toInt .divide quotient →
      Exact left.toInt right.toInt .modulo remainder →
        left.toInt = quotient * right.toInt + remainder) ∧
    Issue.divisionByZero.message = "division by zero" ∧
      Issue.overflow.message = "integer overflow" := by
  intro outcome report failed
  have held : outcome = _ := evaluateWith_arithmetic arithmetic here there word word'
  have value (result : Int64) :
      outcome = .ok (.value (.ofSource binding.source (.integer result)) report) ↔
        Number.arithmetic operator left right = .ok result := by
    rw [held]
    cases Number.arithmetic operator left right <;> simp [report, Node.ofSource]
  have failure (issue : Issue) :
      outcome = .ok (failed issue) ↔ Number.arithmetic operator left right = .error issue := by
    rw [held]
    cases Number.arithmetic operator left right <;> simp [report, failed]
  have results := @arithmetic_iff operator left right arithmetic
  simp only [value, failure]
  exact ⟨results.1, results.2.1, results.2.2, arithmetic_cases arithmetic,
    fun _ _ => Exact.whole, rfl, rfl⟩

theorem integer_arithmetic_truncated :
    evaluateWith (evaluate 0) {} (.binary .divide (.integer (-7)) (.integer 2)) =
      .ok (.value (.ofSource none (.integer (-3))) {}) := by
  have division : Division (-7) 2 (-3) (-1) := by constructor <;> decide
  have both := @integer_arithmetic (evaluate 0) {} .divide (.integer (-7)) (.integer 2)
    (.ofSource none (.integer (-7))) (.ofSource none (.integer 2)) {} {} (-7) 2 rfl rfl rfl rfl rfl
  exact (both.1 (-3)).mpr ⟨.divide division, nofun⟩

/-- A remainder that fits is refused. -/
theorem integer_arithmetic_least :
    ¬ ∀ (operator : Operator) (left right result : Int64), operator.isArithmetic →
      Exact left.toInt right.toInt operator result.toInt →
        evaluateWith (evaluate 0) {} (.binary operator (.integer left) (.integer right)) =
          .ok (.value (.ofSource none (.integer result)) {}) := by
  intro exact
  have division : Division minimum (-1) (-minimum) 0 := by constructor <;> decide
  cases exact .modulo Int64.minValue (-1) 0 rfl (.modulo division)

end Expression

end Stencil
