import Stencil.Proofs.Address.Text
import Stencil.Proofs.Address.Words
import Stencil.Proofs.Evaluation.Arithmetic
import Stencil.Proofs.Expression.Writing

namespace Stencil

/-! Addresses in expressions. An integer moves an address by exactly as many places, as long as its
family reaches that far, and the difference of two addresses is the integer that leads from the second
one to the first one, unless that is the least integer. -/

/-! ## Operators on addresses -/

/-- The text is the printed form of the address with this number in a family, and reads back as it. -/
def Address.Writes (family : Family) (number : Int) (text : String) : Prop :=
  ∃ address : Address, address.family = family ∧ (address.value : Int) = number ∧
    address.print = text ∧ Address.ofText text = .ok address

theorem Address.writes_print (address : Address) :
    Address.Writes address.family address.value address.print :=
  ⟨address, rfl, rfl, rfl, Address.ofText_print address⟩

/-- Whether the number of places from the second address to the first one can be told. -/
def Address.Reaches (left right : Nat) : Prop :=
  Number.minimum < (left : Int) - right ∧ (left : Int) - right ≤ Number.maximum

instance (left right : Nat) : Decidable (Address.Reaches left right) :=
  inferInstanceAs (Decidable (_ ∧ _))

/-- Every word but the least one is told. -/
theorem Address.reaches_iff {left right : Nat} {word : Int64}
    (difference : (left : Int) - right = word.toInt) :
    Address.Reaches left right ↔ word ≠ Int64.minValue := by
  have bounds := Number.fits_toInt word
  rw [Address.Reaches, difference, ← Int64.toInt_inj.ne]
  constructor
  · exact fun reaches => ne_of_gt reaches.1
  · exact fun other => ⟨lt_of_le_of_ne bounds.1 other.symm, bounds.2⟩

theorem Address.difference_eq (left right : Nat) :
    (if right ≤ left then Number.word? (left - right)
      else (Number.word? (right - left)).map (-·)) =
      if Address.Reaches left right then some (Int64.ofInt (left - right)) else none := by
  split
  · have same : Number.minimum ≤ (left : Int) - right ↔ Number.minimum < (left : Int) - right := by
      unfold Number.minimum
      omega
    exact if_congr (and_congr_left fun _ => same) rfl rfl
  · cases found : Number.word? ((right : Int) - left) with
    | none =>
        have wide := Number.word?_eq_none_iff.mp found
        rw [if_neg, Option.map_none]
        unfold Address.Reaches Number.minimum Number.maximum at *
        omega
    | some word =>
        have exact := Number.word?_eq_some_iff.mp found
        have bounds := Number.fits_toInt word
        have opposite : (-word).toInt = -word.toInt := by
          refine toInt_neg ?_
          unfold Number.minimum
          omega
        have reaches : Address.Reaches left right := by
          unfold Address.Reaches Number.Fits Number.minimum Number.maximum at *
          omega
        have negated : -word = Int64.ofInt (left - right) := by
          refine Int64.toInt_inj.mp ?_
          have same : (left : Int) - right = -word.toInt := by omega
          rw [same, ← opposite, Int64.ofInt_toInt]
        rw [if_pos reaches, Option.map_some, negated]

/-- The difference of the numbers, if it is a word other than the least one. -/
theorem Address.distance_eq {text text' : String} {address address' : Address}
    (reads : Address.ofText text = .ok address) (reads' : Address.ofText text' = .ok address') :
    Address.distance text text' =
      if address.family ≠ address'.family then .error .families
      else if Address.Reaches address.value address'.value then
        .ok (Int64.ofInt (address.value - address'.value))
      else .error .overflow := by
  rw [Address.distance, reads, reads']
  simp only [bind, Except.bind, pure, Except.pure, throw, throwThe, MonadExceptOf.throw]
  rw [Address.difference_eq]
  split
  · rfl
  · by_cases reaches : Address.Reaches address.value address'.value
    · rw [if_pos reaches, if_pos reaches]
    · rw [if_neg reaches, if_neg reaches]

/-- The operators that move an address. -/
def Operator.moves (operator : Operator) : Prop := operator = .add ∨ operator = .subtract

namespace Value

variable {operator : Operator} {text text' : String} {address address' : Address}

theorem arithmetic_step (moves : operator.moves) (reads : Address.ofText text = .ok address)
    (distance : Int64) : arithmetic operator (.text text) (.integer distance) =
      (Address.ofInt? address.family (address.value + Address.stepOf operator distance)).elim
        (.error (.address (.offset text (Address.stepOf operator distance))))
        fun moved => .ok (.text moved.print) := by
  have isAddress := Address.isAddress_iff.mpr ⟨address, reads⟩
  have moved : arithmetic operator (.text text) (.integer distance) =
      moveAddress text (Address.stepOf operator distance) := by
    unfold arithmetic
    rcases moves with rfl | rfl <;> simp only [isAddress] <;> rfl
  rw [moved, moveAddress, Address.offset_eq reads]
  cases Address.ofInt? address.family (address.value + Address.stepOf operator distance) <;> rfl

theorem arithmetic_distance (reads : Address.ofText text = .ok address)
    (reads' : Address.ofText text' = .ok address') :
    arithmetic .subtract (.text text) (.text text') =
      if address.family ≠ address'.family then .error (.address .families)
      else if Address.Reaches address.value address'.value then
        .ok (.integer (Int64.ofInt (address.value - address'.value)))
      else .error (.address .overflow) := by
  have isAddress := Address.isAddress_iff.mpr ⟨address, reads⟩
  have isAddress' := Address.isAddress_iff.mpr ⟨address', reads'⟩
  have difference : arithmetic .subtract (.text text) (.text text') =
      orAddressFault ((Address.distance text text').map .integer) := by
    unfold arithmetic
    simp only [isAddress, isAddress']
    rfl
  rw [difference, Address.distance_eq reads reads']
  split
  · rfl
  · split <;> rfl

end Value

namespace Expression

open Number

variable {evaluator : Evaluator} {binding : Binding} {operator : Operator}
  {first second third : Expression} {node other further : Node} {before after behind : Report}
  {text text' : String} {address address' : Address} {distance distance' : Int64}

/-- An operator and an integer lead to the address that a step leads to. -/
theorem evaluateWith_step (moves : operator.moves)
    (here : evaluateWith evaluator binding first = .ok (.value node before))
    (there : evaluateWith evaluator binding second = .ok (.value other after))
    (written : node.value = .text text) (reads : Address.ofText text = .ok address)
    (word : other.value = .integer distance) :
    evaluateWith evaluator binding (.binary operator first second) =
      .ok (match Address.ofInt? address.family
            (address.value + Address.stepOf operator distance) with
        | some moved => .value (.ofSource binding.source (.text moved.print)) (before.join after)
        | none => .failed { before.join after with
            issue := some (.address (.offset text (Address.stepOf operator distance))) }) := by
  have arithmetic : operator.isArithmetic := by rcases moves with rfl | rfl <;> rfl
  rw [evaluateWith_values arithmetic here there, written, word, Value.arithmetic_step moves reads]
  cases Address.ofInt? address.family (address.value + Address.stepOf operator distance) <;> rfl

/-- Subtraction tells how many places lead from the second address to the first one. -/
theorem evaluateWith_distance
    (here : evaluateWith evaluator binding first = .ok (.value node before))
    (there : evaluateWith evaluator binding second = .ok (.value other after))
    (written : node.value = .text text) (reads : Address.ofText text = .ok address)
    (written' : other.value = .text text') (reads' : Address.ofText text' = .ok address')
    (same : address.family = address'.family) :
    evaluateWith evaluator binding (.binary .subtract first second) =
      .ok (if Address.Reaches address.value address'.value then
          .value (.ofSource binding.source
            (.integer (Int64.ofInt (address.value - address'.value)))) (before.join after)
        else .failed { before.join after with issue := some (.address .overflow) }) := by
  rw [evaluateWith_values rfl here there, written, written',
    Value.arithmetic_distance reads reads', if_neg (not_not.mpr same)]
  by_cases reaches : Address.Reaches address.value address'.value
  · rw [if_pos reaches, if_pos reaches]
    rfl
  · rw [if_neg reaches, if_neg reaches]
    rfl

/-- The outcome is the address with this number, if the family has one. -/
def Lands (family : Family) (number : Int) (source : Option String) (report : Report)
    (fault : AddressFault) (outcome : Except Pause Outcome) : Prop :=
  (0 ≤ number ∧ number < 2 ^ family.bits → ∃ moved, Address.Writes family number moved ∧
    outcome = .ok (.value (.ofSource source (.text moved)) report)) ∧
  (¬ (0 ≤ number ∧ number < 2 ^ family.bits) →
    outcome = .ok (.failed { report with issue := some (.address fault) }))

theorem lands_step (moves : operator.moves)
    (here : evaluateWith evaluator binding first = .ok (.value node before))
    (there : evaluateWith evaluator binding second = .ok (.value other after))
    (written : node.value = .text text) (reads : Address.ofText text = .ok address)
    (word : other.value = .integer distance) :
    Lands address.family (address.value + Address.stepOf operator distance) binding.source
      (before.join after) (.offset text (Address.stepOf operator distance))
      (evaluateWith evaluator binding (.binary operator first second)) := by
  rw [evaluateWith_step moves here there written reads word]
  cases found : Address.ofInt? address.family
      (address.value + Address.stepOf operator distance) with
  | none =>
      have outside := Address.ofInt?_eq_none_iff.mp found
      exact ⟨fun inside => absurd inside outside, fun _ => rfl⟩
  | some moved =>
      have reached := Address.ofInt?_eq_some_iff.mp found
      refine ⟨fun _ => ⟨moved.print, ?_, rfl⟩, fun outside => ?_⟩
      · rw [← reached.1, ← reached.2]
        exact moved.writes_print
      · rw [Address.ofInt?_eq_none_iff.mpr outside] at found
        cases found

/-- The sum of two integers, in front of what they were evaluated with. -/
theorem evaluateWith_sum
    (here : evaluateWith evaluator binding first = .ok (.value node before))
    (there : evaluateWith evaluator binding second = .ok (.value other after))
    (word : node.value = .integer distance) (word' : other.value = .integer distance')
    (fits : Fits (distance.toInt + distance'.toInt)) :
    ∃ sum : Int64, sum.toInt = distance.toInt + distance'.toInt ∧
      evaluateWith evaluator binding (.binary .add first second) =
        .ok (.value (.ofSource binding.source (.integer sum)) (before.join after)) := by
  cases found : word? (distance.toInt + distance'.toInt) with
  | none => exact absurd fits (word?_eq_none_iff_not_fits.mp found)
  | some sum =>
      have added : Exact distance.toInt distance'.toInt .add _ := .add
      have computed := arithmetic_of_exact added (fun least => by cases least.1)
      refine ⟨sum, word?_eq_some_iff.mp found, ?_⟩
      rw [evaluateWith_arithmetic rfl here there word word', computed, found]
      rfl

/-- Two steps that are both possible lead where one step does that is as long as both. -/
theorem evaluateWith_steps
    (here : evaluateWith evaluator binding first = .ok (.value node before))
    (there : evaluateWith evaluator binding second = .ok (.value other after))
    (beyond : evaluateWith evaluator binding third = .ok (.value further behind))
    (written : node.value = .text text) (reads : Address.ofText text = .ok address)
    (word : other.value = .integer distance) (word' : further.value = .integer distance')
    (fits : Fits (distance.toInt + distance'.toInt)) {middle result : Node} {early late : Report}
    (once : evaluateWith evaluator binding (.binary .add first second) = .ok (.value middle early))
    (twice : evaluateWith evaluator binding (.binary .add (.binary .add first second) third) =
      .ok (.value result late)) :
    evaluateWith evaluator binding (.binary .add first (.binary .add second third)) =
      .ok (.value result late) := by
  have moves : Operator.moves .add := .inl rfl
  rcases evaluateWith_sum there beyond word word' fits with ⟨sum, exact, added⟩
  have step := evaluateWith_step moves here there written reads word
  rw [once] at step
  cases found : Address.ofInt? address.family (address.value + Address.stepOf .add distance) with
  | none =>
      rw [found] at step
      cases step
  | some moved =>
      rw [found] at step
      cases step
      have reached := Address.ofInt?_eq_some_iff.mp found
      have further := evaluateWith_step moves once beyond rfl (Address.ofText_print moved) word'
      have same : (moved.value : Int) + Address.stepOf .add distance' =
          address.value + Address.stepOf .add sum := by
        have value := reached.2
        simp only [Address.stepOf_add] at value ⊢
        omega
      rw [reached.1, same, twice] at further
      have whole := evaluateWith_step moves here added written reads rfl
      rw [whole]
      cases target : Address.ofInt? address.family (address.value + Address.stepOf .add sum) with
      | none =>
          rw [target] at further
          cases further
      | some target' =>
          rw [target] at further
          cases further
          rw [Report.join_assoc]

/-- An integer moves an address by exactly as many places, forwards or backwards, if its family
reaches that far, and two steps one after the other lead as far as both together. Words suffice: a
step has an opposite, the moved number is found if it is a word, and what is printed is that number. -/
theorem address_translation
    (here : evaluateWith evaluator binding first = .ok (.value node before))
    (there : evaluateWith evaluator binding second = .ok (.value other after))
    (beyond : evaluateWith evaluator binding third = .ok (.value further behind))
    (written : node.value = .text text) (reads : Address.ofText text = .ok address)
    (word : other.value = .integer distance) (word' : further.value = .integer distance') :
    let report := before.join after
    let plus := evaluateWith evaluator binding (.binary .add first second)
    let minus := evaluateWith evaluator binding (.binary .subtract first second)
    Lands address.family (address.value + distance.toInt) binding.source report
      (.offset text distance.toInt) plus ∧
    Lands address.family (address.value - distance.toInt) binding.source report
      (.offset text (-distance.toInt)) minus ∧
    (Fits (distance.toInt + distance'.toInt) → ∀ middle early result late,
      plus = .ok (.value middle early) →
      evaluateWith evaluator binding (.binary .add (.binary .add first second) third) =
        .ok (.value result late) →
      evaluateWith evaluator binding (.binary .add first (.binary .add second third)) =
        .ok (.value result late)) ∧
    ∀ operator, operator.moves → ∃ step, Address.step? operator distance = some step ∧
      step.toInt = Address.stepOf operator distance ∧
      Address.stepped? address.word step = Wide.ofInt? (address.value + step.toInt) ∧
      evaluateWith evaluator binding (.binary operator first second) =
        .ok (match address.moved? step with
          | some moved => .value (.ofSource binding.source (.text moved.print)) report
          | none => .failed { report with issue := some (.address (.offset text step.toInt)) }) := by
  intro report plus minus
  have forwards := lands_step (.inl rfl) here there written reads word
  have backwards := lands_step (.inr rfl) here there written reads word
  rw [Address.stepOf_add] at forwards
  rw [Address.stepOf_subtract, ← sub_eq_add_neg] at backwards
  refine ⟨forwards, backwards, fun fits _ _ _ _ once twice => ?_, fun operator moves => ?_⟩
  · exact evaluateWith_steps here there beyond written reads word word' fits once twice
  · rcases Address.exists_step? operator distance with ⟨step, found, exact⟩
    have counted := Address.stepped?_eq address.word step
    rw [address.toNat_word] at counted
    refine ⟨step, found, exact, counted, ?_⟩
    rw [evaluateWith_step moves here there written reads word, Address.moved?_eq, exact]

/-- The carry passes through all lower groups. -/
theorem address_translation_carry :
    evaluateWith (evaluate 0) {} (.binary .add (.text "::ffff:ffff:ffff:ffff") (.integer 1)) =
      .ok (.value (.ofSource none (.text "0:0:0:1::")) {}) := by
  have reads : Address.ofText "::ffff:ffff:ffff:ffff" =
      .ok ⟨.six, 18446744073709551615, by decide⟩ := by decide
  have lands := (@address_translation (evaluate 0) {} (.text "::ffff:ffff:ffff:ffff") (.integer 1)
    (.integer 1) _ _ _ {} {} {} _ _ 1 1 rfl rfl rfl rfl reads rfl rfl).1
  rcases lands.1 (by decide) with ⟨moved, ⟨⟨family, value, fits⟩, same, number, rfl, -⟩, outcome⟩
  cases same
  have number : (value : Int) = 18446744073709551616 := number
  have value : value = 18446744073709551616 := by omega
  subst value
  have printed : (⟨.six, 18446744073709551616, by decide⟩ : Address).print = "0:0:0:1::" := by decide
  rwa [printed] at outcome

/-- The difference of two addresses of a family is that of their numbers, except for the least
integer: its magnitude is no integer, and the difference is taken to be too large. So the difference
leads back by every other integer that an address was moved by. -/
theorem address_distance
    (here : evaluateWith evaluator binding first = .ok (.value node before))
    (there : evaluateWith evaluator binding second = .ok (.value other after))
    (beyond : evaluateWith evaluator binding third = .ok (.value further behind))
    (written : node.value = .text text) (reads : Address.ofText text = .ok address)
    (written' : other.value = .text text') (reads' : Address.ofText text' = .ok address')
    (word : further.value = .integer distance) :
    let report := before.join after
    let outcome := evaluateWith evaluator binding (.binary .subtract first second)
    let difference : Int := address.value - address'.value
    (address.family = address'.family →
      (minimum < difference ∧ difference ≤ maximum → ∃ word : Int64, word.toInt = difference ∧
        outcome = .ok (.value (.ofSource binding.source (.integer word)) report)) ∧
      (¬ (minimum < difference ∧ difference ≤ maximum) →
        outcome = .ok (.failed { report with issue := some (.address .overflow) }))) ∧
    (∀ moved early,
      evaluateWith evaluator binding (.binary .add first third) = .ok (.value moved early) →
      evaluateWith evaluator binding (.binary .subtract (.binary .add first third) first) =
        .ok (if distance = Int64.minValue then
            .failed { early.join before with issue := some (.address .overflow) }
          else .value (.ofSource binding.source (.integer distance)) (early.join before))) ∧
    (Issue.address .overflow).message = "integer overflow" := by
  intro report outcome difference
  refine ⟨fun same => ?_, fun moved early once => ?_, rfl⟩
  · have computed := evaluateWith_distance here there written reads written' reads' same
    refine ⟨fun reaches => ⟨Int64.ofInt difference, ?_, ?_⟩, fun far => ?_⟩
    · exact word?_eq_some_iff.mp (if_pos ⟨Int.le_of_lt reaches.1, reaches.2⟩)
    · exact computed.trans (congrArg Except.ok (if_pos reaches))
    · exact computed.trans (congrArg Except.ok (if_neg far))
  · have step := evaluateWith_step (.inl rfl) here beyond written reads word
    rw [once, Address.stepOf_add] at step
    cases found : Address.ofInt? address.family (address.value + distance.toInt) with
    | none =>
        rw [found] at step
        cases step
    | some target =>
        rw [found] at step
        cases step
        rcases Address.ofInt?_eq_some_iff.mp found with ⟨same, number⟩
        have back : (target.value : Int) - address.value = distance.toInt := by omega
        have reaches := Address.reaches_iff back
        rw [evaluateWith_distance once here rfl (Address.ofText_print target) written reads same,
          back, Int64.ofInt_toInt]
        by_cases least : distance = Int64.minValue
        · rw [if_pos least, if_neg (mt reaches.mp (not_not.mpr least))]
        · rw [if_neg least, if_pos (reaches.mpr least)]

theorem address_distance_backwards :
    evaluateWith (evaluate 0) {} (.binary .subtract (.text "10.0.0.0") (.text "10.0.1.0")) =
      .ok (.value (.ofSource none (.integer (-256))) {}) := by
  have reads : Address.ofText "10.0.0.0" = .ok ⟨.four, 167772160, by decide⟩ := by decide
  have reads' : Address.ofText "10.0.1.0" = .ok ⟨.four, 167772416, by decide⟩ := by decide
  have differs := (@address_distance (evaluate 0) {} (.text "10.0.0.0") (.text "10.0.1.0") (.integer 0)
    _ _ _ {} {} {} _ _ _ _ 0 rfl rfl rfl rfl reads rfl reads' rfl).1 rfl
  rcases differs.1 (by decide) with ⟨word, number, outcome⟩
  have same : word = -256 := Int64.toInt_inj.mp number
  exact same ▸ outcome

/-- The least integer leads from one address to another, but is not their difference. -/
theorem address_distance_least :
    ¬ ∀ (left right : Address) (word : Int64), left.family = right.family →
      word.toInt = left.value - right.value →
      evaluateWith (evaluate 0) {} (.binary .subtract (.text left.print) (.text right.print)) =
        .ok (.value (.ofSource none (.integer word)) {}) := by
  intro differs
  let left : Address := ⟨.six, 0, by decide⟩
  let right : Address := ⟨.six, 9223372036854775808, by decide⟩
  have refused := @evaluateWith_distance (evaluate 0) {} (.text left.print) (.text right.print)
    (.ofSource none (.text left.print)) (.ofSource none (.text right.print)) {} {} _ _ left right
    rfl rfl rfl (Address.ofText_print left) rfl (Address.ofText_print right) rfl
  rw [differs left right Int64.minValue rfl rfl, if_neg (by decide)] at refused
  cases refused

end Expression

end Stencil
