import Stencil.Evaluation.Evaluate

namespace Stencil

/-! `-and` and `-or` may stop at their left operand, and yet their value is that of both operands
together: neither the order of the operands nor the way a chain is grouped matters. -/

/-! ## What the operators mean -/

namespace Operator

def IsLogical (operator : Operator) : Prop := operator = .and ∨ operator = .or

/-- The operator on the bits of words. -/
def onBits (operator : Operator) (left right : Int64) : Int64 :=
  if operator = .and then left &&& right else left ||| right

/-- The operator on truth. -/
def onTruth (operator : Operator) (left right : Bool) : Bool :=
  if operator = .and then left && right else left || right

/-- Two integers are taken bit by bit; of anything else only the truth counts. -/
inductive Means (operator : Operator) : Value → Value → Value → Prop where
  | bits (left right : Int64) :
      Means operator (.integer left) (.integer right) (.integer (operator.onBits left right))
  | truth {left right : Value} (other : ¬ (left.kind = .integer ∧ right.kind = .integer)) :
      Means operator left right (.boolean (operator.onTruth left.truthy right.truthy))

/-- A left operand that settles the result: no integer, and false for `-and` or true for `-or`. -/
structure Settled (operator : Operator) (left : Value) : Prop where
  other : left.kind ≠ .integer
  truth : left.truthy = decide (operator = .or)

/-- The values of a chain taken together, from the left. -/
def gathered (operator : Operator) : List Value → Value
  | [] => .null
  | first :: rest => rest.foldl (Value.combine operator) first

variable {operator : Operator}

theorem onBits_comm (left right : Int64) :
    operator.onBits left right = operator.onBits right left := by
  unfold onBits
  rw [Int64.and_comm, Int64.or_comm]

theorem onBits_assoc (first second third : Int64) :
    operator.onBits (operator.onBits first second) third =
      operator.onBits first (operator.onBits second third) := by
  unfold onBits
  by_cases conjunction : operator = .and
  · simp only [if_pos conjunction, Int64.and_assoc]
  · simp only [if_neg conjunction, Int64.or_assoc]

theorem onTruth_comm (left right : Bool) :
    operator.onTruth left right = operator.onTruth right left := by
  unfold onTruth
  rw [Bool.and_comm, Bool.or_comm]

theorem onTruth_assoc (first second third : Bool) :
    operator.onTruth (operator.onTruth first second) third =
      operator.onTruth first (operator.onTruth second third) := by
  unfold onTruth
  by_cases conjunction : operator = .and
  · simp only [if_pos conjunction, Bool.and_assoc]
  · simp only [if_neg conjunction, Bool.or_assoc]

end Operator

namespace Value

variable {operator : Operator} {left right first second third : Value}

theorem integer_of_kind {value : Value} (kind : value.kind = .integer) :
    ∃ word, value = .integer word := by
  cases value with
  | integer word => exact ⟨word, rfl⟩
  | _ => cases kind

theorem combine_integers (left right : Int64) :
    combine operator (.integer left) (.integer right) = .integer (operator.onBits left right) := rfl

theorem combine_truth (other : ¬ (left.kind = .integer ∧ right.kind = .integer)) :
    combine operator left right = .boolean (operator.onTruth left.truthy right.truthy) := by
  unfold combine
  split
  · exact absurd ⟨rfl, rfl⟩ other
  · rfl

theorem means_combine (operator : Operator) (left right : Value) :
    operator.Means left right (combine operator left right) := by
  by_cases both : left.kind = .integer ∧ right.kind = .integer
  · rcases integer_of_kind both.1 with ⟨left, rfl⟩
    rcases integer_of_kind both.2 with ⟨right, rfl⟩
    exact .bits left right
  · rw [combine_truth both]
    exact .truth both

theorem combine_comm (operator : Operator) (left right : Value) :
    combine operator left right = combine operator right left := by
  by_cases both : left.kind = .integer ∧ right.kind = .integer
  · rcases integer_of_kind both.1 with ⟨left, rfl⟩
    rcases integer_of_kind both.2 with ⟨right, rfl⟩
    rw [combine_integers, combine_integers, Operator.onBits_comm]
  · rw [combine_truth both, combine_truth fun swapped => both swapped.symm,
      Operator.onTruth_comm]

/-- What is known of all values of a chain: they are integers, or none of them is one. -/
def Alike (integers : Prop) (values : List Value) : Prop :=
  ∀ value ∈ values, value.kind = .integer ↔ integers

section
variable {integers : Prop}

theorem combine_kind (first' : left.kind = .integer ↔ integers)
    (second' : right.kind = .integer ↔ integers) :
    (combine operator left right).kind = .integer ↔ integers := by
  by_cases both : left.kind = .integer ∧ right.kind = .integer
  · rcases integer_of_kind both.1 with ⟨left, rfl⟩
    rcases integer_of_kind both.2 with ⟨right, rfl⟩
    exact first'
  · rw [combine_truth both]
    exact iff_of_false nofun fun held => both ⟨first'.mpr held, second'.mpr held⟩

theorem combine_assoc (first' : first.kind = .integer ↔ integers)
    (second' : second.kind = .integer ↔ integers) (third' : third.kind = .integer ↔ integers) :
    combine operator (combine operator first second) third =
      combine operator first (combine operator second third) := by
  by_cases held : integers
  · rcases integer_of_kind (first'.mpr held) with ⟨first, rfl⟩
    rcases integer_of_kind (second'.mpr held) with ⟨second, rfl⟩
    rcases integer_of_kind (third'.mpr held) with ⟨third, rfl⟩
    simp only [combine_integers, Operator.onBits_assoc]
  · have none : first.kind ≠ .integer := mt first'.mp held
    have none' : third.kind ≠ .integer := mt third'.mp held
    rw [combine_truth fun both => none' both.2, combine_truth fun both => none both.1,
      combine_truth fun both => none both.1, combine_truth fun both => none' both.2]
    exact congrArg Value.boolean (Operator.onTruth_assoc _ _ _)

/-- The first value of a chain may be taken last. -/
theorem foldl_combine {rest : List Value} (alike : Alike integers (first :: second :: rest)) :
    rest.foldl (combine operator) (combine operator first second) =
      combine operator first (rest.foldl (combine operator) second) := by
  induction rest generalizing second with
  | nil => rfl
  | cons third rest induction =>
      unfold Alike at alike
      simp only [List.forall_mem_cons] at alike
      rcases alike with ⟨first', second', third', others⟩
      rw [List.foldl_cons, List.foldl_cons, combine_assoc first' second' third']
      refine induction (List.forall_mem_cons.mpr ⟨first', List.forall_mem_cons.mpr ⟨?_, others⟩⟩)
      exact combine_kind second' third'

theorem gathered_kind {values : List Value} (some : values ≠ []) (alike : Alike integers values) :
    (operator.gathered values).kind = .integer ↔ integers := by
  cases values with
  | nil => exact absurd rfl some
  | cons first rest =>
      unfold Operator.gathered
      induction rest generalizing first with
      | nil => exact alike first List.mem_cons_self
      | cons second rest induction =>
          unfold Alike at alike
          simp only [List.forall_mem_cons] at alike
          rcases alike with ⟨first', second', others⟩
          refine induction _ (List.cons_ne_nil _ _) (List.forall_mem_cons.mpr ⟨?_, others⟩)
          exact combine_kind first' second'

/-- Two chains one behind the other. -/
theorem gathered_append {values others : List Value} (some : values ≠ []) (some' : others ≠ [])
    (alike : Alike integers (values ++ others)) :
    operator.gathered (values ++ others) =
      combine operator (operator.gathered values) (operator.gathered others) := by
  unfold Alike at alike
  rw [List.forall_mem_append] at alike
  cases values with
  | nil => exact absurd rfl some
  | cons first rest =>
      cases others with
      | nil => exact absurd rfl some'
      | cons second others =>
          have front : (operator.gathered (first :: rest)).kind = .integer ↔ integers :=
            gathered_kind some alike.1
          rw [List.cons_append, Operator.gathered, List.foldl_append, List.foldl_cons]
          exact foldl_combine (List.forall_mem_cons.mpr ⟨front, alike.2⟩)

end

/-- Where the left operand is enough, the right one would change nothing. -/
theorem combine_of_decided {truth : Bool} (decided : decided? operator left = some truth)
    (right : Value) : combine operator left right = .boolean truth := by
  have other : left.kind ≠ .integer := by
    intro kind
    rcases integer_of_kind kind with ⟨word, rfl⟩
    cases decided
  rw [combine_truth fun both => other both.1]
  unfold decided? at decided
  split at decided
  · cases decided
  · split at decided
    · rename_i false
      cases decided
      rw [false]
      rfl
    · rename_i true
      cases decided
      rw [true]
      rfl
    · cases decided

theorem decided?_of_settled (logical : operator.IsLogical) (settled : operator.Settled left) :
    decided? operator left = some left.truthy := by
  have truth := settled.truth
  have other := settled.other
  unfold decided?
  split
  · exact absurd rfl other
  · rcases logical with rfl | rfl <;> rw [truth] <;> rfl

end Value

/-! ## Evaluation -/

namespace Expression

variable {evaluator : Evaluator} {binding : Binding} {operator : Operator}
  {first second : Expression} {node other : Node} {before after : Report}

theorem evaluateWith_decided {truth : Bool} (logical : operator.IsLogical)
    (here : evaluateWith evaluator binding first = .ok (.value node before))
    (decided : Value.decided? operator node.value = some truth) (second : Expression) :
    evaluateWith evaluator binding (.binary operator first second) =
      .ok ((Outcome.ofValue binding.source (.boolean truth)).after before) := by
  rw [evaluateWith, here]
  rcases logical with rfl | rfl <;>
    simp only [bind, Except.bind, Outcome.bind, decided, pure, Except.pure]

/-- Whether or not the right operand is looked at, both operands are combined. -/
theorem evaluateWith_logical (logical : operator.IsLogical)
    (here : evaluateWith evaluator binding first = .ok (.value node before))
    (there : evaluateWith evaluator binding second = .ok (.value other after)) :
    ∃ report, evaluateWith evaluator binding (.binary operator first second) =
      .ok (.value (.ofSource binding.source (Value.combine operator node.value other.value))
        report) := by
  cases decided : Value.decided? operator node.value with
  | some truth =>
      rw [evaluateWith_decided logical here decided, Value.combine_of_decided decided]
      exact ⟨_, rfl⟩
  | none =>
      rw [evaluateWith, here]
      rcases logical with rfl | rfl
      all_goals
        simp only [bind, Except.bind, Outcome.bind, decided, there, Outcome.after, pure,
          Except.pure]
        exact ⟨_, rfl⟩

/-- An operator over operands with these values, from left to right and grouped in some way. -/
inductive Chain (evaluator : Evaluator) (binding : Binding) (operator : Operator) :
    Expression → List Value → Prop where
  | operand {expression : Expression} {node : Node} {report : Report}
      (ends : evaluateWith evaluator binding expression = .ok (.value node report)) :
      Chain evaluator binding operator expression [node.value]
  | group {expression : Expression} {values : List Value}
      (chain : Chain evaluator binding operator expression values) :
      Chain evaluator binding operator (.group expression) values
  | binary {first second : Expression} {values others : List Value}
      (left : Chain evaluator binding operator first values)
      (right : Chain evaluator binding operator second others) :
      Chain evaluator binding operator (.binary operator first second) (values ++ others)

theorem Chain.ne_nil {expression : Expression} {values : List Value}
    (chain : Chain evaluator binding operator expression values) : values ≠ [] := by
  induction chain with
  | operand => exact List.cons_ne_nil _ _
  | group _ induction => exact induction
  | binary _ _ induction => exact List.append_ne_nil_of_left_ne_nil induction _

theorem Chain.gathered {integers : Prop} {expression : Expression} {values : List Value}
    (logical : operator.IsLogical) (chain : Chain evaluator binding operator expression values)
    (alike : Value.Alike integers values) :
    ∃ node report, evaluateWith evaluator binding expression = .ok (.value node report) ∧
      node.value = operator.gathered values := by
  induction chain with
  | @operand _ node report ends => exact ⟨node, report, ends, rfl⟩
  | group _ induction =>
      rw [evaluateWith]
      exact induction alike
  | binary left right induction induction' =>
      have parts := List.forall_mem_append.mp alike
      rcases induction parts.1 with ⟨node, before, here, value⟩
      rcases induction' parts.2 with ⟨other, after, there, value'⟩
      rcases evaluateWith_logical logical here there with ⟨report, ends⟩
      refine ⟨_, report, ends, ?_⟩
      rw [Value.gathered_append left.ne_nil right.ne_nil alike, ← value, ← value']
      rfl

/-- Two operands with values give the same value in either order: bit by bit for two integers, the
truth of both otherwise. A chain over integers only, or over no integers at all, has one value, in
whichever way it is grouped. A left operand that settles the result gives it whatever the right
operand is. -/
theorem logical_operators (evaluator : Evaluator) (binding : Binding) {operator : Operator}
    (logical : operator.IsLogical) :
    let evaluated := evaluateWith evaluator binding
    (∀ first second node other before after, evaluated first = .ok (.value node before) →
      evaluated second = .ok (.value other after) →
        ∃ result report report', operator.Means node.value other.value result ∧
          evaluated (.binary operator first second) =
            .ok (.value (.ofSource binding.source result) report) ∧
          evaluated (.binary operator second first) =
            .ok (.value (.ofSource binding.source result) report')) ∧
    (∀ chain chain' values, Chain evaluator binding operator chain values →
      Chain evaluator binding operator chain' values →
        ((∀ value ∈ values, value.kind = .integer) ∨ ∀ value ∈ values, value.kind ≠ .integer) →
          ∃ node node' report report', evaluated chain = .ok (.value node report) ∧
            evaluated chain' = .ok (.value node' report') ∧ node.value = node'.value) ∧
    ∀ first node before, evaluated first = .ok (.value node before) →
      operator.Settled node.value →
        ∃ report, ∀ second, evaluated (.binary operator first second) =
          .ok (.value (.ofSource binding.source (.boolean node.value.truthy)) report) := by
  intro evaluated
  refine ⟨fun first second node other before after here there => ?_,
    fun chain chain' values here there alike => ?_, fun first node before here settled => ?_⟩
  · rcases evaluateWith_logical logical here there with ⟨report, ends⟩
    rcases evaluateWith_logical logical there here with ⟨report', ends'⟩
    rw [Value.combine_comm] at ends'
    exact ⟨_, report, report', Value.means_combine operator node.value other.value, ends, ends'⟩
  · have same : ∃ integers : Prop, Value.Alike integers values := by
      rcases alike with all | none
      · exact ⟨True, fun value member => iff_of_true (all value member) trivial⟩
      · exact ⟨False, fun value member => iff_of_false (none value member) id⟩
    rcases same with ⟨integers, alike⟩
    rcases here.gathered logical alike with ⟨node, report, ends, value⟩
    rcases there.gathered logical alike with ⟨node', report', ends', value'⟩
    exact ⟨node, node', report, report', ends, ends', value.trans value'.symm⟩
  · exact ⟨_, evaluateWith_decided logical here (Value.decided?_of_settled logical settled)⟩

/-- An integer does not settle anything, but an empty text does. -/
theorem logical_operators_mixed :
    let evaluated := evaluateWith (evaluate 0) {}
    let no := Node.ofSource none (.boolean false)
    (∃ report, evaluated (.binary .and (.integer 6) (.text "")) = .ok (.value no report)) ∧
      ∃ report, ∀ second, evaluated (.binary .and (.text "") second) = .ok (.value no report) := by
  intro evaluated no
  have operators := logical_operators (evaluate 0) {} (.inl rfl : Operator.and.IsLogical)
  rcases operators.1 (.integer 6) (.text "") _ _ _ _ rfl rfl with
    ⟨result, report, _, means, ends, -⟩
  refine ⟨⟨report, ?_⟩, operators.2.2 (.text "") _ _ rfl ⟨nofun, rfl⟩⟩
  cases means
  exact ends

/-- A chain over integers and other values depends on the grouping. -/
example :
    let evaluated := evaluateWith (evaluate 0) {}
    evaluated (.binary .and (.binary .and (.integer 1) (.integer 2)) (.boolean true)) =
        .ok (.value (.ofSource none (.boolean false)) {}) ∧
      evaluated (.binary .and (.integer 1) (.binary .and (.integer 2) (.boolean true))) =
        .ok (.value (.ofSource none (.boolean true)) {}) :=
  ⟨rfl, rfl⟩

end Expression

end Stencil
