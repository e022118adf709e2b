import Stencil.Proofs.Evaluation.Reordering

namespace Stencil

/-! Evaluation does not look at the order of keys where no percent sign stands. A mapping goes
over the fields of a map in the order of the keys, whatever the order of the fields is. -/

variable {evaluator : Evaluator} {answers : Answers} {binding other : Binding}

/-! ## Lambdas -/

/-- Lambdas with one written form. -/
structure Lambda.Reordered (lambda lambda' : Lambda) : Prop where
  parameters : lambda.parameters = lambda'.parameters
  body : lambda.body = lambda'.body
  captured : NamesReordered lambda.captured lambda'.captured
  free : (Expression.lambda lambda.parameters lambda.body).withoutPercent

namespace Lambda

theorem ofParsed?_parallel (places : binding.Reordered answers other) {source : String}
    (free : Text.lacks '%' source) :
    Parallel Eq Lambda.Reordered (ofParsed? binding source) (ofParsed? other source) := by
  have longer : Text.lacks '%' ("lambda " ++ source) := by
    rw [Text.lacks_append, free]
    decide
  unfold ofParsed?
  rw [places.path]
  split
  · rename_i parsed
    exact .ok ⟨rfl, rfl, ⟨rfl, rfl⟩, Expression.parse_withoutPercent longer parsed⟩
  · exact .error rfl
  · exact .error rfl

theorem ofValue_parallel (places : binding.Reordered answers other) {value value' : Value}
    (both : value.Reordered value') :
    Parallel Eq Lambda.Reordered (ofValue binding value) (ofValue other value') := by
  cases both.shapes with
  | lambda free captures => exact .ok ⟨rfl, rfl, captures, free⟩
  | text free =>
      unfold ofValue
      simp only
      split
      · exact ofParsed?_parallel places free
      · exact .error rfl
  | _ => exact .error rfl

variable {lambda lambda' : Lambda}

theorem invoke_alongside (deeper : evaluator.IgnoresOrder) (places : binding.Reordered answers other)
    (callees : lambda.Reordered lambda') {arguments arguments' : List Node}
    (both : NodesReordered arguments arguments') :
    Alongside answers (lambda.invoke evaluator binding arguments)
      (lambda'.invoke evaluator other arguments') := by
  rcases lambda with ⟨parameters, body, captured⟩
  rcases lambda' with ⟨parameters', body', captured'⟩
  rcases callees with ⟨rfl, rfl, captures, free⟩
  rw [Expression.withoutPercent_lambda] at free
  unfold invoke
  rw [List.Forall₂.length_eq both]
  split
  · exact .ofIssue _
  · exact deeper _ _ _ _ (places.withLocals (captures.mergeSorted (.zip free.1 both))) free.2

theorem invokeAll_alongside (deeper : evaluator.IgnoresOrder) (places : binding.Reordered answers other)
    (callees : lambda.Reordered lambda') {calls calls' : List (List Node)}
    (both : List.Forall₂ NodesReordered calls calls') (report : Report) :
    OperandsAlongside answers (lambda.invokeAll evaluator binding calls report)
      (lambda'.invokeAll evaluator other calls' report) := by
  induction both generalizing report with
  | nil => exact .values .nil report
  | cons arguments _ induction =>
      exact .cons (invoke_alongside deeper places callees arguments) induction

end Lambda

/-! ## Mappings -/

namespace Mapping

theorem arguments_reordered {keyed : Bool} {position entry entry' : Node}
    (free : position.withoutPercent) (both : entry.Reordered entry') :
    NodesReordered (if keyed then [position, entry] else [entry])
      (if keyed then [position, entry'] else [entry']) := by
  cases keyed with
  | true => exact .cons (.refl free) (.cons both .nil)
  | false => exact .cons both .nil

theorem callsFrom_reordered (source : Option String) (keyed : Bool) (index : Nat)
    {entries entries' : List Node} (both : NodesReordered entries entries') :
    List.Forall₂ NodesReordered (callsFrom source keyed index entries)
      (callsFrom source keyed index entries') := by
  induction both generalizing index with
  | nil => exact .nil
  | cons entry _ induction => exact .cons (arguments_reordered rfl entry) (induction (index + 1))

theorem fieldCalls_reordered (source : Option String) (keyed : Bool)
    {names names' : List (String × Node)} (both : NamesReordered names names') :
    List.Forall₂ NodesReordered
      (names.map fun (key, field) =>
        if keyed then [.ofSource source (.text key), field] else [field])
      (names'.map fun (key, field) =>
        if keyed then [.ofSource source (.text key), field] else [field]) := by
  rw [List.forall₂_map_left_iff, List.forall₂_map_right_iff]
  refine both.pairs.imp fun name name' pair => ?_
  rcases name with ⟨key, field⟩
  rcases name' with ⟨key', field'⟩
  rcases pair with ⟨rfl, free, fields⟩
  exact arguments_reordered free fields

theorem calls_parallel (source : Option String) (keyed : Bool) {collection collection' : Value}
    (both : collection.Reordered collection') :
    Parallel Eq (List.Forall₂ NodesReordered) (calls source keyed collection)
      (calls source keyed collection') := by
  cases both.shapes with
  | list entries => exact .ok (callsFrom_reordered source keyed 0 entries)
  | map fields => exact .ok (fieldCalls_reordered source keyed (.of_fields fields))
  | null => exact .ok .nil
  | _ => exact .error rfl

theorem plan_parallel (places : binding.Reordered answers other)
    {collection collection' function function' : Node}
    (collections : collection.Reordered collection') (functions : function.Reordered function') :
    Parallel Eq
      (fun plan plan' => plan.1.Reordered plan'.1 ∧ List.Forall₂ NodesReordered plan.2 plan'.2)
      (plan binding collection function) (plan other collection' function') := by
  unfold plan
  refine Parallel.bind (Lambda.ofValue_parallel places functions.value)
    fun lambda lambda' callees => ?_
  simp only [callees.parameters, places.source]
  split
  · exact .error rfl
  · refine Parallel.bind (calls_parallel _ _ collections.value) fun calls calls' both => ?_
    exact .ok ⟨callees, both⟩

theorem outcome_alongside (deeper : evaluator.IgnoresOrder) (places : binding.Reordered answers other)
    {collection collection' function function' : Node}
    (collections : collection.Reordered collection') (functions : function.Reordered function')
    (report : Report) :
    Alongside answers (outcome evaluator binding collection function report)
      (outcome evaluator other collection' function' report) := by
  have plans := plan_parallel places collections functions
  unfold outcome
  generalize plan binding collection function = first at plans ⊢
  generalize plan other collection' function' = second at plans ⊢
  cases plans with
  | error same =>
      subst same
      exact (Alongside.ofIssue _).after_ok report
  | ok both =>
      apply (Lambda.invokeAll_alongside deeper places both.1 both.2 report).bindFirst
      intro nodes nodes' report entries
      rw [places.source]
      exact (Alongside.ofValue _ entries.list).after_ok report

end Mapping

/-! ## Expressions -/

theorem fallback_alongside {first first' second second' : Except Pause Outcome}
    (both : Alongside answers first first') (others : Alongside answers second second') :
    Alongside answers
      (do
        match ← first with
        | .failed _ => second
        | outcome => return outcome)
      (do
        match ← first' with
        | .failed _ => second'
        | outcome => return outcome) := by
  refine Parallel.bind both fun outcome outcome' outcomes => ?_
  cases outcomes with
  | value nodes report => exact .ok (.value nodes report)
  | deferred report => exact .ok (.deferred report)
  | failed report => exact others

theorem prefer_alongside {first second : Except Pause Outcome}
    (both : Alongside answers first second) :
    Alongside answers
      (do
        match ← first with
        | .value node report => return .value node { report with preferred := true }
        | stopped => return stopped)
      (do
        match ← second with
        | .value node report => return .value node { report with preferred := true }
        | stopped => return stopped) := by
  refine Parallel.bind both fun outcome outcome' outcomes => ?_
  cases outcomes with
  | value nodes report => exact .ok (.value nodes _)
  | deferred report => exact .ok (.deferred report)
  | failed report => exact .ok (.failed report)

namespace Expression

theorem binaryOutcome_alongside (source : Option String) {operator : Operator}
    {node node' following following' : Node} (both : node.Reordered node')
    (others : following.Reordered following') (report : Report) :
    Alongside answers (.ok (binaryOutcome source operator node following report))
      (.ok (binaryOutcome source operator node' following' report)) := by
  refine Alongside.after_ok report (.ofResult source ?_)
  have unseen := Node.unseen_ordered
  have same : Value.operate operator node.value following.value =
      Value.operate operator node'.value following'.value := by
    rw [← unseen.operate, both.value.same, others.value.same, unseen.operate]
  rw [← same]
  refine parallel_of_map rfl fun value computed => ?_
  cases made : Value.operate operator node.value following.value with
  | error issue =>
      rw [made] at computed
      cases computed
  | ok result =>
      rw [made] at computed
      cases computed
      exact Value.operate_withoutPercent both.value.free others.value.free made

mutual
theorem evaluateWith_alongside (deeper : evaluator.IgnoresOrder)
    (places : binding.Reordered answers other) : ∀ expression : Expression, expression.withoutPercent →
      Alongside answers (evaluateWith evaluator binding expression)
        (evaluateWith evaluator other expression)
  | .nil, _ | .boolean _, _ | .integer _, _ => by
      unfold evaluateWith
      rw [places.source]
      exact .ofValue _ (.refl rfl)
  | .text value, free => by
      unfold evaluateWith
      rw [places.source]
      exact .ofValue _ (.refl (withoutPercent_text.mp free))
  | .list entries, free => by
      apply (operands_alongside deeper places entries {} (withoutPercent_list.mp free)).bindFirst
      intro nodes nodes' report both
      rw [places.source]
      exact (Alongside.ofValue _ both.list).after_ok report
  | .reference path, _ => places.referenceOutcome path
  | .merge path redirected replacing, _ => places.mergeOutcome path redirected replacing
  | .auto path, _ => places.autoOutcome path
  | .group inner, free => evaluateWith_alongside deeper places inner (withoutPercent_group.mp free)
  | .binary operator left right, free => by
      rw [withoutPercent_binary] at free
      have first := evaluateWith_alongside deeper places left free.2.1
      have second := evaluateWith_alongside deeper places right free.2.2
      unfold evaluateWith
      rw [places.source]
      cases operator with
      | fallback => exact fallback_alongside first second
      | and | or =>
          apply first.bind
          intro node node' report nodes
          rw [← Node.unseen_ordered.decided?, nodes.value.same, Node.unseen_ordered.decided?]
          split
          · exact (Alongside.ofValue _ (.refl rfl)).after_ok report
          · apply second.afterBind report
            intro following following' report others
            rw [← Node.unseen_ordered.combine, nodes.value.same, others.value.same,
              Node.unseen_ordered.combine]
            exact (Alongside.ofValue _ (.refl (Value.combine_withoutPercent _ _ _))).after_ok report
      | _ =>
          apply first.operand
          intro node node' report nodes
          apply second.operand
          intro following following' report others
          exact binaryOutcome_alongside _ nodes others report
  | .not operand, free => by
      apply (evaluateWith_alongside deeper places operand (withoutPercent_not.mp free)).bind
      intro node node' report nodes
      rw [nodes.value.truthy, places.source]
      exact (Alongside.ofValue _ (.refl rfl)).after_ok report
  | .conditional condition consequence alternative, free => by
      rw [withoutPercent_conditional] at free
      apply (evaluateWith_alongside deeper places condition free.1).bind
      intro node node' report nodes
      rw [nodes.value.truthy]
      split
      · exact (evaluateWith_alongside deeper places consequence free.2.1).after report
      · exact (evaluateWith_alongside deeper places alternative free.2.2).after report
  | .call function arguments, free => by
      rw [withoutPercent_call] at free
      have operands := operands_alongside deeper places arguments {} free.2
      unfold evaluateWith
      split
      · rename_i builtin _
        apply operands.bindFirst
        intro nodes nodes' report both
        exact (builtin.apply_alongside deeper places both).after report
      · apply (evaluateWith_alongside deeper places function free.1).bind
        intro node node' report nodes
        have callees := Lambda.ofValue_parallel places nodes.value
        generalize Lambda.ofValue binding node.value = first at callees ⊢
        generalize Lambda.ofValue other node'.value = second at callees ⊢
        cases callees with
        | error same =>
            subst same
            exact (Alongside.ofIssue _).after_ok report
        | ok callees =>
            apply operands.bind
            intro nodes nodes' next both
            exact (Lambda.invoke_alongside deeper places callees both).after _
  | .lambda parameters body, free => by
      unfold evaluateWith
      rw [places.source]
      refine .ofValue _ ⟨?_, ?_⟩
      · rw [Value.ordered, Value.ordered, places.locals.same]
      · rw [Value.withoutPercent, Bool.and_eq_true]
        exact ⟨free, places.locals.free⟩
  | .mapping collection function, free => by
      rw [withoutPercent_mapping] at free
      apply (evaluateWith_alongside deeper places collection free.1).operand
      intro node node' report nodes
      apply (evaluateWith_alongside deeper places function free.2).operand
      intro following following' report others
      exact Mapping.outcome_alongside deeper places nodes others report
  | .prefer inner, free =>
      prefer_alongside (evaluateWith_alongside deeper places inner (withoutPercent_prefer.mp free))

theorem operands_alongside (deeper : evaluator.IgnoresOrder) (places : binding.Reordered answers other) :
    ∀ (entries : List Expression) (report : Report), (∀ entry ∈ entries, entry.withoutPercent) →
      OperandsAlongside answers (operands evaluator binding report entries)
        (operands evaluator other report entries)
  | [], report, _ => .values .nil report
  | entry :: entries, _, free => by
      rw [List.forall_mem_cons] at free
      exact .cons (evaluateWith_alongside deeper places entry free.1)
        fun report => operands_alongside deeper places entries report free.2
end

/-- Evaluation to any depth. -/
theorem evaluate_ignoresOrder (depth : Nat) : (evaluate depth).IgnoresOrder := by
  induction depth with
  | zero => exact fun _ _ _ _ _ _ => .error fun _ => ⟨rfl, rfl⟩
  | succ depth induction =>
      exact fun _ _ _ expression places free => evaluateWith_alongside induction places expression free

end Expression

end Stencil
