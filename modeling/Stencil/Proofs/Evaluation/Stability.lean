import Stencil.Proofs.Evaluation.Builtin

namespace Stencil

/-! Evaluation is stable: whatever the first of two evaluations has as its outcome, the
second one has too, unless the first one had to wait. The proof goes along the
expression, and for calls along the depth to which they may be nested. -/

variable {aspects : Aspects} {ahead : Bool}

/-! ## Putting outcomes together -/

namespace OutcomePrecedes

variable {first later : Except Pause Outcome}

theorem bind {next next' : Node → Report → Except Pause Outcome}
    (precedes : OutcomePrecedes aspects ahead first later)
    (rest : ∀ node node' report report', node.masked aspects = node'.masked aspects →
      report.masked aspects = report'.masked aspects →
        OutcomePrecedes aspects ahead (next node report) (next' node' report')) :
    OutcomePrecedes aspects ahead (first >>= fun outcome => outcome.bind next)
      (later >>= fun outcome => outcome.bind next') := by
  cases precedes with
  | paused pause => exact .paused pause
  | value nodes reports => exact rest _ _ _ _ nodes reports
  | deferred reports => exact .deferred reports
  | failed reports => exact .failed reports
  | pausedFirst enabled pause => exact .pausedFirst enabled pause _
  | deferredFirst enabled report => exact .deferredFirst enabled report _

variable {before before' : Report}

theorem after (reports : before.masked aspects = before'.masked aspects)
    (precedes : OutcomePrecedes aspects ahead first later) :
    OutcomePrecedes aspects ahead (first >>= fun outcome => .ok (outcome.after before))
      (later >>= fun outcome => .ok (outcome.after before')) := by
  cases precedes with
  | paused pause => exact .paused pause
  | value nodes reports' =>
      apply OutcomePrecedes.value nodes
      have joined := Report.masked_join reports reports'
      simp only [Report.masked, Report.mk.injEq] at joined reports' ⊢
      exact ⟨joined.1, joined.2.1, reports'.2.2.1, reports'.2.2.2.1, reports'.2.2.2.2.1,
        joined.2.2.2.2.2⟩
  | deferred reports' => exact .deferred (Report.masked_join reports reports')
  | failed reports' => exact .failed (Report.masked_join reports reports')
  | pausedFirst enabled pause => exact .pausedFirst enabled pause _
  | deferredFirst enabled report => exact .deferredFirst enabled _ _

theorem operand {next next' : Node → Report → Except Pause Outcome}
    (reports : before.masked aspects = before'.masked aspects)
    (precedes : OutcomePrecedes aspects ahead first later)
    (rest : ∀ node node' report report', node.masked aspects = node'.masked aspects →
      report.masked aspects = report'.masked aspects →
        OutcomePrecedes aspects ahead (next node report) (next' node' report')) :
    OutcomePrecedes aspects ahead (first >>= fun outcome => outcome.operand before next)
      (later >>= fun outcome => outcome.operand before' next') := by
  cases precedes with
  | paused pause => exact .paused pause
  | value nodes reports' => exact rest _ _ _ _ nodes (Report.masked_join reports reports')
  | deferred reports' => exact .deferred (Report.masked_join reports reports')
  | failed reports' => exact .failed (Report.masked_join reports reports')
  | pausedFirst enabled pause => exact .pausedFirst enabled pause _
  | deferredFirst enabled report => exact .deferredFirst enabled _ _

/-- A single outcome after another report. -/
theorem after_ok {outcome outcome' : Outcome}
    (reports : before.masked aspects = before'.masked aspects)
    (precedes : OutcomePrecedes aspects ahead (.ok outcome) (.ok outcome')) :
    OutcomePrecedes aspects ahead (.ok (outcome.after before)) (.ok (outcome'.after before')) :=
  precedes.after reports

end OutcomePrecedes

namespace OutcomePrecedes

theorem afterBind {first later : Except Pause Outcome} {before before' : Report}
    {next next' : Node → Report → Except Pause Outcome}
    (reports : before.masked aspects = before'.masked aspects)
    (precedes : OutcomePrecedes aspects ahead first later)
    (rest : ∀ node node' report report', node.masked aspects = node'.masked aspects →
      report.masked aspects = report'.masked aspects →
        OutcomePrecedes aspects ahead (next node report) (next' node' report')) :
    OutcomePrecedes aspects ahead (first >>= fun outcome => (outcome.after before).bind next)
      (later >>= fun outcome => (outcome.after before').bind next') := by
  have both := (precedes.after reports).bind rest
  cases first <;> cases later <;> exact both

end OutcomePrecedes

/-- The operands of two evaluations. -/
inductive OperandsPrecede (aspects : Aspects) (ahead : Bool) :
    Except Pause Operands → Except Pause Operands → Prop where
  | paused (pause : Pause) : OperandsPrecede aspects ahead (.error pause) (.error pause)
  | values {nodes nodes' : List Node} {report report' : Report}
      (same : nodes.map (Node.masked aspects) = nodes'.map (Node.masked aspects))
      (reports : report.masked aspects = report'.masked aspects) :
      OperandsPrecede aspects ahead (.ok (.ok (nodes, report))) (.ok (.ok (nodes', report')))
  | halted {outcome outcome' : Outcome}
      (precedes : OutcomePrecedes aspects ahead (.ok outcome) (.ok outcome')) :
      OperandsPrecede aspects ahead (.ok (.error outcome)) (.ok (.error outcome'))
  | pausedFirst (enabled : ahead = true) (pause : Pause) (later : Except Pause Operands) :
      OperandsPrecede aspects ahead (.error pause) later
  | deferredFirst (enabled : ahead = true) (report : Report) (later : Except Pause Operands) :
      OperandsPrecede aspects ahead (.ok (.error (.deferred report))) later

namespace OperandsPrecede

theorem push {first later : Except Pause Operands} {node node' : Node}
    (same : node.masked aspects = node'.masked aspects)
    (precedes : OperandsPrecede aspects ahead first later) :
    OperandsPrecede aspects ahead
      (do return (← first).map fun (nodes, report) => (node :: nodes, report))
      (do return (← later).map fun (nodes, report) => (node' :: nodes, report)) := by
  cases precedes with
  | paused pause => exact .paused pause
  | values others reports =>
      apply OperandsPrecede.values _ reports
      rw [List.map_cons, List.map_cons, same, others]
  | halted precedes => exact .halted precedes
  | pausedFirst enabled pause => exact .pausedFirst enabled pause _
  | deferredFirst enabled report => exact .deferredFirst enabled report _

/-- One more operand in front. -/
theorem cons {first later : Except Pause Outcome} {before before' : Report}
    {rest rest' : Report → Except Pause Operands}
    (reports : before.masked aspects = before'.masked aspects)
    (precedes : OutcomePrecedes aspects ahead first later)
    (others : ∀ report report', report.masked aspects = report'.masked aspects →
      OperandsPrecede aspects ahead (rest report) (rest' report')) :
    OperandsPrecede aspects ahead
      (do
        match ← first with
        | .value node next =>
            return (← rest (before.join next)).map fun (nodes, report) => (node :: nodes, report)
        | stopped => return .error (stopped.after before))
      (do
        match ← later with
        | .value node next =>
            return (← rest' (before'.join next)).map fun (nodes, report) => (node :: nodes, report)
        | stopped => return .error (stopped.after before')) := by
  cases precedes with
  | paused pause => exact .paused pause
  | value nodes reports' => exact (others _ _ (Report.masked_join reports reports')).push nodes
  | deferred reports' => exact .halted (.deferred (Report.masked_join reports reports'))
  | failed reports' => exact .halted (.failed (Report.masked_join reports reports'))
  | pausedFirst enabled pause => exact .pausedFirst enabled pause _
  | deferredFirst enabled report => exact .deferredFirst enabled _ _

/-- Go on with the operands; an operand without a value decides after what was reported
before. -/
theorem bind {first later : Except Pause Operands} {before before' : Report}
    {next next' : List Node → Report → Except Pause Outcome}
    (reports : before.masked aspects = before'.masked aspects)
    (precedes : OperandsPrecede aspects ahead first later)
    (rest : ∀ nodes nodes' report report',
      nodes.map (Node.masked aspects) = nodes'.map (Node.masked aspects) →
        report.masked aspects = report'.masked aspects →
          OutcomePrecedes aspects ahead (next nodes report) (next' nodes' report')) :
    OutcomePrecedes aspects ahead
      (do
        match ← first with
        | .ok (nodes, report) => next nodes report
        | .error stopped => return stopped.after before)
      (do
        match ← later with
        | .ok (nodes, report) => next' nodes report
        | .error stopped => return stopped.after before') := by
  cases precedes with
  | paused pause => exact .paused pause
  | values same reports => exact rest _ _ _ _ same reports
  | halted precedes => exact precedes.after_ok reports
  | pausedFirst enabled pause => exact .pausedFirst enabled pause _
  | deferredFirst enabled report => exact .deferredFirst enabled _ _

/-- The same where nothing was reported before. -/
theorem bindFirst {first later : Except Pause Operands}
    {next next' : List Node → Report → Except Pause Outcome}
    (precedes : OperandsPrecede aspects ahead first later)
    (rest : ∀ nodes nodes' report report',
      nodes.map (Node.masked aspects) = nodes'.map (Node.masked aspects) →
        report.masked aspects = report'.masked aspects →
          OutcomePrecedes aspects ahead (next nodes report) (next' nodes' report')) :
    OutcomePrecedes aspects ahead
      (do
        match ← first with
        | .ok (nodes, report) => next nodes report
        | .error stopped => return stopped)
      (do
        match ← later with
        | .ok (nodes, report) => next' nodes report
        | .error stopped => return stopped) := by
  cases precedes with
  | paused pause => exact .paused pause
  | values same reports => exact rest _ _ _ _ same reports
  | halted precedes => exact precedes
  | pausedFirst enabled pause => exact .pausedFirst enabled pause _
  | deferredFirst enabled report => exact .deferredFirst enabled _ _

end OperandsPrecede

/-! ## Lambdas and mappings -/

def Lambda.masked (aspects : Aspects) (lambda : Lambda) : Lambda :=
  { lambda with captured := fieldsMasked aspects lambda.captured }

section
variable {evaluator : Evaluator} {binding later : Binding}

namespace Lambda

theorem ofParsed?_masked (binding : Binding) (source : String) :
    (ofParsed? binding source).map (Lambda.masked aspects) = ofParsed? binding source := by
  unfold ofParsed?
  split <;> rfl

theorem ofValue_masked (binding : Binding) (value : Value) :
    ofValue binding (value.masked aspects) =
      (ofValue binding value).map (Lambda.masked aspects) := by
  cases value with
  | text source =>
      simp only [Value.masked, ofValue]
      split
      · exact (ofParsed?_masked binding source).symm
      · rfl
  | _ => rfl

theorem ofValue_congr (precedes : binding.Precedes aspects ahead later) {value value' : Value}
    (same : value.masked aspects = value'.masked aspects) :
    (ofValue binding value).map (Lambda.masked aspects) =
      (ofValue later value').map (Lambda.masked aspects) := by
  have placed : ∀ value, ofValue binding value = ofValue later value := by
    intro value
    unfold ofValue ofParsed?
    rw [precedes.path]
  rw [← ofValue_masked, same, ofValue_masked, placed]

variable {lambda lambda' : Lambda}

theorem invoke_precedes (stable : evaluator.Stable aspects ahead)
    (precedes : binding.Precedes aspects ahead later)
    (same : lambda.masked aspects = lambda'.masked aspects) {arguments arguments' : List Node}
    (agree : arguments.map (Node.masked aspects) = arguments'.map (Node.masked aspects)) :
    OutcomePrecedes aspects ahead (lambda.invoke evaluator binding arguments)
      (lambda'.invoke evaluator later arguments') := by
  rcases lambda with ⟨parameters, body, captured⟩
  rcases lambda' with ⟨parameters', body', captured'⟩
  simp only [Lambda.masked, Lambda.mk.injEq] at same
  rcases same with ⟨rfl, rfl, captures⟩
  have lengths := congrArg List.length agree
  rw [List.length_map, List.length_map] at lengths
  unfold invoke
  rw [lengths]
  split
  · exact .ofIssue _
  · apply stable
    apply precedes.withLocals
    rw [mergeSorted_masked, mergeSorted_masked, zip_masked, zip_masked, captures, agree]

theorem invokeAll_precedes (stable : evaluator.Stable aspects ahead)
    (precedes : binding.Precedes aspects ahead later)
    (same : lambda.masked aspects = lambda'.masked aspects) {calls calls' : List (List Node)}
    (agree : calls.map (List.map (Node.masked aspects)) =
      calls'.map (List.map (Node.masked aspects)))
    {report report' : Report} (reports : report.masked aspects = report'.masked aspects) :
    OperandsPrecede aspects ahead (lambda.invokeAll evaluator binding calls report)
      (lambda'.invokeAll evaluator later calls' report') := by
  induction calls generalizing calls' report report' with
  | nil =>
      cases calls' with
      | nil => exact .values rfl reports
      | cons arguments calls' => cases agree
  | cons arguments calls induction =>
      cases calls' with
      | nil => cases agree
      | cons arguments' calls' =>
          rw [List.map_cons, List.map_cons, List.cons.injEq] at agree
          exact (OperandsPrecede.cons reports (invoke_precedes stable precedes same agree.1)
            fun _ _ reports => induction agree.2 reports)

end Lambda

namespace Mapping

theorem callsFrom_congr {source source' : Option String}
    (sources : aspects.maskedSource source = aspects.maskedSource source') (keyed : Bool)
    (index : Nat) {entries entries' : List Node}
    (same : entriesMasked aspects entries = entriesMasked aspects entries') :
    (callsFrom source keyed index entries).map (List.map (Node.masked aspects)) =
      (callsFrom source' keyed index entries').map (List.map (Node.masked aspects)) := by
  induction entries generalizing index entries' with
  | nil =>
      cases entries' with
      | nil => rfl
      | cons entry' entries' => cases same
  | cons entry entries induction =>
      cases entries' with
      | nil => cases same
      | cons entry' entries' =>
          rw [entriesMasked, entriesMasked, List.cons.injEq] at same
          have position : (Node.ofSource source (.integer (Int64.ofNat index))).masked aspects =
              (Node.ofSource source' (.integer (Int64.ofNat index))).masked aspects :=
            Node.masked_ofSource_congr aspects sources rfl
          have rest := induction (index + 1) same.2
          cases keyed <;>
            simp only [callsFrom, if_true, Bool.false_eq_true, if_false, List.map_cons,
              List.map_nil, rest, same.1, position]

theorem fieldCalls_congr {source source' : Option String}
    (sources : aspects.maskedSource source = aspects.maskedSource source') (keyed : Bool)
    {fields fields' : List (String × Node)}
    (same : fieldsMasked aspects fields = fieldsMasked aspects fields') :
    (fields.map fun (key, field) =>
        if keyed then [Node.ofSource source (.text key), field] else [field]).map
          (List.map (Node.masked aspects)) =
      (fields'.map fun (key, field) =>
        if keyed then [Node.ofSource source' (.text key), field] else [field]).map
          (List.map (Node.masked aspects)) := by
  induction fields generalizing fields' with
  | nil =>
      cases fields' with
      | nil => rfl
      | cons field' fields' => cases same
  | cons field fields induction =>
      cases fields' with
      | nil => cases same
      | cons field' fields' =>
          rcases field with ⟨key, field⟩
          rcases field' with ⟨key', field'⟩
          rw [fieldsMasked, fieldsMasked, List.cons.injEq, Prod.mk.injEq] at same
          rcases same with ⟨⟨rfl, here⟩, below⟩
          have name : (Node.ofSource source (.text key)).masked aspects =
              (Node.ofSource source' (.text key)).masked aspects :=
            Node.masked_ofSource_congr aspects sources rfl
          have rest := induction below
          rw [List.map_cons, List.map_cons, List.map_cons, List.map_cons, rest]
          cases keyed <;>
            simp only [if_true, Bool.false_eq_true, if_false, List.map_cons, List.map_nil, here,
              name]

theorem calls_congr {source source' : Option String}
    (sources : aspects.maskedSource source = aspects.maskedSource source') (keyed : Bool)
    {value value' : Value} (same : value.masked aspects = value'.masked aspects) :
    (calls source keyed value).map (List.map (List.map (Node.masked aspects))) =
      (calls source' keyed value').map (List.map (List.map (Node.masked aspects))) := by
  have kinds := value.kind_masked aspects
  rw [same, Value.kind_masked] at kinds
  cases value <;> cases value' <;> simp only [Value.kind, reduceCtorEq] at kinds <;> try rfl
  · exact congrArg Except.ok (callsFrom_congr sources keyed 0 (Value.list.inj same))
  · have fields := Value.map.inj same
    apply congrArg Except.ok
    apply fieldCalls_congr sources keyed
    rw [mergeSorted_masked, mergeSorted_masked, fields]

theorem plan_congr (precedes : binding.Precedes aspects ahead later)
    {collection collection' function function' : Node}
    (collections : collection.masked aspects = collection'.masked aspects)
    (functions : function.masked aspects = function'.masked aspects) :
    (∃ issue, plan binding collection function = .error issue ∧
        plan later collection' function' = .error issue) ∨
      ∃ lambda lambda' calls calls', plan binding collection function = .ok (lambda, calls) ∧
        plan later collection' function' = .ok (lambda', calls') ∧
        lambda.masked aspects = lambda'.masked aspects ∧
        calls.map (List.map (Node.masked aspects)) =
          calls'.map (List.map (Node.masked aspects)) := by
  unfold plan
  rcases except_of_map_eq (Lambda.ofValue_congr precedes (Value.masked_congr functions))
    with ⟨issue, first, second⟩ | ⟨lambda, lambda', first, second, same⟩
  · rw [first, second]
    exact .inl ⟨issue, rfl, rfl⟩
  · rw [first, second]
    have parameters := congrArg Lambda.parameters same
    simp only [Lambda.masked] at parameters
    simp only [bind, Except.bind, pure, Except.pure, parameters]
    split
    · exact .inl ⟨_, rfl, rfl⟩
    · rcases except_of_map_eq (calls_congr precedes.source (lambda'.parameters.length == 2)
          (Value.masked_congr collections)) with
          ⟨issue, first, second⟩ | ⟨_, _, first, second, agree⟩
      · rw [first, second]
        exact .inl ⟨issue, rfl, rfl⟩
      · rw [first, second]
        exact .inr ⟨lambda, lambda', _, _, rfl, rfl, same, agree⟩

theorem outcome_precedes (stable : evaluator.Stable aspects ahead)
    (precedes : binding.Precedes aspects ahead later)
    {collection collection' function function' : Node}
    (collections : collection.masked aspects = collection'.masked aspects)
    (functions : function.masked aspects = function'.masked aspects)
    {report report' : Report} (reports : report.masked aspects = report'.masked aspects) :
    OutcomePrecedes aspects ahead (outcome evaluator binding collection function report)
      (outcome evaluator later collection' function' report') := by
  unfold outcome
  rcases plan_congr precedes collections functions
    with ⟨issue, first, second⟩ | ⟨lambda, lambda', calls, calls', first, second, same, agree⟩
  · rw [first, second]
    exact (OutcomePrecedes.ofIssue issue).after_ok reports
  · rw [first, second]
    apply (Lambda.invokeAll_precedes stable precedes same agree reports).bindFirst
    intro nodes nodes' report report' entries reports
    apply OutcomePrecedes.after_ok reports
    apply OutcomePrecedes.ofValue precedes.source
    simp only [Value.masked, entriesMasked_eq_map, entries]

end Mapping

/-! ## Expressions -/

theorem fallback_precedes {first later second second' : Except Pause Outcome}
    (precedes : OutcomePrecedes aspects ahead first later)
    (other : OutcomePrecedes aspects ahead second second') :
    OutcomePrecedes aspects ahead
      (do
        match ← first with
        | .failed _ => second
        | outcome => return outcome)
      (do
        match ← later with
        | .failed _ => second'
        | outcome => return outcome) := by
  cases precedes with
  | paused pause => exact .paused pause
  | value nodes reports => exact .value nodes reports
  | deferred reports => exact .deferred reports
  | failed _ => exact other
  | pausedFirst enabled pause => exact .pausedFirst enabled pause _
  | deferredFirst enabled report => exact .deferredFirst enabled report _

theorem prefer_precedes {first later : Except Pause Outcome}
    (precedes : OutcomePrecedes aspects ahead first later) :
    OutcomePrecedes aspects ahead
      (do
        match ← first with
        | .value node report => return .value node { report with preferred := true }
        | stopped => return stopped)
      (do
        match ← later with
        | .value node report => return .value node { report with preferred := true }
        | stopped => return stopped) := by
  cases precedes with
  | paused pause => exact .paused pause
  | value nodes reports =>
      apply OutcomePrecedes.value nodes
      simp only [Report.masked, Report.mk.injEq] at reports ⊢
      exact ⟨reports.1, trivial, reports.2.2⟩
  | deferred reports => exact .deferred reports
  | failed reports => exact .failed reports
  | pausedFirst enabled pause => exact .pausedFirst enabled pause _
  | deferredFirst enabled report => exact .deferredFirst enabled report _

namespace Expression

theorem truthy_congr {node node' : Node} (same : node.masked aspects = node'.masked aspects) :
    node.value.truthy = node'.value.truthy := by
  have unseen := Node.unseen_masked aspects
  rw [← unseen.truthy, Value.masked_congr same, unseen.truthy]

theorem decided_congr {node node' : Node} (same : node.masked aspects = node'.masked aspects)
    {operator : Operator} :
    Value.decided? operator node.value = Value.decided? operator node'.value := by
  have unseen := Node.unseen_masked aspects
  rw [← unseen.decided?, Value.masked_congr same, unseen.decided?]

theorem combine_congr {node node' other other' : Node}
    (same : node.masked aspects = node'.masked aspects)
    (others : other.masked aspects = other'.masked aspects) {operator : Operator} :
    Value.combine operator node.value other.value =
      Value.combine operator node'.value other'.value := by
  have unseen := Node.unseen_masked aspects
  rw [← unseen.combine, Value.masked_congr same, Value.masked_congr others, unseen.combine]

theorem binaryOutcome_precedes {source source' : Option String}
    (sources : aspects.maskedSource source = aspects.maskedSource source') {operator : Operator}
    {node node' other other' : Node} (same : node.masked aspects = node'.masked aspects)
    (others : other.masked aspects = other'.masked aspects) {report report' : Report}
    (reports : report.masked aspects = report'.masked aspects) :
    OutcomePrecedes aspects ahead (.ok (binaryOutcome source operator node other report))
      (.ok (binaryOutcome source' operator node' other' report')) := by
  have unseen := Node.unseen_masked aspects
  apply OutcomePrecedes.after_ok reports
  apply OutcomePrecedes.ofResult sources
  rw [← unseen.operate, Value.masked_congr same, Value.masked_congr others, unseen.operate]
  exact .refl _

mutual
theorem evaluateWith_precedes (stable : evaluator.Stable aspects ahead)
    (precedes : binding.Precedes aspects ahead later) : ∀ expression : Expression,
    OutcomePrecedes aspects ahead (evaluateWith evaluator binding expression)
      (evaluateWith evaluator later expression)
  | .nil | .boolean _ | .integer _ | .text _ => .ofValue precedes.source rfl
  | .list entries => by
      apply (operands_precede stable precedes entries rfl).bindFirst
      intro nodes nodes' report report' same reports
      apply OutcomePrecedes.after_ok reports
      apply OutcomePrecedes.ofValue precedes.source
      simp only [Value.masked, entriesMasked_eq_map, same]
  | .reference path => precedes.referenceOutcome path
  | .merge path redirected replacing => precedes.mergeOutcome path redirected replacing
  | .auto path => precedes.autoOutcome path
  | .group inner => evaluateWith_precedes stable precedes inner
  | .binary operator left right => by
      have first := evaluateWith_precedes stable precedes left
      have second := evaluateWith_precedes stable precedes right
      cases operator with
      | fallback => exact fallback_precedes first second
      | and | or =>
          apply first.bind
          intro node node' report report' nodes reports
          rw [decided_congr nodes]
          split
          · exact (OutcomePrecedes.ofValue precedes.source rfl).after_ok reports
          · apply second.afterBind reports
            intro other other' report report' others reports
            rw [combine_congr nodes others]
            exact (OutcomePrecedes.ofValue precedes.source rfl).after_ok reports
      | _ =>
          apply first.operand rfl
          intro node node' report report' nodes reports
          apply second.operand reports
          intro other other' report report' others reports
          exact binaryOutcome_precedes precedes.source nodes others reports
  | .not operand => by
      apply (evaluateWith_precedes stable precedes operand).bind
      intro node node' report report' nodes reports
      rw [truthy_congr nodes]
      exact (OutcomePrecedes.ofValue precedes.source rfl).after_ok reports
  | .conditional condition consequence alternative => by
      apply (evaluateWith_precedes stable precedes condition).bind
      intro node node' report report' nodes reports
      rw [truthy_congr nodes]
      split
      · exact (evaluateWith_precedes stable precedes consequence).after reports
      · exact (evaluateWith_precedes stable precedes alternative).after reports
  | .call function arguments => by
      have none : ({} : Report).masked aspects = ({} : Report).masked aspects := rfl
      have operands := operands_precede stable precedes arguments none
      unfold evaluateWith
      split
      · rename_i builtin _
        apply operands.bindFirst
        intro nodes nodes' report report' same reports
        exact (builtin.apply_precedes stable precedes same).after reports
      · apply (evaluateWith_precedes stable precedes function).bind
        intro node node' report report' nodes reports
        rcases except_of_map_eq (Lambda.ofValue_congr precedes (Value.masked_congr nodes))
          with ⟨issue, first, second⟩ | ⟨callee, callee', first, second, same⟩
        · rw [first, second]
          exact (OutcomePrecedes.ofIssue issue).after_ok reports
        · rw [first, second]
          apply operands.bind reports
          intro nodes nodes' next next' agree reports'
          exact (Lambda.invoke_precedes stable precedes same agree).after
            (Report.masked_join reports reports')
  | .lambda parameters body => by
      apply OutcomePrecedes.ofValue precedes.source
      simp only [Value.masked, precedes.locals]
  | .mapping collection function => by
      apply (evaluateWith_precedes stable precedes collection).operand rfl
      intro node node' report report' nodes reports
      apply (evaluateWith_precedes stable precedes function).operand reports
      intro other other' report report' others reports
      exact Mapping.outcome_precedes stable precedes nodes others reports
  | .prefer inner => prefer_precedes (evaluateWith_precedes stable precedes inner)

theorem operands_precede (stable : evaluator.Stable aspects ahead)
    (precedes : binding.Precedes aspects ahead later) : ∀ (entries : List Expression)
    {report report' : Report}, report.masked aspects = report'.masked aspects →
      OperandsPrecede aspects ahead (operands evaluator binding report entries)
        (operands evaluator later report' entries)
  | [], _, _, reports => .values rfl reports
  | entry :: entries, _, _, reports =>
      .cons reports (evaluateWith_precedes stable precedes entry)
        fun _ _ reports => operands_precede stable precedes entries reports
end

/-- Evaluation to any depth is stable. -/
theorem evaluate_precedes (depth : Nat) : (evaluate depth).Stable aspects ahead := by
  induction depth with
  | zero => exact fun _ _ _ _ => .paused .depth
  | succ depth induction =>
      exact fun _ _ expression precedes => evaluateWith_precedes induction precedes expression

end Expression

end

/-! ## Further resolution

Between two passes a document becomes a refined one. An evaluation in a document whose
lists are settled has its value or its failure once and for all. -/

namespace Binding

/-- Neither an entry of any list in the scopes nor the name of one is an expression. -/
def listsSettled (binding : Binding) : Bool := binding.scopes.all fieldsSettled

/-- The same place in refined scopes, up to the annotations that are masked. -/
structure RefinedBy (aspects : Aspects) (binding later : Binding) : Prop
    extends SamePlace aspects binding later where
  scopes : List.Forall₂ (fun fields laters =>
    fieldsRefined (fieldsMasked aspects fields) (fieldsMasked aspects laters))
    binding.scopes later.scopes

theorem RefinedBy.precedes {binding later : Binding} (refined : binding.RefinedBy aspects later)
    (settled : binding.listsSettled) : binding.Precedes aspects true later := by
  have scopes : List.Forall₂ (ScopePrecedes aspects true) binding.scopes later.scopes := by
    have all := List.all_eq_true.mp settled
    have related := refined.scopes
    generalize binding.scopes = scopes at all related ⊢
    generalize later.scopes = laters at related ⊢
    induction related with
    | nil => exact .nil
    | cons here _ induction =>
        rw [List.forall_mem_cons] at all
        exact .cons (.refined rfl all.1 here) (induction all.2)
  exact ⟨refined.toSamePlace, scopes⟩

end Binding

namespace Outcome

/-- A value or a failure; anything else waits. -/
def isFinal : Outcome → Bool
  | .deferred _ => false
  | _ => true

end Outcome

theorem OutcomePrecedes.final {outcome : Outcome} {later : Except Pause Outcome}
    (precedes : OutcomePrecedes aspects ahead (.ok outcome) later) (final : outcome.isFinal) :
    ∃ outcome', later = .ok outcome' ∧ outcome'.masked aspects = outcome.masked aspects := by
  cases precedes with
  | value nodes reports => exact ⟨_, rfl, by simp only [Outcome.masked, nodes, reports]⟩
  | failed reports => exact ⟨_, rfl, by simp only [Outcome.masked, reports]⟩
  | deferred _ | deferredFirst _ _ _ => cases final

namespace Expression

/-- A value or a failure does not change under further resolution of the scopes: only
what was deferred may become something else. With all annotations looked at, the
outcomes are the same. -/
theorem evaluate_stable (aspects : Aspects) (depth : Nat) {binding later : Binding}
    {expression : Expression} {outcome : Outcome} (settled : binding.listsSettled)
    (refined : binding.RefinedBy aspects later)
    (ends : evaluate depth binding expression = .ok outcome) (final : outcome.isFinal) :
    ∃ outcome', evaluate depth later expression = .ok outcome' ∧
      outcome'.masked aspects = outcome.masked aspects := by
  have precedes := evaluate_precedes depth binding later expression (refined.precedes settled)
  rw [ends] at precedes
  exact precedes.final final

/-- Once nothing is found on the left of a fallback, the value on the right stays while
another field gets its value. -/
theorem evaluate_stable_fallback :
    let scope (pending : Value) : List (String × Node) :=
      [("pending", .mk pending {}), ("list", .mk (.list [.mk (.integer 1) {}]) {}),
        ("default", .mk (.text "a") {})]
    let binding : Binding := { scopes := [scope (.expression (.reference ["default"]))] }
    let later : Binding := { scopes := [scope (.text "a")] }
    let expression : Expression :=
      .binary .fallback (.reference ["absent"]) (.reference ["default"])
    let outcome : Outcome := .value (.mk (.text "a") {}) {}
    evaluate 1 binding expression = .ok outcome ∧ evaluate 1 later expression = .ok outcome := by
  intro scope binding later expression outcome
  have settled : binding.listsSettled := by decide
  have refined : binding.RefinedBy .all later := by
    refine ⟨⟨rfl, rfl, rfl, rfl, rfl, rfl⟩, .cons ?_ .nil⟩
    exact ⟨rfl, .inl rfl, rfl, Node.RefinedBy.refl _, rfl, Node.RefinedBy.refl _, trivial⟩
  have first : evaluate 1 binding expression = .ok outcome := rfl
  rcases evaluate_stable .all 1 settled refined first rfl with ⟨outcome', second, same⟩
  rw [Outcome.masked_all, Outcome.masked_all] at same
  exact ⟨first, same ▸ second⟩

end Expression

end Stencil
