import Stencil.Proofs.Evaluation.Precedence

namespace Stencil

/-! How expressions come to values. There is one rule for each way that evaluation takes, from the
values of the parts, and there is no other way. What all values have in common is shown along these
rules. -/

/-- What is reported with a value, after what was reported before. -/
def Report.followedBy (before report : Report) : Report :=
  { before.join report with
    merged := report.merged, replace := report.replace, redirect := report.redirect }

/-- An operator that needs both of its operands. -/
def Operator.isStrict : Operator → Bool
  | .fallback | .and | .or => false
  | _ => true

namespace Outcome

variable {result : Except Pause Outcome} {before report : Report} {node : Node}
  {next : Node → Report → Except Pause Outcome}

/-! A value at the end of several steps is a value of each of them. -/

theorem value_of_bind
    (ends : (result >>= fun outcome => outcome.bind next) = .ok (.value node report)) :
    ∃ first found, result = .ok (.value first found) ∧
      next first found = .ok (.value node report) := by
  rcases ok_of_bind ends with ⟨outcome, held, ends⟩
  cases outcome with
  | value first found => exact ⟨first, found, held, ends⟩
  | deferred _ | failed _ => cases ends

theorem value_of_operand
    (ends : (result >>= fun outcome => outcome.operand before next) = .ok (.value node report)) :
    ∃ first found, result = .ok (.value first found) ∧
      next first (before.join found) = .ok (.value node report) := by
  rcases ok_of_bind ends with ⟨outcome, held, ends⟩
  cases outcome with
  | value first found => exact ⟨first, found, held, ends⟩
  | deferred _ | failed _ => cases ends

theorem value_of_after
    (ends : (result >>= fun outcome => .ok (outcome.after before)) = .ok (.value node report)) :
    ∃ found, result = .ok (.value node found) ∧ report = before.followedBy found := by
  rcases ok_of_bind ends with ⟨outcome, held, ends⟩
  cases outcome with
  | value first found =>
      cases ends
      exact ⟨found, held, rfl⟩
  | deferred _ | failed _ => cases ends

/-! The same for several results, one after the other until one has no value. -/

theorem values_of_step {rest : Report → Except Pause Operands} {nodes : List Node}
    (ends : (do
      match ← result with
      | .value node next =>
          return (← rest next).map fun (nodes, report) => (node :: nodes, report)
      | stopped => return .error (stopped.after before) : Except Pause Operands) =
        .ok (.ok (nodes, report))) :
    ∃ node next others, result = .ok (.value node next) ∧
      rest next = .ok (.ok (others, report)) ∧ nodes = node :: others := by
  rcases ok_of_bind ends with ⟨outcome, held, ends⟩
  cases outcome with
  | deferred _ | failed _ => cases ends
  | value node next =>
      rcases ok_of_bind ends with ⟨found, others, ends⟩
      cases found with
      | error stopped => cases ends
      | ok values =>
          cases ends
          exact ⟨node, next, _, held, others, rfl⟩

theorem stopped_of_step {rest : Report → Except Pause Operands} {outcome : Outcome}
    (ends : (do
      match ← result with
      | .value node next =>
          return (← rest next).map fun (nodes, report) => (node :: nodes, report)
      | stopped => return .error (stopped.after before) : Except Pause Operands) =
        .ok (.error outcome)) :
    outcome.node? = none ∨ ∃ node next, result = .ok (.value node next) ∧
      rest next = .ok (.error outcome) := by
  rcases ok_of_bind ends with ⟨stopped, held, ends⟩
  cases stopped with
  | deferred _ | failed _ =>
      cases ends
      exact .inl rfl
  | value node next =>
      rcases ok_of_bind ends with ⟨found, others, ends⟩
      cases found with
      | error stopped =>
          cases ends
          exact .inr ⟨node, next, held, others⟩
      | ok values => cases ends

end Outcome

namespace Binding

variable {binding : Binding} {path : List String} {node : Node} {report : Report}

/-- A reference takes over what its lookup finds, if that is resolved. -/
theorem value_of_referenceOutcome (ends : binding.referenceOutcome path = .value node report) :
    ∃ found, binding.lookup path = .found found ∧ found.isResolved ∧
      node = .ofSource found.source found.value ∧ report = {} := by
  unfold referenceOutcome at ends
  cases looked : binding.lookup path with
  | found found =>
      rw [looked] at ends
      simp only at ends
      split at ends
      · rename_i resolved
        cases ends
        exact ⟨found, rfl, resolved, rfl, rfl⟩
      · cases ends
  | unresolved | missing =>
      rw [looked] at ends
      cases ends

/-- What is reported with the value of a `merge`. -/
def mergeReport (binding : Binding) (path : List String) (redirected replacing : Bool)
    (source : Option String) : Report where
  merged := true
  replace := replacing
  redirect := if redirected then some (binding.mergePath path redirected) else none
  source := source

/-- A `merge` takes over what the first stub has that has anything at its path. -/
theorem value_of_mergeOutcome {redirected replacing : Bool}
    (ends : binding.mergeOutcome path redirected replacing = .value node report) :
    ∃ found, binding.findInStubs? (binding.mergePath path redirected) = some found ∧
      node = .ofSource found.source found.value ∧
      report = binding.mergeReport path redirected replacing found.source := by
  unfold mergeOutcome at ends
  cases held : binding.findInStubs? (binding.mergePath path redirected) with
  | none =>
      simp only [held] at ends
      cases ends
  | some found =>
      simp only [held] at ends
      cases ends
      exact ⟨found, rfl, rfl, rfl⟩

end Binding

namespace Expression

variable {evaluator : Evaluator} {binding : Binding}

/-- Operands end with an outcome only where one of them has no value. -/
theorem operands_stopped {entries : List Expression} {before : Report} {outcome : Outcome}
    (ends : operands evaluator binding before entries = .ok (.error outcome)) :
    outcome.node? = none := by
  induction entries generalizing before with
  | nil => cases ends
  | cons entry entries induction =>
      unfold operands at ends
      rcases Outcome.stopped_of_step ends with none | ⟨_, _, _, rest⟩
      · exact none
      · exact induction rest

theorem operands_cons {entry : Expression} {entries : List Expression} {before report : Report}
    {nodes : List Node}
    (ends : operands evaluator binding before (entry :: entries) = .ok (.ok (nodes, report))) :
    ∃ node next others, evaluateWith evaluator binding entry = .ok (.value node next) ∧
      operands evaluator binding (before.join next) entries = .ok (.ok (others, report)) ∧
      nodes = node :: others := by
  unfold operands at ends
  exact Outcome.values_of_step ends

theorem value_of_binaryOutcome {source : Option String} {operator : Operator}
    {left right node : Node} {before report : Report}
    (ends : binaryOutcome source operator left right before = .value node report) :
    ∃ value, Value.operate operator left.value right.value = .ok value ∧
      node = .ofSource source value ∧ report = before.followedBy {} := by
  unfold binaryOutcome at ends
  cases result : Value.operate operator left.value right.value with
  | error issue =>
      rw [result] at ends
      cases ends
  | ok value =>
      rw [result] at ends
      cases ends
      exact ⟨value, rfl, rfl, rfl⟩

/-- The ways of an expression to a value, from the values of its parts. -/
inductive Evaluates (evaluator : Evaluator) (binding : Binding) : Expression → Node → Report → Prop where
  | nil : Evaluates evaluator binding .nil (.ofSource binding.source .null) {}
  | boolean (truth : Bool) :
      Evaluates evaluator binding (.boolean truth) (.ofSource binding.source (.boolean truth)) {}
  | integer (word : Int64) :
      Evaluates evaluator binding (.integer word) (.ofSource binding.source (.integer word)) {}
  | text (text : String) :
      Evaluates evaluator binding (.text text) (.ofSource binding.source (.text text)) {}
  | list {entries : List Expression} {nodes : List Node} {report : Report}
      (values : operands evaluator binding {} entries = .ok (.ok (nodes, report))) :
      Evaluates evaluator binding (.list entries) (.ofSource binding.source (.list nodes))
        (report.followedBy {})
  | reference {path : List String} {found : Node} (looked : binding.lookup path = .found found)
      (resolved : found.isResolved) :
      Evaluates evaluator binding (.reference path) (.ofSource found.source found.value) {}
  | merge {path : List String} {redirected replacing : Bool} {found : Node}
      (held : binding.findInStubs? (binding.mergePath path redirected) = some found) :
      Evaluates evaluator binding (.merge path redirected replacing)
        (.ofSource found.source found.value)
        (binding.mergeReport path redirected replacing found.source)
  | auto {path : List String} {node : Node} {report : Report}
      (found : binding.autoOutcome path = .value node report) :
      Evaluates evaluator binding (.auto path) node report
  | group {inner : Expression} {node : Node} {report : Report}
      (given : evaluateWith evaluator binding inner = .ok (.value node report)) :
      Evaluates evaluator binding (.group inner) node report
  | prefer {inner : Expression} {node : Node} {report : Report}
      (given : evaluateWith evaluator binding inner = .ok (.value node report)) :
      Evaluates evaluator binding (.prefer inner) node { report with preferred := true }
  | first {left right : Expression} {node : Node} {report : Report}
      (given : evaluateWith evaluator binding left = .ok (.value node report)) :
      Evaluates evaluator binding (.binary .fallback left right) node report
  | second {left right : Expression} {failure report : Report} {node : Node}
      (failed : evaluateWith evaluator binding left = .ok (.failed failure))
      (given : evaluateWith evaluator binding right = .ok (.value node report)) :
      Evaluates evaluator binding (.binary .fallback left right) node report
  | decided {operator : Operator} {left right : Expression} {node : Node} {report : Report}
      {truth : Bool} (logical : operator = .and ∨ operator = .or)
      (given : evaluateWith evaluator binding left = .ok (.value node report))
      (decides : Value.decided? operator node.value = some truth) :
      Evaluates evaluator binding (.binary operator left right)
        (.ofSource binding.source (.boolean truth)) (report.followedBy {})
  | combined {operator : Operator} {left right : Expression} {node other : Node}
      {before after : Report} (logical : operator = .and ∨ operator = .or)
      (given : evaluateWith evaluator binding left = .ok (.value node before))
      (undecided : Value.decided? operator node.value = none)
      (given' : evaluateWith evaluator binding right = .ok (.value other after)) :
      Evaluates evaluator binding (.binary operator left right)
        (.ofSource binding.source (Value.combine operator node.value other.value))
        ((before.followedBy after).followedBy {})
  | computed {operator : Operator} {left right : Expression} {node other : Node} {value : Value}
      {before after : Report} (strict : operator.isStrict)
      (given : evaluateWith evaluator binding left = .ok (.value node before))
      (given' : evaluateWith evaluator binding right = .ok (.value other after))
      (result : Value.operate operator node.value other.value = .ok value) :
      Evaluates evaluator binding (.binary operator left right) (.ofSource binding.source value)
        (((Report.join {} before).join after).followedBy {})
  | negated {operand : Expression} {node : Node} {report : Report}
      (given : evaluateWith evaluator binding operand = .ok (.value node report)) :
      Evaluates evaluator binding (.not operand)
        (.ofSource binding.source (.boolean !node.value.truthy)) (report.followedBy {})
  | consequence {condition consequence alternative : Expression} {truth node : Node}
      {before report : Report}
      (given : evaluateWith evaluator binding condition = .ok (.value truth before))
      (chosen : truth.value.truthy = true)
      (given' : evaluateWith evaluator binding consequence = .ok (.value node report)) :
      Evaluates evaluator binding (.conditional condition consequence alternative) node
        (before.followedBy report)
  | alternative {condition consequence alternative : Expression} {truth node : Node}
      {before report : Report}
      (given : evaluateWith evaluator binding condition = .ok (.value truth before))
      (chosen : truth.value.truthy = false)
      (given' : evaluateWith evaluator binding alternative = .ok (.value node report)) :
      Evaluates evaluator binding (.conditional condition consequence alternative) node
        (before.followedBy report)
  | builtin {function : Expression} {arguments : List Expression} {builtin : Builtin}
      {nodes : List Node} {node : Node} {before report : Report}
      (named : function.builtin? = some builtin)
      (values : operands evaluator binding {} arguments = .ok (.ok (nodes, before)))
      (applied : builtin.apply evaluator binding nodes = .ok (.value node report)) :
      Evaluates evaluator binding (.call function arguments) node (before.followedBy report)
  | invoked {function : Expression} {arguments : List Expression} {callee node : Node}
      {lambda : Lambda} {nodes : List Node} {before after report : Report}
      (unnamed : function.builtin? = none)
      (given : evaluateWith evaluator binding function = .ok (.value callee before))
      (made : Lambda.ofValue binding callee.value = .ok lambda)
      (values : operands evaluator binding {} arguments = .ok (.ok (nodes, after)))
      (invoked : lambda.invoke evaluator binding nodes = .ok (.value node report)) :
      Evaluates evaluator binding (.call function arguments) node ((before.join after).followedBy report)
  | lambda (parameters : List String) (body : Expression) :
      Evaluates evaluator binding (.lambda parameters body)
        (.ofSource binding.source (.lambda parameters body binding.locals)) {}
  | mapping {collection function : Expression} {entries callee node : Node}
      {before after report : Report}
      (given : evaluateWith evaluator binding collection = .ok (.value entries before))
      (given' : evaluateWith evaluator binding function = .ok (.value callee after))
      (mapped : Mapping.outcome evaluator binding entries callee
        ((Report.join {} before).join after) = .ok (.value node report)) :
      Evaluates evaluator binding (.mapping collection function) node report

/-- Every value comes about in one of these ways. -/
theorem evaluates_of_value {expression : Expression} {node : Node} {report : Report}
    (ends : evaluateWith evaluator binding expression = .ok (.value node report)) :
    Evaluates evaluator binding expression node report := by
  cases expression with
  | nil =>
      cases ends
      exact .nil
  | boolean truth =>
      cases ends
      exact .boolean truth
  | integer word =>
      cases ends
      exact .integer word
  | text text =>
      cases ends
      exact .text text
  | lambda parameters body =>
      cases ends
      exact .lambda parameters body
  | reference path =>
      rcases Binding.value_of_referenceOutcome (Except.ok.inj ends) with
        ⟨found, looked, resolved, rfl, rfl⟩
      exact .reference looked resolved
  | merge path redirected replacing =>
      rcases Binding.value_of_mergeOutcome (Except.ok.inj ends) with ⟨found, held, rfl, rfl⟩
      exact .merge held
  | auto path => exact .auto (Except.ok.inj ends)
  | group inner => exact .group ends
  | list entries =>
      unfold evaluateWith at ends
      rcases ok_of_bind ends with ⟨outcome, values, ends⟩
      cases outcome with
      | error stopped =>
          cases ends
          cases operands_stopped values
      | ok found =>
          cases ends
          exact .list values
  | prefer inner =>
      unfold evaluateWith at ends
      rcases ok_of_bind ends with ⟨outcome, given, ends⟩
      cases outcome with
      | value node report =>
          cases ends
          exact .prefer given
      | deferred _ | failed _ => cases ends
  | binary operator left right =>
      cases operator with
      | fallback =>
          unfold evaluateWith at ends
          rcases ok_of_bind ends with ⟨outcome, given, ends⟩
          cases outcome with
          | value node report =>
              cases ends
              exact .first given
          | deferred report => cases ends
          | failed report => exact .second given ends
      | and | or =>
          rcases Outcome.value_of_bind ends with ⟨node, before, given, ends⟩
          split at ends
          · rename_i truth decides
            cases ends
            exact .decided (by simp) given decides
          · rename_i undecided
            rcases ok_of_bind ends with ⟨outcome, given', ends⟩
            cases outcome with
            | value other after =>
                cases ends
                exact .combined (by simp) given undecided given'
            | deferred _ | failed _ => cases ends
      | _ =>
          rcases Outcome.value_of_operand ends with ⟨node, before, given, ends⟩
          rcases Outcome.value_of_operand ends with ⟨other, after, given', ends⟩
          rcases value_of_binaryOutcome (Except.ok.inj ends) with ⟨value, result, rfl, rfl⟩
          exact .computed rfl given given' result
  | not operand =>
      rcases Outcome.value_of_bind ends with ⟨node, before, given, ends⟩
      cases ends
      exact .negated given
  | conditional condition consequence alternative =>
      rcases Outcome.value_of_bind ends with ⟨truth, before, given, ends⟩
      cases chosen : truth.value.truthy with
      | true =>
          rw [chosen, if_pos rfl] at ends
          rcases Outcome.value_of_after ends with ⟨found, given', rfl⟩
          exact .consequence given chosen given'
      | false =>
          rw [chosen, if_neg Bool.false_ne_true] at ends
          rcases Outcome.value_of_after ends with ⟨found, given', rfl⟩
          exact .alternative given chosen given'
  | call function arguments =>
      unfold evaluateWith at ends
      cases named : function.builtin? with
      | some builtin =>
          rw [named] at ends
          rcases ok_of_bind ends with ⟨found, values, ends⟩
          cases found with
          | error stopped =>
              cases ends
              cases operands_stopped values
          | ok found =>
              rcases Outcome.value_of_after ends with ⟨report, applied, rfl⟩
              exact .builtin named values applied
      | none =>
          rw [named] at ends
          rcases Outcome.value_of_bind ends with ⟨callee, before, given, ends⟩
          cases made : Lambda.ofValue binding callee.value with
          | error issue =>
              rw [made] at ends
              cases ends
          | ok lambda =>
              rw [made] at ends
              rcases ok_of_bind ends with ⟨found, values, ends⟩
              cases found with
              | error stopped =>
                  cases stopped with
                  | value node report => cases operands_stopped values
                  | deferred _ | failed _ => cases ends
              | ok found =>
                  rcases Outcome.value_of_after ends with ⟨report, invoked, rfl⟩
                  exact .invoked named given made values invoked
  | mapping collection function =>
      unfold evaluateWith at ends
      rcases Outcome.value_of_operand ends with ⟨entries, before, given, ends⟩
      rcases Outcome.value_of_operand ends with ⟨callee, after, given', ends⟩
      exact .mapping given given' ends

/-- Every one of these ways leads to the value. -/
theorem Evaluates.value {expression : Expression} {node : Node} {report : Report}
    (evaluates : Evaluates evaluator binding expression node report) :
    evaluateWith evaluator binding expression = .ok (.value node report) := by
  cases evaluates with
  | nil | boolean | integer | text | lambda => rfl
  | reference looked resolved =>
      simp only [evaluateWith, Binding.referenceOutcome, looked, resolved, if_true]
  | merge held =>
      simp only [evaluateWith, Binding.mergeOutcome, held]
      rfl
  | auto found => exact congrArg Except.ok found
  | group given => exact given
  | list values =>
      rw [evaluateWith, values]
      rfl
  | prefer given | first given =>
      rw [evaluateWith, given]
      rfl
  | second failed given =>
      rw [evaluateWith, failed]
      exact given
  | decided logical given decides =>
      rcases logical with rfl | rfl <;> rw [evaluateWith, given] <;>
        simp only [bind, Except.bind, Outcome.bind, decides] <;> rfl
  | combined logical given undecided given' =>
      rcases logical with rfl | rfl <;> rw [evaluateWith, given] <;>
        simp only [bind, Except.bind, Outcome.bind, undecided, given'] <;> rfl
  | @computed operator _ _ _ _ value _ _ strict given given' result =>
      cases operator with
      | fallback | and | or => cases strict
      | _ =>
          rw [evaluateWith, given, given']
          simp only [bind, Except.bind, Outcome.operand, binaryOutcome, result]
          rfl
  | negated given =>
      rw [evaluateWith, given]
      rfl
  | consequence given chosen given' | alternative given chosen given' =>
      rw [evaluateWith, given]
      simp only [bind, Except.bind, Outcome.bind, chosen, given']
      rfl
  | builtin named values applied =>
      simp only [evaluateWith, named, values, bind, Except.bind, applied]
      rfl
  | invoked unnamed given made values invoked =>
      simp only [evaluateWith, unnamed, given, bind, Except.bind, Outcome.bind, made, values, invoked]
      rfl
  | mapping given given' mapped =>
      rw [evaluateWith, given]
      simp only [bind, Except.bind, Outcome.operand, given']
      exact mapped

/-- So these are the ways to a value, and no others. -/
theorem evaluateWith_eq_value_iff {expression : Expression} {node : Node} {report : Report} :
    evaluateWith evaluator binding expression = .ok (.value node report) ↔
      Evaluates evaluator binding expression node report :=
  ⟨evaluates_of_value, Evaluates.value⟩

end Expression

end Stencil
