import Stencil.Proofs.Evaluation.Inheritance
import Stencil.Proofs.Node.Selective
import Stencil.Proofs.Resolution.Visit

namespace Stencil

/-! Expressions that only select always end, and their values are resolved. -/

/-- There are no local names, the scopes belong to orderly maps, and stubs are sound. -/
structure Binding.IsOrderly (binding : Binding) : Prop where
  locals : binding.locals = []
  scopes : ∀ fields ∈ binding.scopes, (Value.map fields).IsOrderly
  stubs : ∀ stub ∈ binding.stubs, stub.value.IsSound

/-- An evaluation that ends, with a sound value if it has one. -/
def Ends (result : Except Pause Outcome) : Prop :=
  ∃ outcome, result = .ok outcome ∧ ∀ node, outcome.node? = some node → node.value.IsSound

namespace Ends

variable {result : Except Pause Outcome} {before : Report}
  {next : Node → Report → Except Pause Outcome}

theorem value {node : Node} {report : Report} (sound : node.value.IsSound) :
    Ends (.ok (.value node report)) := by
  refine ⟨_, rfl, ?_⟩
  intro found same
  cases same
  exact sound

theorem stopped {outcome : Outcome} (none : outcome.node? = none) : Ends (.ok outcome) := by
  refine ⟨outcome, rfl, ?_⟩
  intro node some
  rw [none] at some
  cases some

theorem bind (first : Ends result)
    (rest : ∀ node report, node.value.IsSound → Ends (next node report)) :
    Ends (result >>= fun outcome => outcome.bind next) := by
  rcases first with ⟨outcome, rfl, sound⟩
  cases outcome with
  | value node report => exact rest node report (sound node rfl)
  | deferred report | failed report => exact stopped rfl

theorem operand (first : Ends result)
    (rest : ∀ node report, node.value.IsSound → Ends (next node report)) :
    Ends (result >>= fun outcome => outcome.operand before next) := by
  rcases first with ⟨outcome, rfl, sound⟩
  cases outcome with
  | value node report => exact rest node _ (sound node rfl)
  | deferred report | failed report => exact stopped rfl

theorem after (first : Ends result) :
    Ends (result >>= fun outcome => .ok (outcome.after before)) := by
  rcases first with ⟨outcome, rfl, sound⟩
  cases outcome with
  | value node report => exact value (sound node rfl)
  | deferred report | failed report => exact stopped rfl

theorem afterBind (first : Ends result)
    (rest : ∀ node report, node.value.IsSound → Ends (next node report)) :
    Ends (result >>= fun outcome => (outcome.after before).bind next) := by
  rcases first with ⟨outcome, rfl, sound⟩
  cases outcome with
  | value node report => exact rest node _ (sound node rfl)
  | deferred report | failed report => exact stopped rfl

end Ends

theorem Value.isSound_boolean (truth : Bool) : (Value.boolean truth).IsSound :=
  isSound_of_isResolved rfl rfl rfl

theorem Value.isSound_integer (word : Int64) : (Value.integer word).IsSound :=
  isSound_of_isResolved rfl rfl rfl

namespace Binding.IsOrderly

variable {binding : Binding}

theorem lookup (orderly : binding.IsOrderly) {path : List String} {node : Node}
    (found : binding.lookup path = .found node) : node.IsOrderly := by
  rcases scope_of_lookup orderly.locals found with ⟨fields, member, first, rest, held⟩
  rcases Option.map_eq_some_iff.mp held with ⟨field, held, below⟩
  have whole := (Value.isOrderly_map.mp (orderly.scopes fields member)).2 _ (member_of_lookup held)
  exact Node.isOrderly_of_find whole below

theorem findInStubs? (orderly : binding.IsOrderly) {path : List String} {node : Node}
    (found : binding.findInStubs? path = some node) : node.value.IsSound := by
  rcases binding.stub_of_findInStubs? found with ⟨stub, member, below⟩
  rcases orderly.stubs stub member with ⟨resolved, whole⟩
  have whole : stub.IsOrderly := whole
  rw [Node.value_isResolved] at resolved
  rw [Value.IsSound, Node.value_isResolved]
  exact ⟨Node.isResolved_of_find resolved below, Node.isOrderly_of_find whole below⟩

theorem reference (orderly : binding.IsOrderly) (path : List String) :
    Ends (.ok (binding.referenceOutcome path)) := by
  unfold referenceOutcome
  cases found : binding.lookup path with
  | found node =>
      have whole : node.value.IsOrderly := orderly.lookup found
      simp only
      split
      · rename_i resolved
        have sound : node.value.IsSound := ⟨by rwa [Node.value_isResolved], whole⟩
        exact .value sound
      · exact .stopped rfl
  | unresolved | missing => exact .stopped rfl

theorem merge (orderly : binding.IsOrderly) (path : List String) (redirected replacing : Bool) :
    Ends (.ok (binding.mergeOutcome path redirected replacing)) := by
  unfold mergeOutcome
  cases found : binding.findInStubs? (binding.mergePath path redirected) with
  | none =>
      simp only [found]
      exact .stopped rfl
  | some node =>
      have sound : node.value.IsSound := orderly.findInStubs? found
      simp only [found]
      exact .value sound

end Binding.IsOrderly

theorem Binding.auto_ends (binding : Binding) (path : List String) :
    Ends (.ok (binding.autoOutcome path)) := by
  unfold autoOutcome
  split
  · rename_i pool
    cases computed : binding.autoSize pool with
    | error obstacle => cases obstacle <;> exact .stopped rfl
    | ok value =>
        rcases autoSize_integer computed with ⟨word, rfl⟩
        exact .value (Value.isSound_integer word)
  · exact .stopped rfl

theorem Value.isSound_combine (operator : Operator) (left right : Value) :
    (combine operator left right).IsSound :=
  combine_holds isSound_integer isSound_boolean operator left right

namespace Expression

variable {evaluator : Evaluator} {binding : Binding}

theorem compared_ends {source : Option String} {operator : Operator} {left right : Node}
    (report : Report) (compares : ∀ left right : Value,
      Value.operate operator left right = Value.compare operator left right) :
    Ends (.ok (binaryOutcome source operator left right report)) := by
  unfold binaryOutcome
  cases computed : Value.operate operator left.value right.value with
  | error issue => exact .stopped rfl
  | ok result =>
      rw [compares] at computed
      have sound : result.IsSound := Value.compare_holds Value.isSound_boolean computed
      exact .value sound

mutual
/-- An expression that only selects has a sound value or none. -/
theorem evaluateWith_ends (orderly : binding.IsOrderly) : ∀ expression : Expression,
    expression.isSelective → Ends (evaluateWith evaluator binding expression)
  | .nil, _ => .value (Value.isSound_of_isResolved rfl rfl rfl)
  | .boolean truth, _ => .value (Value.isSound_boolean truth)
  | .integer word, _ => .value (Value.isSound_integer word)
  | .text _, selective => .value (Value.isSound_of_isResolved selective rfl rfl)
  | .list entries, selective => by
      unfold evaluateWith
      rcases operands_end orderly entries {} selective with ⟨nodes, report, values, sound⟩ |
        ⟨outcome, values, none⟩
      · rw [values]
        exact .value (Value.isSound_list.mpr sound)
      · rw [values]
        exact .stopped none
  | .reference path, _ => orderly.reference path
  | .merge path redirected replacing, _ => orderly.merge path redirected replacing
  | .auto path, _ => binding.auto_ends path
  | .group inner, selective => evaluateWith_ends orderly inner selective
  | .binary operator left right, selective => by
      rw [isSelective, Bool.and_eq_true, Bool.and_eq_true] at selective
      rcases selective with ⟨⟨allowed, first⟩, second⟩
      have first := evaluateWith_ends orderly left first
      have second := evaluateWith_ends orderly right second
      unfold evaluateWith
      cases operator with
      | fallback =>
          rcases first with ⟨outcome, held, sound⟩
          rw [held]
          cases outcome with
          | value node report => exact .value (sound node rfl)
          | deferred report => exact .stopped rfl
          | failed report => exact second
      | and | or =>
          refine first.bind fun node report _ => ?_
          split
          · exact .value (Value.isSound_boolean _)
          · exact second.afterBind fun other report _ =>
              .value (Value.isSound_combine _ node.value other.value)
      | equal | notEqual | less | lessOrEqual | greater | greaterOrEqual =>
          exact first.operand fun node report _ => second.operand fun other report _ =>
            compared_ends report fun _ _ => rfl
      | _ => cases allowed
  | .not operand, selective => by
      unfold evaluateWith
      exact (evaluateWith_ends orderly operand selective).bind fun node report _ =>
        .value (Value.isSound_boolean _)
  | .conditional condition consequence alternative, selective => by
      rw [isSelective, Bool.and_eq_true, Bool.and_eq_true] at selective
      unfold evaluateWith
      refine (evaluateWith_ends orderly condition selective.1.1).bind fun node report _ => ?_
      split
      · exact (evaluateWith_ends orderly consequence selective.1.2).after
      · exact (evaluateWith_ends orderly alternative selective.2).after
  | .prefer inner, selective => by
      unfold evaluateWith
      rcases evaluateWith_ends orderly inner selective with ⟨outcome, held, sound⟩
      rw [held]
      cases outcome with
      | value node report => exact .value (sound node rfl)
      | deferred report | failed report => exact .stopped rfl
  | .call _ _, selective | .lambda _ _, selective | .mapping _ _, selective => by cases selective

/-- So have the operands of a list, all of them or not. -/
theorem operands_end (orderly : binding.IsOrderly) : ∀ (entries : List Expression) (before : Report),
    allSelective entries →
      (∃ nodes report, operands evaluator binding before entries = .ok (.ok (nodes, report)) ∧
          ∀ node ∈ nodes, node.value.IsSound) ∨
        ∃ outcome, operands evaluator binding before entries = .ok (.error outcome) ∧
          outcome.node? = none
  | [], before, _ => .inl ⟨[], before, rfl, fun _ member => nomatch member⟩
  | entry :: entries, before, selective => by
      rw [allSelective, Bool.and_eq_true] at selective
      unfold operands
      rcases evaluateWith_ends orderly entry selective.1 with ⟨outcome, held, sound⟩
      rw [held]
      cases outcome with
      | value node next =>
          rcases operands_end orderly entries (before.join next) selective.2 with
            ⟨nodes, report, values, all⟩ | ⟨outcome, values, none⟩
          · refine .inl ⟨node :: nodes, report, ?_, List.forall_mem_cons.mpr ⟨sound node rfl, all⟩⟩
            simp only [bind, Except.bind, values]
            rfl
          · refine .inr ⟨outcome, ?_, none⟩
            simp only [bind, Except.bind, values]
            rfl
      | deferred report | failed report => exact .inr ⟨_, rfl, rfl⟩
end

end Expression

end Stencil
