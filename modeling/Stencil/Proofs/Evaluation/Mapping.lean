import Stencil.Proofs.Evaluation.Arithmetic
import Stencil.Proofs.Node.Sorting

namespace Stencil

/-! A mapping is a row of calls. The calls are fixed beforehand, one for each entry of a list, or
one for each field of a map in the order of the keys. All of them have to give values; the first
one that gives none decides the outcome. -/

/-! ## Tables with their keys in order -/

namespace Table

variable {α : Type}

theorem isOrdered_sorted {table : List (String × α)} (distinct : KeysDistinct table) :
    IsOrdered (sorted table) := by
  have apart : KeysDistinct (sorted table) :=
    ((perm_sorted table).map Prod.fst).nodup_iff.mpr distinct
  exact ((pairwise_sorted table).and (List.pairwise_map.mp apart)).imp
    fun both => lt_of_le_of_ne both.1 both.2

theorem KeysDistinct.of_perm {first second : List (String × α)} (distinct : KeysDistinct first)
    (same : first.Perm second) : KeysDistinct second :=
  (same.map Prod.fst).nodup_iff.mp distinct

/-- There is at most one entry under a key, so its place does not matter. -/
theorem under_of_perm {first second : List (String × α)} (distinct : KeysDistinct second)
    (same : first.Perm second) (key : String) : under key first = under key second := by
  have entries : (under key first).Perm (under key second) := same.filter _
  rw [under_of_keysDistinct distinct] at entries ⊢
  cases found : second.lookup key with
  | none =>
      rw [found] at entries
      exact List.perm_nil.mp entries
  | some value =>
      rw [found] at entries
      exact List.perm_singleton.mp entries

/-- Entries that are put together in order are those of the table, in the only order there is. -/
theorem mergeSorted_of_perm {table ordered : List (String × α)} (order : IsOrdered ordered)
    (same : ordered.Perm table) : mergeSorted [] table = ordered := by
  have distinct : KeysDistinct table := (keysDistinct_of_isOrdered order).of_perm same
  have order' : IsOrdered (mergeSorted [] table) := isOrdered_mergeSorted table List.Pairwise.nil
  refine eq_of_under (order'.imp le_of_lt) (order.imp le_of_lt) fun key => ?_
  rw [under_of_keysDistinct (keysDistinct_of_isOrdered order'), lookup_mergeSorted,
    under_of_perm distinct same, under_of_keysDistinct distinct]
  cases table.lookup key <;> rfl

end Table

/-! ## Calls in a row -/

namespace Lambda

/-- What is reported after calls with these results. -/
def reported (before : Report) (results : List (Node × Report)) : Report :=
  results.foldl (fun report result => report.join result.2) before

variable {evaluator : Evaluator} {binding : Binding} {lambda : Lambda}
  {calls : List (List Node)} {results : List (Node × Report)} {arguments : List Node}

/-- Calls that all give values. -/
def Give (evaluator : Evaluator) (binding : Binding) (lambda : Lambda) :
    List (List Node) → List (Node × Report) → Prop :=
  List.Forall₂ fun arguments result =>
    lambda.invoke evaluator binding arguments = .ok (.value result.1 result.2)

/-- Calls that give values stand in front of what the others give. -/
theorem invokeAll_append (given : lambda.Give evaluator binding calls results)
    (rest : List (List Node)) (before : Report) :
    lambda.invokeAll evaluator binding (calls ++ rest) before =
      Except.map (fun found => (results.map Prod.fst ++ found.1, found.2)) <$>
        lambda.invokeAll evaluator binding rest (reported before results) := by
  induction given generalizing before with
  | nil =>
      change lambda.invokeAll evaluator binding rest before = _ <$>
        lambda.invokeAll evaluator binding rest before
      rcases lambda.invokeAll evaluator binding rest before with pause | stopped | found <;> rfl
  | @cons arguments result calls results first others induction =>
      rw [List.cons_append, invokeAll, first]
      change Except.bind (lambda.invokeAll evaluator binding (calls ++ rest)
        (before.join result.2)) _ = _
      rw [induction]
      change _ = _ <$> lambda.invokeAll evaluator binding rest
        (reported (before.join result.2) results)
      rcases lambda.invokeAll evaluator binding rest (reported (before.join result.2) results)
        with pause | stopped | found <;> rfl

theorem invokeAll_values (given : lambda.Give evaluator binding calls results) (before : Report) :
    lambda.invokeAll evaluator binding calls before =
      .ok (.ok (results.map Prod.fst, reported before results)) := by
  have whole := invokeAll_append given [] before
  rw [List.append_nil] at whole
  rw [whole, invokeAll]
  exact congrArg (fun nodes => Except.ok (Except.ok (nodes, _))) (List.append_nil _)

/-- Behind the first call without a value no other one is made. -/
theorem invokeAll_first (given : lambda.Give evaluator binding calls results) {stopped : Outcome}
    (here : lambda.invoke evaluator binding arguments = .ok stopped) (stops : stopped.node? = none)
    (rest : List (List Node)) (before : Report) :
    lambda.invokeAll evaluator binding (calls ++ arguments :: rest) before =
      .ok (.error (stopped.after (reported before results))) := by
  rw [invokeAll_append given, invokeAll, here]
  cases stopped with
  | value node report => cases stops
  | deferred report | failed report => rfl

end Lambda

/-! ## The calls of a mapping -/

namespace Mapping

/-- What a lambda gets for an entry. With two parameters it also gets the place of the entry. -/
def given (keyed : Bool) (place entry : Node) : List Node :=
  if keyed then [place, entry] else [entry]

/-- The calls for a collection. The place of an entry of a list is its index, and the place of a
field its key; fields come in the order of their keys. -/
inductive Calls (source : Option String) (keyed : Bool) : Value → List (List Node) → Prop where
  | list (entries : List Node) : Calls source keyed (.list entries)
      (entries.mapIdx fun index entry =>
        given keyed (.ofSource source (.integer (Int64.ofNat index))) entry)
  | map {fields ordered : List (String × Node)} (same : ordered.Perm fields)
      (order : Table.IsOrdered ordered) : Calls source keyed (.map fields)
      (ordered.map fun field => given keyed (.ofSource source (.text field.1)) field.2)

/-- A list, or a map in which no key stands twice. -/
inductive IsCollection : Value → Prop where
  | list (entries : List Node) : IsCollection (.list entries)
  | map {fields : List (String × Node)} (distinct : Table.KeysDistinct fields) :
      IsCollection (.map fields)

variable {source : Option String} {keyed : Bool} {collection : Value} {calls : List (List Node)}

theorem IsCollection.exists_calls (collects : IsCollection collection) (source : Option String)
    (keyed : Bool) : ∃ calls, Calls source keyed collection calls := by
  cases collects with
  | list entries => exact ⟨_, .list entries⟩
  | @map fields distinct =>
      exact ⟨_, .map (Table.perm_sorted fields) (Table.isOrdered_sorted distinct)⟩

theorem Calls.of_perm {fields fields' : List (String × Node)} (same : fields.Perm fields')
    (asked : Calls source keyed (.map fields) calls) : Calls source keyed (.map fields') calls := by
  cases asked with
  | map same' order => exact .map (same'.trans same) order

theorem callsFrom_eq (source : Option String) (keyed : Bool) (first : Nat) (entries : List Node) :
    callsFrom source keyed first entries = entries.mapIdx fun index entry =>
      given keyed (.ofSource source (.integer (Int64.ofNat (first + index)))) entry := by
  induction entries generalizing first with
  | nil => rfl
  | cons entry entries induction =>
      rw [callsFrom, induction, List.mapIdx_cons]
      simp only [Nat.add_zero, Nat.add_assoc, Nat.add_comm 1]
      rfl

theorem Calls.eq (asked : Calls source keyed collection calls) :
    Mapping.calls source keyed collection = .ok calls := by
  cases asked with
  | list entries =>
      rw [Mapping.calls, callsFrom_eq]
      simp only [Nat.zero_add]
  | map same order =>
      rw [Mapping.calls, Table.mergeSorted_of_perm order same]
      rfl

variable {binding : Binding} {node other : Node} {lambda : Lambda}

theorem plan_eq (callee : Lambda.ofValue binding other.value = .ok lambda)
    (count : lambda.parameters.length = 1 ∨ lambda.parameters.length = 2)
    (asked : Calls binding.source (lambda.parameters.length == 2) node.value calls) :
    plan binding node other = .ok (lambda, calls) := by
  have allowed : ¬ (lambda.parameters.length ≠ 1 ∧ lambda.parameters.length ≠ 2) := by omega
  rw [plan, callee]
  simp only [bind, Except.bind, if_neg allowed, asked.eq]
  rfl

end Mapping

/-! ## Mappings as expressions -/

theorem Report.issue_join (before : Report) {after : Report} (told : after.issue.isSome) :
    (before.join after).issue = after.issue := by
  cases issue : after.issue with
  | none => rw [issue] at told; cases told
  | some cause => simp [join, issue]

theorem Lambda.reported_join_empty (before after : Report) (results : List (Node × Report)) :
    (Lambda.reported (before.join after) results).join {} =
      Lambda.reported (before.join after) results := by
  induction results generalizing before after with
  | nil => exact Report.join_join_empty before after
  | cons result results induction => exact induction _ _

namespace Expression

variable {evaluator : Evaluator} {binding : Binding} {collection function : Expression}
  {node other : Node} {before after : Report} {lambda : Lambda} {calls : List (List Node)}

/-- Once both operands are values and the calls are known, nothing but the calls counts. -/
theorem evaluateWith_mapping
    (here : evaluateWith evaluator binding collection = .ok (.value node before))
    (there : evaluateWith evaluator binding function = .ok (.value other after))
    (planned : Mapping.plan binding node other = .ok (lambda, calls)) :
    evaluateWith evaluator binding (.mapping collection function) = do
      match ← lambda.invokeAll evaluator binding calls (before.join after) with
      | .ok (nodes, report) => return (Outcome.ofValue binding.source (.list nodes)).after report
      | .error stopped => return stopped := by
  have values : evaluateWith evaluator binding (.mapping collection function) =
      Mapping.outcome evaluator binding node other ((Report.join {} before).join after) := by
    rw [evaluateWith, here]
    simp only [bind, Except.bind, Outcome.operand, there]
  rw [values, Report.empty_join, Report.join_empty_join]
  unfold Mapping.outcome
  split
  · rename_i refused
    cases planned.symm.trans refused
  · rename_i found
    cases planned.symm.trans found
    rfl

/-- A mapping of a list or a map agrees with its calls, made one by one in the same place. If all of
them give values, it gives the list of these in order. Otherwise it waits or fails as the first call
that gives none, with the issue of that call if it has one. The order in which the fields of a map
were inserted does not matter. -/
theorem mapping_calls
    (here : evaluateWith evaluator binding collection = .ok (.value node before))
    (there : evaluateWith evaluator binding function = .ok (.value other after))
    (callee : Lambda.ofValue binding other.value = .ok lambda)
    (count : lambda.parameters.length = 1 ∨ lambda.parameters.length = 2)
    (collects : Mapping.IsCollection node.value) :
    let outcome := evaluateWith evaluator binding (.mapping collection function)
    let call := lambda.invoke evaluator binding
    let told := Lambda.reported (before.join after)
    ∃ calls, Mapping.Calls binding.source (lambda.parameters.length == 2) node.value calls ∧
      (∀ results, lambda.Give evaluator binding calls results → outcome =
        .ok (.value (.ofSource binding.source (.list (results.map Prod.fst))) (told results))) ∧
      (∀ done arguments rest results, calls = done ++ arguments :: rest →
        lambda.Give evaluator binding done results →
          (∀ report, call arguments = .ok (.deferred report) →
            outcome = .ok (.deferred ((told results).join report))) ∧
          (∀ report, call arguments = .ok (.failed report) →
            outcome = .ok (.failed ((told results).join report))) ∧
          ∀ report : Report, report.issue.isSome →
            ((told results).join report).issue = report.issue) ∧
      ∀ collection' node' fields fields', node.value = .map fields → node'.value = .map fields' →
        fields.Perm fields' →
          evaluateWith evaluator binding collection' = .ok (.value node' before) →
            evaluateWith evaluator binding (.mapping collection' function) = outcome := by
  intro outcome call told
  obtain ⟨calls, asked⟩ := collects.exists_calls binding.source (lambda.parameters.length == 2)
  have made : outcome = _ := evaluateWith_mapping here there (Mapping.plan_eq callee count asked)
  refine ⟨calls, asked, fun results given => ?_, fun done arguments rest results parts given => ?_,
    fun collection' node' fields fields' held held' same here' => ?_⟩
  · rw [made, Lambda.invokeAll_values given]
    change Except.ok ((Outcome.ofValue binding.source _).after (told results)) = _
    have final : (told results).join {} = told results := Lambda.reported_join_empty _ _ _
    exact congrArg (fun report => Except.ok (Outcome.value _ report)) final
  · subst parts
    refine ⟨fun report waits => ?_, fun report fails => ?_, fun report => Report.issue_join _⟩
    · rw [made, Lambda.invokeAll_first given waits rfl]
      rfl
    · rw [made, Lambda.invokeAll_first given fails rfl]
      rfl
  · rw [held] at asked
    have asked' : Mapping.Calls binding.source (lambda.parameters.length == 2) node'.value calls :=
      held' ▸ asked.of_perm same
    rw [made, evaluateWith_mapping here' there (Mapping.plan_eq callee count asked')]

/-- The keys were inserted against their order, and the second call in order fails. -/
theorem mapping_calls_keys :
    let number (value : Int64) := Node.ofSource none (.integer value)
    let ports := Node.ofSource none (.map [("web", number 0), ("admin", number 4)])
    let share := Expression.binary .divide (.integer 8) (.reference ["value"])
    let shares := Expression.lambda ["key", "value"] share
    evaluateWith (evaluate 1) { scopes := [[("ports", ports)]] }
      (.mapping (.reference ["ports"]) shares) =
        .ok (.failed (.ofIssue .divisionByZero)) := by
  intro number ports share shares
  let binding : Binding := { scopes := [[("ports", ports)]] }
  have distinct : ["web", "admin"].Nodup := by decide
  have collects : Mapping.IsCollection ports.value := .map distinct
  let evaluated := evaluateWith (evaluate 1) binding
  have here : evaluated (.reference ["ports"]) = .ok (.value ports {}) := rfl
  have there : evaluated shares = .ok (.value _ {}) := rfl
  obtain ⟨calls, asked, -, first, -⟩ := mapping_calls here there rfl (.inr rfl) collects
  have made : calls = [[.ofSource none (.text "admin"), number 4],
      [.ofSource none (.text "web"), number 0]] := Except.ok.inj (asked.eq.symm.trans rfl)
  exact (first [_] _ [] [(number 2, {})] made (.cons rfl .nil)).2.1 _ rfl

end Expression

end Stencil
