import Stencil.Proofs.Evaluation.Reference

namespace Stencil

/-! Functions in two evaluations. From arguments that agree they have outcomes that
agree, except that the addresses of instances may have to wait in the first one. -/

variable {aspects : Aspects} {ahead : Bool}

theorem Value.masked_congr {node node' : Node}
    (same : node.masked aspects = node'.masked aspects) :
    node.value.masked aspects = node'.value.masked aspects := by
  rw [← Node.value_masked, same, Node.value_masked]

/-! ## Texts and settings: the nodes that are made carry the source of the place -/

section
variable {source source' : Option String}
  (sources : aspects.maskedSource source = aspects.maskedSource source')
include sources

theorem ofTexts_masked (texts : List String) :
    entriesMasked aspects (texts.map fun text => .ofSource source (.text text)) =
      entriesMasked aspects (texts.map fun text => .ofSource source' (.text text)) := by
  induction texts with
  | nil => rfl
  | cons text texts induction =>
      simp only [List.map_cons, entriesMasked]
      rw [induction, Node.masked_ofSource_congr aspects sources rfl]

theorem TextFunction.split_congr (arguments : List Node) :
    (split source arguments).map (Value.masked aspects) =
      (split source' arguments).map (Value.masked aspects) := by
  unfold split
  split
  · rename_i separator text
    cases Arguments.text .split 0 separator with
    | error issue => rfl
    | ok separator =>
        cases Arguments.text .split 1 text with
        | error issue => rfl
        | ok text => exact congrArg (Except.ok ∘ Value.list) (ofTexts_masked sources _)
  · rfl

theorem HostFunction.setVariables_congr (known : List (String × String)) (position : Nat)
    (entries : List Node) :
    (setVariables known source position entries).map (fieldsMasked aspects) =
      (setVariables known source' position entries).map (fieldsMasked aspects) := by
  induction entries generalizing position with
  | nil => rfl
  | cons entry entries induction =>
      have rest := induction (position + 1)
      unfold setVariables
      cases Arguments.text .environment position entry with
      | error issue => rfl
      | ok name =>
          rcases except_of_map_eq rest with ⟨cause, first, second⟩ | ⟨_, _, first, second, same⟩
          · rw [first, second]
            rfl
          · rw [first, second]
            refine congrArg Except.ok ?_
            cases known.lookup name with
            | none => exact same
            | some value =>
                have here : (Node.ofSource source (.text value)).masked aspects =
                    (Node.ofSource source' (.text value)).masked aspects :=
                  Node.masked_ofSource_congr aspects sources rfl
                simp only [fieldsMasked]
                rw [here, same]

theorem HostFunction.settings_congr (known : List (String × String)) (arguments : List Node) :
    (settings known source arguments).map (Value.masked aspects) =
      (settings known source' arguments).map (Value.masked aspects) := by
  have several :
      ((setVariables known source 0 (Arguments.flatten arguments)).map
          fun fields => Value.map (Table.ofList fields)).map (Value.masked aspects) =
        ((setVariables known source' 0 (Arguments.flatten arguments)).map
          fun fields => Value.map (Table.ofList fields)).map (Value.masked aspects) := by
    rcases except_of_map_eq (setVariables_congr sources known 0 (Arguments.flatten arguments))
      with ⟨cause, first, second⟩ | ⟨_, _, first, second, same⟩
    · rw [first, second]
    · rw [first, second]
      exact congrArg (Except.ok ∘ Value.map) (by rw [ofList_masked, ofList_masked, same])
  unfold settings
  split
  · rename_i single
    cases single.value with
    | text name => cases known.lookup name <;> rfl
    | _ => exact several
  · exact several

end

mutual
theorem Node.ofTree_congr {source source' : Option String}
    (sources : aspects.maskedSource source = aspects.maskedSource source') : ∀ tree : Tree,
    (Node.ofTree source tree).masked aspects = (Node.ofTree source' tree).masked aspects
  | .null | .boolean _ | .integer _ | .decimal _ | .text _ =>
      Node.masked_ofSource_congr aspects sources rfl
  | .sequence entries =>
      Node.masked_ofSource_congr aspects sources
        (congrArg Value.list (entriesOfTrees_congr sources entries))
  | .mapping fields =>
      Node.masked_ofSource_congr aspects sources (congrArg Value.map (by
        rw [ofList_masked, ofList_masked, fieldsOfTrees_congr sources fields]))
  | .tagged _ value => Node.ofTree_congr sources value

theorem entriesOfTrees_congr {source source' : Option String}
    (sources : aspects.maskedSource source = aspects.maskedSource source') : ∀ entries : List Tree,
    entriesMasked aspects (entriesOfTrees source entries) =
      entriesMasked aspects (entriesOfTrees source' entries)
  | [] => rfl
  | entry :: entries => by
      simp only [entriesOfTrees, entriesMasked]
      rw [Node.ofTree_congr sources entry, entriesOfTrees_congr sources entries]

theorem fieldsOfTrees_congr {source source' : Option String}
    (sources : aspects.maskedSource source = aspects.maskedSource source') :
    ∀ fields : List (Tree × Tree), fieldsMasked aspects (fieldsOfTrees source fields) =
      fieldsMasked aspects (fieldsOfTrees source' fields)
  | [] => rfl
  | (_, value) :: fields => by
      simp only [fieldsOfTrees, fieldsMasked]
      rw [Node.ofTree_congr sources value, fieldsOfTrees_congr sources fields]
end

section
variable {source source' : Option String}
  (sources : aspects.maskedSource source = aspects.maskedSource source')
include sources

theorem HostFunction.outputNode_congr (output : String) :
    (outputNode source output).masked aspects = (outputNode source' output).masked aspects := by
  unfold outputNode
  split <;> first
    | exact Node.ofTree_congr sources _
    | exact Node.masked_ofSource_congr aspects sources rfl

theorem HostFunction.fileOutcome_precedes (path kind contents : String) :
    OutcomePrecedes aspects ahead (.ok (fileOutcome path kind source contents))
      (.ok (fileOutcome path kind source' contents)) := by
  unfold fileOutcome
  split
  · split
    · exact .value rfl rfl
    · exact .ofIssue _
  · exact .ofValue sources rfl
  · exact .ofIssue _

end

/-! ## Calls by name -/

/-- An evaluator of which the outcomes follow one another. -/
def Evaluator.Stable (aspects : Aspects) (ahead : Bool) (evaluator : Evaluator) : Prop :=
  ∀ binding later expression, binding.Precedes aspects ahead later →
    OutcomePrecedes aspects ahead (evaluator binding expression) (evaluator later expression)

section
variable {evaluator : Evaluator} {binding later : Binding} {arguments arguments' : List Node}

theorem evaluateText_precedes (stable : evaluator.Stable aspects ahead)
    (precedes : binding.Precedes aspects ahead later)
    (same : arguments.map (Node.masked aspects) = arguments'.map (Node.masked aspects)) :
    OutcomePrecedes aspects ahead (evaluateText evaluator binding arguments)
      (evaluateText evaluator later arguments') := by
  have lengths := congrArg List.length same
  rw [List.length_map, List.length_map] at lengths
  match arguments, arguments', same, lengths with
  | [], [], _, _ => exact .ofIssue _
  | [argument], [argument'], same, _ =>
      have texts := (Node.unseen_masked aspects).argumentText .evaluate 0 argument
      rw [(List.cons.inj same).1, (Node.unseen_masked aspects).argumentText] at texts
      simp only [evaluateText, texts, precedes.path]
      cases Arguments.text .evaluate 0 argument with
      | error issue => exact .ofIssue _
      | ok text =>
          cases parsed : Expression.parse ((Text.embedded? text).getD text) later.path with
          | ok expression =>
              simp only [parsed]
              exact stable _ _ _ precedes
          | error error =>
              simp only [parsed]
              exact .ofIssue _
  | _ :: _ :: _, _ :: _ :: _, _, lengths =>
      simp only [evaluateText, lengths]
      exact .ofIssue _

theorem HostFunction.environment_precedes (precedes : binding.Precedes aspects ahead later)
    (same : arguments.map (Node.masked aspects) = arguments'.map (Node.masked aspects)) :
    OutcomePrecedes aspects ahead (environment binding arguments)
      (environment later arguments') := by
  unfold environment
  rw [blind_congr (Unseen.checkCount .environment) same, precedes.answers]
  split
  · exact .ofIssue _
  · cases later.answers.askEnvironment with
    | error pause => exact .paused _
    | ok known =>
        apply OutcomePrecedes.ofResult precedes.source
        rw [blind_congr ((Node.unseen_masked aspects).settings known binding.source) same]
        left
        rcases except_of_map_eq (settings_congr precedes.source known arguments')
          with ⟨cause, first, second⟩ | ⟨_, _, first, second, same⟩
        · rw [first, second]
        · rw [first, second]
          exact congrArg Except.ok same

theorem HostFunction.read_precedes (precedes : binding.Precedes aspects ahead later)
    (same : arguments.map (Node.masked aspects) = arguments'.map (Node.masked aspects)) :
    OutcomePrecedes aspects ahead (read binding arguments) (read later arguments') := by
  unfold read
  rw [blind_congr (Node.unseen_masked aspects).fileArguments same, precedes.answers]
  split
  · exact .ofIssue _
  · rename_i path kind _
    cases later.answers.askFile path with
    | error pause => exact .paused _
    | ok result =>
        cases result with
        | error failure => exact .ofIssue _
        | ok contents => exact fileOutcome_precedes precedes.source path kind contents

theorem HostFunction.execute_precedes (precedes : binding.Precedes aspects ahead later)
    (same : arguments.map (Node.masked aspects) = arguments'.map (Node.masked aspects)) :
    OutcomePrecedes aspects ahead (execute binding arguments) (execute later arguments') := by
  have unseen := Node.unseen_masked aspects
  unfold execute
  rw [blind_congr (Unseen.checkCount .execute) same,
    unseen.flatten_mapM_congr unseen.commandText same, precedes.answers]
  split
  · exact .ofIssue _
  · rename_i command _
    cases later.answers.askCommand command with
    | error pause => exact .paused _
    | ok result =>
        cases result with
        | error failure => exact .ofIssue _
        | ok output => exact .value (outputNode_congr precedes.source output) rfl

namespace Builtin

theorem plain_precedes (precedes : binding.Precedes aspects ahead later)
    {result result' : Except Issue Value}
    (results : result.map (Value.masked aspects) = result'.map (Value.masked aspects)) :
    OutcomePrecedes aspects ahead (apply.plain binding result) (apply.plain later result') := by
  apply OutcomePrecedes.ofResult precedes.source
  left
  rcases except_of_map_eq results with ⟨cause, first, second⟩ | ⟨_, _, first, second, same⟩
  · rw [first, second]
  · rw [first, second]
    exact congrArg Except.ok same

theorem apply_precedes (stable : evaluator.Stable aspects ahead)
    (precedes : binding.Precedes aspects ahead later)
    (same : arguments.map (Node.masked aspects) = arguments'.map (Node.masked aspects))
    (builtin : Builtin) :
    OutcomePrecedes aspects ahead (builtin.apply evaluator binding arguments)
      (builtin.apply evaluator later arguments') := by
  have unseen := Node.unseen_masked aspects
  -- What sees neither annotations nor the place has the same result in both.
  have blind : ∀ {function : List Node → Except Issue Value},
      (∀ arguments, function (arguments.map (Node.masked aspects)) = function arguments) →
        OutcomePrecedes aspects ahead (apply.plain binding (function arguments))
          (apply.plain later (function arguments')) := by
    intro function masked
    rw [blind_congr masked same]
    exact plain_precedes precedes rfl
  cases builtin with
  | staticIps =>
      apply OutcomePrecedes.ofResult precedes.source
      rw [blind_congr (Unseen.checkCount .staticIps) same]
      apply (ResultPrecedes.refl _).bindMap
      intro _
      exact AddressFunction.staticAddresses_precedes precedes same
  | minIp => exact blind unseen.least
  | maxIp => exact blind unseen.greatest
  | numIp => exact blind unseen.count
  | environment => exact HostFunction.environment_precedes precedes same
  | read => exact HostFunction.read_precedes precedes same
  | execute => exact HostFunction.execute_precedes precedes same
  | evaluate => exact evaluateText_precedes stable precedes same
  | split =>
      apply plain_precedes precedes
      rw [blind_congr (unseen.split binding.source) same]
      exact TextFunction.split_congr precedes.source arguments'
  | join => exact blind unseen.join
  | trim =>
      apply plain_precedes precedes
      rw [← unseen.trim, same, unseen.trim]
  | format =>
      unfold Builtin.apply
      rw [blind_congr (TextFunction.format_masked aspects) same]
      cases TextFunction.format arguments' with
      | error pause => exact .paused pause
      | ok result => exact plain_precedes precedes rfl
  | error =>
      unfold Builtin.apply
      rw [blind_congr (TextFunction.error_masked aspects) same]
      cases TextFunction.error arguments' with
      | error pause => exact .paused pause
      | ok issue => exact .ofIssue issue
  | length => exact blind unseen.length

end Builtin

end

end Stencil
