import Stencil.Proofs.Evaluation.Elementary
import Stencil.Proofs.Node.Comparison
import Stencil.Proofs.Node.Sorting

namespace Stencil

/-! The values of expressions are put together from what their binding has: local names,
nodes that a lookup finds, nodes of the stubs, and answers from the outside. A property that
lists and lambdas take from their parts, and that all of these have, is one of every value. -/

/-- A value that has no parts and no choice of them. -/
def Value.isFlat : Value → Bool
  | .null | .boolean _ | .integer _ | .text _ => true
  | _ => false

/-- A property of values, and one of tables of local names, that follow from the parts. -/
structure Inherited (holds : Value → Prop) (known : List (String × Node) → Prop) : Prop where
  flat : ∀ {value : Value}, value.isFlat → holds value
  list : ∀ {entries : List Node}, holds (.list entries) ↔ ∀ entry ∈ entries, holds entry.value
  field : ∀ {fields : List (String × Node)}, holds (.map fields) →
    ∀ entry ∈ fields, holds entry.2.value
  lambda : ∀ {parameters : List String} {body : Expression} {captured : List (String × Node)},
    holds (.lambda parameters body captured) ↔ known captured
  nil : known []
  merge : ∀ {table names : List (String × Node)}, known table → known names →
    known (Table.mergeSorted table names)
  arguments : ∀ {captured : List (String × Node)} {parameters : List String} {nodes : List Node},
    known captured → (∀ node ∈ nodes, holds node.value) →
      known (Table.mergeSorted captured (parameters.zip nodes))

/-- What `env`, `read` and `exec` make of the answers has the property. -/
structure Answers.Provide (answers : Answers) (holds : Value → Prop) : Prop where
  settings : ∀ {known : List (String × String)} {source : Option String} {arguments : List Node}
    {value : Value}, answers.environment = some known →
      HostFunction.settings known source arguments = .ok value → holds value
  file : ∀ {path kind contents : String} {source : Option String} {node : Node} {report : Report},
    answers.file path = some (.ok contents) →
      HostFunction.fileOutcome path kind source contents = .value node report → holds node.value
  output : ∀ {arguments : List String} {source : Option String} {output : String},
    answers.command arguments = some (.ok output) →
      holds (HostFunction.outputNode source output).value

/-- What the binding has for an expression has the property, whatever the local names are. -/
structure Binding.Provides (binding : Binding) (holds : Value → Prop)
    (known : List (String × Node) → Prop) : Prop where
  locals : known binding.locals
  lookup : ∀ {names : List (String × Node)} {path : List String} {node : Node}, known names →
    ({ binding with locals := names } : Binding).lookup path = .found node → node.isResolved →
      holds node.value
  stubs : ∀ {path : List String} {node : Node}, binding.findInStubs? path = some node →
    holds node.value
  answers : binding.answers.Provide holds

def Evaluator.Preserves (evaluator : Evaluator) (holds : Value → Prop)
    (known : List (String × Node) → Prop) : Prop :=
  ∀ (binding : Binding) (expression : Expression) (node : Node) (report : Report),
    binding.Provides holds known → evaluator binding expression = .ok (.value node report) →
      holds node.value

variable {holds : Value → Prop} {known : List (String × Node) → Prop} {evaluator : Evaluator}
  {binding : Binding}

theorem Binding.Provides.withLocals (place : binding.Provides holds known)
    (inherited : Inherited holds known) {names : List (String × Node)} (also : known names) :
    (binding.withLocals names).Provides holds known :=
  { place with locals := inherited.merge place.locals also }

/-! ## Operators and functions -/

namespace Value

theorem operate_flat {operator : Operator} {left right result : Value}
    (computed : operate operator left right = .ok result) : result.isFlat :=
  operate_holds (motive := (isFlat ·)) (fun _ => rfl) (fun _ => rfl) (fun _ => rfl)
    (fun _ _ _ => rfl) computed

theorem combine_flat (operator : Operator) (left right : Value) :
    (combine operator left right).isFlat :=
  combine_holds (motive := (isFlat ·)) (fun _ => rfl) (fun _ => rfl) operator left right

end Value

theorem Binding.autoSize_integer {pool : String} {value : Value}
    (computed : binding.autoSize pool = .ok value) : ∃ word, value = .integer word := by
  unfold autoSize at computed
  split at computed
  · cases computed
  · cases computed
  · split at computed
    · rcases ok_of_map computed with ⟨word, _, rfl⟩
      exact ⟨word, rfl⟩
    · split at computed <;> cases computed

theorem Binding.autoOutcome_integer {path : List String} {node : Node} {report : Report}
    (ends : binding.autoOutcome path = .value node report) : ∃ word, node.value = .integer word := by
  unfold Binding.autoOutcome at ends
  split at ends
  · rename_i pool
    cases computed : binding.autoSize pool with
    | error obstacle =>
        rw [computed] at ends
        cases obstacle <;> cases ends
    | ok value =>
        rw [computed] at ends
        cases ends
        exact autoSize_integer computed
  · cases ends

theorem Binding.autoOutcome_flat {path : List String} {node : Node} {report : Report}
    (ends : binding.autoOutcome path = .value node report) : node.value.isFlat := by
  rcases autoOutcome_integer ends with ⟨word, same⟩
  rw [same]
  rfl

/-- What a function makes of each entry holds of all that it makes of the list. -/
theorem forall_of_mapM {α β ε : Type} {function : α → Except ε β} {results : β → Prop}
    {entries : List α} {made : List β} (ends : entries.mapM function = .ok made)
    (each : ∀ entry ∈ entries, ∀ result, function entry = .ok result → results result) :
    ∀ result ∈ made, results result := by
  induction entries generalizing made with
  | nil =>
      cases ends
      exact fun _ member => nomatch member
  | cons entry entries induction =>
      rw [List.forall_mem_cons] at each
      rw [List.mapM_cons] at ends
      rcases ok_of_bind ends with ⟨first, here, ends⟩
      rcases ok_of_bind ends with ⟨rest, others, ends⟩
      cases ends
      exact List.forall_mem_cons.mpr ⟨each.1 first here, induction others each.2⟩

/-! What some functions make is an integer, or texts. -/

theorem AddressFunction.count_integer {arguments : List Node} {value : Value}
    (computed : AddressFunction.count arguments = .ok value) : ∃ word, value = .integer word := by
  rcases ok_of_bind computed with ⟨range, _, computed⟩
  split at computed
  · exact ⟨_, (Except.ok.inj computed).symm⟩
  · cases computed

theorem AddressFunction.staticAddresses_texts {arguments : List Node} {value : Value}
    (computed : AddressFunction.staticAddresses binding arguments = .ok value) :
    ∃ nodes, value = .list nodes ∧
      ∀ node ∈ nodes, ∃ address : Address, node.value = .text address.print := by
  unfold AddressFunction.staticAddresses at computed
  rcases ok_of_bind computed with ⟨indices, _, computed⟩
  rcases ok_of_bind computed with ⟨needed, _, computed⟩
  rcases ok_of_bind computed with ⟨network, _, computed⟩
  rcases ok_of_bind computed with ⟨ranges, _, computed⟩
  split at computed
  · cases computed
  · rcases ok_of_bind computed with ⟨nodes, made, computed⟩
    refine ⟨nodes, (Except.ok.inj computed).symm, ?_⟩
    refine forall_of_mapM made fun index _ node picked => ?_
    unfold AddressFunction.staticAddress at picked
    split at picked
    · rename_i address _
      cases picked
      exact ⟨address, rfl⟩
    · cases picked

theorem TextFunction.format_text {arguments : List Node} {value : Value}
    (computed : TextFunction.format arguments = .ok (.ok value)) : ∃ text, value = .text text := by
  unfold TextFunction.format at computed
  split at computed
  · split at computed
    · cases computed
    · rcases ok_of_bind computed with ⟨rendered, _, computed⟩
      split at computed
      · exact ⟨_, (Except.ok.inj (Except.ok.inj computed)).symm⟩
      · cases computed
  · cases computed

theorem TextFunction.length_integer {arguments : List Node} {value : Value}
    (computed : TextFunction.length arguments = .ok value) : ∃ word, value = .integer word := by
  have counted : ∀ {size : Nat}, TextFunction.count size = .ok value →
      ∃ word, value = .integer word := by
    intro size computed
    unfold TextFunction.count at computed
    split at computed
    · exact ⟨_, (Except.ok.inj computed).symm⟩
    · cases computed
  unfold TextFunction.length at computed
  split at computed
  · split at computed
    · exact counted computed
    · exact counted computed
    · exact counted computed
    · cases computed
  · cases computed

namespace Inherited

/-- A list of texts, say. -/
theorem flats (inherited : Inherited holds known) {entries : List Node}
    (flat : ∀ entry ∈ entries, entry.value.isFlat) : holds (.list entries) :=
  inherited.list.mpr fun entry member => inherited.flat (flat entry member)

theorem staticAddresses (inherited : Inherited holds known) {arguments : List Node} {value : Value}
    (ends : AddressFunction.staticAddresses binding arguments = .ok value) : holds value := by
  rcases AddressFunction.staticAddresses_texts ends with ⟨nodes, rfl, texts⟩
  refine inherited.flats fun node member => ?_
  rcases texts node member with ⟨address, held⟩
  rw [held]
  rfl

theorem trimValue (inherited : Inherited holds known) {cutset : Option String}
    {argument value : Value} (ends : TextFunction.trimValue cutset argument = .ok value) :
    holds value := by
  unfold TextFunction.trimValue at ends
  split at ends
  · cases ends
    exact inherited.flat rfl
  · rcases ok_of_map ends with ⟨entries, made, rfl⟩
    refine inherited.flats (forall_of_mapM made fun entry _ result computed => ?_)
    unfold TextFunction.trimEntry at computed
    split at computed
    · cases computed
      rfl
    · cases computed
  · cases ends

end Inherited

theorem evaluateText_holds (deeper : evaluator.Preserves holds known)
    (place : binding.Provides holds known) {arguments : List Node} {node : Node} {report : Report}
    (ends : evaluateText evaluator binding arguments = .ok (.value node report)) :
    holds node.value := by
  unfold evaluateText at ends
  split at ends
  · split at ends
    · cases ends
    · split at ends
      · exact deeper _ _ _ _ place ends
      · cases ends
  · cases ends

namespace HostFunction

/-- The value of a variable, or a map of the variables that are set. -/
theorem settings_cases {set : List (String × String)} {source : Option String}
    {arguments : List Node} {value : Value}
    (ends : settings set source arguments = .ok value) :
    (∃ name text, set.lookup name = some text ∧ value = .text text) ∨
    ∃ fields, value = .map (Table.ofList fields) ∧ ∀ field ∈ fields, ∃ text,
      set.lookup field.1 = some text ∧ field.2 = .ofSource source (.text text) := by
  have texts : ∀ {position : Nat} {entries : List Node} {fields : List (String × Node)},
      setVariables set source position entries = .ok fields → ∀ field ∈ fields, ∃ text,
        set.lookup field.1 = some text ∧ field.2 = .ofSource source (.text text) := by
    intro position entries
    induction entries generalizing position with
    | nil =>
        intro fields ends
        cases ends
        exact fun _ member => nomatch member
    | cons entry entries induction =>
        intro fields ends
        unfold setVariables at ends
        rcases ok_of_bind ends with ⟨name, _, ends⟩
        rcases ok_of_bind ends with ⟨rest, others, ends⟩
        cases ends
        split
        · rename_i text held
          exact List.forall_mem_cons.mpr ⟨⟨text, held, rfl⟩, induction others⟩
        · exact induction others
  have several : ∀ {result : Value},
      ((setVariables set source 0 (Arguments.flatten arguments)).map
        fun fields => Value.map (Table.ofList fields)) = .ok result →
      ∃ fields, result = .map (Table.ofList fields) ∧ ∀ field ∈ fields, ∃ text,
        set.lookup field.1 = some text ∧ field.2 = .ofSource source (.text text) := by
    intro result ends
    rcases ok_of_map ends with ⟨fields, made, rfl⟩
    exact ⟨fields, rfl, texts made⟩
  unfold settings at ends
  simp only at ends
  split at ends
  · split at ends
    · rename_i name _
      split at ends
      · rename_i text held
        exact .inl ⟨name, text, held, (Except.ok.inj ends).symm⟩
      · cases ends
    · exact .inr (several ends)
  · exact .inr (several ends)

theorem environment_holds (place : binding.Provides holds known) {arguments : List Node}
    {node : Node} {report : Report}
    (ends : environment binding arguments = .ok (.value node report)) : holds node.value := by
  unfold environment at ends
  split at ends
  · cases ends
  · rcases ok_of_bind ends with ⟨set, asked, ends⟩
    unfold Answers.askEnvironment at asked
    split at asked
    · rename_i answered
      cases asked
      cases computed : settings set binding.source arguments with
      | error issue =>
          rw [computed] at ends
          cases ends
      | ok value =>
          rw [computed] at ends
          cases ends
          exact place.answers.settings answered computed
    · cases asked

theorem read_holds (place : binding.Provides holds known) {arguments : List Node}
    {node : Node} {report : Report} (ends : read binding arguments = .ok (.value node report)) :
    holds node.value := by
  unfold read at ends
  split at ends
  · cases ends
  · rcases ok_of_bind ends with ⟨result, asked, ends⟩
    unfold Answers.askFile at asked
    split at asked
    · rename_i answered
      cases asked
      cases result with
      | ok contents => exact place.answers.file answered (Except.ok.inj ends)
      | error failure => cases ends
    · cases asked

theorem execute_holds (place : binding.Provides holds known) {arguments : List Node}
    {node : Node} {report : Report} (ends : execute binding arguments = .ok (.value node report)) :
    holds node.value := by
  unfold execute at ends
  split at ends
  · cases ends
  · rcases ok_of_bind ends with ⟨result, asked, ends⟩
    unfold Answers.askCommand at asked
    split at asked
    · rename_i answered
      cases asked
      cases result with
      | ok output =>
          cases ends
          exact place.answers.output answered
      | error failure => cases ends
    · cases asked

end HostFunction

namespace Builtin

theorem plain_holds {result : Except Issue Value} {node : Node} {report : Report}
    (each : ∀ value, result = .ok value → holds value)
    (ends : apply.plain binding result = .ok (.value node report)) : holds node.value := by
  unfold apply.plain at ends
  cases result with
  | error issue => cases ends
  | ok value =>
      cases ends
      exact each value rfl

theorem apply_holds (inherited : Inherited holds known)
    (deeper : evaluator.Preserves holds known) (place : binding.Provides holds known)
    {arguments : List Node} {node : Node} {report : Report} (builtin : Builtin)
    (ends : builtin.apply evaluator binding arguments = .ok (.value node report)) :
    holds node.value := by
  cases builtin with
  | staticIps =>
      have ends := Except.ok.inj ends
      cases computed : (do
          orIssue (Arguments.checkCount .staticIps arguments)
          AddressFunction.staticAddresses binding arguments) with
      | error obstacle =>
          rw [computed] at ends
          cases obstacle <;> cases ends
      | ok value =>
          rw [computed] at ends
          cases ends
          rcases ok_of_bind computed with ⟨_, _, computed⟩
          exact inherited.staticAddresses computed
  | environment => exact HostFunction.environment_holds place ends
  | read => exact HostFunction.read_holds place ends
  | execute => exact HostFunction.execute_holds place ends
  | evaluate => exact evaluateText_holds deeper place ends
  | minIp | maxIp =>
      refine plain_holds (fun value computed => ?_) ends
      rcases ok_of_map computed with ⟨_, _, rfl⟩
      exact inherited.flat rfl
  | numIp =>
      refine plain_holds (fun value computed => ?_) ends
      rcases AddressFunction.count_integer computed with ⟨word, rfl⟩
      exact inherited.flat rfl
  | split =>
      refine plain_holds (fun value computed => ?_) ends
      unfold TextFunction.split at computed
      split at computed
      · rcases ok_of_bind computed with ⟨separator, _, computed⟩
        rcases ok_of_bind computed with ⟨text, _, computed⟩
        cases computed
        refine inherited.flats fun entry member => ?_
        rcases List.mem_map.mp member with ⟨_, _, rfl⟩
        rfl
      · cases computed
  | join =>
      refine plain_holds (fun value computed => ?_) ends
      unfold TextFunction.join at computed
      split at computed
      · rcases ok_of_bind computed with ⟨separator, _, computed⟩
        rcases ok_of_bind computed with ⟨texts, _, computed⟩
        cases computed
        exact inherited.flat rfl
      · cases computed
  | trim =>
      refine plain_holds (fun value computed => ?_) ends
      unfold TextFunction.trim at computed
      split at computed
      · exact inherited.trimValue computed
      · rcases ok_of_bind computed with ⟨cutset, _, computed⟩
        exact inherited.trimValue computed
      · cases computed
  | format =>
      rcases ok_of_bind ends with ⟨result, computed, ends⟩
      refine plain_holds (fun value made => ?_) ends
      rcases TextFunction.format_text (computed.trans (congrArg Except.ok made)) with ⟨text, rfl⟩
      exact inherited.flat rfl
  | error =>
      rcases ok_of_bind ends with ⟨issue, _, ends⟩
      cases ends
  | length =>
      refine plain_holds (fun value computed => ?_) ends
      rcases TextFunction.length_integer computed with ⟨word, rfl⟩
      exact inherited.flat rfl

end Builtin

/-! ## Lambdas and mappings -/

namespace Lambda

theorem ofValue_known (inherited : Inherited holds known) {value : Value} {lambda : Lambda}
    (callee : holds value) (made : ofValue binding value = .ok lambda) : known lambda.captured := by
  unfold ofValue at made
  split at made
  · cases made
    exact inherited.lambda.mp callee
  · split at made
    · unfold ofParsed? at made
      split at made
      · cases made
        exact inherited.nil
      · cases made
      · cases made
    · cases made
  · cases made

theorem invoke_holds (inherited : Inherited holds known) (deeper : evaluator.Preserves holds known)
    (place : binding.Provides holds known) {lambda : Lambda} (captured : known lambda.captured)
    {arguments : List Node} (given : ∀ argument ∈ arguments, holds argument.value) {node : Node}
    {report : Report} (ends : lambda.invoke evaluator binding arguments = .ok (.value node report)) :
    holds node.value := by
  unfold invoke at ends
  split at ends
  · cases ends
  · exact deeper _ _ _ _ (place.withLocals inherited (inherited.arguments captured given)) ends

/-- Calls end with an outcome only where one of them has no value. -/
theorem invokeAll_stopped {lambda : Lambda} {calls : List (List Node)} {before : Report}
    {outcome : Outcome}
    (ends : lambda.invokeAll evaluator binding calls before = .ok (.error outcome)) :
    outcome.node? = none := by
  induction calls generalizing before with
  | nil => cases ends
  | cons arguments calls induction =>
      unfold invokeAll at ends
      rcases Outcome.stopped_of_step ends with none | ⟨_, _, _, rest⟩
      · exact none
      · exact induction rest

theorem invokeAll_hold (inherited : Inherited holds known)
    (deeper : evaluator.Preserves holds known) (place : binding.Provides holds known)
    {lambda : Lambda} (captured : known lambda.captured) {calls : List (List Node)}
    (given : ∀ arguments ∈ calls, ∀ argument ∈ arguments, holds argument.value)
    {before report : Report} {nodes : List Node}
    (ends : lambda.invokeAll evaluator binding calls before = .ok (.ok (nodes, report))) :
    ∀ node ∈ nodes, holds node.value := by
  induction calls generalizing before nodes with
  | nil =>
      cases ends
      exact fun _ member => nomatch member
  | cons arguments calls induction =>
      rw [List.forall_mem_cons] at given
      unfold invokeAll at ends
      rcases Outcome.values_of_step ends with ⟨node, next, others, first, rest, rfl⟩
      exact List.forall_mem_cons.mpr ⟨invoke_holds inherited deeper place captured given.1 first,
        induction given.2 rest⟩

end Lambda

namespace Mapping

theorem arguments_hold {keyed : Bool} {position entry : Node} (first : holds position.value)
    (second : holds entry.value) :
    ∀ argument ∈ if keyed then [position, entry] else [entry], holds argument.value := by
  cases keyed with
  | true => exact List.forall_mem_cons.mpr ⟨first, List.forall_mem_singleton.mpr second⟩
  | false => exact List.forall_mem_singleton.mpr second

theorem callsFrom_hold (inherited : Inherited holds known) (source : Option String) (keyed : Bool)
    (index : Nat) {entries : List Node} (each : ∀ entry ∈ entries, holds entry.value) :
    ∀ arguments ∈ callsFrom source keyed index entries,
      ∀ argument ∈ arguments, holds argument.value := by
  induction entries generalizing index with
  | nil => exact fun _ member => nomatch member
  | cons entry entries induction =>
      rw [List.forall_mem_cons] at each
      exact List.forall_mem_cons.mpr
        ⟨arguments_hold (inherited.flat rfl) each.1, induction (index + 1) each.2⟩

theorem calls_hold (inherited : Inherited holds known) {source : Option String} {keyed : Bool}
    {collection : Value} {calls : List (List Node)} (whole : holds collection)
    (made : Mapping.calls source keyed collection = .ok calls) :
    ∀ arguments ∈ calls, ∀ argument ∈ arguments, holds argument.value := by
  unfold Mapping.calls at made
  split at made
  · cases made
    exact callsFrom_hold inherited source keyed 0 (inherited.list.mp whole)
  · rename_i fields
    cases made
    intro arguments member
    rcases List.mem_map.mp member with ⟨⟨key, field⟩, held, rfl⟩
    refine arguments_hold (inherited.flat rfl) ?_
    rcases Table.mem_mergeSorted held with held | held
    · exact inherited.field whole _ held
    · cases held
  · cases made
    exact fun _ member => nomatch member
  · cases made

theorem outcome_holds (inherited : Inherited holds known) (deeper : evaluator.Preserves holds known)
    (place : binding.Provides holds known) {collection function : Node}
    (whole : holds collection.value) (callee : holds function.value) {before report : Report}
    {node : Node}
    (ends : outcome evaluator binding collection function before = .ok (.value node report)) :
    holds node.value := by
  unfold outcome at ends
  cases planned : plan binding collection function with
  | error issue =>
      rw [planned] at ends
      cases ends
  | ok found =>
      rcases found with ⟨lambda, calls⟩
      rw [planned] at ends
      rcases ok_of_bind planned with ⟨lambda', made, planned⟩
      simp only at planned
      split at planned
      · cases planned
      · rcases ok_of_bind planned with ⟨_, listed, planned⟩
        cases planned
        rcases ok_of_bind ends with ⟨result, invoked, ends⟩
        cases result with
        | ok values =>
            cases ends
            exact inherited.list.mpr (Lambda.invokeAll_hold inherited deeper place
              (Lambda.ofValue_known inherited callee made)
              (calls_hold inherited whole listed) invoked)
        | error stopped =>
            cases ends
            cases Lambda.invokeAll_stopped invoked

end Mapping

/-! ## Expressions -/

namespace Expression

mutual
theorem evaluateWith_holds (inherited : Inherited holds known)
    (deeper : evaluator.Preserves holds known) (place : binding.Provides holds known) :
    ∀ (expression : Expression) {node : Node} {report : Report},
      evaluateWith evaluator binding expression = .ok (.value node report) → holds node.value
  | .nil, _, _, ends | .boolean _, _, _, ends | .integer _, _, _, ends | .text _, _, _, ends => by
      cases ends
      exact inherited.flat rfl
  | .list entries, _, _, ends => by
      cases evaluates_of_value ends with
      | list values =>
          exact inherited.list.mpr (operands_hold inherited deeper place entries values)
  | .reference _, _, _, ends => by
      cases evaluates_of_value ends with
      | @reference _ found looked resolved =>
          exact (place.lookup place.locals looked resolved : holds found.value)
  | .merge _ _ _, _, _, ends => by
      cases evaluates_of_value ends with
      | @merge _ _ _ found held => exact (place.stubs held : holds found.value)
  | .auto _, _, _, ends => inherited.flat (Binding.autoOutcome_flat (Except.ok.inj ends))
  | .group inner, _, _, ends => evaluateWith_holds inherited deeper place inner ends
  | .binary operator left right, _, _, ends => by
      cases evaluates_of_value ends with
      | first given => exact evaluateWith_holds inherited deeper place left given
      | second _ given => exact evaluateWith_holds inherited deeper place right given
      | decided => exact inherited.flat rfl
      | combined => exact inherited.flat (Value.combine_flat _ _ _)
      | computed _ _ _ result => exact inherited.flat (Value.operate_flat result)
  | .not operand, _, _, ends => by
      cases evaluates_of_value ends
      exact inherited.flat rfl
  | .conditional condition consequence alternative, _, _, ends => by
      cases evaluates_of_value ends with
      | consequence _ _ given => exact evaluateWith_holds inherited deeper place consequence given
      | alternative _ _ given => exact evaluateWith_holds inherited deeper place alternative given
  | .call function arguments, _, _, ends => by
      cases evaluates_of_value ends with
      | @builtin _ _ builtin _ _ _ _ _ _ applied =>
          exact builtin.apply_holds inherited deeper place applied
      | @invoked _ _ _ _ lambda _ _ _ _ _ given made values invoked =>
          exact lambda.invoke_holds inherited deeper place
            (Lambda.ofValue_known inherited
              (evaluateWith_holds inherited deeper place function given) made)
            (operands_hold inherited deeper place arguments values) invoked
  | .lambda parameters body, _, _, ends => by
      cases ends
      exact inherited.lambda.mpr place.locals
  | .mapping collection function, _, _, ends => by
      cases evaluates_of_value ends with
      | mapping given given' mapped =>
          exact Mapping.outcome_holds inherited deeper place
            (evaluateWith_holds inherited deeper place collection given)
            (evaluateWith_holds inherited deeper place function given') mapped
  | .prefer inner, _, _, ends => by
      cases evaluates_of_value ends with
      | prefer given => exact evaluateWith_holds inherited deeper place inner given

theorem operands_hold (inherited : Inherited holds known)
    (deeper : evaluator.Preserves holds known) (place : binding.Provides holds known) :
    ∀ (entries : List Expression) {nodes : List Node} {before report : Report},
      operands evaluator binding before entries = .ok (.ok (nodes, report)) →
        ∀ node ∈ nodes, holds node.value
  | [], _, _, _, ends => by
      cases ends
      exact fun _ member => nomatch member
  | entry :: entries, _, _, _, ends => by
      rcases operands_cons ends with ⟨node, next, others, first, rest, rfl⟩
      exact List.forall_mem_cons.mpr ⟨evaluateWith_holds inherited deeper place entry first,
        operands_hold inherited deeper place entries rest⟩
end

/-- Evaluation keeps to every inherited property. -/
theorem evaluate_preserves (inherited : Inherited holds known) (depth : Nat) :
    (evaluate depth).Preserves holds known := by
  induction depth with
  | zero =>
      intro binding expression node report place ends
      cases ends
  | succ depth induction =>
      intro binding expression node report place ends
      exact evaluateWith_holds inherited induction place expression ends

end Expression

end Stencil
