import Stencil.Proofs.Evaluation.Percent
import Stencil.Proofs.Node.Reordered

namespace Stencil

/-! Two evaluations at places that differ in the order of keys only. Where no percent sign
stands, no function looks at that order, and both end in the same way: with values that differ
in the order of keys only, after the same reports. -/

/-- Two errors that are related, or two results that are. -/
inductive Parallel {ε α : Type} (faults : ε → ε → Prop) (related : α → α → Prop) :
    Except ε α → Except ε α → Prop where
  | error {fault fault' : ε} (same : faults fault fault') :
      Parallel faults related (.error fault) (.error fault')
  | ok {result result' : α} (both : related result result') :
      Parallel faults related (.ok result) (.ok result')

namespace Parallel

variable {ε α β : Type} {faults : ε → ε → Prop} {related : α → α → Prop} {others : β → β → Prop}
  {first second : Except ε α}

theorem bind {next next' : α → Except ε β} (parallel : Parallel faults related first second)
    (rest : ∀ result result', related result result' →
      Parallel faults others (next result) (next' result')) :
    Parallel faults others (first >>= next) (second >>= next') := by
  cases parallel with
  | error same => exact .error same
  | ok both => exact rest _ _ both

theorem map {function function' : α → β} (parallel : Parallel faults related first second)
    (each : ∀ result result', related result result' →
      others (function result) (function' result')) :
    Parallel faults others (first.map function) (second.map function') := by
  cases parallel with
  | error same => exact .error same
  | ok both => exact .ok (each _ _ both)

end Parallel

/-- Two results of one computation at different places. -/
theorem parallel_of_map {ε : Type} {result result' : Except ε Value}
    (same : result.map Value.ordered = result'.map Value.ordered)
    (free : ∀ value, result = .ok value → value.withoutPercent) :
    Parallel Eq Value.Reordered result result' := by
  rcases except_of_map_eq same with ⟨cause, rfl, rfl⟩ | ⟨value, value', rfl, rfl, values⟩
  · exact .error rfl
  · exact .ok ⟨values, free value rfl⟩

/-! ## Outcomes -/

inductive Outcome.Reordered : Outcome → Outcome → Prop where
  | value {node node' : Node} (both : node.Reordered node') (report : Report) :
      Reordered (.value node report) (.value node' report)
  | deferred (report : Report) : Reordered (.deferred report) (.deferred report)
  | failed (report : Report) : Reordered (.failed report) (.failed report)

theorem Outcome.Reordered.refl {outcome : Outcome}
    (free : ∀ node report, outcome = .value node report → node.withoutPercent) :
    outcome.Reordered outcome := by
  cases outcome with
  | value node report => exact .value (.refl (free node report rfl)) report
  | deferred report => exact .deferred report
  | failed report => exact .failed report

/-- Where every question has an answer, only calls that are nested too deeply pause. -/
def Answers.Paused (answers : Answers) (pause pause' : Pause) : Prop :=
  answers.Complete → pause = .depth ∧ pause' = .depth

/-- Two results that are related, or two pauses. -/
abbrev Abreast {α : Type} (answers : Answers) (related : α → α → Prop) :
    Except Pause α → Except Pause α → Prop :=
  Parallel answers.Paused related

/-- Two evaluations that both pause, or end in the same way. -/
abbrev Alongside (answers : Answers) : Except Pause Outcome → Except Pause Outcome → Prop :=
  Abreast answers Outcome.Reordered

namespace Alongside

variable {answers : Answers} {first second : Except Pause Outcome}

theorem ofValue (source : Option String) {value value' : Value} (both : value.Reordered value') :
    Alongside answers (.ok (.ofValue source value)) (.ok (.ofValue source value')) :=
  .ok (.value (both.node { source }) {})

theorem ofIssue (issue : Issue) : Alongside answers (.ok (.ofIssue issue)) (.ok (.ofIssue issue)) :=
  .ok (.failed _)

theorem ofResult (source : Option String) {result result' : Except Obstacle Value}
    (results : Parallel Eq Value.Reordered result result') :
    Alongside answers (.ok (.ofResult source result)) (.ok (.ofResult source result')) := by
  cases results with
  | error same =>
      subst same
      rename_i obstacle
      cases obstacle with
      | unresolved => exact .ok (.deferred _)
      | issue cause => exact ofIssue cause
  | ok both => exact ofValue source both

theorem bind {next next' : Node → Report → Except Pause Outcome} (both : Alongside answers first second)
    (rest : ∀ node node' report, node.Reordered node' →
      Alongside answers (next node report) (next' node' report)) :
    Alongside answers (first >>= fun outcome => outcome.bind next)
      (second >>= fun outcome => outcome.bind next') := by
  refine Parallel.bind both fun outcome outcome' outcomes => ?_
  cases outcomes with
  | value nodes report => exact rest _ _ report nodes
  | deferred report => exact .ok (.deferred report)
  | failed report => exact .ok (.failed report)

theorem after (before : Report) (both : Alongside answers first second) :
    Alongside answers (first >>= fun outcome => .ok (outcome.after before))
      (second >>= fun outcome => .ok (outcome.after before)) := by
  refine Parallel.bind both fun outcome outcome' outcomes => ?_
  cases outcomes with
  | value nodes report => exact .ok (.value nodes _)
  | deferred report => exact .ok (.deferred _)
  | failed report => exact .ok (.failed _)

theorem after_ok {outcome outcome' : Outcome} (before : Report)
    (both : Alongside answers (.ok outcome) (.ok outcome')) :
    Alongside answers (.ok (outcome.after before)) (.ok (outcome'.after before)) :=
  both.after before

theorem operand {next next' : Node → Report → Except Pause Outcome} (before : Report)
    (both : Alongside answers first second) (rest : ∀ node node' report, node.Reordered node' →
      Alongside answers (next node report) (next' node' report)) :
    Alongside answers (first >>= fun outcome => outcome.operand before next)
      (second >>= fun outcome => outcome.operand before next') := by
  refine Parallel.bind both fun outcome outcome' outcomes => ?_
  cases outcomes with
  | value nodes report => exact rest _ _ _ nodes
  | deferred report => exact .ok (.deferred _)
  | failed report => exact .ok (.failed _)

theorem afterBind {next next' : Node → Report → Except Pause Outcome} (before : Report)
    (both : Alongside answers first second) (rest : ∀ node node' report, node.Reordered node' →
      Alongside answers (next node report) (next' node' report)) :
    Alongside answers (first >>= fun outcome => (outcome.after before).bind next)
      (second >>= fun outcome => (outcome.after before).bind next') := by
  refine Parallel.bind both fun outcome outcome' outcomes => ?_
  cases outcomes with
  | value nodes report => exact rest _ _ _ nodes
  | deferred report => exact .ok (.deferred _)
  | failed report => exact .ok (.failed _)

end Alongside

/-- The operands of two evaluations. -/
abbrev OperandsAlongside (answers : Answers) :
    Except Pause Operands → Except Pause Operands → Prop :=
  Abreast answers (Parallel Outcome.Reordered fun values values' =>
    NodesReordered values.1 values'.1 ∧ values.2 = values'.2)

namespace OperandsAlongside

variable {answers : Answers}

theorem values {nodes nodes' : List Node} (both : NodesReordered nodes nodes') (report : Report) :
    OperandsAlongside answers (.ok (.ok (nodes, report))) (.ok (.ok (nodes', report))) :=
  .ok (.ok ⟨both, rfl⟩)

/-- One more operand in front. -/
theorem cons {first second : Except Pause Outcome} {before : Report}
    {rest rest' : Report → Except Pause Operands} (both : Alongside answers first second)
    (others : ∀ report, OperandsAlongside answers (rest report) (rest' report)) :
    OperandsAlongside answers
      (do
        match ← first with
        | .value node next =>
            return (← rest (before.join next)).map fun (nodes, report) => (node :: nodes, report)
        | stopped => return .error (stopped.after before))
      (do
        match ← second with
        | .value node next =>
            return (← rest' (before.join next)).map fun (nodes, report) => (node :: nodes, report)
        | stopped => return .error (stopped.after before)) := by
  refine Parallel.bind both fun outcome outcome' outcomes => ?_
  cases outcomes with
  | value nodes report =>
      refine Parallel.bind (others _) fun found found' values => ?_
      exact .ok (values.map fun _ _ same => ⟨.cons nodes same.1, same.2⟩)
  | deferred report => exact .ok (.error (.deferred _))
  | failed report => exact .ok (.error (.failed _))

/-- Go on with the operands; an operand without a value decides after what was reported
before. -/
theorem bind {first second : Except Pause Operands} {before : Report}
    {next next' : List Node → Report → Except Pause Outcome}
    (both : OperandsAlongside answers first second)
    (rest : ∀ nodes nodes' report, NodesReordered nodes nodes' →
      Alongside answers (next nodes report) (next' nodes' report)) :
    Alongside answers
      (do
        match ← first with
        | .ok (nodes, report) => next nodes report
        | .error stopped => return stopped.after before)
      (do
        match ← second with
        | .ok (nodes, report) => next' nodes report
        | .error stopped => return stopped.after before) := by
  refine Parallel.bind both fun found found' values => ?_
  cases values with
  | error same => exact Alongside.after_ok before (.ok same)
  | @ok values values' same =>
      rcases values with ⟨nodes, report⟩
      rcases values' with ⟨nodes', report'⟩
      cases same.2
      exact rest nodes nodes' report same.1

/-- The same where nothing was reported before. -/
theorem bindFirst {first second : Except Pause Operands}
    {next next' : List Node → Report → Except Pause Outcome}
    (both : OperandsAlongside answers first second)
    (rest : ∀ nodes nodes' report, NodesReordered nodes nodes' →
      Alongside answers (next nodes report) (next' nodes' report)) :
    Alongside answers
      (do
        match ← first with
        | .ok (nodes, report) => next nodes report
        | .error stopped => return stopped)
      (do
        match ← second with
        | .ok (nodes, report) => next' nodes report
        | .error stopped => return stopped) := by
  refine Parallel.bind both fun found found' values => ?_
  cases values with
  | error same => exact .ok same
  | @ok values values' same =>
      rcases values with ⟨nodes, report⟩
      rcases values' with ⟨nodes', report'⟩
      cases same.2
      exact rest nodes nodes' report same.1

end OperandsAlongside

/-! ## Places -/

/-- Two places with the same answers, which bring no percent sign. -/
structure Binding.Reordered (answers : Answers) (binding other : Binding) : Prop where
  scopes : List.Forall₂ FieldsReordered binding.scopes other.scopes
  locals : NamesReordered binding.locals other.locals
  path : binding.path = other.path
  stubPath : binding.stubPath = other.stubPath
  stubs : NodesReordered binding.stubs other.stubs
  source : binding.source = other.source
  known : binding.answers = answers
  known' : other.answers = answers
  provide : answers.Provide fun value => value.withoutPercent

namespace Binding.Reordered

variable {answers : Answers} {binding other : Binding}
  (both : binding.Reordered answers other)
include both

theorem withLocals {names names' : List (String × Node)} (also : NamesReordered names names') :
    (binding.withLocals names).Reordered answers (other.withLocals names') :=
  { both with locals := both.locals.mergeSorted also }

omit both in
theorem findIn {fields fields' : List (String × Node)}
    (lookups : ∀ key, Option.Rel Node.Reordered (fields.lookup key) (fields'.lookup key))
    (first : String) (rest : List String) :
    Option.Rel Lookup.Reordered (Binding.findIn fields first rest)
      (Binding.findIn fields' first rest) := by
  have here := lookups first
  unfold Binding.findIn
  generalize fields.lookup first = found at here ⊢
  generalize fields'.lookup first = found' at here ⊢
  cases here with
  | none => exact .none
  | some both => exact .some (both.find rest)

theorem findFromRoot (path : List String) :
    (binding.findFromRoot path).Reordered (other.findFromRoot path) := by
  cases path with
  | nil => exact .missing
  | cons first rest =>
      apply getD_related .missing
      have roots := getLast_related both.scopes
      generalize binding.scopes.getLast? = root at roots ⊢
      generalize other.scopes.getLast? = root' at roots ⊢
      cases roots with
      | none => exact .none
      | some fields => exact findIn fields.lookup first rest

theorem findReference (path : List String) :
    (binding.findReference path).Reordered (other.findReference path) := by
  cases path with
  | nil => exact .missing
  | cons first rest =>
      have tables : List.Forall₂
          (fun fields fields' => ∀ key,
            Option.Rel Node.Reordered (fields.lookup key) (fields'.lookup key))
          (binding.locals :: binding.scopes) (other.locals :: other.scopes) :=
        .cons both.locals.lookup (both.scopes.imp fun _ _ fields => fields.lookup)
      exact getD_related .missing
        (findSome_related (fun _ _ lookups => findIn lookups first rest) tables)

theorem lookup (path : List String) :
    (binding.lookup path).Reordered (other.lookup path) := by
  unfold Binding.lookup
  split
  · exact both.findFromRoot _
  · exact both.findReference _

theorem findInStubs? (path : List String) :
    Option.Rel Node.Reordered (binding.findInStubs? path) (other.findInStubs? path) := by
  refine findSome_related (fun stub stub' stubs => ?_) both.stubs
  have found := stubs.find path
  generalize stub.find path = lookup at found ⊢
  generalize stub'.find path = lookup' at found ⊢
  cases found with
  | found nodes => exact .some nodes
  | unresolved | missing => exact .none

/-! ## References -/

theorem referenceOutcome (path : List String) :
    Alongside answers (.ok (binding.referenceOutcome path)) (.ok (other.referenceOutcome path)) := by
  have lookups := both.lookup path
  unfold Binding.referenceOutcome
  generalize binding.lookup path = lookup at lookups ⊢
  generalize other.lookup path = lookup' at lookups ⊢
  cases lookups with
  | missing => exact .ofIssue _
  | unresolved => exact .ok (.deferred _)
  | @found node node' nodes =>
      simp only [nodes.isResolved, Node.source, nodes.annotations]
      split
      · exact .ok (.value (nodes.value.node _) _)
      · exact .ok (.deferred _)

theorem mergeOutcome (path : List String) (redirected replacing : Bool) :
    Alongside answers (.ok (binding.mergeOutcome path redirected replacing))
      (.ok (other.mergeOutcome path redirected replacing)) := by
  have paths : binding.mergePath path redirected = other.mergePath path redirected := by
    unfold Binding.mergePath
    rw [both.stubPath]
  simp only [Binding.mergeOutcome, paths]
  have stubs := both.findInStubs? (other.mergePath path redirected)
  generalize binding.findInStubs? (other.mergePath path redirected) = found at stubs ⊢
  generalize other.findInStubs? (other.mergePath path redirected) = found' at stubs ⊢
  cases stubs with
  | none => exact .ofIssue _
  | some nodes =>
      simp only [Node.source, nodes.annotations]
      exact .ok (.value (nodes.value.node _) _)

end Binding.Reordered

/-! ## What is read off the document -/

section
variable {answers : Answers} {binding other : Binding}
  (both : binding.Reordered answers other)

/-- Where a list is asked for, the order of keys inside does not matter. -/
theorem Lookup.Reordered.collect {α : Type} {absent kind : Issue}
    {next : List Node → Except Obstacle α} {lookup lookup' : Lookup}
    (lookups : lookup.Reordered lookup')
    (blind : ∀ entries, next (entries.map Node.ordered) = next entries) :
    lookup.collect absent kind next = lookup'.collect absent kind next := by
  cases lookups with
  | missing | unresolved => rfl
  | @found node node' nodes =>
      simp only [Lookup.collect, Node.collect, nodes.isLocallyResolved]
      have shapes := nodes.value.shapes
      generalize node.value = value at shapes ⊢
      generalize node'.value = value' at shapes ⊢
      cases shapes with
      | list both => exact blind_congr blind both.same
      | _ => rfl

include both

theorem Binding.Reordered.autoSize (pool : String) :
    binding.autoSize pool = other.autoSize pool := by
  rw [autoSize_eq_collect, autoSize_eq_collect]
  refine (both.findFromRoot ["jobs"]).collect fun entries => ?_
  rw [Node.unseen_ordered.poolSize]

theorem Binding.Reordered.autoOutcome (path : List String) :
    Alongside answers (.ok (binding.autoOutcome path)) (.ok (other.autoOutcome path)) := by
  unfold Binding.autoOutcome
  split
  · rename_i pool
    rw [both.source]
    refine .ofResult _ (parallel_of_map (by rw [both.autoSize]) fun value computed => ?_)
    rcases autoSize_integer computed with ⟨word, rfl⟩
    rfl
  · exact .ofIssue _

namespace AddressFunction

theorem nearest_reordered (key : String) :
    ((nearest binding key).map fun node => node.value.head) =
      (nearest other key).map fun node => node.value.head := by
  have lookups := both.findReference [key]
  unfold nearest
  generalize binding.findReference [key] = lookup at lookups ⊢
  generalize other.findReference [key] = lookup' at lookups ⊢
  cases lookups with
  | missing | unresolved => rfl
  | @found node node' nodes =>
      have heads : node.value.head = node'.value.head := by
        have shapes := nodes.value.shapes
        generalize node.value = value at shapes ⊢
        generalize node'.value = value' at shapes ⊢
        cases shapes <;> rfl
      simp only [nodes.isLocallyResolved]
      split
      · exact congrArg Except.ok heads
      · rfl

theorem staticRanges_reordered (network : String) :
    staticRanges binding network = staticRanges other network := by
  rw [staticRanges_eq_collect, staticRanges_eq_collect]
  refine (both.findFromRoot _).collect fun entries => ?_
  rw [List.mapM_map]
  simp only [Function.comp_def, Node.unseen_ordered.subnetRanges]

theorem staticAddresses_reordered {arguments arguments' : List Node}
    (same : arguments.map Node.ordered = arguments'.map Node.ordered) :
    staticAddresses binding arguments = staticAddresses other arguments' := by
  have address (network : String) (ranges : List AddressRange) :
      staticAddress binding network ranges = staticAddress other network ranges := by
    funext index
    unfold staticAddress
    rw [both.source]
  unfold staticAddresses
  rw [Node.unseen_ordered.flatten_mapM_congr Node.unseen_ordered.indexArgument same,
    instancesNeeded_eq, instancesNeeded_eq, networkName_eq, networkName_eq,
    nearest_reordered both, nearest_reordered both]
  simp only [staticRanges_reordered both, address]

end AddressFunction

end

/-! ## Calls by name -/

section
variable {answers : Answers} {binding other : Binding} {arguments arguments' : List Node}

/-- Only the number of the arguments counts behind a template without directives. -/
theorem Template.render_reordered {template : String} (free : Text.lacks '%' template)
    (same : arguments.map Node.ordered = arguments'.map Node.ordered) :
    render template arguments = render template arguments' := by
  have lengths := congrArg List.length same
  rw [List.length_map, List.length_map] at lengths
  have empty : arguments = [] ↔ arguments' = [] := by
    rw [← List.length_eq_zero_iff, lengths, List.length_eq_zero_iff]
  rw [render_of_lacksPercent free, render_of_lacksPercent free, lengths]
  simp only [empty]

namespace TextFunction

theorem format_reordered (both : NodesReordered arguments arguments') :
    format arguments = format arguments' := by
  cases both with
  | nil => rfl
  | @cons template template' rest rest' first others =>
      have texts := Node.unseen_ordered.argumentText .format 0 template
      rw [first.same, Node.unseen_ordered.argumentText] at texts
      simp only [format, texts]
      cases read : Arguments.text .format 0 template with
      | error issue => rfl
      | ok text =>
          simp only [Template.render_reordered
            (Arguments.text_lacksPercent first.free read) (NodesReordered.same others)]

theorem error_reordered (both : NodesReordered arguments arguments') :
    error arguments = error arguments' := by
  cases both with
  | nil => rfl
  | @cons template template' rest rest' first others =>
      have texts := Node.unseen_ordered.argumentText .error 0 template
      rw [first.same, Node.unseen_ordered.argumentText] at texts
      simp only [error, texts]
      cases read : Arguments.text .error 0 template with
      | error issue => rfl
      | ok text =>
          simp only [Template.render_reordered
            (Arguments.text_lacksPercent first.free read) (NodesReordered.same others)]

end TextFunction

namespace HostFunction

theorem environment_alongside (places : binding.Reordered answers other)
    (both : NodesReordered arguments arguments') :
    Alongside answers (environment binding arguments) (environment other arguments') := by
  unfold environment
  rw [blind_congr (Unseen.checkCount .environment) both.same, places.known, places.known', places.source]
  split
  · exact .ofIssue _
  · cases asked : answers.environment with
    | none =>
        simp only [Answers.askEnvironment, asked]
        exact .error fun complete => absurd complete.1 (by simp [asked])
    | some known =>
        simp only [Answers.askEnvironment, asked]
        have settled := blind_congr (Node.unseen_ordered.settings known other.source) both.same
        cases computed : settings known other.source arguments' with
        | error issue =>
            rw [computed] at settled
            simp only [bind, Except.bind, settled, computed]
            exact .ofIssue _
        | ok value =>
            rw [computed] at settled
            simp only [bind, Except.bind, settled, computed]
            exact .ofValue _ (.refl (places.provide.settings asked computed))

theorem read_alongside (places : binding.Reordered answers other)
    (both : NodesReordered arguments arguments') :
    Alongside answers (read binding arguments) (read other arguments') := by
  unfold read
  rw [blind_congr Node.unseen_ordered.fileArguments both.same, places.known, places.known', places.source]
  split
  · exact .ofIssue _
  · rename_i path kind _
    cases asked : answers.file path with
    | none =>
        simp only [Answers.askFile, asked]
        exact .error fun complete => absurd (complete.2.1 path) (by simp [asked])
    | some result =>
        simp only [Answers.askFile, asked]
        cases result with
        | error failure => exact .ofIssue _
        | ok contents =>
            refine .ok (.refl fun node report made => ?_)
            rw [Node.withoutPercent_eq]
            exact places.provide.file asked made

theorem execute_alongside (places : binding.Reordered answers other)
    (both : NodesReordered arguments arguments') :
    Alongside answers (execute binding arguments) (execute other arguments') := by
  unfold execute
  rw [blind_congr (Unseen.checkCount .execute) both.same,
    Node.unseen_ordered.flatten_mapM_congr Node.unseen_ordered.commandText both.same,
    places.known, places.known', places.source]
  split
  · exact .ofIssue _
  · rename_i command _
    cases asked : answers.command command with
    | none =>
        simp only [Answers.askCommand, asked]
        exact .error fun complete => absurd (complete.2.2 command) (by simp [asked])
    | some result =>
        simp only [Answers.askCommand, asked]
        cases result with
        | error failure => exact .ofIssue _
        | ok output =>
            refine .ok (.value (.refl ?_) _)
            rw [Node.withoutPercent_eq]
            exact places.provide.output asked

end HostFunction

/-- An evaluator that does not look at the order of keys where no percent sign stands. -/
def Evaluator.IgnoresOrder (evaluator : Evaluator) : Prop :=
  ∀ (answers : Answers) (binding other : Binding) (expression : Expression),
    binding.Reordered answers other → expression.withoutPercent →
      Alongside answers (evaluator binding expression) (evaluator other expression)

variable {evaluator : Evaluator}

theorem evaluateText_alongside (deeper : evaluator.IgnoresOrder)
    (places : binding.Reordered answers other) (both : NodesReordered arguments arguments') :
    Alongside answers (evaluateText evaluator binding arguments)
      (evaluateText evaluator other arguments') := by
  have lengths := List.Forall₂.length_eq both
  match arguments, arguments', both, lengths with
  | [], [], _, _ => exact .ofIssue _
  | [argument], [argument'], .cons first _, _ =>
      have texts := Node.unseen_ordered.argumentText .evaluate 0 argument
      rw [first.same, Node.unseen_ordered.argumentText] at texts
      simp only [evaluateText, texts, places.path]
      cases read : Arguments.text .evaluate 0 argument with
      | error issue => exact .ofIssue _
      | ok text =>
          have free := Arguments.text_lacksPercent first.free read
          have source : Text.lacks '%' ((Text.embedded? text).getD text) := by
            cases embedded : Text.embedded? text with
            | none => exact free
            | some source => exact Text.lacks_embedded free embedded
          cases parsed : Expression.parse ((Text.embedded? text).getD text) other.path with
          | ok expression =>
              simp only [parsed]
              exact deeper _ _ _ _ places (Expression.parse_withoutPercent source parsed)
          | error error =>
              simp only [parsed]
              exact .ofIssue _
  | _ :: _ :: _, _ :: _ :: _, _, lengths =>
      simp only [evaluateText, lengths]
      exact .ofIssue _

namespace Builtin

theorem plain_alongside (places : binding.Reordered answers other) {result result' : Except Issue Value}
    (results : Parallel Eq Value.Reordered result result') :
    Alongside answers (apply.plain binding result) (apply.plain other result') := by
  unfold apply.plain
  rw [places.source]
  apply Alongside.ofResult
  cases results with
  | error same => exact .error (congrArg Obstacle.issue same)
  | ok both => exact .ok both

theorem apply_alongside (deeper : evaluator.IgnoresOrder) (places : binding.Reordered answers other)
    (both : NodesReordered arguments arguments') (builtin : Builtin) :
    Alongside answers (builtin.apply evaluator binding arguments)
      (builtin.apply evaluator other arguments') := by
  have same := both.same
  have unseen := Node.unseen_ordered
  -- What sees neither the order nor the place has the same result in both.
  have alike : ∀ {function function' : List Node → Except Issue Value},
      function arguments = function' arguments' →
      (∀ value, function arguments = .ok value → value.withoutPercent) →
        Alongside answers (apply.plain binding (function arguments))
          (apply.plain other (function' arguments')) := by
    intro function function' results free
    exact plain_alongside places (parallel_of_map (by rw [results]) free)
  cases builtin with
  | staticIps =>
      unfold Builtin.apply
      rw [blind_congr (Unseen.checkCount .staticIps) same, places.source,
        AddressFunction.staticAddresses_reordered places same]
      refine .ofResult _ (parallel_of_map rfl fun value computed => ?_)
      rcases ok_of_bind computed with ⟨_, _, computed⟩
      exact AddressFunction.staticAddresses_withoutPercent computed
  | minIp =>
      exact alike (blind_congr unseen.least same)
        fun _ => AddressFunction.least_withoutPercent
  | maxIp =>
      exact alike (blind_congr unseen.greatest same)
        fun _ => AddressFunction.greatest_withoutPercent
  | numIp =>
      refine alike (blind_congr unseen.count same) fun value computed => ?_
      rcases AddressFunction.count_integer computed with ⟨word, rfl⟩
      rfl
  | environment => exact HostFunction.environment_alongside places both
  | read => exact HostFunction.read_alongside places both
  | execute => exact HostFunction.execute_alongside places both
  | evaluate => exact evaluateText_alongside deeper places both
  | split =>
      refine alike ?_ fun _ => TextFunction.split_withoutPercent both.free
      rw [places.source]
      exact blind_congr (unseen.split other.source) same
  | join =>
      exact alike (blind_congr unseen.join same)
        fun _ => TextFunction.join_withoutPercent both.free
  | trim =>
      refine plain_alongside places (parallel_of_map ?_ fun _ =>
        TextFunction.trim_withoutPercent both.free)
      rw [← unseen.trim, same, unseen.trim]
  | format =>
      rcases TextFunction.format_ends both.free with ⟨result, ends⟩
      unfold Builtin.apply
      rw [← TextFunction.format_reordered both, ends]
      exact plain_alongside places (parallel_of_map rfl fun value computed =>
        TextFunction.format_withoutPercent both.free (ends.trans (congrArg Except.ok computed)))
  | error =>
      rcases TextFunction.error_ends both.free with ⟨issue, ends⟩
      unfold Builtin.apply
      rw [← TextFunction.error_reordered both, ends]
      exact .ofIssue _
  | length =>
      refine alike (blind_congr unseen.length same) fun value computed => ?_
      rcases TextFunction.length_integer computed with ⟨word, rfl⟩
      rfl

end Builtin

end

end Stencil
