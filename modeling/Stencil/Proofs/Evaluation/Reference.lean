import Stencil.Proofs.Evaluation.Blindness
import Stencil.Proofs.Evaluation.Precedence

namespace Stencil

/-! What is read off the document: references, the size of a pool, and the addresses of
the instances of a job. Each of them waits where an expression still stands, so a
result that it has is there to stay. -/

variable {aspects : Aspects} {ahead : Bool}

/-! ## Outcomes -/

/-- The outcomes of two evaluations, the second possibly ahead of the first. -/
inductive OutcomePrecedes (aspects : Aspects) (ahead : Bool) :
    Except Pause Outcome → Except Pause Outcome → Prop where
  | paused (pause : Pause) : OutcomePrecedes aspects ahead (.error pause) (.error pause)
  | value {node node' : Node} {report report' : Report}
      (nodes : node.masked aspects = node'.masked aspects)
      (reports : report.masked aspects = report'.masked aspects) :
      OutcomePrecedes aspects ahead (.ok (.value node report)) (.ok (.value node' report'))
  | deferred {report report' : Report}
      (reports : report.masked aspects = report'.masked aspects) :
      OutcomePrecedes aspects ahead (.ok (.deferred report)) (.ok (.deferred report'))
  | failed {report report' : Report}
      (reports : report.masked aspects = report'.masked aspects) :
      OutcomePrecedes aspects ahead (.ok (.failed report)) (.ok (.failed report'))
  | pausedFirst (enabled : ahead = true) (pause : Pause) (later : Except Pause Outcome) :
      OutcomePrecedes aspects ahead (.error pause) later
  | deferredFirst (enabled : ahead = true) (report : Report) (later : Except Pause Outcome) :
      OutcomePrecedes aspects ahead (.ok (.deferred report)) later

namespace OutcomePrecedes

theorem ofValue {source source' : Option String} {value value' : Value}
    (sources : aspects.maskedSource source = aspects.maskedSource source')
    (values : value.masked aspects = value'.masked aspects) :
    OutcomePrecedes aspects ahead (.ok (.ofValue source value)) (.ok (.ofValue source' value')) :=
  .value (Node.masked_ofSource_congr aspects sources values) rfl

theorem ofIssue (issue : Issue) :
    OutcomePrecedes aspects ahead (.ok (.ofIssue issue)) (.ok (.ofIssue issue)) :=
  .failed rfl

theorem ofResult {source source' : Option String} {result later : Except Obstacle Value}
    (sources : aspects.maskedSource source = aspects.maskedSource source')
    (results : ResultPrecedes ahead (result.map (Value.masked aspects))
      (later.map (Value.masked aspects))) :
    OutcomePrecedes aspects ahead (.ok (.ofResult source result))
      (.ok (.ofResult source' later)) := by
  rcases results with same | ⟨enabled, waits⟩
  · cases result with
    | error obstacle =>
        cases later with
        | error obstacle' =>
            cases same
            cases obstacle with
            | unresolved => exact .deferred rfl
            | issue cause => exact .ofIssue cause
        | ok value => cases same
    | ok value =>
        cases later with
        | error obstacle => cases same
        | ok value' => exact .ofValue sources (Except.ok.inj same)
  · cases result with
    | error obstacle =>
        cases waits
        exact .deferredFirst enabled _ _
    | ok value => cases waits

end OutcomePrecedes

namespace Binding.Precedes

variable {binding later : Binding}

/-! ## References -/

theorem referenceOutcome (precedes : binding.Precedes aspects ahead later)
    (path : List String) :
    OutcomePrecedes aspects ahead (.ok (binding.referenceOutcome path))
      (.ok (later.referenceOutcome path)) := by
  have alike : ∀ {node node' : Node}, node.masked aspects = node'.masked aspects →
      OutcomePrecedes aspects ahead
        (.ok (if node.isResolved then .value (.ofSource node.source node.value) {} else .waiting))
        (.ok (if node'.isResolved then .value (.ofSource node'.source node'.value) {}
          else .waiting)) := by
    intro node node' same
    have resolved := node.isResolved_masked aspects
    rw [same, Node.isResolved_masked] at resolved
    rw [resolved]
    split
    · have values := congrArg Node.value same
      have sources := congrArg (Annotations.source ∘ Node.annotations) same
      simp only [Node.value_masked, Function.comp, Node.annotations_masked,
        Annotations.masked] at values sources
      exact .value (Node.masked_ofSource_congr aspects sources values) rfl
    · exact .deferred rfl
  unfold Binding.referenceOutcome
  have lookups := precedes.lookup path
  generalize binding.lookup path = lookup at lookups ⊢
  generalize later.lookup path = lookup' at lookups ⊢
  cases lookups with
  | missing => exact .ofIssue _
  | unresolved => exact .deferred rfl
  | waiting enabled later => exact .deferredFirst enabled _ _
  | found same => exact alike same
  | @refined node later enabled settled refined =>
      cases resolved : node.isResolved with
      | true =>
          have same := refined.eq_of_isResolved (by simpa using resolved)
          exact alike same.symm
      | false =>
          simp only [resolved, Bool.false_eq_true, if_false]
          exact .deferredFirst enabled _ _

theorem mergeOutcome (precedes : binding.Precedes aspects ahead later) (path : List String)
    (redirected replacing : Bool) :
    OutcomePrecedes aspects ahead (.ok (binding.mergeOutcome path redirected replacing))
      (.ok (later.mergeOutcome path redirected replacing)) := by
  have paths : binding.mergePath path redirected = later.mergePath path redirected := by
    unfold Binding.mergePath
    rw [precedes.stubPath]
  simp only [Binding.mergeOutcome, paths]
  have stubs := precedes.findInStubs? (later.mergePath path redirected)
  generalize binding.findInStubs? (later.mergePath path redirected) = found at stubs ⊢
  generalize later.findInStubs? (later.mergePath path redirected) = found' at stubs ⊢
  cases found <;> cases found' <;>
    simp only [Option.map_none, Option.map_some, Option.some.injEq, reduceCtorEq] at stubs
  · exact .ofIssue _
  · have values := congrArg Node.value stubs
    have sources := congrArg (Annotations.source ∘ Node.annotations) stubs
    simp only [Node.value_masked, Function.comp, Node.annotations_masked,
      Annotations.masked] at values sources
    apply OutcomePrecedes.value
    · exact Node.masked_ofSource_congr aspects sources values
    · simp only [Report.masked, Node.source, sources]

end Binding.Precedes

/-! ## The head of a value: what a look at it shows without looking inside -/

def Value.head : Value → Value
  | .list _ => .list []
  | .map _ => .map []
  | .lambda _ _ _ => .lambda [] .nil []
  | value => value

theorem Value.head_masked (aspects : Aspects) (value : Value) :
    (value.masked aspects).head = value.head := by
  cases value <;> rfl

theorem Value.RefinedBy.head {value later : Value} (refined : value.RefinedBy later) :
    later.head = value.head := by
  cases value <;> cases later <;> simp_all [Value.RefinedBy, Value.head]

/-! ## Lists and fields that are refined -/

theorem mapM_refined {α : Type} {entries laters : List Node}
    {function : Node → Except Obstacle α} (refined : entriesRefined entries laters)
    (step : ∀ entry later, entry.RefinedBy later →
      ResultPrecedes true (function entry) (function later)) :
    ResultPrecedes true (entries.mapM function) (laters.mapM function) := by
  induction entries generalizing laters with
  | nil =>
      cases laters with
      | nil => exact .refl _
      | cons later laters => exact refined.elim
  | cons entry entries induction =>
      cases laters with
      | nil => exact refined.elim
      | cons later laters =>
          rw [List.mapM_cons, List.mapM_cons]
          apply (step entry later refined.1).bind
          intro first
          apply (induction refined.2).bind
          intro rest
          exact .refl _

theorem mapM_masked_congr {α ε : Type} {function function' : α → Except ε Node}
    (step : ∀ entry, (function entry).map (Node.masked aspects) =
      (function' entry).map (Node.masked aspects)) (entries : List α) :
    (entries.mapM function).map (entriesMasked aspects) =
      (entries.mapM function').map (entriesMasked aspects) := by
  induction entries with
  | nil => rfl
  | cons entry entries induction =>
      rw [List.mapM_cons, List.mapM_cons]
      rcases except_of_map_eq (step entry) with ⟨cause, first, second⟩ | ⟨_, _, first, second, here⟩
      · rw [first, second]
        rfl
      · rw [first, second]
        rcases except_of_map_eq induction with ⟨cause, first, second⟩ | ⟨_, _, first, second, rest⟩
        · rw [first, second]
          rfl
        · rw [first, second]
          exact congrArg Except.ok (by rw [entriesMasked, entriesMasked, here, rest])

theorem Node.RefinedBy.get? {node later : Node} (refined : node.RefinedBy later)
    (resolved : node.isLocallyResolved) (key : String) :
    Option.Rel Node.RefinedBy (node.get? key) (later.get? key) := by
  have inner := (refined.inner resolved).2
  rcases node with ⟨value, annotations⟩
  rcases later with ⟨value', annotations'⟩
  cases value with
  | map fields =>
      cases value' with
      | map laters =>
          simp only [Node.get?, value_mk]
          rcases fieldsRefined.lookup inner key with ⟨absent, absent'⟩ | found
          · rw [absent, absent']
            exact .none
          · rcases found with ⟨field, later, found, found', here⟩
            rw [found, found']
            exact .some here
      | _ => cases inner
  | list entries =>
      cases value' with
      | list laters => exact .none
      | _ => cases inner
  | _ => cases value' <;> first | exact .none | cases inner

/-! Where a list is asked for, everything else is refused, but an expression waits. -/

def Node.collect {α : Type} (kind : Issue) (next : List Node → Except Obstacle α) (node : Node) :
    Except Obstacle α :=
  match node.value with
  | .list entries => next entries
  | _ => if node.isLocallyResolved then refuse kind else .error .unresolved

def Lookup.collect {α : Type} (absent kind : Issue) (next : List Node → Except Obstacle α) :
    Lookup → Except Obstacle α
  | .unresolved => .error .unresolved
  | .missing => refuse absent
  | .found node => node.collect kind next

section
variable {α : Type} {kind : Issue} {next : List Node → Except Obstacle α}

theorem Node.collect_masked
    (masked : ∀ entries, next (entriesMasked aspects entries) = next entries) (node : Node) :
    (node.masked aspects).collect kind next = node.collect kind next := by
  rcases node with ⟨value, annotations⟩
  cases value with
  | list entries => exact masked entries
  | _ => rfl

theorem Node.RefinedBy.collect {node later : Node}
    (settled : node.listsSettled) (refined : node.RefinedBy later)
    (step : ∀ entries laters, entriesSettled entries → entriesRefined entries laters →
      ResultPrecedes true (next entries) (next laters)) :
    ResultPrecedes true (node.collect kind next) (later.collect kind next) := by
  cases resolved : node.isLocallyResolved with
  | false =>
      have waits : node.collect kind next = .error .unresolved := by
        unfold Node.collect
        cases known : node.value with
        | list entries =>
            simp [Node.isLocallyResolved, known, Value.isLocallyResolved] at resolved
        | _ => simp only [resolved, Bool.false_eq_true, if_false]
      rw [waits]
      exact .waiting _
  | true =>
      have resolved' := refined.isLocallyResolved resolved
      have inner := (refined.inner resolved).2
      unfold Node.collect
      rw [resolved, resolved']
      rcases node with ⟨value, annotations⟩
      rcases later with ⟨value', annotations'⟩
      cases value with
      | list entries =>
          cases value' with
          | list laters => exact step entries laters settled inner
          | _ => cases inner
      | _ => cases value' <;> first | exact .refl _ | cases inner

theorem Lookup.Precedes.collect {absent : Issue} {lookup later : Lookup}
    (precedes : lookup.Precedes aspects ahead later)
    (masked : ∀ entries, next (entriesMasked aspects entries) = next entries)
    (step : ∀ entries laters, entriesSettled entries → entriesRefined entries laters →
      ResultPrecedes true (next entries) (next laters)) :
    ResultPrecedes ahead (lookup.collect absent kind next) (later.collect absent kind next) := by
  cases precedes with
  | missing | unresolved => exact .refl _
  | waiting enabled later => exact .inr ⟨enabled, rfl⟩
  | @found node later same =>
      simp only [Lookup.collect]
      rw [← node.collect_masked masked, same, later.collect_masked masked]
      exact .refl _
  | @refined node later enabled settled refined =>
      subst enabled
      simp only [Lookup.collect]
      rw [← node.collect_masked masked, ← later.collect_masked masked]
      exact refined.collect (by simpa using settled) step

end

/-! ## The size of a pool -/

theorem Binding.autoSize_eq_collect (binding : Binding) (pool : String) :
    binding.autoSize pool = (binding.findFromRoot ["jobs"]).collect .noJobs .jobsKind
      fun entries => (poolSize pool 0 0 entries).map .integer := by
  unfold autoSize
  cases binding.findFromRoot ["jobs"] <;> rfl

namespace Binding.Precedes

variable {binding later : Binding}

theorem jobInstances_refined (pool : String) (index : Nat) {job later : Node}
    (settled : job.isSettledEntry) (refined : job.RefinedBy later) :
    ResultPrecedes true (jobInstances pool index job) (jobInstances pool index later) := by
  have names : stepName index later = stepName index job := by
    unfold stepName
    rw [refined.name? settled]
  unfold jobInstances
  rw [names]
  cases resolved : job.isLocallyResolved with
  | false => exact .waiting _
  | true =>
      rw [refined.isLocallyResolved resolved]
      have pools := refined.get? resolved "resource_pool"
      have counts := refined.get? resolved "instances"
      generalize job.get? "resource_pool" = named at pools ⊢
      generalize later.get? "resource_pool" = named' at pools ⊢
      generalize job.get? "instances" = count at counts ⊢
      generalize later.get? "instances" = count' at counts ⊢
      cases pools with
      | none => exact .refl _
      | @some named named' here =>
          cases known : named.isLocallyResolved with
          | false => simpa [known] using .waiting _
          | true =>
              have head := (here.inner known).2.head
              simp only [known, here.isLocallyResolved known, Bool.not_true, Bool.false_eq_true,
                if_false]
              cases first : named.value <;> cases second : named'.value <;>
                simp only [first, second, Value.head, reduceCtorEq, Value.text.injEq] at head <;>
                try exact .refl _
              subst head
              simp only
              split
              · exact .refl _
              · cases counts with
                | none => exact .refl _
                | @some count count' here =>
                    cases known : count.isLocallyResolved with
                    | false => simpa [known] using .waiting _
                    | true =>
                        have head := (here.inner known).2.head
                        simp only [known, here.isLocallyResolved known, Bool.not_true,
                          Bool.false_eq_true, if_false]
                        cases first : count.value <;> cases second : count'.value <;>
                          simp only [first, second, Value.head, reduceCtorEq,
                            Value.integer.injEq] at head <;>
                          first
                          | exact .refl _
                          | subst head; exact .refl _

theorem poolSize_refined (pool : String) (total : Int64) (index : Nat) {jobs laters : List Node}
    (settled : entriesSettled jobs) (refined : entriesRefined jobs laters) :
    ResultPrecedes true (poolSize pool total index jobs) (poolSize pool total index laters) := by
  induction jobs generalizing total index laters with
  | nil =>
      cases laters with
      | nil => exact .refl _
      | cons later laters => exact refined.elim
  | cons job jobs induction =>
      cases laters with
      | nil => exact refined.elim
      | cons later laters =>
          rw [entriesSettled, Bool.and_eq_true, Bool.and_eq_true] at settled
          unfold poolSize
          apply (jobInstances_refined pool index settled.1.1 refined.1).bind
          intro instances
          cases instances with
          | none => exact induction total (index + 1) settled.2 refined.2
          | some count =>
              simp only
              split
              · exact induction _ (index + 1) settled.2 refined.2
              · exact .refl _

theorem autoSize (precedes : binding.Precedes aspects ahead later) (pool : String) :
    ResultPrecedes ahead (binding.autoSize pool) (later.autoSize pool) := by
  rw [autoSize_eq_collect, autoSize_eq_collect]
  apply (precedes.findFromRoot ["jobs"]).collect
  · intro entries
    rw [entriesMasked_eq_map, (Node.unseen_masked aspects).poolSize]
  · intro entries laters settled refined
    exact (poolSize_refined pool 0 0 settled refined).map _

theorem autoOutcome (precedes : binding.Precedes aspects ahead later) (path : List String) :
    OutcomePrecedes aspects ahead (.ok (binding.autoOutcome path))
      (.ok (later.autoOutcome path)) := by
  unfold Binding.autoOutcome
  split
  · exact .ofResult precedes.source ((precedes.autoSize _).map _)
  · exact .ofIssue _

end Binding.Precedes

/-! ## Addresses of instances -/

namespace AddressFunction

theorem staticRange_refined {spec later : Node} (refined : spec.RefinedBy later) :
    ResultPrecedes true (staticRange spec) (staticRange later) := by
  unfold staticRange
  cases resolved : spec.isLocallyResolved with
  | false => exact .waiting _
  | true =>
      rw [refined.isLocallyResolved resolved]
      have head := (refined.inner resolved).2.head
      cases first : spec.value <;> cases second : later.value <;>
        simp only [first, second, Value.head, reduceCtorEq, Value.text.injEq] at head <;>
        first
        | exact .refl _
        | subst head; exact .refl _

theorem flatten_refined {node later : Node} (refined : node.RefinedBy later)
    (resolved : node.isLocallyResolved) :
    entriesRefined (Arguments.flatten [node]) (Arguments.flatten [later]) := by
  have inner := (refined.inner resolved).2
  rcases node with ⟨value, annotations⟩
  rcases later with ⟨value', annotations'⟩
  cases value with
  | list entries =>
      cases value' with
      | list laters =>
          have inner : entriesRefined entries laters := inner
          simpa [Arguments.flatten] using inner
      | _ => cases inner
  | _ =>
      cases value' <;>
        first
        | exact ⟨refined, trivial⟩
        | cases inner

theorem flatten_unresolved {node : Node} (unresolved : node.isLocallyResolved = false) :
    Arguments.flatten [node] = [node] := by
  rcases node with ⟨value, annotations⟩
  cases value <;> simp_all [Arguments.flatten, Node.isLocallyResolved, Value.isLocallyResolved]

theorem subnetRanges_refined {subnet later : Node} (refined : subnet.RefinedBy later) :
    ResultPrecedes true (subnetRanges subnet) (subnetRanges later) := by
  unfold subnetRanges
  cases resolved : subnet.isLocallyResolved with
  | false => exact .waiting _
  | true =>
      rw [refined.isLocallyResolved resolved]
      have fields := refined.get? resolved "static"
      generalize subnet.get? "static" = statics at fields ⊢
      generalize later.get? "static" = statics' at fields ⊢
      cases fields with
      | none => exact .refl _
      | @some statics statics' here =>
          cases known : statics.isLocallyResolved with
          | false =>
              have waits : [statics].mapM staticRange = .error .unresolved := by
                rw [List.mapM_cons]
                unfold staticRange
                rw [known]
                rfl
              simp only [flatten_unresolved known, waits]
              exact .waiting _
          | true =>
              exact mapM_refined (flatten_refined here known) fun _ _ => staticRange_refined

variable {binding later : Binding}

theorem staticRanges_eq_collect (binding : Binding) (network : String) :
    staticRanges binding network =
      (binding.findFromRoot ["networks", network, "subnets"]).collect (.staticNoSubnets network)
        .staticSubnets fun entries => return (← entries.mapM subnetRanges).flatten := by
  unfold staticRanges
  cases binding.findFromRoot ["networks", network, "subnets"] <;> rfl

theorem staticRanges_precedes (precedes : binding.Precedes aspects ahead later)
    (network : String) :
    ResultPrecedes ahead (staticRanges binding network) (staticRanges later network) := by
  rw [staticRanges_eq_collect, staticRanges_eq_collect]
  apply (precedes.findFromRoot _).collect
  · intro entries
    rw [entriesMasked_eq_map, List.mapM_map]
    simp only [Function.comp_def, (Node.unseen_masked aspects).subnetRanges]
  · intro entries laters settled refined
    exact (mapM_refined refined fun _ _ => subnetRanges_refined).bind fun _ => .refl _

/-- Of the nearest node at a key only the head counts. -/
theorem nearest_precedes (precedes : binding.Precedes aspects ahead later) (key : String) :
    ResultPrecedes ahead ((nearest binding key).map fun node => node.value.head)
      ((nearest later key).map fun node => node.value.head) := by
  unfold nearest
  have lookups := precedes.findReference [key]
  generalize binding.findReference [key] = lookup at lookups ⊢
  generalize later.findReference [key] = lookup' at lookups ⊢
  cases lookups with
  | missing | unresolved => exact .refl _
  | waiting enabled later => exact .inr ⟨enabled, rfl⟩
  | @found node later same =>
      have resolved := node.isLocallyResolved_masked aspects
      have head := node.value.head_masked aspects
      rw [same, Node.isLocallyResolved_masked] at resolved
      rw [← Node.value_masked, same, Node.value_masked, Value.head_masked] at head
      simp only [resolved]
      split
      · simp only [Except.map, head]
        exact .refl _
      · exact .refl _
  | @refined node later enabled settled refined =>
      subst enabled
      cases resolved : node.isLocallyResolved with
      | false =>
          simp only [resolved, Bool.false_eq_true, if_false]
          exact .waiting _
      | true =>
          have here := (node.isLocallyResolved_masked aspects).trans resolved
          have there := refined.isLocallyResolved here
          have head := (refined.inner here).2.head
          simp only [Node.isLocallyResolved_masked, Node.value_masked,
            Value.head_masked] at there head
          simp only [resolved, there, if_true, Except.map, head]
          exact .refl _

/-- How many instances a value asks for. -/
def readInstances : Value → Except Obstacle Nat
  | .integer value =>
      if 0 ≤ value then return value.toInt.toNat else refuse (.staticInstances .integer)
  | value => refuse (.staticInstances value.kind)

theorem instancesNeeded_eq (binding : Binding) :
    instancesNeeded binding =
      ((nearest binding "instances").map fun node => node.value.head) >>= readInstances := by
  unfold instancesNeeded
  cases nearest binding "instances" with
  | error obstacle => rfl
  | ok node =>
      rcases node with ⟨value, annotations⟩
      cases value <;> rfl

theorem instancesNeeded_precedes (precedes : binding.Precedes aspects ahead later) :
    ResultPrecedes ahead (instancesNeeded binding) (instancesNeeded later) := by
  rw [instancesNeeded_eq, instancesNeeded_eq]
  exact (nearest_precedes precedes _).bind fun _ => .refl _

/-- The name of a network. -/
def readNetworkName : Value → Except Obstacle String
  | .text name => return name
  | value => refuse (.staticNetwork value.kind)

theorem networkName_eq (binding : Binding) :
    networkName binding =
      ((nearest binding "name").map fun node => node.value.head) >>= readNetworkName := by
  unfold networkName
  cases nearest binding "name" with
  | error obstacle => rfl
  | ok node =>
      rcases node with ⟨value, annotations⟩
      cases value <;> rfl

theorem networkName_precedes (precedes : binding.Precedes aspects ahead later) :
    ResultPrecedes ahead (networkName binding) (networkName later) := by
  rw [networkName_eq, networkName_eq]
  exact (nearest_precedes precedes _).bind fun _ => .refl _

theorem staticAddress_masked (precedes : binding.Precedes aspects ahead later)
    (network : String) (ranges : List AddressRange) (index : Nat) :
    (staticAddress binding network ranges index).map (Node.masked aspects) =
      (staticAddress later network ranges index).map (Node.masked aspects) := by
  unfold staticAddress
  cases AddressRange.addressAt? ranges index with
  | none => rfl
  | some address =>
      exact congrArg Except.ok (Node.masked_ofSource_congr aspects precedes.source rfl)

theorem staticAddresses_precedes (precedes : binding.Precedes aspects ahead later)
    {arguments arguments' : List Node}
    (same : arguments.map (Node.masked aspects) = arguments'.map (Node.masked aspects)) :
    ResultPrecedes ahead ((staticAddresses binding arguments).map (Value.masked aspects))
      ((staticAddresses later arguments').map (Value.masked aspects)) := by
  unfold staticAddresses
  rw [(Node.unseen_masked aspects).flatten_mapM_congr (Node.unseen_masked aspects).indexArgument same]
  apply (ResultPrecedes.refl _).bindMap
  intro indices
  apply (instancesNeeded_precedes precedes).bindMap
  intro needed
  apply (networkName_precedes precedes).bindMap
  intro network
  apply (staticRanges_precedes precedes network).bindMap
  intro ranges
  split
  · exact .refl _
  · have addresses := mapM_masked_congr (staticAddress_masked precedes network ranges)
      (indices.take needed)
    left
    rcases except_of_map_eq addresses with ⟨cause, first, second⟩ | ⟨_, _, first, second, rest⟩
    · rw [first, second]
    · rw [first, second]
      exact congrArg (Except.ok ∘ Value.list) rest

end AddressFunction

end Stencil
