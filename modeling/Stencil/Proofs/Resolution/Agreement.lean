import Stencil.Proofs.Evaluation.Stability
import Stencil.Proofs.Resolution.Run
import Stencil.Proofs.Resolution.Visit

namespace Stencil

/-! A pass over trees that agree. As long as the annotations of merges are looked at,
which steer the passes that follow, the trees agree after the pass as well. -/

variable {aspects : Aspects}

/-! ## Single nodes -/

namespace Node

@[simp] theorem masked_withValue (node : Node) (value : Value) :
    (node.withValue value).masked aspects =
      (node.masked aspects).withValue (value.masked aspects) := by
  rcases node with ⟨old, annotations⟩
  rfl

@[simp] theorem masked_withSource (node : Node) (source : Option String) :
    (node.withSource source).masked aspects =
      (node.masked aspects).withSource (aspects.maskedSource source) := by
  rcases node with ⟨value, annotations⟩
  simp only [withSource, masked, Annotations.masked, annotations_mk, value_mk, Node.source,
    Aspects.maskedSource_orElse]

@[simp] theorem masked_withIssue (node : Node) (issue : Option Issue) :
    (node.withIssue issue).masked aspects =
      (node.masked aspects).withIssue (if aspects.issue then issue else none) := by
  rcases node with ⟨value, annotations⟩
  rfl

/-- What the expression at a node is does not depend on annotations. -/
@[simp] theorem expression?_masked (aspects : Aspects) (node : Node) (place : List String) :
    (node.masked aspects).expression? place = node.expression? place := by
  rcases node with ⟨value, annotations⟩
  cases value <;> rfl

end Node

section
variable (steered : aspects.merging = true)
include steered

namespace Node

theorem masked_withRedirect (node : Node) (redirect : Option (List String)) :
    (node.withRedirect redirect).masked aspects =
      (node.masked aspects).withRedirect redirect := by
  rcases node with ⟨value, annotations⟩
  simp only [withRedirect, masked, Annotations.masked, annotations_mk, value_mk, Node.redirect,
    steered, if_true]

theorem masked_withReplace (node : Node) (replace : Bool) :
    (node.withReplace replace).masked aspects = (node.masked aspects).withReplace replace := by
  rcases node with ⟨value, annotations⟩
  simp only [withReplace, masked, Annotations.masked, annotations_mk, value_mk, steered,
    Bool.true_and]

theorem masked_withPreferred (node : Node) (preferred : Bool) :
    (node.withPreferred preferred).masked aspects =
      (node.masked aspects).withPreferred preferred := by
  rcases node with ⟨value, annotations⟩
  simp only [withPreferred, masked, Annotations.masked, annotations_mk, value_mk, steered,
    Bool.true_and]

end Node

/-- The annotations that steer a pass are the same in trees that agree. -/
theorem Annotations.steering_congr {annotations annotations' : Annotations}
    (same : annotations.masked aspects = annotations'.masked aspects) :
    annotations.redirect = annotations'.redirect ∧
      annotations.replace = annotations'.replace ∧
      annotations.preferred = annotations'.preferred ∧
      aspects.maskedSource annotations.source = aspects.maskedSource annotations'.source := by
  simp only [masked, steered, if_true, Bool.true_and, Annotations.mk.injEq] at same
  exact ⟨same.2.1, same.2.2.1, same.2.2.2.1, same.1⟩

theorem Node.steering_congr {node node' : Node}
    (same : node.masked aspects = node'.masked aspects) :
    node.redirect = node'.redirect ∧ node.annotations.preferred = node'.annotations.preferred ∧
      aspects.maskedSource node.source = aspects.maskedSource node'.source := by
  rcases node with ⟨value, annotations⟩
  rcases node' with ⟨value', annotations'⟩
  have steering := Annotations.steering_congr steered (Node.mk.inj same).2
  exact ⟨steering.1, steering.2.2.1, steering.2.2.2⟩

end

theorem Node.expression?_congr {node node' : Node}
    (same : node.masked aspects = node'.masked aspects) (place : List String) :
    node.expression? place = node'.expression? place := by
  rw [← node.expression?_masked aspects, same, Node.expression?_masked]

theorem OutcomePrecedes.agree {first later : Except Pause Outcome}
    (precedes : OutcomePrecedes aspects false first later) :
    first.map (Outcome.masked aspects) = later.map (Outcome.masked aspects) := by
  cases precedes with
  | paused pause => rfl
  | value nodes reports => simp only [Except.map, Outcome.masked, nodes, reports]
  | deferred reports | failed reports => simp only [Except.map, Outcome.masked, reports]
  | pausedFirst enabled _ _ | deferredFirst enabled _ _ => cases enabled

/-! ## Bindings -/

namespace Binding.Precedes

variable {ahead : Bool} {binding later : Binding}

theorem withSource (precedes : binding.Precedes aspects ahead later)
    {source source' : Option String}
    (sources : aspects.maskedSource source = aspects.maskedSource source') :
    (binding.withSource source).Precedes aspects ahead (later.withSource source') :=
  { precedes with source := sources }

theorem withScope (precedes : binding.Precedes aspects ahead later)
    {fields fields' : List (String × Node)}
    (scope : ScopePrecedes aspects ahead fields fields') :
    (binding.withScope fields).Precedes aspects ahead (later.withScope fields') :=
  { precedes with scopes := .cons scope precedes.scopes }

theorem withPath (precedes : binding.Precedes aspects ahead later) (step : String) :
    (binding.withPath step).Precedes aspects ahead (later.withPath step) :=
  { precedes with
    path := congrArg (· ++ [step]) precedes.path
    stubPath := congrArg (· ++ [step]) precedes.stubPath }

theorem followRedirect (precedes : binding.Precedes aspects ahead later)
    (redirect : Option (List String)) :
    (Pass.followRedirect binding redirect).Precedes aspects ahead
      (Pass.followRedirect later redirect) := by
  cases redirect with
  | none => exact precedes
  | some path => exact { precedes with stubPath := rfl }

end Binding.Precedes

/-! ## Leaves -/

section
variable {evaluator : Evaluator} {binding later : Binding} {node node' : Node}
  (steered : aspects.merging = true)

include steered in
theorem Pass.ofOutcome_congr (same : node.masked aspects = node'.masked aspects)
    (expression : Expression) {outcome outcome' : Outcome}
    (outcomes : outcome.masked aspects = outcome'.masked aspects) :
    (ofOutcome node expression outcome).masked aspects =
      (ofOutcome node' expression outcome').masked aspects := by
  have redirects := (Node.steering_congr steered same).1
  cases outcome <;> cases outcome' <;> simp only [Outcome.masked, reduceCtorEq] at outcomes
  · rcases Outcome.value.inj outcomes with ⟨results, reports⟩
    simp only [Report.masked, Report.mk.injEq] at reports
    simp only [ofOutcome, Node.masked_withIssue, Node.masked_withPreferred steered,
      Node.masked_withReplace steered, Node.masked_withRedirect steered, Node.masked_withSource,
      results, reports, redirects]
  · have reports := Outcome.deferred.inj outcomes
    simp only [Report.masked, Report.mk.injEq] at reports
    simp only [ofOutcome, Node.masked_withIssue, Node.masked_withValue, same, reports]
  · have reports := Outcome.failed.inj outcomes
    simp only [Report.masked, Report.mk.injEq] at reports
    simp only [ofOutcome, Node.masked_withIssue, Node.masked_withValue, same, reports]

variable (stable : evaluator.Stable aspects false) (precedes : binding.Precedes aspects false later)

include steered stable precedes in
theorem Pass.evaluateNode_congr (same : node.masked aspects = node'.masked aspects) :
    (evaluateNode evaluator binding node).map (Node.masked aspects) =
      (evaluateNode evaluator later node').map (Node.masked aspects) := by
  unfold evaluateNode
  rw [Node.expression?_congr same binding.path, precedes.path]
  cases node'.expression? later.path with
  | none => exact congrArg Except.ok same
  | some parsed =>
      cases parsed with
      | error issue => exact congrArg Except.ok (by simp only [Node.masked_withIssue, same])
      | ok expression =>
          rcases except_of_map_eq (stable binding later expression precedes).agree
            with ⟨pause, first, second⟩ | ⟨_, _, first, second, outcomes⟩
          · simp only [first, second]
            rfl
          · simp only [first, second]
            exact congrArg Except.ok (ofOutcome_congr steered same expression outcomes)

include steered precedes in
theorem Pass.stubFor?_congr (same : node.masked aspects = node'.masked aspects) (mode : Override) :
    (stubFor? node binding mode).map (Node.masked aspects) =
      (stubFor? node' later mode).map (Node.masked aspects) := by
  rcases Node.steering_congr steered same with ⟨redirects, preferences, _⟩
  unfold stubFor?
  simp only [Node.expression?_congr same, precedes.path, preferences, redirects, precedes.stubPath]
  split
  · have stubs := precedes.findInStubs? (node'.redirect.getD later.stubPath)
    have redirected : ∀ place : Option Node,
        (place.map fun found => found.withRedirect node'.redirect).map (Node.masked aspects) =
          (place.map (Node.masked aspects)).map fun found => found.withRedirect node'.redirect := by
      intro place
      cases place with
      | none => rfl
      | some found => exact congrArg some (Node.masked_withRedirect steered found _)
    rw [redirected, redirected, stubs]
  · rfl

include steered stable precedes in
theorem Pass.leaf_congr (same : node.masked aspects = node'.masked aspects) (mode : Override) :
    (leaf evaluator binding mode node).map (Node.masked aspects) =
      (leaf evaluator later mode node').map (Node.masked aspects) := by
  unfold leaf
  apply evaluateNode_congr steered stable precedes
  have stubs := stubFor?_congr steered precedes same mode
  generalize stubFor? node binding mode = found at stubs ⊢
  generalize stubFor? node' later mode = found' at stubs ⊢
  cases found <;> cases found' <;>
    simp only [Option.map_none, Option.map_some, reduceCtorEq, Option.some.injEq] at stubs
  · exact same
  · exact stubs

/-! ## Markers -/

def Marker.masked (aspects : Aspects) : Marker → Marker
  | .merge base redirect replace => .merge (base.masked aspects) redirect replace
  | .keep marker => .keep (marker.masked aspects)
  | marker => marker

theorem Marker.ofOutcome_congr (same : node.masked aspects = node'.masked aspects)
    (expression : Expression) {outcome outcome' : Outcome}
    (outcomes : outcome.masked aspects = outcome'.masked aspects) :
    (ofOutcome node expression outcome).masked aspects =
      (ofOutcome node' expression outcome').masked aspects := by
  have kept : ∀ issue : Option Issue,
      ((node.withValue (.expression expression)).withIssue issue).masked aspects =
        ((node'.withValue (.expression expression)).withIssue issue).masked aspects := by
    intro issue
    simp only [Node.masked_withIssue, Node.masked_withValue, same]
  cases outcome <;> cases outcome' <;> simp only [Outcome.masked, reduceCtorEq] at outcomes
  · rcases Outcome.value.inj outcomes with ⟨results, reports⟩
    simp only [Report.masked, Report.mk.injEq] at reports
    simp only [ofOutcome, Marker.masked, results, reports]
  · have reports := Outcome.deferred.inj outcomes
    simp only [Report.masked, Report.mk.injEq] at reports
    simp only [ofOutcome, Marker.masked, reports, kept]
  · have reports := Outcome.failed.inj outcomes
    simp only [Report.masked, Report.mk.injEq] at reports
    simp only [ofOutcome]
    split
    · rfl
    · simp only [Marker.masked, reports, kept]

include stable precedes in
theorem Marker.evaluate_congr (same : node.masked aspects = node'.masked aspects) :
    (evaluate evaluator binding node).map (Marker.masked aspects) =
      (evaluate evaluator later node').map (Marker.masked aspects) := by
  unfold evaluate
  rw [Node.expression?_congr same binding.path, precedes.path]
  cases node'.expression? later.path with
  | none => rfl
  | some parsed =>
      cases parsed with
      | error issue =>
          exact congrArg (Except.ok ∘ Marker.keep) (by simp only [Node.masked_withIssue, same])
      | ok expression =>
          rcases except_of_map_eq (stable binding later expression precedes).agree
            with ⟨pause, first, second⟩ | ⟨_, _, first, second, outcomes⟩
          · simp only [first, second]
            rfl
          · simp only [first, second]
            exact congrArg Except.ok (ofOutcome_congr same expression outcomes)

/-! ## Maps -/

def FieldMarker.masked (aspects : Aspects) : FieldMarker → FieldMarker
  | .kept marker => .kept (marker.masked aspects)
  | marker => marker

def MapPlan.masked (aspects : Aspects) : MapPlan → MapPlan
  | .replaced entries redirect => .replaced (fieldsMasked aspects entries) redirect
  | .fields marker redirect base =>
      .fields (marker.masked aspects) redirect (base.map (fieldsMasked aspects))

namespace MapPlan

theorem ofMarker_congr (same : node.masked aspects = node'.masked aspects)
    {marker marker' : Marker} (markers : marker.masked aspects = marker'.masked aspects) :
    (ofMarker node marker).masked aspects = (ofMarker node' marker').masked aspects := by
  cases marker <;> cases marker' <;>
    simp only [Marker.masked, reduceCtorEq] at markers <;> try rfl
  · rename_i base redirect replace base' redirect' replace'
    rcases Marker.merge.inj markers with ⟨bases, rfl, rfl⟩
    have values := Value.masked_congr bases
    have kinds := base.value.kind_masked aspects
    rw [values, Value.kind_masked] at kinds
    have kept : (MapPlan.fields (.kept (node.withIssue (some (.mapMerge base.value.kind))))
        none none).masked aspects =
        (MapPlan.fields (.kept (node'.withIssue (some (.mapMerge base'.value.kind))))
          none none).masked aspects := by
      simp only [MapPlan.masked, FieldMarker.masked, Node.masked_withIssue, same, kinds]
    simp only [ofMarker]
    cases first : base.value <;> cases second : base'.value <;>
      simp only [first, second, Value.kind, reduceCtorEq] at kinds <;>
      simp only [first, second] at kept ⊢ <;>
      try exact kept
    rw [first, second] at values
    have bases := Value.map.inj values
    split
    · simp only [MapPlan.masked, bases]
    · simp only [MapPlan.masked, FieldMarker.masked, Option.map_some, bases]
  · simp only [ofMarker, MapPlan.masked, FieldMarker.masked, Marker.keep.inj markers]

include stable precedes in
theorem ofFields_congr {fields fields' : List (String × Node)}
    (same : fieldsMasked aspects fields = fieldsMasked aspects fields') :
    (ofFields evaluator binding fields).map (MapPlan.masked aspects) =
      (ofFields evaluator later fields').map (MapPlan.masked aspects) := by
  have markers := lookup_fieldsMasked aspects markerKey fields
  rw [same, lookup_fieldsMasked] at markers
  unfold ofFields
  generalize fields.lookup markerKey = marker at markers ⊢
  generalize fields'.lookup markerKey = marker' at markers ⊢
  cases marker <;> cases marker' <;>
    simp only [Option.map_none, Option.map_some, reduceCtorEq, Option.some.injEq] at markers
  · rfl
  · rcases except_of_map_eq (Marker.evaluate_congr stable precedes markers.symm)
      with ⟨pause, first, second⟩ | ⟨_, _, first, second, plans⟩
    · simp only [first, second]
      rfl
    · simp only [first, second]
      exact congrArg Except.ok (ofMarker_congr markers.symm plans)

theorem addBase_masked (fields : List (String × Node)) (base : Option (List (String × Node))) :
    fieldsMasked aspects (addBase fields base) =
      addBase (fieldsMasked aspects fields) (base.map (fieldsMasked aspects)) := by
  cases base with
  | none => rfl
  | some base =>
      simp only [addBase, Option.map_some, lookup_fieldsMasked, Option.isNone_map]
      rw [fieldsMasked_eq_map, fieldsMasked_eq_map, fieldsMasked_eq_map, List.map_append,
        List.filter_map]
      rfl

end MapPlan

/-! ## Lists -/

theorem listMarker?_masked (aspects : Aspects) (entry : Node) :
    listMarker? (entry.masked aspects) = (listMarker? entry).map (Node.masked aspects) := by
  rcases entry with ⟨value, annotations⟩
  cases value with
  | map entries =>
      match entries with
      | [] | _ :: _ :: _ => rfl
      | [(key, marker)] =>
          simp only [listMarker?, Node.masked, Node.value_mk, Value.masked, fieldsMasked]
          split <;> rfl
  | _ => rfl

theorem newEntries_masked (names : List String) (entries : List Node) :
    entriesMasked aspects (newEntries names entries) =
      newEntries names (entriesMasked aspects entries) := by
  unfold newEntries
  rw [entriesMasked_eq_map, entriesMasked_eq_map, List.filter_map]
  simp only [Function.comp_def, Node.name?_masked]

theorem filterMap_name?_masked (aspects : Aspects) (entries : List Node) :
    (entriesMasked aspects entries).filterMap Node.name? = entries.filterMap Node.name? := by
  rw [entriesMasked_eq_map, List.filterMap_map]
  simp only [Function.comp_def, Node.name?_masked]

def EntryStep.masked (aspects : Aspects) : EntryStep → EntryStep
  | .visit => .visit
  | .splice nodes => .splice (entriesMasked aspects nodes)

/-- What two passes do about a list. -/
inductive PlansAgree (aspects : Aspects) :
    Except Pause ListPlan → Except Pause ListPlan → Prop where
  | paused (pause : Pause) : PlansAgree aspects (.error pause) (.error pause)
  | replaced {nodes nodes' : List Node} (redirect : Option (List String))
      (same : entriesMasked aspects nodes = entriesMasked aspects nodes') :
      PlansAgree aspects (.ok (.replaced nodes redirect)) (.ok (.replaced nodes' redirect))
  | entries {steps steps' : List EntryStep} {binding later : Binding}
      (redirect : Option (List String)) (merged : Bool)
      (same : steps.map (EntryStep.masked aspects) = steps'.map (EntryStep.masked aspects))
      (precedes : binding.Precedes aspects false later) :
      PlansAgree aspects (.ok (.entries steps binding redirect merged))
        (.ok (.entries steps' later redirect merged))

theorem PlansAgree.addStep {first later : Except Pause ListPlan} {step step' : EntryStep}
    (plans : PlansAgree aspects first later)
    (same : step.masked aspects = step'.masked aspects) :
    PlansAgree aspects (do return (← first).addStep step) (do return (← later).addStep step') := by
  cases plans with
  | paused pause => exact .paused pause
  | replaced redirect nodes => exact .replaced redirect nodes
  | entries redirect merged steps precedes =>
      apply PlansAgree.entries redirect merged _ precedes
      rw [List.map_cons, List.map_cons, same, steps]

theorem ListPlan.keptEntry_congr {entry entry' marker marker' : Node}
    (same : entry.masked aspects = entry'.masked aspects)
    (markers : marker.masked aspects = marker'.masked aspects) :
    (keptEntry entry marker).masked aspects = (keptEntry entry' marker').masked aspects := by
  simp only [keptEntry, EntryStep.masked, entriesMasked, Node.masked_withValue, Value.masked,
    fieldsMasked, same, markers]

include stable in
theorem ListPlan.ofEntries_congr (names : List String) (redirect : Option (List String))
    (merged : Bool) {entries entries' : List Node}
    (same : entriesMasked aspects entries = entriesMasked aspects entries')
    {binding later : Binding} (precedes : binding.Precedes aspects false later) :
    PlansAgree aspects (ofEntries evaluator names binding redirect merged entries)
      (ofEntries evaluator names later redirect merged entries') := by
  induction entries generalizing entries' redirect merged binding later with
  | nil =>
      cases entries' with
      | nil => exact .entries redirect merged rfl precedes
      | cons entry' rest' => cases same
  | cons entry rest induction =>
      cases entries' with
      | nil => cases same
      | cons entry' rest' =>
          rw [entriesMasked, entriesMasked, List.cons.injEq] at same
          have others := induction redirect merged same.2 precedes
          have held := listMarker?_masked aspects entry
          rw [same.1, listMarker?_masked] at held
          unfold ofEntries
          generalize listMarker? entry = marker at held ⊢
          generalize listMarker? entry' = marker' at held ⊢
          cases marker <;> cases marker' <;>
            simp only [Option.map_none, Option.map_some, reduceCtorEq, Option.some.injEq] at held
          · exact others.addStep rfl
          · rename_i marker marker'
            rcases except_of_map_eq (Marker.evaluate_congr stable precedes held.symm)
              with ⟨pause, first, second⟩ | ⟨found, found', first, second, agree⟩
            · simp only [first, second]
              exact .paused pause
            · simp only [first, second]
              cases found <;> cases found' <;> simp only [Marker.masked, reduceCtorEq] at agree
              · rename_i base moved replace base' moved' replace'
                rcases Marker.merge.inj agree with ⟨bases, rfl, rfl⟩
                have values := Value.masked_congr bases
                have kinds := base.value.kind_masked aspects
                rw [values, Value.kind_masked] at kinds
                have issues : (marker.withIssue (some (.listMerge base.value.kind))).masked aspects =
                    (marker'.withIssue (some (.listMerge base'.value.kind))).masked aspects := by
                  simp only [Node.masked_withIssue, held, kinds]
                have kept := keptEntry_congr same.1 issues
                simp only [bind, Except.bind]
                cases first : base.value <;> cases second : base'.value <;>
                  simp only [first, second, Value.kind, reduceCtorEq] at kinds <;>
                  simp only [first, second] at kept ⊢ <;>
                  try exact others.addStep kept
                rw [first, second] at values
                have added := Value.list.inj values
                split
                · exact .replaced moved added
                · apply PlansAgree.addStep
                  · exact induction _ true same.2 (precedes.followRedirect moved)
                  · simp only [EntryStep.masked, newEntries_masked, added]
              · exact others.addStep rfl
              · exact others.addStep (keptEntry_congr same.1 (Marker.keep.inj agree))
              · exact others.addStep rfl

end

/-! ## Passes -/

namespace Pass

section
variable {evaluator : Evaluator}

theorem visitLeaf_congr (steered : aspects.merging = true)
    (stable : evaluator.Stable aspects false) {node node' : Node} {binding later : Binding}
    (mode : Override)
    (noMap : node.kind ≠ .map) (noList : node.kind ≠ .list)
    (precedes : binding.Precedes aspects false later)
    (same : node.masked aspects = node'.masked aspects) :
    (visit evaluator binding mode node).map (Node.masked aspects) =
      (visit evaluator later mode node').map (Node.masked aspects) := by
  have kinds := node.kind_masked aspects
  rw [same, Node.kind_masked] at kinds
  have sources := (Node.steering_congr steered same).2.2
  rw [visit_leaf noMap noList, visit_leaf (kinds ▸ noMap) (kinds ▸ noList)]
  exact leaf_congr steered stable (precedes.withSource sources) same mode

mutual
theorem visit_congr (steered : aspects.merging = true)
    (stable : evaluator.Stable aspects false) :
    ∀ (node node' : Node) (mode : Override) {binding later : Binding},
    binding.Precedes aspects false later → node.masked aspects = node'.masked aspects →
      (visit evaluator binding mode node).map (Node.masked aspects) =
        (visit evaluator later mode node').map (Node.masked aspects)
  | .mk (.map fields) annotations, .mk value' annotations', mode, _, _, precedes, same => by
      rcases Node.mk.inj same with ⟨values, steering⟩
      rcases Annotations.steering_congr steered steering with ⟨redirects, replaces, _, sources⟩
      cases value' with
      | map fields' =>
          have entries : fieldsMasked aspects fields = fieldsMasked aspects fields' :=
            Value.map.inj values
          have inside := ((precedes.withSource sources).followRedirect
            annotations.redirect).withScope (.alike entries)
          rw [visit, visit, ← redirects, ← replaces]
          rcases except_of_map_eq (MapPlan.ofFields_congr stable inside entries)
            with ⟨pause, first, second⟩ | ⟨plan, plan', first, second, plans⟩
          · simp only [first, second]
            rfl
          · simp only [first, second]
            cases plan <;> cases plan' <;> simp only [MapPlan.masked, reduceCtorEq] at plans
            · rcases MapPlan.replaced.inj plans with ⟨replaced, rfl⟩
              refine congrArg Except.ok ?_
              simp only [Node.masked_withReplace steered, Node.masked_withRedirect steered,
                Node.masked_withValue, same, Value.masked, replaced]
            · rename_i marker redirect base marker' redirect' base'
              rcases MapPlan.fields.inj plans with ⟨markers, rfl, bases⟩
              have merged := congrArg Option.isSome bases
              rw [Option.isSome_map, Option.isSome_map] at merged
              rcases except_of_map_eq (visitFields_congr steered stable fields fields'
                  (mode.entries annotations.replace base.isSome) (inside.followRedirect redirect)
                  entries markers) with ⟨pause, first, second⟩ | ⟨_, _, first, second, visited⟩
              · simp only [bind, Except.bind, first, ← merged, second]
              · simp only [bind, Except.bind, first, ← merged, second]
                refine congrArg Except.ok ?_
                simp only [Node.masked_withRedirect steered, Node.masked_withValue, same,
                  Value.masked, MapPlan.addBase_masked, visited, bases]
      | _ => cases values
  | .mk (.list entries) annotations, .mk value' annotations', mode, binding, later, precedes,
      same => by
      rcases Node.mk.inj same with ⟨values, steering⟩
      rcases Annotations.steering_congr steered steering with ⟨redirects, replaces, _, sources⟩
      cases value' with
      | list entries' =>
          have agree : entriesMasked aspects entries = entriesMasked aspects entries' :=
            Value.list.inj values
          have names := filterMap_name?_masked aspects entries
          rw [agree, filterMap_name?_masked] at names
          have inside := (precedes.withSource sources).followRedirect annotations.redirect
          have plans := ListPlan.ofEntries_congr stable (entries.filterMap Node.name?) none false
            agree inside
          rw [visit, visit, ← redirects, ← replaces, names]
          generalize ListPlan.ofEntries evaluator (entries.filterMap Node.name?)
            (followRedirect (binding.withSource annotations.source) annotations.redirect) none false
            entries = first at plans ⊢
          generalize ListPlan.ofEntries evaluator (entries.filterMap Node.name?)
            (followRedirect (later.withSource annotations'.source) annotations.redirect) none false
            entries' = second at plans ⊢
          cases plans with
          | paused pause => rfl
          | replaced redirect nodes =>
              refine congrArg Except.ok ?_
              simp only [Node.masked_withReplace steered, Node.masked_withRedirect steered,
                Node.masked_withValue, same, Value.masked, nodes]
          | @entries steps steps' _ _ redirect merged sameSteps inside =>
              rcases except_of_map_eq (visitEntries_congr steered stable entries entries' steps steps'
                  (mode.entries annotations.replace merged) merged 0 inside agree sameSteps)
                with ⟨pause, first, second⟩ | ⟨_, _, first, second, visited⟩
              · simp only [bind, Except.bind, first, second]
              · simp only [bind, Except.bind, first, second]
                refine congrArg Except.ok ?_
                simp only [Node.masked_withRedirect steered, Node.masked_withValue, same,
                  Value.masked, visited]
      | _ => cases values
  | .mk .null _, _, mode, _, _, precedes, same | .mk (.boolean _) _, _, mode, _, _, precedes, same
  | .mk (.integer _) _, _, mode, _, _, precedes, same
  | .mk (.decimal _) _, _, mode, _, _, precedes, same
  | .mk (.text _) _, _, mode, _, _, precedes, same
  | .mk (.expression _) _, _, mode, _, _, precedes, same
  | .mk (.lambda _ _ _) _, _, mode, _, _, precedes, same =>
      visitLeaf_congr steered stable mode Kind.noConfusion Kind.noConfusion precedes same

theorem visitFields_congr (steered : aspects.merging = true)
    (stable : evaluator.Stable aspects false) :
    ∀ (fields fields' : List (String × Node)) (mode : Override)
    {marker marker' : FieldMarker} {binding later : Binding},
    binding.Precedes aspects false later →
      fieldsMasked aspects fields = fieldsMasked aspects fields' →
      marker.masked aspects = marker'.masked aspects →
        (visitFields evaluator binding mode marker fields).map (fieldsMasked aspects) =
          (visitFields evaluator later mode marker' fields').map (fieldsMasked aspects)
  | [], [], _, _, _, _, _, _, _, _ => rfl
  | [], _ :: _, _, _, _, _, _, _, same, _ => by cases same
  | _ :: _, [], _, _, _, _, _, _, same, _ => by cases same
  | (key, field) :: fields, (key', field') :: fields', mode, marker, marker', binding, later,
      precedes, same, markers => by
      rw [fieldsMasked, fieldsMasked, List.cons.injEq, Prod.mk.injEq] at same
      rcases same with ⟨⟨rfl, here⟩, below⟩
      have others := visitFields_congr steered stable fields fields' mode precedes below markers
      have visited := visit_congr steered stable field field' mode (precedes.withPath key) here
      have ordinary : (marker = .ordinary ∧ marker' = .ordinary) ∨ key ≠ markerKey →
          (visitFields evaluator binding mode marker ((key, field) :: fields)).map
              (fieldsMasked aspects) =
            (visitFields evaluator later mode marker' ((key, field') :: fields')).map
              (fieldsMasked aspects) := by
        intro either
        rw [visitFields_visited (either.imp_left And.left),
          visitFields_visited (either.imp_left And.right)]
        rcases except_of_map_eq visited with ⟨pause, first, second⟩ | ⟨_, _, first, second, node⟩
        · simp only [bind, Except.bind, first, second]
        · rcases except_of_map_eq others with ⟨pause, first', second'⟩ | ⟨_, _, first', second', rest⟩
          · simp only [bind, Except.bind, first, second, first', second']
          · simp only [bind, Except.bind, first, second, first', second']
            exact congrArg Except.ok (by simp only [fieldsMasked, node, rest])
      by_cases different : key ≠ markerKey
      · exact ordinary (.inr different)
      · cases not_not.mp different
        cases marker <;> cases marker' <;> simp only [FieldMarker.masked, reduceCtorEq] at markers
        · exact ordinary (.inl ⟨rfl, rfl⟩)
        · exact others
        · have kept := FieldMarker.kept.inj markers
          rw [visitFields_kept, visitFields_kept]
          rcases except_of_map_eq others with ⟨pause, first, second⟩ | ⟨_, _, first, second, rest⟩
          · simp only [bind, Except.bind, first, second]
          · simp only [bind, Except.bind, first, second]
            exact congrArg Except.ok (by simp only [fieldsMasked, kept, rest])

theorem visitEntries_congr (steered : aspects.merging = true)
    (stable : evaluator.Stable aspects false) :
    ∀ (entries entries' : List Node) (steps steps' : List EntryStep)
    (mode : Override) (merged : Bool) (index : Nat) {binding later : Binding},
    binding.Precedes aspects false later →
      entriesMasked aspects entries = entriesMasked aspects entries' →
      steps.map (EntryStep.masked aspects) = steps'.map (EntryStep.masked aspects) →
        (visitEntries evaluator binding mode merged index steps entries).map
            (entriesMasked aspects) =
          (visitEntries evaluator later mode merged index steps' entries').map
            (entriesMasked aspects)
  | [], [], _, _, _, _, _, _, _, _, _, _ => by
      rw [visitEntries, visitEntries]
  | [], _ :: _, _, _, _, _, _, _, _, _, same, _ => by cases same
  | _ :: _, [], _, _, _, _, _, _, _, _, same, _ => by cases same
  | _ :: _, _ :: _, [], [], _, _, _, _, _, _, _, _ => rfl
  | _ :: _, _ :: _, [], _ :: _, _, _, _, _, _, _, _, agree => by cases agree
  | _ :: _, _ :: _, _ :: _, [], _, _, _, _, _, _, _, agree => by cases agree
  | entry :: entries, entry' :: entries', step :: steps, step' :: steps', mode, merged, index,
      binding, later, precedes, same, agree => by
      rw [entriesMasked, entriesMasked, List.cons.injEq] at same
      rw [List.map_cons, List.map_cons, List.cons.injEq] at agree
      cases step <;> cases step' <;>
        simp only [EntryStep.masked, reduceCtorEq, false_and, EntryStep.splice.injEq] at agree
      · have names := entry.name?_masked aspects
        have position := stepName_masked aspects index entry
        rw [same.1, Node.name?_masked] at names
        rw [same.1, stepName_masked] at position
        have others := visitEntries_congr steered stable entries entries' steps steps' mode merged
          (index + 1) precedes same.2 agree.2
        have visited := visit_congr steered stable entry entry' (entryMode mode merged entry)
          (precedes.withPath (stepName index entry)) same.1
        have modes : entryMode mode merged entry' = entryMode mode merged entry := by
          unfold entryMode
          rw [names]
        rw [visitEntries, visitEntries, position, modes]
        rcases except_of_map_eq visited with ⟨pause, first, second⟩ | ⟨_, _, first, second, node⟩
        · simp only [bind, Except.bind, first, second]
        · rcases except_of_map_eq others with ⟨pause, first', second'⟩ | ⟨_, _, first', second', rest⟩
          · simp only [bind, Except.bind, first, second, first', second']
          · simp only [bind, Except.bind, first, second, first', second']
            exact congrArg Except.ok (by simp only [entriesMasked, node, rest])
      · rename_i nodes nodes'
        have lengths := congrArg List.length agree.1
        rw [entriesMasked_eq_map, entriesMasked_eq_map, List.length_map, List.length_map] at lengths
        have others := visitEntries_congr steered stable entries entries' steps steps' mode merged
          (index + nodes.length) precedes same.2 agree.2
        rw [visitEntries, visitEntries, ← lengths]
        rcases except_of_map_eq others with ⟨pause, first, second⟩ | ⟨_, _, first, second, rest⟩
        · simp only [bind, Except.bind, first, second]
        · simp only [bind, Except.bind, first, second]
          refine congrArg Except.ok ?_
          simp only [entriesMasked_eq_map] at agree rest ⊢
          rw [List.map_append, List.map_append, agree.1, rest]
end

end

end Pass

end Stencil
