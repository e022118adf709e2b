import Stencil.Proofs.Evaluation.KeyOrder
import Stencil.Proofs.Resolution.Visit

namespace Stencil

/-! A pass over two trees that differ in the order of keys only, up to what is done about a
node, a map or a list before anything inside is visited. The fields of a map may be visited in
another order, so two passes that pause may do so at different nodes. -/

namespace Abreast

variable {α : Type} {related related' related'' : α → α → Prop} {answers : Answers}
  {first second third : Except Pause α}

theorem trans (both : Abreast answers related first second)
    (also : Abreast answers related' second third)
    (joined : ∀ result result' result'', related result result' → related' result' result'' →
      related'' result result'') : Abreast answers related'' first third := by
  cases both with
  | error pauses =>
      cases also with
      | error pauses' =>
          exact .error fun complete => ⟨(pauses complete).1, (pauses' complete).2⟩
  | ok here =>
      cases also with
      | ok there => exact .ok (joined _ _ _ here there)

theorem symm (both : Abreast answers related first second)
    (turned : ∀ result result', related result result' → related' result' result) :
    Abreast answers related' second first := by
  cases both with
  | error pauses => exact .error fun complete => (pauses complete).symm
  | ok here => exact .ok (turned _ _ here)

end Abreast

/-! ## Single nodes -/

namespace Node

@[simp] theorem expression?_ordered (node : Node) (place : List String) :
    node.ordered.expression? place = node.expression? place := by
  rcases node with ⟨value, annotations⟩
  cases value <;> rfl

namespace Reordered

variable {node node' : Node} (both : node.Reordered node')
include both

/-- The same change of the annotations of both. -/
theorem annotate (change : Annotations → Annotations) :
    (Node.mk node.value (change node.annotations)).Reordered
      (.mk node'.value (change node'.annotations)) := by
  rw [both.annotations]
  exact both.value.node _

theorem withSource (source : Option String) :
    (node.withSource source).Reordered (node'.withSource source) :=
  both.annotate fun annotations => { annotations with source := source <|> annotations.source }

theorem withRedirect (redirect : Option (List String)) :
    (node.withRedirect redirect).Reordered (node'.withRedirect redirect) :=
  both.annotate fun annotations =>
    { annotations with redirect := redirect <|> annotations.redirect }

theorem withReplace (replace : Bool) :
    (node.withReplace replace).Reordered (node'.withReplace replace) :=
  both.annotate fun annotations => { annotations with replace := annotations.replace || replace }

theorem withPreferred (preferred : Bool) :
    (node.withPreferred preferred).Reordered (node'.withPreferred preferred) :=
  both.annotate fun annotations =>
    { annotations with preferred := annotations.preferred || preferred }

theorem withIssue (issue : Option Issue) :
    (node.withIssue issue).Reordered (node'.withIssue issue) :=
  both.annotate fun annotations => { annotations with issue }

theorem withValue {value value' : Value} (values : value.Reordered value') :
    (node.withValue value).Reordered (node'.withValue value') := by
  unfold Node.withValue
  rw [both.annotations]
  exact values.node _

theorem expression? (place : List String) : node.expression? place = node'.expression? place := by
  rw [← expression?_ordered, both.same, expression?_ordered]

theorem redirect : node.redirect = node'.redirect :=
  congrArg Annotations.redirect both.annotations

end Reordered

end Node

/-! ## Places -/

namespace Binding.Reordered

variable {answers : Answers} {binding other : Binding}
  (both : binding.Reordered answers other)
include both

theorem withSource (source : Option String) :
    (binding.withSource source).Reordered answers (other.withSource source) :=
  { both with source := rfl }

theorem withScope {fields fields' : List (String × Node)} (scope : FieldsReordered fields fields') :
    (binding.withScope fields).Reordered answers (other.withScope fields') :=
  { both with scopes := .cons scope both.scopes }

theorem withPath (step : String) : (binding.withPath step).Reordered answers (other.withPath step) :=
  { both with
    path := congrArg (· ++ [step]) both.path
    stubPath := congrArg (· ++ [step]) both.stubPath }

theorem followRedirect (redirect : Option (List String)) :
    (Pass.followRedirect binding redirect).Reordered answers (Pass.followRedirect other redirect) := by
  cases redirect with
  | none => exact both
  | some path => exact { both with stubPath := rfl }

end Binding.Reordered

section
variable {evaluator : Evaluator} {answers : Answers} {binding other : Binding}
  {node node' : Node}
  (deeper : evaluator.IgnoresOrder) (places : binding.Reordered answers other)
  (both : node.Reordered node')

/-! ## Leaves -/

namespace Pass

include both in
theorem ofOutcome_reordered {expression : Expression} (free : expression.withoutPercent)
    {outcome outcome' : Outcome} (outcomes : outcome.Reordered outcome') :
    (ofOutcome node expression outcome).Reordered (ofOutcome node' expression outcome') := by
  cases outcomes with
  | value results report =>
      unfold ofOutcome
      rw [both.redirect]
      exact ((((results.withSource _).withRedirect _).withReplace _).withPreferred _).withIssue _
  | deferred report | failed report => exact (both.withValue (.expression free)).withIssue _

include deeper places both in
theorem evaluateNode_abreast :
    Abreast answers Node.Reordered (evaluateNode evaluator binding node)
      (evaluateNode evaluator other node') := by
  unfold evaluateNode
  rw [both.expression?, places.path]
  cases held : node'.expression? other.path with
  | none => exact .ok both
  | some read =>
      cases read with
      | error issue => exact .ok (both.withIssue _)
      | ok expression =>
          have free := Node.expression?_withoutPercent both.free' held
          refine Parallel.bind (deeper _ _ _ expression places free) fun _ _ outcomes => ?_
          exact .ok (ofOutcome_reordered both free outcomes)

include places both in
theorem stubFor?_reordered (mode : Override) :
    Option.Rel Node.Reordered (stubFor? node binding mode) (stubFor? node' other mode) := by
  unfold stubFor?
  simp only [both.expression?, places.path, both.annotations, both.redirect, places.stubPath]
  split
  · have stubs := places.findInStubs? (node'.redirect.getD other.stubPath)
    generalize binding.findInStubs? (node'.redirect.getD other.stubPath) = found at stubs ⊢
    generalize other.findInStubs? (node'.redirect.getD other.stubPath) = found' at stubs ⊢
    cases stubs with
    | none => exact .none
    | some stubs => exact .some (stubs.withRedirect _)
  · exact .none

include deeper places both in
theorem leaf_abreast (mode : Override) :
    Abreast answers Node.Reordered (leaf evaluator binding mode node)
      (leaf evaluator other mode node') := by
  have stubs := stubFor?_reordered places both mode
  unfold leaf
  generalize stubFor? node binding mode = found at stubs ⊢
  generalize stubFor? node' other mode = found' at stubs ⊢
  cases stubs with
  | none => exact evaluateNode_abreast deeper places both
  | some stubs => exact evaluateNode_abreast deeper places stubs

end Pass

/-! ## Markers -/

inductive Marker.Reordered : Marker → Marker → Prop where
  | merge {base base' : Node} (bases : base.Reordered base') (redirect : Option (List String))
      (replace : Bool) : Reordered (.merge base redirect replace) (.merge base' redirect replace)
  | drop : Reordered .drop .drop
  | keep {marker marker' : Node} (markers : marker.Reordered marker') :
      Reordered (.keep marker) (.keep marker')
  | literal : Reordered .literal .literal

include both in
theorem Marker.ofOutcome_reordered {expression : Expression} (free : expression.withoutPercent)
    {outcome outcome' : Outcome} (outcomes : outcome.Reordered outcome') :
    (ofOutcome node expression outcome).Reordered (ofOutcome node' expression outcome') := by
  have kept (issue : Option Issue) := (both.withValue (.expression free)).withIssue issue
  cases outcomes with
  | value results report => exact .merge results _ _
  | deferred report => exact .keep (kept _)
  | failed report =>
      unfold ofOutcome
      simp only
      split
      · exact .drop
      · exact .keep (kept _)

include deeper places both in
theorem Marker.evaluate_abreast :
    Abreast answers Marker.Reordered (evaluate evaluator binding node)
      (evaluate evaluator other node') := by
  unfold evaluate
  rw [both.expression?, places.path]
  cases held : node'.expression? other.path with
  | none => exact .ok .literal
  | some read =>
      cases read with
      | error issue => exact .ok (.keep (both.withIssue _))
      | ok expression =>
          have free := Node.expression?_withoutPercent both.free' held
          refine Parallel.bind (deeper _ _ _ expression places free) fun _ _ outcomes => ?_
          exact .ok (ofOutcome_reordered both free outcomes)

/-! ## Maps -/

inductive FieldMarker.Reordered : FieldMarker → FieldMarker → Prop where
  | ordinary : Reordered .ordinary .ordinary
  | dropped : Reordered .dropped .dropped
  | kept {marker marker' : Node} (markers : marker.Reordered marker') :
      Reordered (.kept marker) (.kept marker')

inductive MapPlan.Reordered : MapPlan → MapPlan → Prop where
  | replaced {entries entries' : List (String × Node)} (tables : FieldsReordered entries entries')
      (redirect : Option (List String)) :
      Reordered (.replaced entries redirect) (.replaced entries' redirect)
  | fields {marker marker' : FieldMarker} (markers : marker.Reordered marker')
      (redirect : Option (List String)) {base base' : Option (List (String × Node))}
      (bases : Option.Rel FieldsReordered base base') :
      Reordered (.fields marker redirect base) (.fields marker' redirect base')

namespace MapPlan

include both in
theorem ofMarker_reordered {marker marker' : Marker} (markers : marker.Reordered marker') :
    (ofMarker node marker).Reordered (ofMarker node' marker') := by
  cases markers with
  | literal => exact .fields .ordinary _ .none
  | drop => exact .fields .dropped _ .none
  | keep markers => exact .fields (.kept markers) _ .none
  | @merge base base' bases redirect replace =>
      have kept (kind : Kind) : MapPlan.Reordered
          (.fields (.kept (node.withIssue (some (.mapMerge kind)))) none none)
          (.fields (.kept (node'.withIssue (some (.mapMerge kind)))) none none) :=
        .fields (.kept (both.withIssue _)) _ .none
      have shapes := bases.value.shapes
      unfold ofMarker
      simp only
      generalize base.value = value at shapes ⊢
      generalize base'.value = value' at shapes ⊢
      cases shapes with
      | map tables =>
          simp only
          split
          · exact .replaced tables _
          · exact .fields .dropped _ (.some tables)
      | _ => exact kept _

include deeper places in
theorem ofFields_abreast {fields fields' : List (String × Node)}
    (tables : FieldsReordered fields fields') :
    Abreast answers MapPlan.Reordered (ofFields evaluator binding fields)
      (ofFields evaluator other fields') := by
  have markers := tables.lookup markerKey
  unfold ofFields
  generalize fields.lookup markerKey = marker at markers ⊢
  generalize fields'.lookup markerKey = marker' at markers ⊢
  cases markers with
  | none => exact .ok (.fields .ordinary _ .none)
  | some both =>
      refine Parallel.bind (Marker.evaluate_abreast deeper places both) fun _ _ markers => ?_
      exact .ok (ofMarker_reordered both markers)

theorem addBase_reordered {fields fields' : List (String × Node)}
    {base base' : Option (List (String × Node))} (tables : FieldsReordered fields fields')
    (bases : Option.Rel FieldsReordered base base') :
    FieldsReordered (addBase fields base) (addBase fields' base') := by
  cases bases with
  | none => exact tables
  | @some base base' both =>
      have absent (key : String) : (fields.lookup key).isNone = (fields'.lookup key).isNone := by
        have found := tables.lookup key
        generalize fields.lookup key = field at found ⊢
        generalize fields'.lookup key = field' at found ⊢
        cases found <;> rfl
      simp only [addBase, absent]
      exact tables.append (both.filter fun key => key != markerKey && (fields'.lookup key).isNone)

end MapPlan

/-! ## Lists -/

theorem listMarker?_of_length {fields : List (String × Node)} {annotations : Annotations}
    (several : fields.length ≠ 1) : listMarker? (.mk (.map fields) annotations) = none := by
  rcases fields with _ | ⟨field, _ | ⟨other, fields⟩⟩
  · rfl
  · exact absurd rfl several
  · rfl

theorem listMarker?_ordered (entry : Node) :
    listMarker? entry.ordered = (listMarker? entry).map Node.ordered := by
  rcases entry with ⟨value, annotations⟩
  cases value with
  | map fields =>
      by_cases single : fields.length = 1
      · rcases List.length_eq_one_iff.mp single with ⟨⟨key, marker⟩, rfl⟩
        change (if key = markerKey then some marker.ordered else none) =
          (if key = markerKey then some marker else none).map Node.ordered
        split <;> rfl
      · rw [Node.ordered, Value.ordered_map, listMarker?_of_length single,
          listMarker?_of_length (length_tableOrdered fields ▸ single)]
        rfl
  | _ => rfl

include both in
theorem listMarker?_reordered :
    Option.Rel Node.Reordered (listMarker? node) (listMarker? node') := by
  refine option_reordered ?_ fun marker held => ?_
  · rw [← listMarker?_ordered, both.same, listMarker?_ordered]
  · rcases markerField held with ⟨annotations, rfl⟩
    exact (fieldsWithoutPercent_iff.mp both.free (markerKey, marker) List.mem_cons_self).2

theorem names_reordered {entries entries' : List Node} (both : NodesReordered entries entries') :
    entries.filterMap Node.name? = entries'.filterMap Node.name? := by
  induction both with
  | nil => rfl
  | cons entry _ induction => rw [List.filterMap_cons, List.filterMap_cons, entry.name?, induction]

theorem newEntries_reordered (names : List String) {entries entries' : List Node}
    (both : NodesReordered entries entries') :
    NodesReordered (newEntries names entries) (newEntries names entries') := by
  refine both.filter fun entry entry' here => ?_
  simp only [here.name?]

inductive EntryStep.Reordered : EntryStep → EntryStep → Prop where
  | visit : Reordered .visit .visit
  | splice {nodes nodes' : List Node} (both : NodesReordered nodes nodes') :
      Reordered (.splice nodes) (.splice nodes')

inductive ListPlan.Reordered (answers : Answers) : ListPlan → ListPlan → Prop where
  | replaced {nodes nodes' : List Node} (both : NodesReordered nodes nodes')
      (redirect : Option (List String)) :
      Reordered answers (.replaced nodes redirect) (.replaced nodes' redirect)
  | entries {steps steps' : List EntryStep} (both : List.Forall₂ EntryStep.Reordered steps steps')
      {binding other : Binding} (places : binding.Reordered answers other)
      (redirect : Option (List String)) (merged : Bool) :
      Reordered answers (.entries steps binding redirect merged) (.entries steps' other redirect merged)

namespace ListPlan

theorem addStep_abreast {first second : Except Pause ListPlan} {step step' : EntryStep}
    (plans : Abreast answers (ListPlan.Reordered answers) first second) (steps : step.Reordered step') :
    Abreast answers (ListPlan.Reordered answers) (do return (← first).addStep step)
      (do return (← second).addStep step') := by
  refine Parallel.bind plans fun plan plan' both => ?_
  cases both with
  | replaced nodes redirect => exact .ok (.replaced nodes redirect)
  | entries others places redirect merged =>
      exact .ok (.entries (.cons steps others) places redirect merged)

include both in
theorem keptEntry_reordered {marker marker' : Node} (markers : marker.Reordered marker') :
    (keptEntry node marker).Reordered (keptEntry node' marker') := by
  have table : FieldsReordered [(markerKey, marker)] [(markerKey, marker')] := by
    refine ⟨?_, ?_⟩
    · simp only [tableOrdered, fieldsOrdered, markers.same]
    · rw [fieldsWithoutPercent, markers.free]
      decide
  exact .splice (.cons (both.withValue table.map) .nil)

include deeper in
theorem ofEntries_abreast (names : List String) (redirect : Option (List String)) (merged : Bool)
    {entries entries' : List Node} (both : NodesReordered entries entries')
    {binding other : Binding} (places : binding.Reordered answers other) :
    Abreast answers (ListPlan.Reordered answers) (ofEntries evaluator names binding redirect merged entries)
      (ofEntries evaluator names other redirect merged entries') := by
  induction both generalizing redirect merged binding other with
  | nil => exact .ok (.entries .nil places redirect merged)
  | @cons entry entry' rest rest' here _ induction =>
      have others := induction redirect merged places
      have held := listMarker?_reordered here
      unfold ofEntries
      generalize listMarker? entry = marker at held ⊢
      generalize listMarker? entry' = marker' at held ⊢
      cases held with
      | none => exact addStep_abreast others .visit
      | @some marker marker' markers =>
          refine Parallel.bind (Marker.evaluate_abreast deeper places markers)
            fun found found' both => ?_
          cases both with
          | literal => exact addStep_abreast others .visit
          | drop => exact addStep_abreast others (.splice .nil)
          | keep kept => exact addStep_abreast others (keptEntry_reordered here kept)
          | @merge base base' bases moved replace =>
              have kept (kind : Kind) := addStep_abreast others
                (keptEntry_reordered here (markers.withIssue (some (.listMerge kind))))
              have shapes := bases.value.shapes
              simp only
              generalize base.value = value at shapes ⊢
              generalize base'.value = value' at shapes ⊢
              cases shapes with
              | list added =>
                  simp only
                  split
                  · exact .ok (.replaced added moved)
                  · exact addStep_abreast (induction _ true (places.followRedirect moved))
                      (.splice (newEntries_reordered names added))
              | _ => exact kept _

end ListPlan

end

end Stencil
