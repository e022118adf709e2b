import Stencil.Proofs.Resolution.Around
import Stencil.Proofs.Resolution.PlainMerge
import Stencil.Proofs.Resolution.Splice

namespace Stencil

/-! A map with a plain `merge` in a template that is resolved otherwise. The first pass does all
there is to do: the fields of the map are overlaid, and the other fields of what the first stub
has at the path of the map come behind them. What is merged is resolved, so nothing happens in
the second pass. -/

variable {depth : Nat} {binding : Binding} {fields front back base : List (String × Node)}
  {marker found : Node} {path : List String}

/-! ## The pass -/

namespace Pass

variable {evaluator : Evaluator} {annotations : Annotations}

/-- A bare map is visited by its plan. -/
theorem visit_map_bare {marker : FieldMarker} {base : Option (List (String × Node))}
    {fields' : List (String × Node)} (bare : annotations.isBare)
    (planned : MapPlan.ofFields evaluator ((binding.withSource annotations.source).withScope fields)
      fields = .ok (.fields marker none base))
    (visited : visitFields evaluator ((binding.withSource annotations.source).withScope fields)
      (Override.expressions.entries false base.isSome) marker fields = .ok fields') :
    visit evaluator binding .expressions (.mk (.map fields) annotations) =
      .ok (.mk (.map (MapPlan.addBase fields' base)) annotations) := by
  rcases Annotations.isBare_iff.mp bare with ⟨direct, whole, _⟩
  simp only [visit, direct, whole, followRedirect, planned, bind, Except.bind, visited]
  rfl

/-- The fields before and behind a marker are visited, and what is kept of it stays between. -/
theorem visitFields_around {mode : Override} {treatment : FieldMarker}
    {front' back' : List (String × Node)} (special : treatment ≠ .ordinary)
    (absent : front.lookup markerKey = none) (absent' : back.lookup markerKey = none)
    (first : visitFields evaluator binding mode .ordinary front = .ok front')
    (second : visitFields evaluator binding mode .ordinary back = .ok back') :
    visitFields evaluator binding mode treatment (front ++ (markerKey, marker) :: back) =
      .ok (front' ++ (treatment.kept?.toList.map (markerKey, ·) ++ back')) := by
  refine visitFields_append ((visitFields_unmarked absent treatment).trans first) ?_
  have others := (visitFields_unmarked absent' treatment).trans second
  cases treatment with
  | ordinary => exact absurd rfl special
  | dropped => exact others
  | kept kept =>
      rw [visitFields_kept, others]
      rfl

end Pass

/-! ## The law -/

/-- Nothing is below an expression. -/
theorem Node.placesFrom_of_expression {node : Node} {place : List String}
    {held : Except Issue Expression} (holds : node.expression? place = some held) (start : Place) :
    node.placesFrom start = [(start, node)] := by
  rcases node with ⟨value, annotations⟩
  cases value with
  | list entries | map fields => cases holds
  | _ => rfl

namespace Resolution

variable {answers : Answers} {stubs : List Node} {template inner inner' : Node} {limit : Nat}
  {frames : List Frame} {keys : List String} {annotations : Annotations}

/-- The fields of a map that has merged: its own ones overlaid, and then those of the base with
other keys. -/
def mergedFields (stubs : List Node) (path : List String) (own base : List (String × Node)) :
    List (String × Node) :=
  fieldsOverlaid stubs path own ++
    base.filter fun field => field.1 != markerKey && (own.lookup field.1).isNone

theorem addBase_overlaid (stubs : List Node) (path : List String)
    (own base : List (String × Node)) :
    MapPlan.addBase (fieldsOverlaid stubs path own) (some base) =
      mergedFields stubs path own base := by
  simp only [MapPlan.addBase, mergedFields, lookup_fieldsOverlaid, Option.isNone_map]

theorem mergedFields_hold {holds : Node → Prop} (hereditary : Hereditary holds)
    (from_stubs : ∀ stub ∈ stubs, holds stub) {own : List (String × Node)}
    (each : ∀ field ∈ own, holds field.2) (brought : ∀ field ∈ base, holds field.2) :
    ∀ field ∈ mergedFields stubs path own base, holds field.2 := by
  rw [mergedFields, List.forall_mem_append]
  exact ⟨fieldsOverlaid_hold hereditary from_stubs own path each,
    fun field member => brought field (List.mem_filter.mp member).1⟩

/-- What becomes of the fields of a map with a plain `merge` between them. -/
def mergedMap (stubs : List Node) (path : List String) (front : List (String × Node))
    (marker : Node) (back : List (String × Node)) : List (String × Node) :=
  match ({ stubs } : Binding).findInStubs? path with
  | none => front ++ back
  | some found =>
      match found.value with
      | .map base => mergedFields stubs path (front ++ back) base
      | other => front ++ (markerKey, marker.withIssue (some (.mapMerge other.kind))) :: back

theorem mergedMap_none (absent : ({ stubs } : Binding).findInStubs? path = none) :
    mergedMap stubs path front marker back = front ++ back := by
  rw [mergedMap, absent]

theorem mergedMap_map (held : ({ stubs } : Binding).findInStubs? path = some found)
    (map : found.value = .map base) :
    mergedMap stubs path front marker back = mergedFields stubs path (front ++ back) base := by
  rw [mergedMap, held]
  simp only [map]

theorem mergedMap_other (held : ({ stubs } : Binding).findInStubs? path = some found)
    (other : found.kind ≠ .map) :
    mergedMap stubs path front marker back =
      front ++ (markerKey, marker.withIssue (some (.mapMerge found.kind))) :: back := by
  rw [mergedMap, held]
  rcases found with ⟨value, annotations⟩
  cases value with
  | map base => exact absurd rfl other
  | _ => rfl

theorem visit_marked {site : Binding} (stubsResolved : ∀ stub ∈ site.stubs, stub.isResolved)
    (same : site.stubPath = site.path) (bare : (Node.mk (.map (front ++ back)) annotations).isBare)
    (resolved : fieldsResolved (front ++ back))
    (distinct : fieldsDistinct (front ++ (markerKey, marker) :: back))
    (merges : marker.expression? site.path = some (.ok (.merge path false false))) :
    Pass.visit (Expression.evaluate (depth + 1)) site .expressions
        (.mk (.map (front ++ (markerKey, marker) :: back)) annotations) =
      .ok (.mk (.map (mergedMap site.stubs site.path front marker back)) annotations) := by
  rcases Node.isBare_mk.mp bare with ⟨bare, below⟩
  rcases fresh_of_distinct distinct with ⟨absent, absent'⟩
  rw [fieldsResolved_iff, List.forall_mem_append, ← fieldsResolved_iff, ← fieldsResolved_iff]
    at resolved
  have below : fieldsBare (front ++ back) := below
  rw [fieldsBare_iff, List.forall_mem_append, ← fieldsBare_iff, ← fieldsBare_iff] at below
  have held : (front ++ (markerKey, marker) :: back).lookup markerKey = some marker := by
    rw [List.lookup_append, absent, Option.none_or, List.lookup_cons_self]
  let inside :=
    (site.withSource annotations.source).withScope (front ++ (markerKey, marker) :: back)
  have planned : MapPlan.ofFields (Expression.evaluate (depth + 1)) inside
      (front ++ (markerKey, marker) :: back) =
        .ok (MapPlan.ofStub marker
          (({ stubs := site.stubs } : Binding).findInStubs? site.path)) := by
    rw [← same]
    exact MapPlan.ofFields_stub held merges
  have kept {fields : List (String × Node)} (resolved : fieldsResolved fields) :
      Pass.visitFields (Expression.evaluate (depth + 1)) inside .expressions .ordinary fields =
        .ok fields :=
    Pass.visitFields_of_resolved fields Override.expressions_ne_all resolved
  cases found : ({ stubs := site.stubs } : Binding).findInStubs? site.path with
  | none =>
      rw [found] at planned
      rw [mergedMap_none found]
      exact Pass.visit_map_bare bare planned (Pass.visitFields_around FieldMarker.noConfusion
        absent absent' (kept resolved.1) (kept resolved.2))
  | some stub =>
      rw [found] at planned
      by_cases isMap : stub.kind = .map
      · rcases Node.eq_map isMap with ⟨base, annotations', rfl⟩
        have overlaid {fields : List (String × Node)} (resolved : fieldsResolved fields)
            (bare : fieldsBare fields) :
            Pass.visitFields (Expression.evaluate (depth + 1)) inside .all .ordinary fields =
              .ok (fieldsOverlaid site.stubs site.path fields) := by
          rw [← same]
          exact Pass.visitFields_overlaid fields stubsResolved bare resolved
        rw [mergedMap_map found rfl, ← addBase_overlaid, fieldsOverlaid_append]
        exact Pass.visit_map_bare bare planned (Pass.visitFields_around FieldMarker.noConfusion
          absent absent' (overlaid resolved.1 below.1) (overlaid resolved.2 below.2))
      · rw [MapPlan.ofStub_other isMap] at planned
        rw [mergedMap_other found isMap]
        exact Pass.visit_map_bare bare planned (Pass.visitFields_around FieldMarker.noConfusion
          absent absent' (kept resolved.1) (kept resolved.2))

theorem mergedMap_hold {holds : Node → Prop} (hereditary : Hereditary holds)
    (from_stubs : ∀ stub ∈ stubs, holds stub) (each : ∀ field ∈ front ++ back, holds field.2)
    (map : ∀ found, ({ stubs } : Binding).findInStubs? path = some found → found.kind = .map) :
    ∀ field ∈ mergedMap stubs path front marker back, holds field.2 := by
  cases held : ({ stubs } : Binding).findInStubs? path with
  | none =>
      rw [mergedMap_none held]
      exact each
  | some found =>
      rcases Node.eq_map (map found held) with ⟨base, annotations, rfl⟩
      rw [mergedMap_map held rfl]
      exact mergedFields_hold hereditary from_stubs each
        (hereditary.map.mp (hereditary.findInStubs? from_stubs held))

/-- What the first pass makes of a template with one map that merges. -/
theorem run_marked (stubsResolved : ∀ stub ∈ stubs, stub.isResolved)
    (distinct : (Frame.all frames
      (.mk (.map (front ++ (markerKey, marker) :: back)) annotations)).keysDistinct)
    (bare : (Frame.all frames
      (.mk (.map (front ++ (markerKey, marker) :: back)) annotations)).isBare)
    (others : (Frame.all frames (.mk (.map (front ++ back)) annotations)).isResolved)
    (merges : marker.expression? (Frame.keys frames) = some (.ok (.merge path false false))) :
    Pass.run answers stubs
        (Frame.all frames (.mk (.map (front ++ (markerKey, marker) :: back)) annotations)) =
      .ok (Frame.all frames
        (.mk (.map (mergedMap stubs (Frame.keys frames) front marker back)) annotations)) := by
  rw [Frame.all_holds hereditary_isResolved] at others
  refine run_frames bare (fun frame member => fieldsResolved_iff.mpr (others.1 frame member)) rfl ?_
  rintro site atPath atStubPath rfl
  rw [← atPath] at merges ⊢
  have here := Node.isBare_mk.mp (Frame.bare_of_all bare).2
  have below : fieldsBare (front ++ (markerKey, marker) :: back) := here.2
  rw [fieldsBare_iff, List.forall_mem_append, List.forall_mem_cons] at below
  refine visit_marked stubsResolved (atStubPath.trans atPath.symm) ?_ others.2
    (Frame.keysDistinct_of_all distinct) merges
  refine Node.isBare_mk.mpr ⟨here.1, fieldsBare_iff.mpr ?_⟩
  rw [List.forall_mem_append]
  exact ⟨below.1, below.2.2⟩

theorem marked_pending (frames : List Frame) (front back : List (String × Node))
    (annotations : Annotations) {place : List String} {expression : Expression}
    (holds : marker.expression? place = some (.ok expression)) :
    (Frame.all frames (.mk (.map (front ++ (markerKey, marker) :: back)) annotations)).isResolved =
      false := by
  rw [Bool.eq_false_iff]
  intro resolved
  have below := hereditary_isResolved.map.mp
    ((Frame.all_holds hereditary_isResolved frames _).mp resolved).2
  exact Node.not_expression_of_isResolved (below (markerKey, marker) (by simp)) holds

/-- The marker is all that is unresolved, as long as it stays. -/
theorem unresolved_marked
    (others : (Frame.all frames (.mk (.map (front ++ back)) annotations)).isResolved)
    {place : List String} {expression : Except Issue Expression}
    (holds : marker.expression? place = some expression) :
    (Frame.all frames (.mk (.map (front ++ (markerKey, marker) :: back)) annotations)).unresolved =
      [⟨UnresolvedNode.expressionText marker.value, marker.source,
        ⟨Frame.keys frames ++ [markerKey], Frame.keys frames ++ [markerKey]⟩, marker.issue⟩] := by
  rw [Frame.all_holds hereditary_isResolved] at others
  let innermost : Frame := ⟨front, markerKey, back, annotations⟩
  have whole : Frame.all frames (innermost.around marker) =
      Frame.all (frames ++ [innermost]) marker := by
    rw [Frame.all, Frame.all, List.foldr_append, List.foldr_cons, List.foldr_nil]
  have resolved : ∀ frame ∈ frames ++ [innermost], fieldsResolved frame.others := by
    rw [List.forall_mem_append, List.forall_mem_singleton]
    exact ⟨fun frame member => fieldsResolved_iff.mpr (others.1 frame member), others.2⟩
  have unresolved := Node.not_resolved_of_expression holds
  have here : UnresolvedNode.of?
      (⟨Frame.keys (frames ++ [innermost]), Frame.keys (frames ++ [innermost])⟩, marker) =
        some ⟨UnresolvedNode.expressionText marker.value, marker.source,
          ⟨Frame.keys (frames ++ [innermost]), Frame.keys (frames ++ [innermost])⟩,
          marker.issue⟩ := by
    simp only [UnresolvedNode.of?, unresolved, Bool.false_eq_true, if_false]
  have path : Frame.keys (frames ++ [innermost]) = Frame.keys frames ++ [markerKey] :=
    List.map_append
  refine (congrArg Node.unresolved whole).trans ((Frame.unresolved_all resolved .root).trans ?_)
  rw [Node.placesFrom_of_expression holds, ← path]
  exact (List.filterMap_cons_some here).trans rfl

/-! Inside of the frames the fields of a map with a plain `merge` become those that the first pass
makes of them. -/

section
variable (distinct : (Frame.all frames
    (.mk (.map (front ++ (markerKey, marker) :: back)) annotations)).keysDistinct)
  (numbers : (Frame.all frames
    (.mk (.map (front ++ (markerKey, marker) :: back)) annotations)).withoutNaN)
  (bare : (Frame.all frames (.mk (.map (front ++ (markerKey, marker) :: back)) annotations)).isBare)
  (stubsResolved : ∀ stub ∈ stubs, stub.isResolved)
  (others : (Frame.all frames (.mk (.map (front ++ back)) annotations)).isResolved)
  (merges : marker.expression? (Frame.keys frames) = some (.ok (.merge path false false)))
  (enough : 2 ≤ limit)
include distinct numbers bare stubsResolved others merges enough

/-- Where a map is merged, or nothing at all, everything is resolved. -/
theorem partly_marked (stubsDistinct : ∀ stub ∈ stubs, stub.keysDistinct)
    (stubsNumbers : ∀ stub ∈ stubs, stub.withoutNaN)
    (map : ∀ found, ({ stubs } : Binding).findInStubs? (Frame.keys frames) = some found →
      found.kind = .map) :
    partly answers limit stubs
        (Frame.all frames (.mk (.map (front ++ (markerKey, marker) :: back)) annotations)) =
      .ok (.ok ⟨Frame.all frames
        (.mk (.map (mergedMap stubs (Frame.keys frames) front marker back)) annotations),
          [], 2⟩) := by
  have pass : Pass.run answers stubs _ = .ok _ :=
    run_marked stubsResolved distinct bare others merges
  have pending := marked_pending frames front back annotations merges
  have numbered := hereditary_withoutNaN.map.mp
    ((Frame.all_holds hereditary_withoutNaN frames _).mp numbers).2
  rw [List.forall_mem_append, List.forall_mem_cons] at numbered
  rw [Frame.all_holds hereditary_isResolved] at others
  refine partly_of_frames distinct stubsDistinct numbers
    (fun frame member => fieldsResolved_iff.mpr (others.1 frame member)) pending pass ?_ ?_ enough
  · exact hereditary_isResolved.map.mpr (mergedMap_hold hereditary_isResolved stubsResolved
      (hereditary_isResolved.map.mp others.2) map)
  · exact hereditary_withoutNaN.map.mpr (mergedMap_hold hereditary_withoutNaN stubsNumbers
      (List.forall_mem_append.mpr ⟨numbered.1, numbered.2.2⟩) map)

/-- Where something else is found, only the issue of the marker is new. -/
theorem partly_marked_other
    (held : ({ stubs } : Binding).findInStubs? (Frame.keys frames) = some found)
    (other : found.kind ≠ .map) :
    partly answers limit stubs
        (Frame.all frames (.mk (.map (front ++ (markerKey, marker) :: back)) annotations)) =
      .ok (.ok ⟨Frame.all frames (.mk (.map (front ++
          (markerKey, marker.withIssue (some (.mapMerge found.kind))) :: back)) annotations),
        [⟨UnresolvedNode.expressionText marker.value, marker.source,
          ⟨Frame.keys frames ++ [markerKey], Frame.keys frames ++ [markerKey]⟩,
          some (.mapMerge found.kind)⟩], 1⟩) := by
  have pass : Pass.run answers stubs _ = .ok _ :=
    run_marked stubsResolved distinct bare others merges
  rw [mergedMap_other held other] at pass
  let kept := marker.withIssue (some (.mapMerge found.kind))
  have same : kept.masked .contents = marker.masked .contents := Node.masked_contents_congr rfl
  have masked : (Node.mk (.map (front ++ (markerKey, kept) :: back)) annotations).masked .contents =
      (Node.mk (.map (front ++ (markerKey, marker) :: back)) annotations).masked .contents := by
    simp only [Node.masked, Value.masked, fieldsMasked_eq_map, List.map_append, List.map_cons, same]
  have merges' : kept.expression? (Frame.keys frames) = some (.ok (.merge path false false)) :=
    merges
  rw [partly_of_masked distinct numbers pass masked enough, unresolved_marked others merges']
  rfl

end

end Resolution

end Stencil
