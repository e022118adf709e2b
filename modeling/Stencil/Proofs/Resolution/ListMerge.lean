import Stencil.Proofs.Resolution.MapMerge

namespace Stencil

/-! A list with a plain `merge` in a template that is resolved otherwise. The first pass does all
there is to do: the entries with a name are overlaid by what the stubs have under it, and what is
new in the list of the first stub takes the place of the marker. What is merged is resolved, so
nothing happens in the second pass. -/

variable {depth : Nat} {binding : Binding} {entries front back added : List Node}
  {entry marker found : Node} {path : List String}

/-! ## The marker -/

/-- A name that no entry has, or none at all. -/
def Node.isNewTo (entries : List Node) (other : Node) : Bool :=
  other.name?.all fun name => entries.all fun entry => entry.name? != some name

/-- What stands for a plain `merge` after the pass, by what the first stub has that has anything
at the path of the list. -/
def markerEntries (entries : List Node) (entry marker : Node) : Option Node → List Node
  | none => []
  | some found =>
      match found.value with
      | .list added => added.filter (Node.isNewTo entries)
      | other =>
          [entry.withValue (.map [(markerKey, marker.withIssue (some (.listMerge other.kind)))])]

/-- Only a list is merged. -/
def bringsList (found? : Option Node) : Bool := found?.any fun found => found.kind = .list

theorem markerEntries_other (other : found.kind ≠ .list) :
    markerEntries entries entry marker (some found) =
      [entry.withValue (.map [(markerKey, marker.withIssue (some (.listMerge found.kind)))])] := by
  rcases found with ⟨value, annotations⟩
  cases value with
  | list added => exact absurd rfl other
  | _ => rfl

/-- The entry with the marker has no name, so it does not matter to what is new. -/
theorem newEntries_around (held : listMarker? entry = some marker) :
    newEntries ((front ++ entry :: back).filterMap Node.name?) added =
      added.filter (Node.isNewTo (front ++ back)) := by
  rcases markerField held with ⟨annotations, rfl⟩
  have unnamed : (Node.mk (.map [(markerKey, marker)]) annotations).name? = none := rfl
  have names : (front ++ Node.mk (.map [(markerKey, marker)]) annotations :: back).filterMap
      Node.name? = (front ++ back).filterMap Node.name? := by
    rw [List.filterMap_append, List.filterMap_cons_none unnamed, ← List.filterMap_append]
  rw [names, newEntries]
  refine List.filter_congr fun other _ => ?_
  rw [Node.isNewTo]
  cases other.name? with
  | none => rfl
  | some name =>
      rw [Option.all_some, Bool.eq_iff_iff]
      simp [List.mem_filterMap]

namespace ListPlan

theorem ofEntries_append {evaluator : Evaluator} {names : List String}
    {redirect redirect' : Option (List String)} {merged merged' : Bool} {steps : List EntryStep}
    {binding' : Binding} (resolved : markersResolved front)
    (behind : ofEntries evaluator names binding redirect merged back =
      .ok (.entries steps binding' redirect' merged')) :
    ofEntries evaluator names binding redirect merged (front ++ back) =
      .ok (.entries (front.map (fun _ => .visit) ++ steps) binding' redirect' merged') := by
  induction front with
  | nil => exact behind
  | cons entry front induction =>
      rw [markersResolved, List.all_cons, Bool.and_eq_true] at resolved
      have here := resolved.1
      rw [List.cons_append, ofEntries, induction resolved.2]
      cases found : listMarker? entry with
      | none => rfl
      | some marker =>
          rw [found, Option.all_some] at here
          simp only [Marker.evaluate_of_resolved here]
          rfl

theorem ofEntries_stub (held : listMarker? entry = some marker)
    (holds : marker.expression? binding.path = some (.ok (.merge path false false)))
    (first : markersResolved front) (second : markersResolved back) :
    ofEntries (Expression.evaluate (depth + 1)) ((front ++ entry :: back).filterMap Node.name?)
        binding none false (front ++ entry :: back) =
      .ok (.entries (front.map (fun _ => .visit) ++ .splice (markerEntries (front ++ back) entry
        marker (binding.findInStubs? binding.stubPath)) :: back.map fun _ => .visit) binding none
          (bringsList (binding.findInStubs? binding.stubPath))) := by
  refine ofEntries_append first ?_
  rw [ofEntries, held]
  cases found : binding.findInStubs? binding.stubPath with
  | none =>
      simp only [Marker.evaluate_unmerged holds found, bind, Except.bind,
        ofEntries_of_resolved second]
      rfl
  | some stub =>
      simp only [Marker.evaluate_merge holds found, bind, Except.bind]
      rcases stub with ⟨value, annotations⟩
      cases value with
      | list added =>
          simp only [Node.ofSource, Node.value_mk, Bool.false_eq_true, if_false,
            ofEntries_of_resolved second, newEntries_around held]
          rfl
      | _ =>
          simp only [Node.ofSource, Node.value_mk, ofEntries_of_resolved second]
          rfl

end ListPlan

/-! ## The pass -/

/-- After a merge an entry is found in the stubs by its name, and not without one. -/
def Node.overlaidByName (stubs : List Node) (path : List String) (entry : Node) : Node :=
  match entry.name? with
  | some name => entry.overlaid stubs (path ++ [name])
  | none => entry

def ownEntries (stubs : List Node) (path : List String) (merged : Bool) (entries : List Node) :
    List Node :=
  if merged then entries.map (Node.overlaidByName stubs path) else entries

namespace Pass

variable {evaluator : Evaluator} {mode : Override} {merged : Bool} {index : Nat}
  {annotations : Annotations}

/-- The entries before and behind a marker are visited, and what stands for it comes between. -/
theorem visitEntries_around {spliced front' back' : List Node}
    (first : visitEntries evaluator binding mode merged index (front.map fun _ => .visit) front =
      .ok front')
    (second : visitEntries evaluator binding mode merged (index + front.length + spliced.length)
      (back.map fun _ => .visit) back = .ok back') :
    visitEntries evaluator binding mode merged index
        (front.map (fun _ => .visit) ++ .splice spliced :: back.map fun _ => .visit)
        (front ++ entry :: back) =
      .ok (front' ++ (spliced ++ back')) := by
  induction front generalizing index front' with
  | nil =>
      rw [List.map_nil, visitEntries] at first
      cases first
      rw [List.map_nil, List.nil_append, List.nil_append, visitEntries]
      rw [List.length_nil, Nat.add_zero] at second
      rw [second]
      rfl
  | cons other front induction =>
      rcases visitEntries_visit_ends first with ⟨visited, rest, rfl, seen, others⟩
      rw [List.length_cons, Nat.add_comm front.length, ← Nat.add_assoc] at second
      rw [List.map_cons, List.cons_append, List.cons_append, visitEntries, seen,
        induction others second]
      rfl

theorem visitEntries_overlaidByName (stubs : ∀ stub ∈ binding.stubs, stub.isResolved)
    (bare : entriesBare entries) (resolved : entriesResolved entries) :
    visitEntries evaluator binding .all true index (entries.map fun _ => .visit) entries =
      .ok (entries.map (Node.overlaidByName binding.stubs binding.stubPath)) := by
  induction entries generalizing index with
  | nil => rw [List.map_nil, visitEntries, List.map_nil]
  | cons entry entries induction =>
      rw [entriesBare, Bool.and_eq_true] at bare
      rw [entriesResolved, Bool.and_eq_true] at resolved
      have here : visit evaluator (binding.withPath (stepName index entry))
          (entryMode .all true entry) entry =
            .ok (entry.overlaidByName binding.stubs binding.stubPath) := by
        rw [Node.overlaidByName, stepName, entryMode]
        cases entry.name? with
        | none => exact visit_of_isResolved entry (by decide) resolved.1
        | some name =>
            have below : ∀ stub ∈ (binding.withPath name).stubs, stub.isResolved := stubs
            exact visit_overlaid entry below bare.1 resolved.1
      rw [List.map_cons, visitEntries, here, induction bare.2 resolved.2]
      rfl

/-- The entries of a list that are not its marker, after a pass in which it merges or not. -/
theorem visitEntries_own (stubs : ∀ stub ∈ binding.stubs, stub.isResolved)
    (bare : entriesBare entries) (resolved : entriesResolved entries) :
    visitEntries evaluator binding (Override.expressions.entries false merged) merged index
        (entries.map fun _ => .visit) entries =
      .ok (ownEntries binding.stubs binding.stubPath merged entries) := by
  cases merged with
  | false => exact visitEntries_of_resolved entries index Override.expressions_ne_all resolved
  | true => exact visitEntries_overlaidByName stubs bare resolved

/-- A bare list is visited by its plan. -/
theorem visit_list_bare {steps : List EntryStep} {entries' : List Node} (bare : annotations.isBare)
    (planned : ListPlan.ofEntries evaluator (entries.filterMap Node.name?)
      (binding.withSource annotations.source) none false entries =
        .ok (.entries steps (binding.withSource annotations.source) none merged))
    (visited : visitEntries evaluator (binding.withSource annotations.source)
      (Override.expressions.entries false merged) merged 0 steps entries = .ok entries') :
    visit evaluator binding .expressions (.mk (.list entries) annotations) =
      .ok (.mk (.list entries') annotations) := by
  rcases Annotations.isBare_iff.mp bare with ⟨direct, whole, _⟩
  simp only [visit, direct, whole, followRedirect, planned, bind, Except.bind, visited]
  rcases annotations with ⟨source, redirect, replace, preferred, issue⟩
  cases direct
  rfl

end Pass

/-! ## The law -/

theorem entryPlaces_append (place : Place) (index : Nat) (front back : List Node) :
    entryPlaces place index (front ++ back) =
      entryPlaces place index front ++ entryPlaces place (index + front.length) back := by
  induction front generalizing index with
  | nil => rfl
  | cons entry front induction =>
      rw [List.cons_append, entryPlaces, entryPlaces, induction, List.append_assoc,
        List.length_cons, Nat.add_assoc, Nat.add_comm 1]

namespace Resolution

variable {answers : Answers} {stubs : List Node} {template : Node} {limit : Nat}
  {frames : List Frame} {keys : List String} {annotations : Annotations}

/-- The entries of a list that has merged: its own ones, and at the place of the marker those
entries of the base that are new. -/
def mergedEntries (stubs : List Node) (path : List String) (front back base : List Node) :
    List Node :=
  front.map (Node.overlaidByName stubs path) ++ (base.filter (Node.isNewTo (front ++ back)) ++
    back.map (Node.overlaidByName stubs path))

/-- What becomes of the entries of a list with a plain `merge` between them. -/
def mergedList (stubs : List Node) (path : List String) (front : List Node) (entry marker : Node)
    (back : List Node) : List Node :=
  let found? := ({ stubs } : Binding).findInStubs? path
  ownEntries stubs path (bringsList found?) front ++
    (markerEntries (front ++ back) entry marker found? ++
      ownEntries stubs path (bringsList found?) back)

theorem mergedList_none (absent : ({ stubs } : Binding).findInStubs? path = none) :
    mergedList stubs path front entry marker back = front ++ back := by
  rw [mergedList, absent]
  rfl

theorem mergedList_list {base : List Node}
    (held : ({ stubs } : Binding).findInStubs? path = some found)
    (list : found.value = .list base) :
    mergedList stubs path front entry marker back = mergedEntries stubs path front back base := by
  rcases found with ⟨value, annotations⟩
  cases list
  rw [mergedList, held]
  rfl

theorem mergedList_other (held : ({ stubs } : Binding).findInStubs? path = some found)
    (other : found.kind ≠ .list) :
    mergedList stubs path front entry marker back = front ++
      entry.withValue (.map [(markerKey, marker.withIssue (some (.listMerge found.kind)))]) ::
        back := by
  have plain : bringsList (some found) = false := by simp [bringsList, other]
  rw [mergedList, held, plain, markerEntries_other other]
  rfl

theorem mergedEntries_hold {holds : Node → Prop} (hereditary : Hereditary holds)
    (from_stubs : ∀ stub ∈ stubs, holds stub) {base : List Node}
    (each : ∀ entry ∈ front ++ back, holds entry) (brought : ∀ entry ∈ base, holds entry) :
    ∀ entry ∈ mergedEntries stubs path front back base, holds entry := by
  have own {entry : Node} (here : holds entry) : holds (entry.overlaidByName stubs path) := by
    rw [Node.overlaidByName]
    cases entry.name? with
    | none => exact here
    | some name => exact Node.overlaid_holds hereditary from_stubs entry _ here
  rw [List.forall_mem_append] at each
  rw [mergedEntries, List.forall_mem_append, List.forall_mem_append, List.forall_mem_map,
    List.forall_mem_map]
  exact ⟨fun entry member => own (each.1 entry member),
    fun entry member => brought entry (List.mem_filter.mp member).1,
    fun entry member => own (each.2 entry member)⟩

theorem visit_listed {site : Binding} (stubsResolved : ∀ stub ∈ site.stubs, stub.isResolved)
    (same : site.stubPath = site.path) (bare : (Node.mk (.list (front ++ back)) annotations).isBare)
    (resolved : entriesResolved (front ++ back)) (held : listMarker? entry = some marker)
    (merges : marker.expression? site.path = some (.ok (.merge path false false))) :
    Pass.visit (Expression.evaluate (depth + 1)) site .expressions
        (.mk (.list (front ++ entry :: back)) annotations) =
      .ok (.mk (.list (mergedList site.stubs site.path front entry marker back)) annotations) := by
  rcases Node.isBare_mk.mp bare with ⟨bare, below⟩
  have below : entriesBare (front ++ back) := below
  rw [entriesResolved_iff, List.forall_mem_append, ← entriesResolved_iff, ← entriesResolved_iff]
    at resolved
  rw [entriesBare_iff, List.forall_mem_append, ← entriesBare_iff, ← entriesBare_iff] at below
  refine Pass.visit_list_bare bare (ListPlan.ofEntries_stub held merges
    (markersResolved_of_entriesResolved resolved.1)
    (markersResolved_of_entriesResolved resolved.2)) ?_
  have inStubs : (site.withSource annotations.source).findInStubs? site.stubPath =
      ({ stubs := site.stubs } : Binding).findInStubs? site.path := by
    rw [same]
    rfl
  have own {entries : List Node} {merged : Bool} {index : Nat} (bare : entriesBare entries)
      (resolved : entriesResolved entries) :
      Pass.visitEntries (Expression.evaluate (depth + 1)) (site.withSource annotations.source)
          (Override.expressions.entries false merged) merged index (entries.map fun _ => .visit)
          entries =
        .ok (ownEntries site.stubs site.path merged entries) := by
    rw [← same]
    exact Pass.visitEntries_own stubsResolved bare resolved
  rw [mergedList, ← inStubs]
  exact Pass.visitEntries_around (own below.1 resolved.1) (own below.2 resolved.2)

theorem mergedList_hold {holds : Node → Prop} (hereditary : Hereditary holds)
    (from_stubs : ∀ stub ∈ stubs, holds stub) (each : ∀ entry ∈ front ++ back, holds entry)
    (list : ∀ found, ({ stubs } : Binding).findInStubs? path = some found → found.kind = .list) :
    ∀ other ∈ mergedList stubs path front entry marker back, holds other := by
  cases held : ({ stubs } : Binding).findInStubs? path with
  | none =>
      rw [mergedList_none held]
      exact each
  | some found =>
      rcases Node.eq_list (list found held) with ⟨base, annotations, rfl⟩
      rw [mergedList_list held rfl]
      exact mergedEntries_hold hereditary from_stubs each
        (hereditary.list.mp (hereditary.findInStubs? from_stubs held))

/-- What the first pass makes of a template with one list that merges. -/
theorem run_listed (stubsResolved : ∀ stub ∈ stubs, stub.isResolved)
    (bare : (Frame.all frames (.mk (.list (front ++ entry :: back)) annotations)).isBare)
    (others : (Frame.all frames (.mk (.list (front ++ back)) annotations)).isResolved)
    (held : listMarker? entry = some marker)
    (merges : marker.expression? (Frame.keys frames) = some (.ok (.merge path false false))) :
    Pass.run answers stubs (Frame.all frames (.mk (.list (front ++ entry :: back)) annotations)) =
      .ok (Frame.all frames (.mk
        (.list (mergedList stubs (Frame.keys frames) front entry marker back)) annotations)) := by
  rw [Frame.all_holds hereditary_isResolved] at others
  refine run_frames bare (fun frame member => fieldsResolved_iff.mpr (others.1 frame member)) rfl ?_
  rintro site atPath atStubPath rfl
  rw [← atPath] at merges ⊢
  have here := Node.isBare_mk.mp (Frame.bare_of_all bare).2
  have below : entriesBare (front ++ entry :: back) := here.2
  rw [entriesBare_iff, List.forall_mem_append, List.forall_mem_cons] at below
  refine visit_listed stubsResolved (atStubPath.trans atPath.symm) ?_ others.2 held merges
  refine Node.isBare_mk.mpr ⟨here.1, entriesBare_iff.mpr ?_⟩
  rw [List.forall_mem_append]
  exact ⟨below.1, below.2.2⟩

theorem listed_pending (frames : List Frame) (front back : List Node) (annotations : Annotations)
    (held : listMarker? entry = some marker) {place : List String} {expression : Expression}
    (holds : marker.expression? place = some (.ok expression)) :
    (Frame.all frames (.mk (.list (front ++ entry :: back)) annotations)).isResolved = false := by
  rw [Bool.eq_false_iff]
  intro resolved
  have below := hereditary_isResolved.list.mp
    ((Frame.all_holds hereditary_isResolved frames _).mp resolved).2 entry (by simp)
  rcases markerField held with ⟨own, rfl⟩
  have inner := hereditary_isResolved.map.mp below (markerKey, marker) List.mem_cons_self
  exact Node.not_expression_of_isResolved inner holds

/-- The marker is all that is unresolved, as long as it stays. -/
theorem unresolved_listed
    (others : (Frame.all frames (.mk (.list (front ++ back)) annotations)).isResolved)
    (held : listMarker? entry = some marker) {place : List String}
    {expression : Except Issue Expression} (holds : marker.expression? place = some expression) :
    (Frame.all frames (.mk (.list (front ++ entry :: back)) annotations)).unresolved =
      [⟨UnresolvedNode.expressionText marker.value, marker.source,
        ⟨Frame.keys frames ++ [indexText front.length, markerKey],
          Frame.keys frames ++ [indexText front.length, markerKey]⟩, marker.issue⟩] := by
  rw [Frame.all_holds hereditary_isResolved] at others
  have resolved : ∀ frame ∈ frames, fieldsResolved frame.others :=
    fun frame member => fieldsResolved_iff.mpr (others.1 frame member)
  have own : entriesResolved (front ++ back) := others.2
  rw [entriesResolved_iff, List.forall_mem_append, ← entriesResolved_iff, ← entriesResolved_iff]
    at own
  rcases markerField held with ⟨annotations', rfl⟩
  let list : Node :=
    .mk (.list (front ++ .mk (.map [(markerKey, marker)]) annotations' :: back)) annotations
  let start : Place := ⟨Frame.keys frames, Frame.keys frames⟩
  have unresolved := Node.not_resolved_of_expression holds
  have here : UnresolvedNode.of? (((start.entry front.length
      (.mk (.map [(markerKey, marker)]) annotations')).field markerKey), marker) =
        some ⟨UnresolvedNode.expressionText marker.value, marker.source,
          ⟨Frame.keys frames ++ [indexText front.length, markerKey],
            Frame.keys frames ++ [indexText front.length, markerKey]⟩, marker.issue⟩ := by
    simp only [UnresolvedNode.of?, unresolved, Bool.false_eq_true, if_false, Place.field,
      Place.entry, List.append_assoc]
    rfl
  have places : list.placesFrom start = (start, list) :: (entryPlaces start 0 front ++
      ((start.entry front.length (.mk (.map [(markerKey, marker)]) annotations'),
          .mk (.map [(markerKey, marker)]) annotations') ::
        ((start.entry front.length (.mk (.map [(markerKey, marker)]) annotations')).field markerKey,
          marker) :: entryPlaces start (front.length + 1) back)) := by
    have inner := entryPlaces_append start 0 front
      (.mk (.map [(markerKey, marker)]) annotations' :: back)
    rw [Nat.zero_add, entryPlaces, Node.placesFrom, Value.placesBelow, fieldPlaces, fieldPlaces,
      Node.placesFrom_of_expression holds] at inner
    exact congrArg ((start, list) :: ·) inner
  refine (Frame.unresolved_all resolved .root).trans ?_
  have atStart : (⟨Place.root.context ++ Frame.keys frames,
      Place.root.logical ++ Frame.keys frames⟩ : Place) = start := rfl
  rw [atStart, places, List.filterMap_cons_none rfl, List.filterMap_append,
    UnresolvedNode.filterMap_of_resolved (entryPlaces_resolved front start 0 own.1),
    List.nil_append, List.filterMap_cons_none rfl, List.filterMap_cons_some here,
    UnresolvedNode.filterMap_of_resolved (entryPlaces_resolved back start _ own.2)]

/-! Inside of the frames the entries of a list with a plain `merge` become those that the first
pass makes of them. -/

section
variable
  (distinct : (Frame.all frames (.mk (.list (front ++ entry :: back)) annotations)).keysDistinct)
  (numbers : (Frame.all frames (.mk (.list (front ++ entry :: back)) annotations)).withoutNaN)
  (bare : (Frame.all frames (.mk (.list (front ++ entry :: back)) annotations)).isBare)
  (stubsResolved : ∀ stub ∈ stubs, stub.isResolved)
  (others : (Frame.all frames (.mk (.list (front ++ back)) annotations)).isResolved)
  (held : listMarker? entry = some marker)
  (merges : marker.expression? (Frame.keys frames) = some (.ok (.merge path false false)))
  (enough : 2 ≤ limit)
include distinct numbers bare stubsResolved others held merges enough

/-- Where a list is merged, or nothing at all, everything is resolved. -/
theorem partly_listed (stubsDistinct : ∀ stub ∈ stubs, stub.keysDistinct)
    (stubsNumbers : ∀ stub ∈ stubs, stub.withoutNaN)
    (list : ∀ found, ({ stubs } : Binding).findInStubs? (Frame.keys frames) = some found →
      found.kind = .list) :
    partly answers limit stubs
        (Frame.all frames (.mk (.list (front ++ entry :: back)) annotations)) =
      .ok (.ok ⟨Frame.all frames (.mk (.list
        (mergedList stubs (Frame.keys frames) front entry marker back)) annotations), [], 2⟩) := by
  have pass : Pass.run answers stubs _ = .ok _ := run_listed stubsResolved bare others held merges
  have pending := listed_pending frames front back annotations held merges
  have numbered := hereditary_withoutNaN.list.mp
    ((Frame.all_holds hereditary_withoutNaN frames _).mp numbers).2
  rw [List.forall_mem_append, List.forall_mem_cons] at numbered
  rw [Frame.all_holds hereditary_isResolved] at others
  refine partly_of_frames distinct stubsDistinct numbers
    (fun frame member => fieldsResolved_iff.mpr (others.1 frame member)) pending pass ?_ ?_ enough
  · exact hereditary_isResolved.list.mpr (mergedList_hold hereditary_isResolved stubsResolved
      (hereditary_isResolved.list.mp others.2) list)
  · exact hereditary_withoutNaN.list.mpr (mergedList_hold hereditary_withoutNaN stubsNumbers
      (List.forall_mem_append.mpr ⟨numbered.1, numbered.2.2⟩) list)

/-- Where something else is found, only the issue of the marker is new. -/
theorem partly_listed_other
    (stub : ({ stubs } : Binding).findInStubs? (Frame.keys frames) = some found)
    (other : found.kind ≠ .list) :
    partly answers limit stubs
        (Frame.all frames (.mk (.list (front ++ entry :: back)) annotations)) =
      .ok (.ok ⟨Frame.all frames (.mk (.list (front ++ entry.withValue
          (.map [(markerKey, marker.withIssue (some (.listMerge found.kind)))]) :: back))
            annotations),
        [⟨UnresolvedNode.expressionText marker.value, marker.source,
          ⟨Frame.keys frames ++ [indexText front.length, markerKey],
            Frame.keys frames ++ [indexText front.length, markerKey]⟩,
          some (.listMerge found.kind)⟩], 1⟩) := by
  have pass : Pass.run answers stubs _ = .ok _ := run_listed stubsResolved bare others held merges
  rw [mergedList_other stub other] at pass
  rcases markerField held with ⟨own, rfl⟩
  let kept := marker.withIssue (some (.listMerge found.kind))
  have same : kept.masked .contents = marker.masked .contents := Node.masked_contents_congr rfl
  have masked : (Node.mk (.list (front ++ .mk (.map [(markerKey, kept)]) own :: back))
        annotations).masked .contents =
      (Node.mk (.list (front ++ .mk (.map [(markerKey, marker)]) own :: back))
        annotations).masked .contents := by
    simp only [Node.masked, Value.masked, entriesMasked_eq_map, fieldsMasked_eq_map,
      List.map_append, List.map_cons, same]
  have merges' : kept.expression? (Frame.keys frames) = some (.ok (.merge path false false)) :=
    merges
  have held' : listMarker? (.mk (.map [(markerKey, kept)]) own) = some kept := rfl
  rw [partly_of_masked distinct numbers pass masked enough]
  have unresolved := unresolved_listed others held' merges'
  exact congrArg (fun nodes => Except.ok (Except.ok (Resolution.mk _ nodes 1))) unresolved

end

end Resolution

end Stencil
