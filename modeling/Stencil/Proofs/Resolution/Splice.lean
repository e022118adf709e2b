import Stencil.Proofs.Resolution.Persistence
import Stencil.Proofs.Resolution.References

namespace Stencil

/-! An expression that stands without a name in a list that merges. In the merging pass no stub
overrides it, since its index means nothing in the stubs any more. That holds for this one pass
only: from the next one on the list is an ordinary one, and an expression that still stands in
it is overridden by what a stub has at its new index. -/

/-! ## The merge -/

/-- No marker stands at the entry that is an expression. -/
def Node.isVisitedEntry (entry : Node) : Bool := (listMarker? entry).all Node.isLocallyResolved

/-- Every marker of the list that is an expression is a plain `merge`. -/
def MarkersMerge (place : List String) (entries : List Node) : Prop :=
  ∀ entry ∈ entries, ∀ marker, listMarker? entry = some marker →
    marker.isLocallyResolved ∨ ∃ path, marker.expression? place = some (.ok (.merge path false false))

/-- Where a marker stands, the added entries take its place. -/
def spliceStep (added : List Node) (entry : Node) : EntryStep :=
  if entry.isVisitedEntry then .visit else .splice added

/-- The number of entries that stand for these after the merge. -/
def splicedLength (added : List Node) : List Node → Nat
  | [] => 0
  | entry :: entries =>
      (if entry.isVisitedEntry then 1 else added.length) + splicedLength added entries

variable {depth : Nat} {binding : Binding} {mode : Override}

/-- The plan of a list in which all markers are plain merges, and a stub has a list for them. -/
theorem ListPlan.ofEntries_merging {names : List String} {redirect : Option (List String)}
    {merged : Bool} {entries added : List Node} {stub : Node}
    (merges : MarkersMerge binding.path entries)
    (found : binding.findInStubs? binding.stubPath = some stub) (list : stub.value = .list added) :
    ofEntries (Expression.evaluate (depth + 1)) names binding redirect merged entries =
      .ok (.entries (entries.map (spliceStep (newEntries names added))) binding redirect
        (merged || entries.any fun entry => !entry.isVisitedEntry)) := by
  induction entries generalizing merged with
  | nil => simp [ofEntries]
  | cons entry entries induction =>
      have others : MarkersMerge binding.path entries :=
        fun other member => merges other (List.mem_cons_of_mem _ member)
      unfold ofEntries
      rw [List.map_cons, List.any_cons, spliceStep]
      cases held : listMarker? entry with
      | none =>
          have visited : entry.isVisitedEntry := by rw [Node.isVisitedEntry, held]; rfl
          simp only [induction others, visited, if_true, Bool.not_true, Bool.false_or]
          rfl
      | some marker =>
          have visited : entry.isVisitedEntry = marker.isLocallyResolved := by
            rw [Node.isVisitedEntry, held]
            rfl
          cases resolved : marker.isLocallyResolved with
          | true =>
              simp only [Marker.evaluate_of_resolved resolved, induction others, visited, resolved,
                if_true, Bool.not_true, Bool.false_or]
              rfl
          | false =>
              rcases merges entry List.mem_cons_self marker held with whole | ⟨path, holds⟩
              · rw [resolved] at whole
                cases whole
              · simp only [Marker.evaluate_merge holds found, visited, resolved, Bool.not_false,
                  Bool.true_or, Bool.or_true, Bool.false_eq_true, if_false]
                simp only [bind, Except.bind, Node.ofSource, Node.value_mk, list,
                  Bool.false_eq_true, if_false]
                have kept : (redirect <|> none) = redirect := by cases redirect <;> rfl
                rw [kept, induction others]
                simp [ListPlan.addStep, pure, Except.pure]

namespace Pass

variable {evaluator : Evaluator}

/-- The entries of a merging list keep their order, and each one that is no marker is visited
where it stands then. -/
theorem visitEntries_split {added front back entries' : List Node} {entry : Node} {merged : Bool}
    {index : Nat} (visited : entry.isVisitedEntry)
    (ends : visitEntries evaluator binding mode merged index
      ((front ++ entry :: back).map (spliceStep added)) (front ++ entry :: back) = .ok entries') :
    ∃ entry', entries'[splicedLength added front]? = some entry' ∧
      visit evaluator (binding.withPath (stepName (index + splicedLength added front) entry))
        (entryMode mode merged entry) entry = .ok entry' := by
  induction front generalizing index entries' with
  | nil =>
      rw [List.nil_append, List.map_cons, spliceStep, visited, if_pos rfl] at ends
      rcases visitEntries_visit_ends ends with ⟨entry', rest, rfl, here, _⟩
      exact ⟨entry', rfl, here⟩
  | cons first front induction =>
      rw [List.cons_append, List.map_cons, spliceStep] at ends
      rw [splicedLength]
      cases kept : first.isVisitedEntry with
      | true =>
          rw [kept, if_pos rfl] at ends
          rcases visitEntries_visit_ends ends with ⟨first', rest, rfl, _, others⟩
          rcases induction others with ⟨entry', found, here⟩
          rw [if_pos rfl]
          refine ⟨entry', ?_, ?_⟩
          · rwa [Nat.add_comm, List.getElem?_cons_succ]
          · rwa [← Nat.add_assoc]
      | false =>
          rw [kept, if_neg Bool.false_ne_true] at ends
          rcases visitEntries_splice_ends ends with ⟨rest, rfl, others⟩
          rcases induction others with ⟨entry', found, here⟩
          rw [if_neg Bool.false_ne_true]
          refine ⟨entry', ?_, ?_⟩
          · rwa [List.getElem?_append_right (Nat.le_add_right _ _), Nat.add_sub_cancel_left]
          · rwa [← Nat.add_assoc]

/-- After the merge no marker is pending. -/
theorem visitEntries_merged {added entries entries' : List Node} {merged : Bool} {index : Nat}
    (keeps : evaluator.KeepsUnmarked) (place : binding.IsUnmarked)
    (stubs : ∀ stub ∈ binding.stubs, stub.isResolved)
    (plain : ∀ entry ∈ added, entry.isVisitedEntry)
    (ends : visitEntries evaluator binding mode merged index (entries.map (spliceStep added))
      entries = .ok entries') : markersResolved entries' := by
  induction entries generalizing index entries' with
  | nil =>
      rw [List.map_nil, visitEntries] at ends
      cases ends
      rfl
  | cons entry entries induction =>
      rw [List.map_cons, spliceStep] at ends
      cases kept : entry.isVisitedEntry with
      | true =>
          rw [kept, if_pos rfl] at ends
          rcases visitEntries_visit_ends ends with ⟨entry', rest, rfl, visited, others⟩
          have below : (binding.withPath (stepName index entry)).IsUnmarked :=
            place.of_same rfl rfl
          have here := visit_listMarker keeps below (.inr stubs) kept visited
          rw [markersResolved, List.all_cons, Bool.and_eq_true]
          exact ⟨here, induction others⟩
      | false =>
          rw [kept, if_neg Bool.false_ne_true] at ends
          rcases visitEntries_splice_ends ends with ⟨rest, rfl, others⟩
          rw [markersResolved, List.all_append, Bool.and_eq_true]
          exact ⟨List.all_eq_true.mpr plain, induction others⟩

/-- A visit of a list whose plan is known. -/
theorem visit_list_planned {entries : List Node} {annotations : Annotations} {node' : Node}
    {steps : List EntryStep} {merged : Bool} (direct : annotations.redirect = none)
    (planned : ListPlan.ofEntries evaluator (entries.filterMap Node.name?)
      (binding.withSource annotations.source) none false entries =
        .ok (.entries steps (binding.withSource annotations.source) none merged))
    (ends : visit evaluator binding mode (.mk (.list entries) annotations) = .ok node') :
    ∃ entries', node' = .mk (.list entries') annotations ∧
      visitEntries evaluator (binding.withSource annotations.source)
        (mode.entries annotations.replace merged) merged 0 steps entries = .ok entries' := by
  rw [visit, direct] at ends
  rcases ok_of_bind ends with ⟨_, planned', ends⟩
  rw [followRedirect, planned] at planned'
  cases planned'
  rcases ok_of_bind ends with ⟨entries', visited, ends⟩
  cases ends
  exact ⟨entries', rfl, visited⟩

/-! What becomes of an expression, when a stub overrides it and when none does. -/

theorem stubFor?_never (node : Node) (binding : Binding) : stubFor? node binding .never = none := by
  simp [stubFor?, Override.allows]

theorem stubFor?_protected {node : Node} {expression : Expression}
    (holds : node.expression? binding.path = some (.ok expression)) (direct : node.redirect = none)
    (shielded : binding.findInStubs? binding.stubPath = none ∨
      node.annotations.preferred = true ∨ expression.isPreferred = true) :
    stubFor? node binding mode = none := by
  rw [stubFor?_of_expression holds direct]
  rcases shielded with none | preferred | preferred
  · rw [none, ite_self]
  · simp [preferred]
  · simp [preferred]

end Pass

/-- What has an expression has no name. -/
theorem stepName_of_expression {node : Node} {place : List String} {found : Except Issue Expression}
    (holds : node.expression? place = some found) (index : Nat) :
    stepName index node = indexText index ∧ node.name? = none := by
  have unnamed : node.name? = none := by
    unfold Node.name? Node.findText?
    rw [Node.get?_of_kind (Node.leaf_of_expression holds).1]
    rfl
  rw [stepName, unnamed]
  exact ⟨rfl, rfl⟩

theorem isVisitedEntry_of_expression {node : Node} {place : List String}
    {found : Except Issue Expression} (holds : node.expression? place = some found) :
    node.isVisitedEntry := by
  rw [Node.isVisitedEntry, Pass.listMarker_of_kind (Node.leaf_of_expression holds).1]
  rfl

/-- In a list that merges no stub overrides an expression: it has no name, and its index means
nothing in the stubs. -/
theorem Pass.visit_unnamed {evaluator : Evaluator} {entry entry' : Node} {expression : Expression}
    {index : Nat}
    (holds : entry.expression? (binding.path ++ [indexText index]) = some (.ok expression))
    (ends : visit evaluator (binding.withPath (stepName index entry)) (entryMode mode true entry)
      entry = .ok entry') :
    ∃ outcome, evaluator ((binding.withPath (indexText index)).withSource entry.source) expression =
        .ok outcome ∧ entry' = ofOutcome entry expression outcome := by
  obtain ⟨step, unnamed⟩ := stepName_of_expression holds index
  have never : entryMode mode true entry = .never := by simp [entryMode, unnamed]
  rw [step, never] at ends
  have holds : entry.expression? (binding.withPath (indexText index)).path =
      some (.ok expression) := holds
  exact visit_outcome holds (stubFor?_never entry _) ends

/-- In resolved stubs no marker is an expression. -/
theorem newEntries_visited {stub : Node} {names : List String} {added : List Node}
    (list : stub.value = .list added) (resolved : stub.isResolved) :
    ∀ node ∈ newEntries names added, node.isVisitedEntry := by
  intro node member
  have inner : entriesResolved added := by
    rcases stub with ⟨value, annotations⟩
    cases list
    exact resolved
  have whole := member_resolved inner (List.mem_filter.mp member).1
  apply listMarker_resolved
  rw [Node.value_withoutMarkers]
  exact Node.withoutMarkers_of_isResolved whole

/-! ## Runs -/

namespace Resolution

variable {answers : Answers} {stubs : List Node} {keys : List String}

/-- A list below maps that at most merge, with an expression among its entries. All its markers
are plain merges, of which one at least is pending, and a stub has a list for them. -/
structure Splices (answers : Answers) (stubs : List Node) (template : Node) (keys : List String)
    (place : Binding) (front : List Node) (entry : Node) (back : List Node)
    (annotations : Annotations) (added : List Node) : Prop where
  merges : template.MergesAlong (fun _ => True) [] keys
  own : template.isOwnAlong keys
  position : template.reach (root answers stubs) (keys.map .field) =
    some (place, .mk (.list (front ++ entry :: back)) annotations)
  direct : annotations.redirect = none
  whole : annotations.replace = false
  markers : MarkersMerge keys (front ++ entry :: back)
  pending : ∃ other ∈ front ++ entry :: back, other.isVisitedEntry = false
  stub : ∃ stub, ({ stubs } : Binding).findInStubs? keys = some stub ∧ stub.value = .list added

/-- The index of the entry behind those in front of it, after the merge. -/
def splicedIndex (front : List Node) (entry : Node) (back added : List Node) : Nat :=
  splicedLength (newEntries ((front ++ entry :: back).filterMap Node.name?) added) front

/-- A list with this node at an index, in which no merge is pending any more. -/
structure Keeps (answers : Answers) (stubs : List Node) (document : Node) (keys : List String)
    (annotations : Annotations) (index : Nat) (held : Node) : Prop where
  merges : document.MergesAlong (Idle stubs) [] keys
  own : document.isOwnAlong keys
  position : ∃ place entries, document.reach (root answers stubs) (keys.map .field) =
      some (place, .mk (.list entries) annotations) ∧
    markersResolved entries ∧ entries[index]? = some held

variable {template document document' : Node} {place : Binding} {front back added : List Node}
  {entry held : Node} {annotations : Annotations} {expression : Expression} {index : Nat}

theorem root_unmarked (resolved : ∀ stub ∈ stubs, stub.isResolved)
    (outside : answers.Provide fun value => value.withoutMarkers) :
    (root answers stubs).IsUnmarked :=
  ⟨fun stub member => Node.withoutMarkers_of_isResolved (resolved stub member), outside⟩

theorem unmarked_of_reach (resolved : ∀ stub ∈ stubs, stub.isResolved)
    (outside : answers.Provide fun value => value.withoutMarkers) {node : Node} {route : List Step}
    (reached : document.reach (root answers stubs) route = some (place, node)) :
    place.IsUnmarked :=
  (root_unmarked resolved outside).of_same (Node.stubs_of_reach reached)
    (Node.answers_of_reach reached)

theorem Splices.found
    (splices : Splices answers stubs template keys place front entry back annotations added) :
    ∃ stub, place.findInStubs? place.stubPath = some stub ∧ stub.value = .list added := by
  rcases splices.stub with ⟨stub, found, isList⟩
  refine ⟨stub, ?_, isList⟩
  rw [(Node.path_of_reach splices.position).2, Node.findInStubs?_of_reach splices.position]
  exact found

/-- A visit of the list in its place puts what the stub has in the place of its markers. -/
theorem Splices.visited {list : Node} {mode : Override}
    (splices : Splices answers stubs template keys place front entry back annotations added)
    (ends : Pass.visit (Expression.evaluate Expression.callDepth) place mode
      (.mk (.list (front ++ entry :: back)) annotations) = .ok list) :
    ∃ entries, list = .mk (.list entries) annotations ∧
      Pass.visitEntries (Expression.evaluate Expression.callDepth)
        (place.withSource annotations.source) (mode.entries annotations.replace true) true 0
        ((front ++ entry :: back).map
          (spliceStep (newEntries ((front ++ entry :: back).filterMap Node.name?) added)))
        (front ++ entry :: back) = .ok entries := by
  rcases splices.found with ⟨stub, found, isList⟩
  have path : (place.withSource annotations.source).path = keys :=
    (Node.path_of_reach splices.position).1
  have markers : MarkersMerge (place.withSource annotations.source).path
      (front ++ entry :: back) := by
    rw [path]
    exact splices.markers
  have pending : (front ++ entry :: back).any (fun other => !other.isVisitedEntry) = true := by
    rcases splices.pending with ⟨other, member, pending⟩
    exact List.any_eq_true.mpr ⟨other, member, by rw [pending]; rfl⟩
  have planned : ListPlan.ofEntries (Expression.evaluate Expression.callDepth)
      ((front ++ entry :: back).filterMap Node.name?) (place.withSource annotations.source) none
      false (front ++ entry :: back) = _ :=
    ListPlan.ofEntries_merging markers found isList
  rw [Bool.false_or, pending] at planned
  exact Pass.visit_list_planned splices.direct planned ends

/-- The merging pass leaves the outcome of the expression. -/
theorem run_merging (resolved : ∀ stub ∈ stubs, stub.isResolved)
    (outside : answers.Provide fun value => value.withoutMarkers)
    (splices : Splices answers stubs template keys place front entry back annotations added)
    (holds : entry.expression? (keys ++ [indexText (splicedIndex front entry back added)]) =
      some (.ok expression))
    (pass : Pass.run answers stubs template = .ok document) :
    ∃ outcome, Expression.evaluate Expression.callDepth
        ((place.withPath (indexText (splicedIndex front entry back added))).withSource
          entry.source) expression = .ok outcome ∧
      Keeps answers stubs document keys annotations (splicedIndex front entry back added)
        (Pass.ofOutcome entry expression outcome) := by
  have keeps := Expression.evaluate_preserves Value.withoutMarkers_inherited Expression.callDepth
  rcases Pass.visit_along splices.position pass splices.merges rfl resolved with
    ⟨merges, own, mode, list, visited, _, reaches⟩
  rcases reaches (root answers stubs) with ⟨place', reached, _⟩
  rcases splices.visited visited with ⟨entries, rfl, entered⟩
  -- No marker is pending any more: none was among the others, and the stub brings none.
  rcases splices.found with ⟨stub, found, isList⟩
  have stubsResolved : ∀ stub ∈ place.stubs, stub.isResolved := by
    rw [Node.stubs_of_reach splices.position]
    exact resolved
  have unmarked : (place.withSource annotations.source).IsUnmarked :=
    (unmarked_of_reach resolved outside splices.position).of_same rfl rfl
  have markersAfter := Pass.visitEntries_merged keeps unmarked stubsResolved
    (newEntries_visited isList (Binding.findInStubs?_resolved stubsResolved found)) entered
  -- The entry is evaluated at its new index.
  rcases Pass.visitEntries_split (isVisitedEntry_of_expression holds) entered with
    ⟨entry', there, here⟩
  rw [Nat.zero_add] at here
  have path : (place.withSource annotations.source).path = keys :=
    (Node.path_of_reach splices.position).1
  rw [← path] at holds
  rcases Pass.visit_unnamed holds here with ⟨outcome, evaluated, rfl⟩
  exact ⟨outcome, evaluated, merges, own splices.own, place', entries, reached, markersAfter, there⟩

/-- Every later pass visits the node in its place, as an entry of an ordinary list. -/
theorem run_kept (resolved : ∀ stub ∈ stubs, stub.isResolved)
    (outside : answers.Provide fun value => value.withoutMarkers) (direct : annotations.redirect = none)
    (whole : annotations.replace = false)
    (kept : Keeps answers stubs document keys annotations index held)
    (pass : Pass.run answers stubs document = .ok document') :
    ∃ site held', document.reach (root answers stubs) (keys.map .field ++ [.entry index]) =
        some (site, held) ∧
      site.path = keys ++ [stepName index held] ∧ site.stubPath = keys ++ [stepName index held] ∧
      site.stubs = stubs ∧
      Pass.visit (Expression.evaluate Expression.callDepth) site .expressions held = .ok held' ∧
      Keeps answers stubs document' keys annotations index held' := by
  have keeps := Expression.evaluate_preserves Value.withoutMarkers_inherited Expression.callDepth
  rcases kept.position with ⟨place, entries, position, markers, there⟩
  rcases Pass.visit_along position pass kept.merges rfl resolved with
    ⟨merges, own, mode, list, visited, same, reaches⟩
  rcases reaches (root answers stubs) with ⟨place', reached, _⟩
  obtain ⟨path, stubPath⟩ := Node.path_of_reach position
  have around := unmarked_of_reach resolved outside position
  cases same (fun _ => id) kept.own
  rcases Pass.visit_list_ends markers visited with ⟨entries', rfl, entered⟩
  rw [Pass.inside, direct, whole, Override.entries_same] at entered
  have inner : (place.withSource annotations.source).IsUnmarked := around.of_same rfl rfl
  have markers' := Pass.visitEntries_markersResolved keeps inner Override.expressions_ne_all markers
    entered
  rcases Pass.visitEntries_found entered there with ⟨held', found, here⟩
  rw [Nat.zero_add] at here
  have here : Pass.visit (Expression.evaluate Expression.callDepth)
      (place.withPath (stepName index held)) .expressions held = .ok held' :=
    (Pass.visit_withSource annotations.source held).symm.trans here
  refine ⟨place.withPath (stepName index held), held', ?_, ?_, ?_, Node.stubs_of_reach position,
    here, merges, own kept.own, place', entries', reached, markers', found⟩
  · rw [Node.reach_append position, Node.descend, Node.value_mk]
    simp only [there, Option.map_some]
  · exact congrArg (· ++ [stepName index held]) path
  · exact congrArg (· ++ [stepName index held]) stubPath

/-- The expression stands where the entry was. -/
structure Awaits (entry : Node) (expression : Expression) (held : Node) : Prop where
  value : held.value = .expression expression
  direct : held.redirect = none
  preferred : held.annotations.preferred = entry.annotations.preferred

theorem Awaits.holds (awaits : Awaits entry expression held) (path : List String) :
    held.expression? path = some (.ok expression) := by
  rw [Node.expression?, awaits.value]

/-- An expression without a value goes on to stand there. -/
theorem awaits_ofOutcome {outcome : Outcome} (none : outcome.node? = none) {node : Node}
    (direct : node.redirect = .none) (same : node.annotations.preferred = entry.annotations.preferred) :
    Awaits entry expression (Pass.ofOutcome node expression outcome) := by
  cases outcome with
  | value result report => cases none
  | deferred report | failed report => exact ⟨rfl, direct, same⟩

/-- It is the expression, or it has the value of the expression in an earlier document. -/
def Survives (answers : Answers) (stubs : List Node) (template : Node) (route : List Step)
    (entry : Node) (expression : Expression) (passes : Nat) (held : Node) : Prop :=
  Awaits entry expression held ∨
    ∃ early before site node value report, early < passes ∧
      treeAfter answers stubs (early + 1) template = .ok before ∧
      before.reach (root answers stubs) route = some (site, node) ∧
      Expression.evaluate Expression.callDepth (site.withSource node.source) expression =
        .ok (.value value report) ∧
      (value.isResolved → held.value = value.value)

/-- What a document of the run, some passes after the merge, holds where the entry stands. -/
structure Fate (answers : Answers) (stubs : List Node) (template : Node) (path : List String)
    (route : List Step) (entry : Node) (expression : Expression) (outcome : Outcome)
    (passes : Nat) (held : Node) : Prop where
  start : passes = 0 → held = Pass.ofOutcome entry expression outcome
  kept : (Pass.ofOutcome entry expression outcome).isResolved →
    held = Pass.ofOutcome entry expression outcome
  overridden : outcome.node? = none → entry.annotations.preferred = false →
    expression.isPreferred = false → ∀ found, ({ stubs } : Binding).findInStubs? path = some found →
      0 < passes → held = found
  survives : outcome.node? = none → (({ stubs } : Binding).findInStubs? path = none ∨
      entry.annotations.preferred = true ∨ expression.isPreferred = true) →
    Survives answers stubs template route entry expression passes held

theorem visit_resolved {site : Binding} {held held' : Node} (resolved : held.isResolved)
    (ends : Pass.visit (Expression.evaluate Expression.callDepth) site .expressions held =
      .ok held') : held' = held := by
  rw [Pass.visit_of_isResolved held Override.expressions_ne_all resolved] at ends
  exact (Except.ok.inj ends).symm

/-- A pass that visits the entry in its place takes its fate one step further. -/
theorem Fate.step (resolved : ∀ stub ∈ stubs, stub.isResolved) (aimed : entry.redirect = none)
    {outcome : Outcome} {passes : Nat} {route : List Step} {site : Binding} {held' : Node}
    (fate : Fate answers stubs template (keys ++ [indexText index]) route entry expression outcome
      passes held)
    (reached : treeAfter answers stubs (passes + 1) template = .ok document)
    (position : document.reach (root answers stubs) route = some (site, held))
    (stubPath : site.stubPath = keys ++ [stepName index held]) (stubsSame : site.stubs = stubs)
    (ends : Pass.visit (Expression.evaluate Expression.callDepth) site .expressions held =
      .ok held') :
    Fate answers stubs template (keys ++ [indexText index]) route entry expression outcome
      (passes + 1) held' := by
  have inStubs (awaits : Awaits entry expression held) : site.findInStubs? site.stubPath =
      ({ stubs } : Binding).findInStubs? (keys ++ [indexText index]) := by
    rw [Binding.findInStubs?, stubsSame, stubPath, (stepName_of_expression (awaits.holds []) index).1]
    rfl
  refine ⟨(absurd · (Nat.succ_ne_zero passes)), fun whole => ?_, ?_, ?_⟩
  · have same := fate.kept whole
    rw [visit_resolved (by rwa [same]) ends, same]
  · intro none bare plain found stub _
    have wholeFound : found.isResolved := by
      apply Binding.findInStubs?_resolved _ stub
      exact resolved
    by_cases first : passes = 0
    · have awaits : Awaits entry expression held := by
        rw [fate.start first]
        exact awaits_ofOutcome none aimed rfl
      have holds : held.expression? (site.withSource held.source).path = some (.ok expression) :=
        awaits.holds _
      have overridden : Pass.stubFor? held (site.withSource held.source) .expressions =
          some found := by
        rw [Pass.stubFor?_of_expression holds awaits.direct, awaits.preferred, bare, plain]
        exact (inStubs awaits).trans stub
      exact Pass.visit_overridden (awaits.holds _) overridden
        (Node.isLocallyResolved_of_isResolved wholeFound) ends
    · have same := fate.overridden none bare plain found stub (Nat.pos_of_ne_zero first)
      rw [visit_resolved (by rwa [same]) ends, same]
  · intro none shielded
    rcases fate.survives none shielded with
      awaits | ⟨early, before, place, node, value, report, earlier, run, there, evaluated, same⟩
    · have alone : Pass.stubFor? held (site.withSource held.source) .expressions = .none := by
        apply Pass.stubFor?_protected (awaits.holds _) awaits.direct
        rw [awaits.preferred]
        exact shielded.imp_left (inStubs awaits).trans
      rcases Pass.visit_outcome (awaits.holds _) alone ends with ⟨outcome', evaluated, rfl⟩
      cases outcome' with
      | value value report =>
          exact .inr ⟨passes, document, site, held, value, report, Nat.lt_succ_self passes, reached,
            position, evaluated, fun _ => rfl⟩
      | deferred report | failed report =>
          exact .inl (awaits_ofOutcome rfl awaits.direct awaits.preferred)
    · refine .inr ⟨early, before, place, node, value, report, Nat.lt_succ_of_lt earlier, run, there,
        evaluated, fun whole => ?_⟩
      have same := same whole
      rw [visit_resolved (by rwa [Node.isResolved_congr same]) ends, same]

/-- The list is an ordinary one in all documents after the merge, and the passes do not move the
entry in it. -/
theorem treeAfter_fate (resolved : ∀ stub ∈ stubs, stub.isResolved)
    (outside : answers.Provide fun value => value.withoutMarkers)
    (splices : Splices answers stubs template keys place front entry back annotations added)
    (spliced : index = splicedIndex front entry back added)
    (holds : entry.expression? (keys ++ [indexText index]) = some (.ok expression))
    (aimed : entry.redirect = none) {passes : Nat}
    (reached : treeAfter answers stubs (passes + 1) template = .ok document) :
    ∃ outcome held,
      Expression.evaluate Expression.callDepth
        ((place.withPath (indexText index)).withSource entry.source) expression = .ok outcome ∧
      Keeps answers stubs document keys annotations index held ∧
      Fate answers stubs template (keys ++ [indexText index]) (keys.map .field ++ [.entry index])
        entry expression outcome passes held := by
  induction passes generalizing document with
  | zero =>
      subst spliced
      rcases treeAfter_pred reached with ⟨_, ⟨⟩, pass⟩
      rcases run_merging resolved outside splices holds pass with ⟨outcome, evaluated, kept⟩
      refine ⟨outcome, _, evaluated, kept, fun _ => rfl, fun _ => rfl, ?_, ?_⟩
      · intro _ _ _ _ _ positive
        cases positive
      · exact fun none _ => .inl (awaits_ofOutcome none aimed rfl)
  | succ passes induction =>
      rcases treeAfter_pred reached with ⟨before, earlier, pass⟩
      rcases induction earlier with ⟨outcome, held, evaluated, kept, fate⟩
      rcases run_kept resolved outside splices.direct splices.whole kept pass with
        ⟨site, held', position, _, stubPath, stubsSame, visited, kept'⟩
      exact ⟨outcome, held', evaluated, kept',
        fate.step resolved aimed earlier position stubPath stubsSame visited⟩

/-- An expression without a name in a list that merges is not overridden in the merging pass, and
its value from there stays. Without a value from there it is overridden in the next pass by what
a stub has at its new index, unless it is preferred; and where no stub has anything there, it
stays until it has a value of its own. -/
theorem spliced_entry (resolved : ∀ stub ∈ stubs, stub.isResolved)
    (outside : answers.Provide fun value => value.withoutMarkers)
    (splices : Splices answers stubs template keys place front entry back annotations added)
    (index : Nat) (spliced : index = splicedIndex front entry back added)
    (holds : entry.expression? (keys ++ [indexText index]) = some (.ok expression))
    (aimed : entry.redirect = none) {passes : Nat}
    (reached : treeAfter answers stubs (passes + 1) template = .ok document) :
    ∃ outcome site held,
      Expression.evaluate Expression.callDepth
        ((place.withPath (indexText index)).withSource entry.source) expression = .ok outcome ∧
      document.reach (root answers stubs) (keys.map .field ++ [.entry index]) = some (site, held) ∧
      Fate answers stubs template (keys ++ [indexText index]) (keys.map .field ++ [.entry index])
        entry expression outcome passes held := by
  rcases treeAfter_fate resolved outside splices spliced holds aimed reached with
    ⟨outcome, held, evaluated, kept, fate⟩
  rcases kept.position with ⟨around, entries, position, _, there⟩
  have here : document.reach (root answers stubs) (keys.map .field ++ [.entry index]) =
      some (around.withPath (stepName index held), held) := by
    rw [Node.reach_append position, Node.descend, Node.value_mk]
    simp only [there, Option.map_some]
  exact ⟨outcome, _, held, evaluated, here, fate⟩

/-- A list in which an entry refers to `y`, and `y` to `z`. -/
private def chained (list : List Node) (y : Value) : Node :=
  .mk (.map [("l", .mk (.list list) {}), ("y", .mk y {}), ("z", .mk (.integer 1) {})]) {}

private def reference (name : String) : Node := .mk (.expression (.reference [name])) {}

private def merging : Node :=
  .mk (.map [(markerKey, .mk (.expression (.merge ["l"] false false)) {})]) {}

private def texts (names : List String) : List Node := names.map fun name => .mk (.text name) {}

private def listed (names : List String) : Node := .mk (.map [("l", .mk (.list (texts names)) {})]) {}

private theorem chained_splices (front back : List Node) (names : List String)
    (markers : ∀ other ∈ front ++ reference "y" :: back, other = merging ∨ other = reference "y")
    (pending : merging ∈ front ++ reference "y" :: back) :
    ∃ place, Splices .none [listed names]
      (chained (front ++ reference "y" :: back) (reference "z").value) ["l"] place front
      (reference "y") back {} (texts names) := by
  have merges : (chained (front ++ reference "y" :: back) (reference "z").value).MergesAlong
      (fun _ => True) [] ["l"] := by
    refine ⟨_, _, _, rfl, rfl, by decide, rfl, ?_, trivial⟩
    intro marker found
    cases found
  refine ⟨_, merges, rfl, rfl, rfl, rfl, ?_, ⟨merging, pending, rfl⟩, _, rfl, rfl⟩
  intro other member marker held
  rcases markers other member with rfl | rfl
  · cases held
    exact .inr ⟨_, rfl⟩
  · cases held

/-- The stub has nothing at the new index of the entry. -/
theorem spliced_entry_behind :
    treeAfter .none [listed ["p", "q"]] 2 (chained [merging, reference "y"] (reference "z").value) =
      .ok (chained (texts ["p", "q"] ++ [.mk (.integer 1) {}]) (.integer 1)) ∧
    ∃ outcome, Fate .none [listed ["p", "q"]]
      (chained [merging, reference "y"] (reference "z").value) ["l", "[2]"]
      [.field "l", .entry 2] (reference "y") (.reference ["y"]) outcome 1 (.mk (.integer 1) {}) := by
  have run : treeAfter .none [listed ["p", "q"]] 2
      (chained [merging, reference "y"] (reference "z").value) =
        .ok (chained (texts ["p", "q"] ++ [.mk (.integer 1) {}]) (.integer 1)) := rfl
  have outside : Answers.none.Provide fun value => value.withoutMarkers :=
    ⟨(fun known => nomatch known), (fun known => nomatch known), fun known => nomatch known⟩
  have resolved : ∀ stub ∈ [listed ["p", "q"]], stub.isResolved := by decide
  rcases chained_splices [merging] [] ["p", "q"] (by simp) (by simp) with ⟨place, splices⟩
  rcases spliced_entry resolved outside splices 2 rfl rfl rfl run with
    ⟨outcome, _, _, _, here, fate⟩
  cases here
  exact ⟨run, outcome, fate⟩

/-! Where a stub has something at the new index, it takes the place of an expression that has
no value in the merging pass. -/

theorem spliced_overridden :
    ¬ ∀ (answers : Answers) (stubs : List Node) (template : Node) (resolution : Resolution)
        (keys : List String) (place : Binding) (front : List Node) (entry : Node)
        (back : List Node) (annotations : Annotations) (added : List Node) (index : Nat)
        (expression : Expression), (∀ stub ∈ stubs, stub.isResolved) →
      Splices answers stubs template keys place front entry back annotations added →
      index = splicedIndex front entry back added →
      entry.expression? (keys ++ [indexText index]) = some (.ok expression) →
      whole answers stubs template = .ok (.ok resolution) →
      ∃ site held, resolution.document.reach (root answers stubs)
          (keys.map .field ++ [.entry index]) = some (site, held) ∧
        (held.value = .expression expression ∨ ∃ value report,
          Expression.evaluate Expression.callDepth site expression = .ok (.value value report) ∧
          held.value = value.value) := by
  intro claim
  have first : Pass.run .none [listed ["p", "q"]]
      (chained [reference "y", merging] (reference "z").value) =
        .ok (chained (reference "y" :: texts ["p", "q"]) (.integer 1)) := rfl
  have others : settle .none [listed ["p", "q"]] 1023 (0 + 1)
      (chained (reference "y" :: texts ["p", "q"]) (.integer 1)) =
        .ok (some ⟨chained (texts ["p", "p", "q"]) (.integer 1), [], 3⟩) := rfl
  have result : whole .none [listed ["p", "q"]]
      (chained [reference "y", merging] (reference "z").value) =
        .ok (.ok ⟨chained (texts ["p", "p", "q"]) (.integer 1), [], 3⟩) := by
    unfold whole partly defaultLimit
    rw [settle, first]
    simp only [bind, Except.bind]
    rw [if_neg (by decide), others]
    rfl
  have resolved : ∀ stub ∈ [listed ["p", "q"]], stub.isResolved := by decide
  rcases chained_splices [] [merging] ["p", "q"] (by simp) (by simp) with ⟨place, splices⟩
  rcases claim _ _ _ _ ["l"] place [] _ _ {} _ 0 _ resolved splices rfl rfl result with
    ⟨site, held, here, still | ⟨value, report, evaluated, same⟩⟩
  · cases here
    cases still
  · have outcome : site.referenceOutcome ["y"] = .value value report := Except.ok.inj evaluated
    rcases Binding.lookup_of_referenceOutcome outcome with ⟨found, looked, _, whole⟩
    cases here
    cases looked
    have stays : Value.text "p" = .integer 1 := same.trans whole
    cases stays

end Resolution

end Stencil
