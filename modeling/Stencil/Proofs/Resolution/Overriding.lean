import Stencil.Proofs.Resolution.Persistence

namespace Stencil

/-! What the stubs override where nothing is merged. A plain value stays, whatever the stubs
hold at its path. An expression, also one that cannot be read, gives way in the first pass to
what the first stub has that has anything at its path, and what is put there stays. For both
no merge may come to a collection around the place later on. -/

namespace Node

/-- A map without marker, or a list of which no entry is an expression and no map among the
entries has a marker. -/
def isClosed (node : Node) : Bool :=
  match node.value with
  | .map fields => (fields.lookup markerKey).isNone
  | .list entries =>
      entries.all fun entry => entry.isLocallyResolved && (entry.get? markerKey).isNone
  | _ => true

/-- Lookups in the stubs go on below the node, and what is below was not replaced as a whole. -/
def isOwn (node : Node) : Bool := node.redirect.isNone && !node.annotations.replace

theorem listMarker_of_get? {entry : Node} (absent : entry.get? markerKey = none) :
    listMarker? entry = none := by
  cases held : listMarker? entry with
  | none => rfl
  | some marker =>
      rcases markerField held with ⟨annotations, rfl⟩
      simp [get?] at absent

theorem isUnmarked_of_isClosed {node : Node} (closed : node.isClosed) : node.isUnmarked := by
  rcases node with ⟨value, annotations⟩
  cases value with
  | list entries =>
      refine List.all_eq_true.mpr fun entry member => ?_
      have here := List.all_eq_true.mp closed entry member
      rw [Bool.and_eq_true, Option.isNone_iff_eq_none] at here
      rw [listMarker_of_get? here.2]
      rfl
  | _ => exact closed

theorem isMerged_of_get? {node : Node} (absent : node.get? markerKey = none) : node.isMerged := by
  by_cases isMap : node.kind = .map
  · rcases eq_map isMap with ⟨fields, annotations, rfl⟩
    exact markerResolved_of_absent absent
  · exact isMerged_of_kind isMap

theorem isOwn_iff {node : Node} :
    node.isOwn ↔ node.annotations.redirect = none ∧ node.annotations.replace = false := by
  simp [isOwn, redirect]

end Node

/-- The path in the stubs is the one in the document as long as nothing is redirected. -/
theorem Node.stubPath_of_reach {binding site : Binding} {node leaf : Node} {route : List Step}
    (same : binding.stubPath = binding.path)
    (reached : node.reach binding route = some (site, leaf)) : site.stubPath = site.path := by
  refine reach_induction (motive := fun site _ => site.stubPath = site.path) ?_ same reached
  intro binding place node child step same found
  rcases descend_cases found with ⟨key, _, _, _, _, _, rfl⟩ | ⟨index, _, _, _, _, _, rfl⟩
  · exact congrArg (· ++ [key]) same
  · exact congrArg (· ++ [stepName index child]) same

/-- The first stub that has anything at a path decides. -/
theorem Binding.findInStubs?_first {binding : Binding} {earlier later : List Node}
    {stub found : Node} {path : List String} (split : binding.stubs = earlier ++ stub :: later)
    (before : ∀ other ∈ earlier, (other.find path).found? = none)
    (held : stub.find path = .found found) : binding.findInStubs? path = some found := by
  rw [findInStubs?, split, List.findSome?_append, List.findSome?_eq_none_iff.mpr before,
    Option.none_or, List.findSome?_cons, held]
  rfl

namespace Pass

variable {evaluator : Evaluator} {binding : Binding} {mode : Override}

/-- Expressions give way to what the stubs have. -/
theorem visit_stub {node found : Node} (unresolved : node.isLocallyResolved = false)
    (direct : node.redirect = none) (plain : node.annotations.preferred = false)
    (weak : isPreferredLeaf (node.expression? binding.path) = false)
    (held : binding.findInStubs? binding.stubPath = some found)
    (resolved : found.isLocallyResolved) :
    visit evaluator binding .expressions node = .ok found := by
  have some : (node.expression? binding.path).isSome := by
    rw [Option.isSome_iff_ne_none, ne_eq, Node.expression?_eq_none_iff, unresolved]
    exact Bool.false_ne_true
  rcases Option.isSome_iff_exists.mp some with ⟨expression, holds⟩
  rcases Node.leaf_of_expression holds with ⟨noMap, noList⟩
  have overridden : stubFor? node (binding.withSource node.source) .expressions =
      .some (found.withRedirect none) := by
    have path : (binding.withSource node.source).path = binding.path := rfl
    have held : (binding.withSource node.source).findInStubs?
        (binding.withSource node.source).stubPath = .some found := held
    simp only [stubFor?, path, some, plain, weak, direct, Override.allows, Option.getD_none, held,
      Bool.not_false, Bool.and_self, if_true, Option.map_some]
  rcases found with ⟨value, annotations⟩
  rw [visit_leaf noMap noList, leaf, overridden, Option.getD_some]
  exact evaluateNode_of_resolved resolved

/-- A child of a collection without marker and redirect is visited in place, in the mode of the
whole. -/
theorem visit_step {place : Binding} {node node' child : Node} {step : Step} (own : node.isOwn)
    (unmarked : node.isUnmarked) (first : node.descend binding step = some (place, child))
    (ends : visit evaluator binding mode node = .ok node') :
    ∃ child', visit evaluator place mode child = .ok child' ∧ node'.isOwn ∧
      node'.below? step = some child' := by
  rcases Node.isOwn_iff.mp own with ⟨direct, whole⟩
  rcases visit_direct (Node.mergesNothing_of_isUnmarked unmarked) direct first ends with
    ⟨kept, child', found, visited⟩
  rw [whole, Override.entries_same] at visited
  rw [Node.isOwn_iff, ← kept] at own
  exact ⟨child', visited, Node.isOwn_iff.mpr own, found⟩

/-- Along a route of collections without markers and redirects the node at the end is visited
in place, in the mode of the whole. -/
theorem visit_site {site : Binding} {node node' leaf : Node} {route : List Step}
    (own : ∀ above ∈ node.above route, above.isOwn)
    (unmarked : ∀ above ∈ node.above route, above.isUnmarked)
    (reached : node.reach binding route = some (site, leaf))
    (ends : visit evaluator binding mode node = .ok node') :
    ∃ leaf', visit evaluator site mode leaf = .ok leaf' ∧ node'.at? route = some leaf' := by
  induction route generalizing node node' binding with
  | nil =>
      cases reached
      exact ⟨node', ends, rfl⟩
  | cons step route induction =>
      rcases Node.reach_cons reached with ⟨place, child, first, rest⟩
      rw [Node.above_cons (Node.below?_of_descend first), List.forall_mem_cons] at own unmarked
      rcases visit_step own.1 unmarked.1 first ends with ⟨child', visited, _, found'⟩
      rw [Node.at?_of_below? found']
      exact induction own.2 unmarked.2 rest visited

/-- A node that is no expression and has no marker stays so. -/
theorem visit_closedEntry {entry entry' : Node} (quiet : mode ≠ .all)
    (resolved : entry.isLocallyResolved) (absent : entry.get? markerKey = none)
    (ends : visit evaluator binding mode entry = .ok entry') :
    entry'.isLocallyResolved ∧ entry'.get? markerKey = none := by
  refine ⟨visit_isLocallyResolved quiet resolved ends, ?_⟩
  rcases visit_get? quiet resolved (Node.isMerged_of_get? absent) ends markerKey with
    ⟨_, absent'⟩ | ⟨field, _, _, _, _, held, _⟩
  · exact absent'
  · rw [absent] at held
    cases held

theorem visit_isClosed {node node' : Node} (quiet : mode ≠ .all) (resolved : node.isLocallyResolved)
    (closed : node.isClosed) (ends : visit evaluator binding mode node = .ok node') :
    node'.isClosed := by
  have unmarked := Node.isUnmarked_of_isClosed closed
  rcases node with ⟨value, annotations⟩
  cases value with
  | map fields =>
      have absent : (Node.mk (.map fields) annotations).get? markerKey = none :=
        Option.isNone_iff_eq_none.mp closed
      have kind := visit_kind (.inl rfl) ends
      have absent' := (visit_closedEntry quiet resolved absent ends).2
      rcases Node.eq_map kind with ⟨fields', annotations', rfl⟩
      exact Option.isNone_iff_eq_none.mpr absent'
  | list entries =>
      rcases visit_list_ends unmarked ends with ⟨entries', rfl, visited⟩
      refine List.all_eq_true.mpr fun entry' member => ?_
      rcases visitEntries_came visited member with ⟨position, entry, held, here⟩
      have before := List.all_eq_true.mp closed entry held
      rw [Bool.and_eq_true, Option.isNone_iff_eq_none] at before ⊢
      exact visit_closedEntry (Override.entries_ne_all quiet annotations.replace) before.1
        before.2 here
  | _ =>
      rcases visit_cases quiet resolved ends with rfl | ⟨collection, _⟩
      · exact closed
      · rcases collection with kind | kind <;> cases kind

/-- What is around a position stays without markers, when no marker can come. -/
theorem visit_sheltered {node node' leaf : Node} {route : List Step} (quiet : mode ≠ .all)
    (unmarked : ∀ above ∈ node.above route, above.isUnmarked)
    (reached : node.at? route = some leaf)
    (ends : visit evaluator binding mode node = .ok node') :
    (∃ leaf', node'.at? route = some leaf') ∧
      ((∀ above ∈ node.above route, above.isClosed) → ∀ above ∈ node'.above route, above.isClosed) ∧
      (evaluator.KeepsUnmarked → binding.IsUnmarked →
        ∀ above ∈ node'.above route, above.isUnmarked) := by
  have visited := VisitedIn.of_visit quiet ends
  rcases visited.along unmarked reached with ⟨around, leaf', reached', _⟩
  refine ⟨⟨leaf', reached'⟩, fun closed above' member => ?_,
    (visited.surroundings unmarked reached).2⟩
  rcases around above' member with ⟨above, there, kind, _, _, quiet, _, _, ends⟩
  exact visit_isClosed quiet (Node.isLocallyResolved_of_kind kind) (closed above there) ends

end Pass

/-! ## Runs -/

namespace Resolution

/-- No marker can come to the collections around a position: no entry of their lists is an
expression, or there are no markers in the stubs and in what comes from the outside. -/
inductive Sheltered (answers : Answers) (stubs : List Node) (document : Node) (route : List Step) :
    Prop where
  | closed (closed : ∀ node ∈ document.above route, node.isClosed)
  | unmarked (place : (root answers stubs).IsUnmarked)
      (unmarked : ∀ node ∈ document.above route, node.isUnmarked)

variable {answers : Answers} {stubs : List Node} {template document after leaf held : Node}
  {route : List Step}

theorem Sheltered.isUnmarked (sheltered : Sheltered answers stubs document route) :
    ∀ node ∈ document.above route, node.isUnmarked := by
  cases sheltered with
  | closed closed => exact fun node member => Node.isUnmarked_of_isClosed (closed node member)
  | unmarked place unmarked => exact unmarked

theorem Sheltered.step (sheltered : Sheltered answers stubs document route)
    (reached : document.at? route = some leaf)
    (pass : Pass.run answers stubs document = .ok after) :
    Sheltered answers stubs after route := by
  rcases Pass.visit_sheltered Override.expressions_ne_all sheltered.isUnmarked reached pass with
    ⟨_, closed, unmarked⟩
  cases sheltered with
  | closed before => exact .closed (closed before)
  | unmarked place =>
      exact .unmarked place
        (unmarked (Expression.evaluate_preserves Value.withoutMarkers_inherited _) place)

/-- What is resolved at a sheltered position stays there. -/
theorem treeAfter_sheltered {passes : Nat} (sheltered : Sheltered answers stubs document route)
    (reached : document.at? route = some held) (resolved : held.isResolved)
    (last : treeAfter answers stubs passes document = .ok after) : after.at? route = some held := by
  have both : after.at? route = some held ∧ Sheltered answers stubs after route := by
    refine treeAfter_invariant (motive := fun document =>
      document.at? route = some held ∧ Sheltered answers stubs document route)
      ⟨reached, sheltered⟩ ?_ last
    rintro before after ⟨reached, sheltered⟩ pass
    have kept := Pass.visit_above Override.expressions_ne_all sheltered.isUnmarked reached resolved
      pass
    exact ⟨kept.1, sheltered.step reached pass⟩
  exact both.1

/-- At a sheltered position a resolved node is in every result what it was. An expression there
that is not preferred is in every result the node of the first stub that has anything at its
path, if that is resolved. The expression itself and later stubs make no difference. -/
theorem stub_precedence {site : Binding} (sheltered : Sheltered answers stubs template route)
    (own : ∀ above ∈ template.above route, above.isOwn)
    (position : template.reach (root answers stubs) route = some (site, leaf)) :
    (leaf.isResolved → ∀ limit resolution,
      partly answers limit stubs template = .ok (.ok resolution) →
        resolution.document.at? route = some leaf) ∧
    (leaf.isLocallyResolved = false → leaf.redirect = none → leaf.annotations.preferred = false →
      Pass.isPreferredLeaf (leaf.expression? site.path) = false →
      ∀ earlier stub later found, stubs = earlier ++ stub :: later →
        (∀ other ∈ earlier, (other.find site.path).found? = none) →
        stub.find site.path = .found found → found.isResolved →
        ∀ limit resolution, partly answers limit stubs template = .ok (.ok resolution) →
          resolution.document.at? route = some found) := by
  have reached := Node.at?_of_reach position
  constructor
  · intro resolved limit resolution result
    rcases settled_of_partly result with ⟨last, settled⟩
    exact treeAfter_sheltered sheltered reached resolved settled.final
  · intro unresolved direct plain weak earlier stub later found split before held resolved limit
      resolution result
    rcases settled_of_partly result with ⟨last, settled⟩
    have final := settled.final
    rw [← Nat.sub_add_cancel settled.passes] at final
    rcases treeAfter_first final with ⟨first, pass, others⟩
    -- The first pass puts the node of the stub in the place of the expression.
    rcases Pass.visit_site own sheltered.isUnmarked position pass with ⟨leaf', visited, reached'⟩
    have there : site.findInStubs? site.stubPath = some found := by
      rw [Node.stubPath_of_reach rfl position]
      exact Binding.findInStubs?_first ((Node.stubs_of_reach position).trans split) before held
    have overridden : Pass.visit (Expression.evaluate Expression.callDepth) site .expressions leaf =
        .ok found :=
      Pass.visit_stub unresolved direct plain weak there
        (Node.isLocallyResolved_of_isResolved resolved)
    cases visited.symm.trans overridden
    exact treeAfter_sheltered (sheltered.step reached pass) reached' resolved others

/-- A list with an entry that has a name. -/
def entryList (before : List Node) (fields : List (String × Value)) : Node :=
  .mk (.map [("l", .mk (.list (before ++ [.mk (.map (("name", .mk (.text "a") {}) ::
    fields.map fun field => (field.1, .mk field.2 {}))) {}])) {})]) {}

/-- Beside a plain value stands an expression that cannot be read. Of the stubs that have
something there the first one decides. -/
theorem stub_precedence_unreadable :
    let template := entryList [] [("v", .text "(( 1 + ))"), ("w", .integer 1)]
    let stubs : List Node := [.mk .null {}, entryList [] [("v", .integer 2), ("w", .integer 3)],
      entryList [] [("v", .integer 4)]]
    ∃ resolution, partly .none 2 stubs template = .ok (.ok resolution) ∧
      resolution.document.at? [.field "l", .entry 0, .field "v"] = some (.mk (.integer 2) {}) ∧
      resolution.document.at? [.field "l", .entry 0, .field "w"] = some (.mk (.integer 1) {}) := by
  intro template stubs
  obtain ⟨resolution, result⟩ : ∃ resolution,
      found? (partly .none 2 stubs template) = some resolution :=
    Option.isSome_iff_exists.mp (by decide +kernel)
  rw [found?_eq_some_iff] at result
  refine ⟨resolution, result, ?_, ?_⟩
  · exact (stub_precedence (.closed (by decide)) (by decide) rfl).2 rfl rfl rfl (by decide +kernel)
      [.mk .null {}] _ [entryList [] [("v", .integer 4)]] _ rfl
      (List.forall_mem_singleton.mpr rfl) rfl rfl 2 resolution result
  · exact (stub_precedence (.closed (by decide)) (by decide) rfl).1 (by decide) 2 resolution result

/-! An entry of a list may get a marker from the outside, although there is none in the template
and in the stubs. What the list holds beside it is then overridden. -/

theorem stub_precedence_marked :
    ¬ ∀ (answers : Answers) (limit : Nat) (stubs : List Node) (template : Node)
        (route : List Step) (site : Binding) (leaf : Node) (resolution : Resolution),
      (∀ document ∈ template :: stubs, ∀ found ∈ document.places,
        found.2.annotations = {} ∧ (found.2.get? markerKey).isNone) →
      template.reach (root answers stubs) route = some (site, leaf) →
      (∀ above ∈ template.above route, above.isSettledEntry) → leaf.isResolved →
      partly answers limit stubs template = .ok (.ok resolution) →
      (resolution.document.find site.path).found? = some leaf := by
  intro claim
  let answers : Answers := { Answers.none with environment := some [(markerKey, "(( merge m ))")] }
  let template : Node := entryList [.mk (.text "(( env([\"<<\"]) ))") {}] [("v", .integer 1)]
  let stubs : List Node := [.mk (.map [("m", .mk (.list [.mk (.map [("name", .mk (.text "a") {}),
    ("v", .mk (.integer 2) {})]) {}]) {})]) {}]
  have changed : ((found? (partly answers 4 stubs template)).bind fun resolution =>
      (resolution.document.find ["l", "a", "v"]).found?).map (fun leaf =>
        leaf.same (.mk (.integer 2) {})) = some true := by decide +kernel
  rcases Option.map_eq_some_iff.mp changed with ⟨leaf, held, same⟩
  rcases Option.bind_eq_some_iff.mp held with ⟨resolution, result, held⟩
  have kept := claim answers 4 stubs template [.field "l", .entry 1, .field "v"] _
    (.mk (.integer 1) {}) resolution (by decide +kernel) rfl (by decide +kernel) rfl
    (found?_eq_some_iff.mp result)
  cases held.symm.trans kept
  cases same

end Resolution

end Stencil
