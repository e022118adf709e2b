import Stencil.Proofs.Resolution.Keys
import Stencil.Proofs.Resolution.ListMerge
import Stencil.Proofs.Resolution.Overriding
import Stencil.Proofs.Resolution.Report

namespace Stencil

/-! A collection with `merge replace` becomes in the first pass what the first stub has at its
path, whatever else it holds. The replacement is resolved, so later passes leave it as it is. -/

/-- A merge in the place of the collection around it, as `(( merge replace ))` is read. -/
def Node.ReplacesAt (marker : Node) (keys : List String) : Prop :=
  ∃ path, marker.expression? keys = some (.ok (.merge path false true))

/-- The text is read so at every place. -/
theorem Node.replacesAt_text (annotations : Annotations) (keys : List String) :
    (Node.mk (.text "(( merge replace ))") annotations).ReplacesAt keys := by
  refine ⟨keys, ?_⟩
  have source : Text.embedded? "(( merge replace ))" = some "merge replace" := by decide
  have read : Expression.parse "merge replace" keys = .ok (.merge keys false true) := by cbv
  rw [expression?, value_mk]
  dsimp only
  rw [source, Option.map_some, read]

/-- A map with such a marker, or a list with one and no other expression among the markers
before it. The other fields or entries may be anything. -/
inductive Node.IsReplaced (keys : List String) : Node → Prop where
  | map {fields : List (String × Node)} {annotations : Annotations} {marker : Node}
      (held : fields.lookup markerKey = some marker) (replaces : marker.ReplacesAt keys) :
      IsReplaced keys (.mk (.map fields) annotations)
  | list {front back : List Node} {entry marker : Node} {annotations : Annotations}
      (before : markersResolved front) (held : listMarker? entry = some marker)
      (replaces : marker.ReplacesAt keys) :
      IsReplaced keys (.mk (.list (front ++ entry :: back)) annotations)

/-- The context of a place starts with that of the node around it. -/
theorem Node.prefix_of_shown? {node leaf : Node} {place shown : Place} {route : List Step}
    (reached : node.shown? place route = some (shown, leaf)) : place.context <+: shown.context := by
  induction route generalizing node place with
  | nil =>
      cases reached
      exact List.prefix_refl _
  | cons step route induction =>
      rcases shown?_cons reached with ⟨child, _, rest⟩
      refine List.IsPrefix.trans ?_ (induction rest)
      cases step with
      | field key | entry index => exact List.prefix_append _ _

/-- A place below a collection that maps lead to has a context that starts with their keys, and
no other place has. -/
theorem Node.route_of_context {node top leaf : Node} {place shown : Place} {keys : List String}
    {route : List Step} (position : node.at? (keys.map .field) = some top)
    (reached : node.shown? place route = some (shown, leaf))
    (within : place.context ++ keys <+: shown.context) :
    ∃ rest, top.at? rest = some leaf := by
  induction keys generalizing node place route with
  | nil =>
      cases position
      exact ⟨route, at?_of_shown? reached⟩
  | cons key keys induction =>
      rw [List.map_cons] at position
      rcases at?_cons position with ⟨child, found, below⟩
      cases route with
      | nil =>
          cases reached
          have longer := within.length_le
          simp at longer
      | cons step route =>
          rcases shown?_cons reached with ⟨child', found', rest⟩
          rcases below?_cases found with ⟨_, fields, _, same, rfl, _⟩ | ⟨_, _, _, impossible, _⟩
          · cases same
            rcases below?_cases found' with ⟨key', _, _, rfl, _, _⟩ | ⟨_, _, _, _, impossible, _⟩
            · have here : place.context ++ [key] <+: shown.context :=
                List.IsPrefix.trans ⟨keys, List.append_assoc _ [key] keys⟩ within
              have there : place.context ++ [key'] <+: shown.context := prefix_of_shown? rest
              have same : key' = key := by
                have both := List.prefix_of_prefix_length_le there here (by simp)
                simpa using both
              cases same
              cases found.symm.trans found'
              refine induction below rest ?_
              have context :
                  (place.below (.field key, child)).context = place.context ++ [key] := rfl
              rw [context, List.append_assoc, List.singleton_append]
              exact within
            · cases impossible
          · cases impossible

namespace ListPlan

/-- The first marker that replaces decides about the list. -/
theorem ofEntries_replaced {evaluator : Evaluator} {binding : Binding} {names : List String}
    {redirect moved : Option (List String)} {merged : Bool} {front back added : List Node}
    {entry marker base : Node} (before : markersResolved front)
    (held : listMarker? entry = some marker)
    (evaluated : Marker.evaluate evaluator binding marker = .ok (.merge base moved true))
    (list : base.value = .list added) :
    ofEntries evaluator names binding redirect merged (front ++ entry :: back) =
      .ok (.replaced added moved) := by
  induction front with
  | nil =>
      rw [List.nil_append, ofEntries, held]
      simp only [evaluated, bind, Except.bind, list, if_true]
      rfl
  | cons other front induction =>
      rw [markersResolved, List.all_cons, Bool.and_eq_true] at before
      have here := before.1
      rw [List.cons_append, ofEntries, induction before.2]
      cases found : listMarker? other with
      | none => rfl
      | some marker =>
          rw [found, Option.all_some] at here
          simp only [Marker.evaluate_of_resolved here]
          rfl

end ListPlan

namespace Pass

variable {depth : Nat} {evaluator : Evaluator} {binding : Binding} {mode : Override}

/-- The visit puts what the stubs have in the place of the collection. -/
theorem visit_replaced {node found : Node} {keys : List String} (replaced : node.IsReplaced keys)
    (direct : node.redirect = none) (path : binding.path = keys)
    (stubPath : binding.stubPath = keys)
    (held : binding.findInStubs? keys = some found) (kind : found.kind = node.kind) :
    ∃ node', visit (Expression.evaluate (depth + 1)) binding mode node = .ok node' ∧
      node'.value = found.value := by
  -- Inside of the collection its marker brings what the stubs have.
  have brings {marker : Node} {place : Binding} (same : place.path = binding.path)
      (lookups : place.stubPath = binding.stubPath) (stubs : place.stubs = binding.stubs)
      (replaces : marker.ReplacesAt keys) :
      Marker.evaluate (Expression.evaluate (depth + 1)) place marker =
        .ok (.merge (.ofSource found.source found.value) none true) := by
    rcases replaces with ⟨path', holds⟩
    have holds : marker.expression? place.path = some (.ok (.merge path' false true)) := by
      rw [same, path]
      exact holds
    have held : place.findInStubs? place.stubPath = some found := by
      rw [lookups, stubPath, ← held, Binding.findInStubs?, stubs]
      rfl
    exact Marker.evaluate_merge holds held
  cases replaced with
  | @map fields annotations marker marked replaces =>
      rcases Node.eq_map kind with ⟨base, annotations', rfl⟩
      have direct : annotations.redirect = none := direct
      have planned : MapPlan.ofFields (Expression.evaluate (depth + 1))
          ((inside binding annotations).withScope fields) fields = .ok (.replaced base none) := by
        have evaluated : Marker.evaluate (Expression.evaluate (depth + 1))
            ((inside binding annotations).withScope fields) marker =
              .ok (.merge (.ofSource (Node.mk (.map base) annotations').source (.map base))
                none true) := by
          rw [inside, direct]
          exact brings rfl rfl rfl replaces
        unfold MapPlan.ofFields
        rw [marked]
        simp only [evaluated]
        rfl
      exact visit_map_replaced planned
  | @list front back entry marker annotations before marked replaces =>
      rcases Node.eq_list kind with ⟨added, annotations', rfl⟩
      have direct : annotations.redirect = none := direct
      have evaluated : Marker.evaluate (Expression.evaluate (depth + 1))
          (inside binding annotations) marker =
            .ok (.merge (.ofSource (Node.mk (.list added) annotations').source (.list added))
              none true) := by
        rw [inside, direct]
        exact brings rfl rfl rfl replaces
      exact visit_list_replaced (ListPlan.ofEntries_replaced before marked evaluated rfl)

end Pass

namespace Resolution

variable {answers : Answers} {stubs earlier later : List Node} {template node stub found : Node}
  {keys : List String}

/-- From the first pass on, the document holds what the stub has. -/
theorem treeAfter_replaced (position : template.at? (keys.map .field) = some node)
    (plain : ∀ above ∈ template.above (keys.map .field), above.isClosed ∧ above.redirect = none)
    (direct : node.redirect = none) (replaced : node.IsReplaced keys)
    (held : ({ stubs } : Binding).findInStubs? keys = some found) (kind : found.kind = node.kind)
    (resolved : found.isResolved) {passes : Nat} {document : Node}
    (reached : treeAfter answers stubs (passes + 1) template = .ok document) :
    ∃ leaf, document.at? (keys.map .field) = some leaf ∧ leaf.value = found.value := by
  rcases treeAfter_first reached with ⟨first, pass, others⟩
  have alone : ∀ above ∈ template.above (keys.map .field),
      above.mergesNothing ∧ above.redirect = none := by
    intro above member
    rcases plain above member with ⟨closed, direct⟩
    exact ⟨Node.mergesNothing_of_isUnmarked (Node.isUnmarked_of_isClosed closed), direct⟩
  rcases Node.reach_of_at? position (root answers stubs) with ⟨site, reached⟩
  rcases Pass.visit_at alone reached pass with ⟨_, leaf, there, visited⟩
  rcases Node.path_of_reach reached with ⟨path, stubPath⟩
  have lookup : site.findInStubs? keys = some found := by
    rw [← held]
    exact Node.findInStubs?_of_reach reached keys
  have replaces : ∃ leaf', Pass.visit (Expression.evaluate Expression.callDepth) site
      (template.modeAlong .expressions (keys.map .field)) node = .ok leaf' ∧
        leaf'.value = found.value :=
    Pass.visit_replaced replaced direct path stubPath lookup kind
  rcases replaces with ⟨leaf', visited', value⟩
  cases visited.symm.trans visited'
  refine ⟨leaf, ?_, value⟩
  have sheltered : Sheltered answers stubs template (keys.map .field) :=
    .closed fun above member => (plain above member).1
  have leafResolved : leaf.isResolved := by
    rw [Node.isResolved_congr value]
    exact resolved
  exact treeAfter_sheltered (sheltered.step position pass) there leafResolved others

end Resolution

end Stencil
