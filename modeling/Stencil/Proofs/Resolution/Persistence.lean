import Stencil.Proofs.Resolution.Decided
import Stencil.Proofs.Resolution.Keys
import Stencil.Proofs.Resolution.Site

namespace Stencil

/-! What is resolved stays where it is, with all that is noted about it, as long as no merge
is pending in the collections around it. Maps get no such merge. A list may get one: where an
entry is an expression, a map with nothing but a marker may come from a stub. -/

namespace Node

/-- A map without marker, or a list in which no marker is an expression. -/
def isUnmarked (node : Node) : Bool :=
  match node.value with
  | .map fields => (fields.lookup markerKey).isNone
  | .list entries => markersResolved entries
  | _ => true

theorem mergesNothing_of_isUnmarked {node : Node} (unmarked : node.isUnmarked) :
    node.mergesNothing := by
  rcases node with ⟨value, annotations⟩
  cases value with
  | map fields => exact markerResolved_of_absent (Option.isNone_iff_eq_none.mp unmarked)
  | list entries => exact unmarked
  | _ => rfl

end Node

/-! ## Trees without markers -/

mutual
/-- Nowhere in a map is the marker an expression. -/
def Value.withoutMarkers : Value → Bool
  | .list entries => entriesWithoutMarkers entries
  | .map fields => markerResolved fields && fieldsWithoutMarkers fields
  | _ => true

def Node.withoutMarkers : Node → Bool
  | .mk value _ => value.withoutMarkers

def entriesWithoutMarkers : List Node → Bool
  | [] => true
  | entry :: entries => entry.withoutMarkers && entriesWithoutMarkers entries

def fieldsWithoutMarkers : List (String × Node) → Bool
  | [] => true
  | (_, field) :: fields => field.withoutMarkers && fieldsWithoutMarkers fields
end

theorem Node.value_withoutMarkers (node : Node) :
    node.value.withoutMarkers = node.withoutMarkers := by
  rcases node with ⟨value, annotations⟩
  rfl

theorem entriesWithoutMarkers_iff {entries : List Node} :
    entriesWithoutMarkers entries ↔ ∀ entry ∈ entries, entry.withoutMarkers := by
  induction entries with
  | nil => simp [entriesWithoutMarkers]
  | cons entry entries induction =>
      rw [entriesWithoutMarkers, Bool.and_eq_true, induction, List.forall_mem_cons]

theorem fieldsWithoutMarkers_iff {fields : List (String × Node)} :
    fieldsWithoutMarkers fields ↔ ∀ entry ∈ fields, entry.2.withoutMarkers := by
  induction fields with
  | nil => simp [fieldsWithoutMarkers]
  | cons entry fields induction =>
      rw [fieldsWithoutMarkers, Bool.and_eq_true, induction, List.forall_mem_cons]

mutual
theorem Value.withoutMarkers_of_isResolved : ∀ {value : Value}, value.isResolved →
    value.withoutMarkers
  | .list _, resolved => entriesWithoutMarkers_of_resolved resolved
  | .map _, resolved => by
      rw [Value.withoutMarkers, Bool.and_eq_true]
      exact ⟨markerResolved_of_fieldsResolved resolved, fieldsWithoutMarkers_of_resolved resolved⟩
  | .null, _ | .boolean _, _ | .integer _, _ | .decimal _, _ | .text _, _ | .expression _, _
  | .lambda _ _ _, _ => rfl

theorem Node.withoutMarkers_of_isResolved : ∀ {node : Node}, node.isResolved →
    node.withoutMarkers
  | .mk _ _, resolved => Value.withoutMarkers_of_isResolved resolved

theorem entriesWithoutMarkers_of_resolved : ∀ {entries : List Node}, entriesResolved entries →
    entriesWithoutMarkers entries
  | [], _ => rfl
  | _ :: _, resolved => by
      rw [entriesResolved, Bool.and_eq_true] at resolved
      rw [entriesWithoutMarkers, Bool.and_eq_true]
      exact ⟨Node.withoutMarkers_of_isResolved resolved.1,
        entriesWithoutMarkers_of_resolved resolved.2⟩

theorem fieldsWithoutMarkers_of_resolved : ∀ {fields : List (String × Node)},
    fieldsResolved fields → fieldsWithoutMarkers fields
  | [], _ => rfl
  | (_, _) :: _, resolved => by
      rw [fieldsResolved, Bool.and_eq_true] at resolved
      rw [fieldsWithoutMarkers, Bool.and_eq_true]
      exact ⟨Node.withoutMarkers_of_isResolved resolved.1,
        fieldsWithoutMarkers_of_resolved resolved.2⟩
end

/-- A lambda shows nothing of what it captured. -/
theorem Value.withoutMarkers_inherited :
    Inherited (fun value => value.withoutMarkers) fun _ => True where
  flat flat := by
    rename_i value
    cases value <;> first | rfl | cases flat
  list := by
    intro entries
    refine entriesWithoutMarkers_iff.trans (forall₂_congr fun entry _ => ?_)
    rw [Node.value_withoutMarkers]
  field without := by
    rw [withoutMarkers, Bool.and_eq_true] at without
    intro entry member
    rw [Node.value_withoutMarkers]
    exact fieldsWithoutMarkers_iff.mp without.2 entry member
  lambda := ⟨fun _ => trivial, fun _ => rfl⟩
  nil := trivial
  merge _ _ := trivial
  arguments _ _ := trivial

theorem Node.withoutMarkers_of_find {node next : Node} {path : List String}
    (without : node.withoutMarkers) (found : node.find path = .found next) :
    next.withoutMarkers := by
  refine find_induction (motive := fun node => node.withoutMarkers) ?_ without found
  intro node step next without found
  rcases child_cases found with ⟨fields, annotations, rfl, held⟩ | ⟨entries, annotations, rfl, held⟩
  · have inner : (markerResolved fields && fieldsWithoutMarkers fields) = true := without
    rw [Bool.and_eq_true] at inner
    exact fieldsWithoutMarkers_iff.mp inner.2 _ (member_of_lookup held)
  · exact entriesWithoutMarkers_iff.mp without _ (listEntry_member held)

/-- No marker comes from the stubs or from the outside. -/
structure Binding.IsUnmarked (binding : Binding) : Prop where
  stubs : ∀ stub ∈ binding.stubs, stub.withoutMarkers
  answers : binding.answers.Provide fun value => value.withoutMarkers

theorem Binding.IsUnmarked.provides {binding : Binding} (unmarked : binding.IsUnmarked) :
    binding.Provides (fun value => value.withoutMarkers) fun _ => True where
  locals := trivial
  lookup _ _ resolved := by
    rw [Node.value_withoutMarkers]
    exact Node.withoutMarkers_of_isResolved resolved
  stubs := by
    intro path node found
    rw [Node.value_withoutMarkers]
    rcases binding.stub_of_findInStubs? found with ⟨stub, member, below⟩
    exact Node.withoutMarkers_of_find (unmarked.stubs stub member) below
  answers := unmarked.answers

theorem Binding.IsUnmarked.of_same {binding below : Binding} (unmarked : binding.IsUnmarked)
    (stubs : below.stubs = binding.stubs) (answers : below.answers = binding.answers) :
    below.IsUnmarked := by
  constructor
  · rw [stubs]
    exact unmarked.stubs
  · rw [answers]
    exact unmarked.answers

theorem Binding.IsUnmarked.inside {binding : Binding} (unmarked : binding.IsUnmarked)
    (annotations : Annotations) : (Pass.inside binding annotations).IsUnmarked :=
  unmarked.of_same (Pass.stubs_inside binding annotations) (Pass.answers_inside binding annotations)

/-- No evaluator brings markers into a document. -/
def Evaluator.KeepsUnmarked (evaluator : Evaluator) : Prop :=
  evaluator.Preserves (fun value => value.withoutMarkers) fun _ => True

theorem listMarker_resolved {entry : Node} (without : entry.value.withoutMarkers) :
    (listMarker? entry).all Node.isLocallyResolved := by
  cases held : listMarker? entry with
  | none => rfl
  | some marker =>
      rcases markerField held with ⟨annotations, rfl⟩
      have inner : (markerResolved [(markerKey, marker)] &&
        fieldsWithoutMarkers [(markerKey, marker)]) = true := without
      rw [Bool.and_eq_true] at inner
      have here := inner.1
      unfold markerResolved at here
      simpa using here

/-! ## Passes -/

variable {evaluator : Evaluator} {binding : Binding} {mode : Override}

theorem Marker.Brings.withoutMarkers (keeps : evaluator.KeepsUnmarked)
    (place : binding.IsUnmarked) {marker : Node} {value : Value} {report : Report}
    (brings : Marker.Brings evaluator binding marker value report) : value.withoutMarkers := by
  rcases brings with ⟨expression, base, _, evaluated, rfl⟩
  exact keeps _ _ _ _ place.provides evaluated

theorem Marker.Stays.unresolved {path : List String} {marker kept : Node}
    (stays : Marker.Stays path marker kept) : marker.isLocallyResolved = false := by
  cases stays with
  | noted issue unresolved => exact unresolved
  | evaluated issue holds => exact Node.not_resolved_of_expression holds

namespace Pass

/-- A kept marker is the only field only where it was before. -/
theorem visitFields_length {kept : Node} {fields fields' : List (String × Node)}
    (ends : visitFields evaluator binding mode (.kept kept) fields = .ok fields') :
    fields'.length = fields.length := by
  induction fields generalizing fields' with
  | nil =>
      cases ends
      rfl
  | cons entry fields induction =>
      rcases entry with ⟨key, field⟩
      rcases visitFields_cons_ends ends with ⟨rest, others, left⟩
      cases left with
      | visited => rw [List.length_cons, List.length_cons, induction others]
      | kept => rw [List.length_cons, List.length_cons, induction others]

theorem listMarker_of_value {node other : Node} (same : node.value = other.value) :
    listMarker? node = listMarker? other := by
  unfold listMarker?
  rw [same]

theorem listMarker_of_kind {node : Node} (noMap : node.kind ≠ .map) : listMarker? node = none := by
  cases held : listMarker? node with
  | none => rfl
  | some marker =>
      rcases markerField held with ⟨annotations, rfl⟩
      exact absurd rfl noMap

theorem leaf_listMarker (keeps : evaluator.KeepsUnmarked) (place : binding.IsUnmarked)
    {node node' : Node} (noMap : node.kind ≠ .map)
    (ends : leaf evaluator binding mode node = .ok node') :
    (listMarker? node').all Node.isLocallyResolved := by
  rcases leaf_values ends with ⟨current, origin, result⟩
  have current : (listMarker? current).all Node.isLocallyResolved := by
    rcases origin with rfl | ⟨found, path, held, same⟩
    · rw [listMarker_of_kind noMap]
      rfl
    · rw [listMarker_of_value same]
      exact listMarker_resolved (place.provides.stubs held)
  rcases result with same | ⟨expression, _, same | ⟨value, report, evaluated, same⟩⟩
  · rwa [listMarker_of_value same]
  · apply listMarker_resolved
    rw [same]
    rfl
  · rw [listMarker_of_value same]
    exact listMarker_resolved (keeps _ _ _ _ place.provides evaluated)

/-- A marker that is no expression becomes none, unless a stub has one in its place. -/
theorem visitFields_ordinary {fields fields' : List (String × Node)}
    (quiet : mode ≠ .all ∨ ∀ stub ∈ binding.stubs, stub.isResolved)
    (resolved : markerResolved fields)
    (ends : visitFields evaluator binding mode .ordinary fields = .ok fields') :
    markerResolved fields' := by
  rcases quiet with quiet | stubs
  · exact visitFields_markerResolved quiet resolved ends
  · exact visitFields_marker_resolved
      (fun whole visited => visit_isLocallyResolved_of_stubs visited whole stubs) resolved ends

/-- A visited map is a marker only where it was one before, and then it is no expression. -/
theorem visit_map_listMarker (keeps : evaluator.KeepsUnmarked) (place : binding.IsUnmarked)
    (quiet : mode ≠ .all ∨ ∀ stub ∈ binding.stubs, stub.isResolved)
    {fields : List (String × Node)} {annotations : Annotations} {entry' : Node}
    (resolved : (listMarker? (.mk (.map fields) annotations)).all Node.isLocallyResolved)
    (ends : visit evaluator binding mode (.mk (.map fields) annotations) = .ok entry') :
    (listMarker? entry').all Node.isLocallyResolved := by
  have inner : ((inside binding annotations).withScope fields).IsUnmarked :=
    (place.inside annotations).of_same rfl rfl
  rcases visit_map_cases ends with ⟨plan, follows, ⟨base, redirect, rfl, same⟩ |
    ⟨marker, redirect, base, path, fields', rfl, visited, same⟩⟩
  · apply listMarker_resolved
    rw [same]
    cases follows with
    | replaced held brings => exact brings.withoutMarkers keeps inner
  · cases held' : listMarker? entry' with
    | none => rfl
    | some marker' =>
        rcases markerField held' with ⟨annotations', rfl⟩
        have fieldsSame := Value.map.inj same
        have there : fields'.lookup markerKey = some marker' := by
          rw [← MapPlan.addBase_marker fields' base, ← fieldsSame]
          simp
        cases follows with
        | ordinary whole =>
            have stubs : (((inside binding annotations).withScope fields).withStubPath path).stubs =
              binding.stubs := stubs_inside binding annotations
            have whole := visitFields_ordinary
              (quiet.imp (Override.entries_ne_all · annotations.replace) fun all => by rwa [stubs])
              whole visited
            unfold markerResolved at whole
            rwa [there] at whole
        | dropped held unresolved | merged held brings =>
            rw [visitFields_marker visited FieldMarker.noConfusion, held] at there
            cases there
        -- A kept marker is the only field only where it was before.
        | kept held stays =>
            have size := visitFields_length visited
            rw [MapPlan.addBase] at fieldsSame
            rw [← fieldsSame] at size
            rcases List.length_eq_one_iff.mp size.symm with ⟨⟨key, only⟩, rfl⟩
            rw [List.lookup_cons] at held
            split at held
            · rename_i isMarker
              cases held
              cases beq_iff_eq.mp isMarker
              have unresolved := stays.unresolved
              simp [listMarker?, unresolved] at resolved
            · cases held

/-- Without markers in the stubs, no entry of a list becomes one. -/
theorem visit_listMarker (keeps : evaluator.KeepsUnmarked) (place : binding.IsUnmarked)
    (quiet : mode ≠ .all ∨ ∀ stub ∈ binding.stubs, stub.isResolved) {entry entry' : Node}
    (resolved : (listMarker? entry).all Node.isLocallyResolved)
    (ends : visit evaluator binding mode entry = .ok entry') :
    (listMarker? entry').all Node.isLocallyResolved := by
  by_cases isMap : entry.kind = .map
  · rcases Node.eq_map isMap with ⟨fields, annotations, rfl⟩
    exact visit_map_listMarker keeps place quiet resolved ends
  · by_cases isList : entry.kind = .list
    · have kind := visit_kind (.inr isList) ends
      rw [listMarker_of_kind (by rwa [kind])]
      rfl
    · rw [visit_leaf isMap isList] at ends
      have inner : (binding.withSource entry.source).IsUnmarked := place.of_same rfl rfl
      exact leaf_listMarker keeps inner isMap ends

theorem visitEntries_markersResolved (keeps : evaluator.KeepsUnmarked) (place : binding.IsUnmarked)
    (quiet : mode ≠ .all) {entries entries' : List Node} {index : Nat}
    (resolved : markersResolved entries)
    (ends : visitEntries evaluator binding mode false index (entries.map fun _ => .visit) entries =
      .ok entries') : markersResolved entries' := by
  unfold markersResolved at resolved ⊢
  rw [List.all_eq_true] at resolved ⊢
  intro entry' member
  rcases visitEntries_came ends member with ⟨position, entry, held, visited⟩
  have below : (binding.withPath (stepName (index + position) entry)).IsUnmarked :=
    place.of_same rfl rfl
  exact visit_listMarker keeps below (.inl quiet) (resolved entry held) visited

/-- A visit of the node in the place or below it, with the same stubs and answers. -/
def VisitedIn (evaluator : Evaluator) (binding : Binding) (node node' : Node) : Prop :=
  ∃ below mode, mode ≠ .all ∧ below.stubs = binding.stubs ∧ below.answers = binding.answers ∧
    visit evaluator below mode node = .ok node'

namespace VisitedIn

variable {node node' child leaf : Node} {step : Step} {route : List Step}

theorem of_visit (quiet : mode ≠ .all) (ends : visit evaluator binding mode node = .ok node') :
    VisitedIn evaluator binding node node' :=
  ⟨binding, mode, quiet, rfl, rfl, ends⟩

/-- Where no merge is pending, a child is visited too. -/
theorem below (visited : VisitedIn evaluator binding node node') (unmarked : node.isUnmarked)
    (found : node.below? step = some child) :
    ∃ child', node'.below? step = some child' ∧ VisitedIn evaluator binding child child' := by
  rcases visited with ⟨around, mode, quiet, stubs, answers, ends⟩
  rcases Node.descend_of_below? found (inside around node.annotations) with ⟨place, first⟩
  rcases visit_inner (Node.mergesNothing_of_isUnmarked unmarked) first ends with
    ⟨_, child', found', visited⟩
  rcases Node.stubs_of_descend first with ⟨stubs', answers'⟩
  refine ⟨child', found', place, _, Override.entries_ne_all quiet _, ?_, ?_, visited⟩
  · rw [stubs', stubs_inside, stubs]
  · rw [answers', answers_inside, answers]

/-- A map gets no marker, and without markers in the stubs a list does not get one either. -/
theorem isUnmarked (visited : VisitedIn evaluator binding node node')
    (collection : node.kind = .map ∨ node.kind = .list) (unmarked : node.isUnmarked) :
    (node'.kind = .map → node'.isUnmarked) ∧
      (evaluator.KeepsUnmarked → binding.IsUnmarked → node'.isUnmarked) := by
  rcases visited with ⟨around, mode, quiet, stubs, answers, ends⟩
  rcases node with ⟨value, annotations⟩
  cases value with
  | map fields =>
      have absent : fields.lookup markerKey = none := Option.isNone_iff_eq_none.mp unmarked
      rcases visit_map_ends (markerResolved_of_absent absent) ends with ⟨fields', rfl, visited⟩
      have unmarked' : (Node.mk (.map fields') annotations).isUnmarked :=
        Option.isNone_iff_eq_none.mpr (visitFields_fresh visited absent)
      exact ⟨fun _ => unmarked', fun _ _ => unmarked'⟩
  | list entries =>
      rcases visit_list_ends unmarked ends with ⟨entries', rfl, visited⟩
      exact ⟨nofun, fun keeps place => visitEntries_markersResolved keeps
        ((place.of_same stubs answers).inside annotations)
        (Override.entries_ne_all quiet annotations.replace) unmarked visited⟩
  | _ => rcases collection with kind | kind <;> cases kind

/-- Where no merge is pending on the way, the collections on it are visited, and so is the node
at its end. -/
theorem along (visited : VisitedIn evaluator binding node node')
    (unmarked : ∀ above ∈ node.above route, above.isUnmarked)
    (reached : node.at? route = some leaf) :
    (∀ above' ∈ node'.above route, ∃ above ∈ node.above route,
        (above.kind = .map ∨ above.kind = .list) ∧ VisitedIn evaluator binding above above') ∧
      ∃ leaf', node'.at? route = some leaf' ∧ VisitedIn evaluator binding leaf leaf' := by
  induction route generalizing node node' with
  | nil =>
      cases reached
      exact ⟨nofun, node', rfl, visited⟩
  | cons step route induction =>
      rcases Node.at?_cons reached with ⟨child, found, rest⟩
      rw [Node.above_cons found, List.forall_mem_cons] at unmarked
      rcases visited.below unmarked.1 found with ⟨child', found', inner⟩
      rcases induction inner unmarked.2 rest with ⟨others, leaf', rest', ends⟩
      rw [Node.above_cons found, Node.above_cons found', Node.at?_of_below? found',
        List.forall_mem_cons]
      refine ⟨⟨⟨node, List.mem_cons_self, Node.kind_of_below? found, visited⟩, ?_⟩, leaf', rest',
        ends⟩
      intro above' member
      rcases others above' member with ⟨above, there, both⟩
      exact ⟨above, List.mem_cons_of_mem _ there, both⟩

/-- What is around a node after a visit without merges on the way. -/
theorem surroundings (visited : VisitedIn evaluator binding node node')
    (unmarked : ∀ above ∈ node.above route, above.isUnmarked)
    (reached : node.at? route = some leaf) :
    (∀ above ∈ node'.above route, above.kind = .map → above.isUnmarked) ∧
      (evaluator.KeepsUnmarked → binding.IsUnmarked →
        ∀ above ∈ node'.above route, above.isUnmarked) := by
  have each : ∀ above' ∈ node'.above route, (above'.kind = .map → above'.isUnmarked) ∧
      (evaluator.KeepsUnmarked → binding.IsUnmarked → above'.isUnmarked) := by
    intro above' member
    rcases (visited.along unmarked reached).1 above' member with ⟨above, there, kind, visited⟩
    exact visited.isUnmarked kind (unmarked above there)
  exact ⟨fun above' member => (each above' member).1,
    fun keeps place above' member => (each above' member).2 keeps place⟩

end VisitedIn

/-- A pass keeps a resolved node around which no merge is pending. The maps around it get no
marker, and without markers in the stubs the lists do not get one either. -/
theorem visit_above {node node' leaf : Node} {route : List Step} (quiet : mode ≠ .all)
    (unmarked : ∀ above ∈ node.above route, above.isUnmarked)
    (reached : node.at? route = some leaf) (resolved : leaf.isResolved)
    (ends : visit evaluator binding mode node = .ok node') :
    node'.at? route = some leaf ∧
      (∀ above ∈ node'.above route, above.kind = .map → above.isUnmarked) ∧
      (evaluator.KeepsUnmarked → binding.IsUnmarked →
        ∀ above ∈ node'.above route, above.isUnmarked) := by
  have visited := VisitedIn.of_visit quiet ends
  rcases (visited.along unmarked reached).2 with ⟨leaf', reached', _, _, quiet, _, _, ends⟩
  rw [visit_of_isResolved leaf quiet resolved] at ends
  cases ends
  exact ⟨reached', visited.surroundings unmarked reached⟩

end Pass

/-! ## Runs -/

namespace Resolution

variable {answers : Answers} {stubs : List Node} {template : Node}

/-- The collections above a position are unmarked when their maps and lists are. -/
theorem unmarked_of_kinds {nodes : List Node}
    (maps : ∀ node ∈ nodes, node.kind = .map → node.isUnmarked)
    (lists : ∀ node ∈ nodes, node.kind = .list → node.isUnmarked) :
    ∀ node ∈ nodes, node.isUnmarked := by
  rintro ⟨value, annotations⟩ member
  cases value with
  | map fields => exact maps _ member rfl
  | list entries => exact lists _ member rfl
  | _ => rfl

/-- As long as the lists around it are unmarked, a resolved node stays. -/
theorem treeAfter_above {early : Nat} {before leaf : Node} {route : List Step}
    (first : treeAfter answers stubs early template = .ok before)
    (reached : before.at? route = some leaf) (resolved : leaf.isResolved)
    (maps : ∀ node ∈ before.above route, node.kind = .map → node.isUnmarked) {passes : Nat}
    {after : Node} (last : treeAfter answers stubs (early + passes) template = .ok after)
    (lists : ∀ middle document, early ≤ middle → middle < early + passes →
      treeAfter answers stubs middle template = .ok document →
        ∀ node ∈ document.above route, node.kind = .list → node.isUnmarked) :
    after.at? route = some leaf ∧
      ∀ node ∈ after.above route, node.kind = .map → node.isUnmarked := by
  induction passes generalizing after with
  | zero =>
      rw [Nat.add_zero, first] at last
      cases last
      exact ⟨reached, maps⟩
  | succ passes induction =>
      rcases treeAfter_pred last with ⟨document, earlier, pass⟩
      rcases induction earlier fun middle document late soon =>
        lists middle document late (Nat.lt_succ_of_lt soon) with ⟨reached, maps⟩
      have here := lists (early + passes) document (Nat.le_add_right _ _) (Nat.lt_succ_self _) earlier
      rcases Pass.visit_above Override.expressions_ne_all (unmarked_of_kinds maps here) reached
        resolved pass with ⟨kept, maps, _⟩
      exact ⟨kept, maps⟩

/-- Without markers in the stubs and in what comes from the outside, a resolved node around
which no merge is pending stays for good. -/
theorem treeAfter_above_of_unmarked {early : Nat} {before leaf : Node} {route : List Step}
    (stubsUnmarked : ∀ stub ∈ stubs, stub.withoutMarkers)
    (outside : answers.Provide fun value => value.withoutMarkers)
    (first : treeAfter answers stubs early template = .ok before)
    (reached : before.at? route = some leaf) (resolved : leaf.isResolved)
    (unmarked : ∀ node ∈ before.above route, node.isUnmarked) {passes : Nat}
    {after : Node} (last : treeAfter answers stubs (early + passes) template = .ok after) :
    after.at? route = some leaf ∧ ∀ node ∈ after.above route, node.isUnmarked := by
  induction passes generalizing after with
  | zero =>
      rw [Nat.add_zero, first] at last
      cases last
      exact ⟨reached, unmarked⟩
  | succ passes induction =>
      rcases treeAfter_pred last with ⟨document, earlier, pass⟩
      rcases induction earlier with ⟨reached, unmarked⟩
      rcases Pass.visit_above Override.expressions_ne_all unmarked reached resolved pass with
        ⟨kept, _, whole⟩
      have place : (root answers stubs).IsUnmarked := ⟨stubsUnmarked, outside⟩
      exact ⟨kept, whole (Expression.evaluate_preserves Value.withoutMarkers_inherited _) place⟩

/-- A resolved document that equals itself is settled. -/
theorem partly_of_isResolved {document : Node} {limit : Nat} (resolved : document.isResolved)
    (complete : document.unresolved = []) (same : document.same document) (positive : 0 < limit) :
    partly answers limit stubs document = .ok (.ok ⟨document, [], 1⟩) := by
  rcases Nat.exists_eq_succ_of_ne_zero (Nat.ne_of_gt positive) with ⟨left, rfl⟩
  have pass : Pass.run answers stubs document = .ok document :=
    Pass.visit_of_isResolved document Override.expressions_ne_all resolved
  have equal : (document == document) = true := same
  unfold partly settle
  simp only [pass, bind, Except.bind, equal, if_true, complete]
  rfl

/-- What is resolved stays, and a complete result is a fixed point for any stubs. -/
theorem resolved_persists (answers : Answers) (stubs : List Node) (template : Node) :
    (∀ early before route leaf, treeAfter answers stubs early template = .ok before →
      before.at? route = some leaf → leaf.isResolved →
      (∀ node ∈ before.above route, node.isUnmarked) →
      ∀ passes after, treeAfter answers stubs (early + passes) template = .ok after →
        ((∀ middle document, early ≤ middle → middle < early + passes →
            treeAfter answers stubs middle template = .ok document →
              ∀ node ∈ document.above route, node.kind = .list → node.isUnmarked) →
          after.at? route = some leaf ∧
            ∀ node ∈ after.above route, node.kind = .map → node.isUnmarked) ∧
        ((∀ stub ∈ stubs, stub.withoutMarkers) →
          (answers.Provide fun value => value.withoutMarkers) →
          after.at? route = some leaf ∧ ∀ node ∈ after.above route, node.isUnmarked)) ∧
    (template.keysDistinct → (∀ stub ∈ stubs, stub.keysDistinct) →
      ∀ resolution, whole answers stubs template = .ok (.ok resolution) →
        ∀ answers' stubs' limit, 0 < limit →
          partly answers' limit stubs' resolution.document =
            .ok (.ok ⟨resolution.document, [], 1⟩)) := by
  constructor
  · intro early before route leaf first reached resolved unmarked passes after last
    refine ⟨?_, ?_⟩
    · exact treeAfter_above first reached resolved (fun node member _ => unmarked node member) last
    · intro stubsUnmarked outside
      exact treeAfter_above_of_unmarked stubsUnmarked outside first reached resolved unmarked last
  · intro distinct stubsDistinct resolution result answers' stubs' limit positive
    rcases settled_of_whole result with ⟨⟨last, settled⟩, complete⟩
    have complete : resolution.document.unresolved = [] := settled.unresolved ▸ complete
    refine partly_of_isResolved (Node.isResolved_of_unresolved complete) complete ?_ positive
    exact Node.same_self_of_same (treeAfter_keysDistinct distinct stubsDistinct settled.final)
      settled.same

/-- The entry behind an expression that a stub replaces. -/
theorem resolved_persists_entry :
    let document (entry : Value) : Node :=
      .mk (.map [("list", .mk (.list [.mk entry {}, .mk (.integer 1) { preferred := true }]) {}),
        ("x", .mk (.integer 2) {})]) {}
    let template := document (.expression (.reference ["x"]))
    let stub (entry : Value) : Node := .mk (.map [("list", .mk (.list [.mk entry {}]) {})]) {}
    whole .none [stub .null] template = .ok (.ok ⟨document .null, [], 2⟩) ∧
      (document .null).at? [.field "list", .entry 1] =
        some (.mk (.integer 1) { preferred := true }) ∧
      partly .none 1 [stub (.integer 3)] (document .null) = .ok (.ok ⟨document .null, [], 1⟩) := by
  intro document template stub
  have result : whole .none [stub .null] template = .ok (.ok ⟨document .null, [], 2⟩) := rfl
  have outside : Answers.none.Provide fun value => value.withoutMarkers :=
    ⟨(fun known => nomatch known), (fun known => nomatch known), fun known => nomatch known⟩
  have persists := resolved_persists .none [stub .null] template
  have kept := (persists.1 0 template [.field "list", .entry 1] _ rfl rfl rfl (by decide) 2
    (document .null) rfl).2 (by decide) outside
  exact ⟨result, kept.1,
    persists.2 rfl (by decide) _ result .none [stub (.integer 3)] 1 Nat.one_pos⟩

/-! A stub may bring a marker to a list in the place of an entry that is an expression. What
the list holds already is then overridden in the next pass. -/

theorem resolved_overridden :
    ¬ ∀ (answers : Answers) (stubs : List Node) (template : Node) (early : Nat) (before : Node)
        (route : List Step) (leaf : Node), treeAfter answers stubs early template = .ok before →
      before.at? route = some leaf → leaf.isResolved →
      (∀ node ∈ before.above route, node.isUnmarked) →
      ∀ passes after, treeAfter answers stubs (early + passes) template = .ok after →
        after.at? route = some leaf := by
  intro claim
  let field (key : String) (value : Value) : String × Node := (key, .mk value {})
  let named (value : Value) : Node :=
    .mk (.map [field "name" (.text "a"), field "v" value]) {}
  let template : Node :=
    .mk (.map [field "list" (.list [.mk (.text "(( merge ))") {}, named (.integer 1)])]) {}
  let stub : Node :=
    .mk (.map [field "list" (.list [.mk (.map [field markerKey (.text "(( merge ))")]) {},
      named (.integer 2)])]) {}
  let route : List Step := [.field "list", .entry 1, .field "v"]
  have changed : ((treeAfter .none [stub] 2 template).toOption.bind fun document =>
      document.at? route).any (fun leaf => leaf.same (.mk (.integer 1) {})) = false := by
    decide +kernel
  have ends : (treeAfter .none [stub] 2 template).isOk := by decide +kernel
  cases last : treeAfter .none [stub] 2 template with
  | error pause =>
      rw [last] at ends
      cases ends
  | ok after =>
      have kept := claim .none [stub] template 0 template route (.mk (.integer 1) {}) rfl rfl rfl
        (by decide +kernel) 2 after last
      rw [last, Except.toOption, Option.bind_some, kept] at changed
      cases changed

end Resolution

end Stencil
