import Stencil.Proofs.Evaluation.Values
import Stencil.Proofs.Resolution.Decided
import Stencil.Proofs.Resolution.PlainMerge
import Stencil.Proofs.Resolution.Plan
import Stencil.Proofs.Resolution.Run
import Stencil.Proofs.Resolution.Site

namespace Stencil

/-! References from inside maps that merge. A map with a plain `merge` as its marker gets
the fields that the stubs have for it in the first pass, and is quiet from then on. What
a reference finds can therefore change in the first pass, and in no other one unless its
lookup was not decided. -/

/-- What the stubs have at a place is no map, so that a merge there stays pending. -/
def Idle (stubs : List Node) (place : List String) : Prop :=
  ∃ found, ({ stubs } : Binding).findInStubs? place = some found ∧ found.kind ≠ .map

theorem not_idle_of_missing {binding : Binding} {place : List String}
    (absent : binding.findInStubs? place = none) : ¬ Idle binding.stubs place := by
  rintro ⟨other, held, _⟩
  cases absent.symm.trans held

theorem idle_iff {binding : Binding} {place : List String} {found : Node}
    (held : binding.findInStubs? place = some found) :
    Idle binding.stubs place ↔ found.kind ≠ .map := by
  refine ⟨?_, fun noMap => ⟨found, held, noMap⟩⟩
  rintro ⟨other, held', noMap⟩
  cases held.symm.trans held'
  exact noMap

/-- The marker of a map holds no expression, or it is a plain `merge` that may be pending. -/
def MarkerMerges (pending : List String → Prop) (place : List String)
    (fields : List (String × Node)) : Prop :=
  ∀ marker, fields.lookup markerKey = some marker →
    marker.isLocallyResolved ∨
      pending place ∧ ∃ path, marker.expression? place = some (.ok (.merge path false false))

/-- The keys lead through maps that at most merge. -/
def Node.MergesAlong (pending : List String → Prop) : List String → Node → List String → Prop
  | _, _, [] => True
  | place, node, key :: keys =>
      ∃ fields annotations field, node = .mk (.map fields) annotations ∧
        annotations.redirect = none ∧ key ≠ markerKey ∧ fields.lookup key = some field ∧
        MarkerMerges pending place fields ∧ field.MergesAlong pending (place ++ [key]) keys

/-- None of the maps on the way was replaced as a whole. -/
def Node.isOwnAlong : Node → List String → Bool
  | _, [] => true
  | node, key :: keys =>
      !node.annotations.replace && (node.get? key).all fun field => field.isOwnAlong keys

/-! ## Merging into a map -/

/-- The plan for a map that at most merges. A marker that is dropped was pending and found
something to merge or nothing at all, one that is kept found what is no map. -/
inductive MergePlan (pending : List String → Prop) (stubs : List Node) (place : List String)
    (fields : List (String × Node)) : FieldMarker → Option (List (String × Node)) → Prop where
  | ordinary (resolved : markerResolved fields) :
      MergePlan pending stubs place fields .ordinary none
  | dropped (isPending : pending place) (active : ¬ Idle stubs place)
      (base : Option (List (String × Node))) : MergePlan pending stubs place fields .dropped base
  | kept {held marker : Node} (idle : Idle stubs place)
      (found : fields.lookup markerKey = some held) (unresolved : held.isLocallyResolved = false)
      {path : List String}
      (holds : marker.expression? place = some (.ok (.merge path false false))) :
      MergePlan pending stubs place fields (.kept marker) none

theorem MapPlan.ofFields_merging {depth : Nat} {pending : List String → Prop} {binding : Binding}
    {fields : List (String × Node)} (merges : MarkerMerges pending binding.path fields)
    (same : binding.stubPath = binding.path) :
    ∃ marker base, ofFields (Expression.evaluate (depth + 1)) binding fields =
        .ok (.fields marker none base) ∧
      MergePlan pending binding.stubs binding.path fields marker base := by
  cases resolved : markerResolved fields with
  | true => exact ⟨.ordinary, none, ofFields_of_resolved resolved, .ordinary resolved⟩
  | false =>
      rcases marker_of_unresolved resolved with ⟨marker, held, unresolved⟩
      rcases merges marker held with whole | ⟨isPending, path, holds⟩
      · rw [whole] at unresolved
        cases unresolved
      · rw [ofFields_stub held holds, same]
        cases found : binding.findInStubs? binding.path with
        | none =>
            exact ⟨.dropped, none, rfl, .dropped isPending (not_idle_of_missing found) none⟩
        | some stub =>
            by_cases isMap : stub.kind = .map
            · have active : ¬ Idle binding.stubs binding.path :=
                fun idle => (idle_iff found).mp idle isMap
              rcases Node.eq_map isMap with ⟨base, annotations, rfl⟩
              exact ⟨.dropped, some base, rfl, .dropped isPending active (some base)⟩
            · rw [ofStub_other isMap]
              exact ⟨_, none, rfl, .kept ((idle_iff found).mpr isMap) held unresolved holds⟩

namespace Pass

variable {evaluator : Evaluator} {binding : Binding} {mode : Override}

/-- What a pass does with a map that at most merges: the marker and the base of its plan,
and the fields that it visits. -/
theorem visit_merging {depth : Nat} {pending : List String → Prop}
    {fields : List (String × Node)} {annotations : Annotations} {node' : Node}
    (merges : MarkerMerges pending binding.path fields) (direct : annotations.redirect = none)
    (same : binding.stubPath = binding.path)
    (ends : visit (Expression.evaluate (depth + 1)) binding mode (.mk (.map fields) annotations) =
      .ok node') :
    ∃ marker base fields', node' = .mk (.map (MapPlan.addBase fields' base)) annotations ∧
      visitFields (Expression.evaluate (depth + 1))
          ((binding.withSource annotations.source).withScope fields)
          (mode.entries annotations.replace base.isSome) marker fields = .ok fields' ∧
      MergePlan pending binding.stubs binding.path fields marker base := by
  have merges : MarkerMerges pending
      ((binding.withSource annotations.source).withScope fields).path fields := merges
  obtain ⟨marker, base, planned, plan⟩ :
      ∃ marker base, MapPlan.ofFields (Expression.evaluate (depth + 1))
          ((binding.withSource annotations.source).withScope fields) fields =
          .ok (.fields marker none base) ∧
        MergePlan pending binding.stubs binding.path fields marker base :=
    MapPlan.ofFields_merging merges same
  rw [visit, direct] at ends
  rcases ok_of_bind ends with ⟨_, planned', ends⟩
  rw [followRedirect, planned] at planned'
  cases planned'
  rcases ok_of_bind ends with ⟨fields', visited, ends⟩
  cases ends
  exact ⟨marker, base, fields', rfl, visited, plan⟩

end Pass

namespace MergePlan

open Pass

variable {evaluator : Evaluator} {binding : Binding} {mode : Override}
  {pending : List String → Prop} {place : List String} {marker : FieldMarker}
  {base : Option (List (String × Node))} {fields fields' : List (String × Node)}
  {stubs : List Node}

/-- After a pass the merges that are still pending are idle. -/
theorem after (ends : visitFields evaluator binding mode marker fields = .ok fields')
    (plan : MergePlan pending binding.stubs place fields marker base)
    (stubs : ∀ stub ∈ binding.stubs, stub.isResolved) :
    MarkerMerges (Idle binding.stubs) place (MapPlan.addBase fields' base) := by
  intro marker' found
  rw [MapPlan.addBase_marker] at found
  cases plan with
  | ordinary resolved =>
      rcases visitFields_lookup (.inl rfl) ends with
        ⟨_, absent⟩ | ⟨marker, marker'', held, found', visited⟩
      · rw [found] at absent
        cases absent
      · rw [found] at found'
        cases found'
        unfold markerResolved at resolved
        rw [held, Option.all_some] at resolved
        exact .inl (visit_isLocallyResolved_of_stubs visited resolved stubs)
  | dropped isPending active =>
      have absent : fields'.lookup markerKey = none :=
        (visitFields_marker ends FieldMarker.noConfusion).trans (Option.bind_fun_none _)
      rw [absent] at found
      cases found
  | @kept held kept idle there unresolved path holds =>
      have same : fields'.lookup markerKey = some kept := by
        rw [visitFields_marker ends FieldMarker.noConfusion, there]
        rfl
      rw [same] at found
      cases found
      exact .inr ⟨idle, path, holds⟩

theorem base_of_idle (plan : MergePlan pending stubs place fields marker base)
    (idle : ∀ place, pending place → Idle stubs place) : base = none := by
  cases plan with
  | ordinary resolved => rfl
  | dropped isPending active => exact absurd (idle place isPending) active
  | kept => rfl

/-- Where merges are idle, every field is visited and none is added. -/
theorem visited {replaced : Bool}
    (ends : visitFields evaluator binding (mode.entries replaced base.isSome) marker fields =
      .ok fields')
    (plan : MergePlan pending binding.stubs place fields marker base)
    (idle : ∀ place, pending place → Idle binding.stubs place) (quiet : mode ≠ .all) :
    mode.entries replaced base.isSome ≠ .all ∧
      FieldsVisited evaluator fields (MapPlan.addBase fields' base) := by
  have visited : ∀ {key : String}, base = none → marker = .ordinary ∨ key ≠ markerKey →
      Option.Rel (Node.VisitedBy evaluator) (fields.lookup key) (fields'.lookup key) := by
    rintro key rfl ordinary
    have quiet := Override.entries_ne_all quiet replaced
    rcases visitFields_lookup ordinary ends with
      ⟨absent, absent'⟩ | ⟨field, field', held, found, visited⟩
    · rw [absent, absent']
      exact .none
    · rw [held, found]
      exact .some fun _ => ⟨_, _, quiet, visited⟩
  cases plan with
  | ordinary resolved =>
      exact ⟨Override.entries_ne_all quiet replaced, fun key => visited rfl (.inl rfl)⟩
  | dropped isPending active => exact absurd (idle place isPending) active
  | @kept held kept _ there unresolved =>
      refine ⟨Override.entries_ne_all quiet replaced, fun key => ?_⟩
      by_cases isMarker : key = markerKey
      · subst isMarker
        have same : fields'.lookup markerKey = some kept := by
          rw [visitFields_marker ends FieldMarker.noConfusion, there]
          rfl
        rw [there, MapPlan.addBase, same]
        refine .some fun resolved => ?_
        rw [unresolved] at resolved
        cases resolved
      · exact visited rfl (.inr isMarker)

end MergePlan

namespace Pass

variable {binding : Binding} {mode : Override}

/-- A pass along a route of maps that at most merge. The node at the end is visited in place.
Where all merges are idle, all that a lookup from there can start from is visited as well. -/
theorem visit_along {depth : Nat} {pending : List String → Prop} {keys : List String}
    {site : Binding} {node node' leaf : Node}
    (reached : node.reach binding (keys.map .field) = some (site, leaf))
    (ends : visit (Expression.evaluate (depth + 1)) binding mode node = .ok node')
    (merges : node.MergesAlong pending binding.path keys) (same : binding.stubPath = binding.path)
    (stubs : ∀ stub ∈ binding.stubs, stub.isResolved) :
    node'.MergesAlong (Idle binding.stubs) binding.path keys ∧
      (node.isOwnAlong keys → node'.isOwnAlong keys) ∧
      ∃ mode' leaf', visit (Expression.evaluate (depth + 1)) site mode' leaf = .ok leaf' ∧
        ((∀ place, pending place → Idle binding.stubs place) → node.isOwnAlong keys →
          mode' = mode) ∧
        ∀ later, ∃ site', node'.reach later (keys.map .field) = some (site', leaf') ∧
          ((∀ place, pending place → Idle binding.stubs place) → mode ≠ .all →
            mode' ≠ .all ∧ (binding.VisitedBy (Expression.evaluate (depth + 1)) later →
              site.VisitedBy (Expression.evaluate (depth + 1)) site')) := by
  induction keys generalizing node node' binding mode with
  | nil =>
      cases reached
      exact ⟨trivial, fun _ => rfl, mode, node', ends, fun _ _ => rfl,
        fun later => ⟨later, rfl, fun _ quiet => ⟨quiet, id⟩⟩⟩
  | cons key keys induction =>
      rcases merges with ⟨fields, annotations, field, rfl, direct, noMarker, held, markers, below⟩
      rcases Node.reach_cons reached with ⟨place, child, first, rest⟩
      rw [Node.descend, Node.value_mk] at first
      simp only [held, Option.map_some, Option.some.injEq, Prod.mk.injEq] at first
      rcases first with ⟨rfl, rfl⟩
      rcases visit_merging markers direct same ends with ⟨marker, base, fields', rfl, visited, plan⟩
      rcases visitFields_found (.inr noMarker) visited held with ⟨field', found, here⟩
      have here : visit (Expression.evaluate (depth + 1))
          ((binding.withScope fields).withPath key)
          (mode.entries annotations.replace base.isSome) field = .ok field' :=
        (visit_withSource annotations.source field).symm.trans here
      rcases induction rest here below (congrArg (· ++ [key]) same) stubs with
        ⟨merges, own, mode', leaf', ends, same, reaches⟩
      have found := MapPlan.addBase_lookup found base
      have markers := MergePlan.after visited plan stubs
      refine ⟨⟨_, annotations, field', rfl, direct, noMarker, found, markers, merges⟩, ?_, mode',
        leaf', ends, ?_, fun later => ?_⟩
      · intro whole
        rw [Node.isOwnAlong, Node.get?, Node.value_mk, Bool.and_eq_true] at whole ⊢
        simp only [held, found, Option.all_some] at whole ⊢
        exact ⟨whole.1, own whole.2⟩
      · intro idle whole
        rw [Node.isOwnAlong, Node.get?, Node.value_mk, Bool.and_eq_true] at whole
        simp only [held, Option.all_some] at whole
        have kept : annotations.replace = false := by simpa using whole.1
        rw [same idle whole.2, plan.base_of_idle idle, kept]
        exact Override.entries_same mode
      rcases reaches ((later.withScope (MapPlan.addBase fields' base)).withPath key) with
        ⟨site', reached', idly⟩
      refine ⟨site', ?_, fun idle quiet => ?_⟩
      · rw [List.map_cons, Node.reach, Node.descend, Node.value_mk]
        simp only [found, Option.map_some, Option.bind_some]
        exact reached'
      · rcases MergePlan.visited visited plan idle quiet with ⟨quiet, here⟩
        rcases idly idle quiet with ⟨quiet, outer⟩
        exact ⟨quiet, fun around => outer ⟨around.locals, .cons here around.scopes⟩⟩

end Pass

namespace Node.MergesAlong

variable {pending pending' : List String → Prop} {place keys : List String} {node : Node}

theorem mono (weaker : ∀ place, pending place → pending' place)
    (merges : node.MergesAlong pending place keys) : node.MergesAlong pending' place keys := by
  induction keys generalizing node place with
  | nil => trivial
  | cons key keys induction =>
      rcases merges with ⟨fields, annotations, field, same, direct, noMarker, held, markers, below⟩
      refine ⟨fields, annotations, field, same, direct, noMarker, held, ?_, induction below⟩
      intro marker found
      exact (markers marker found).imp id (And.imp_left (weaker place))

/-- Such a route leads somewhere. -/
theorem reach (merges : node.MergesAlong pending place keys) (binding : Binding) :
    ∃ site leaf, node.reach binding (keys.map .field) = some (site, leaf) := by
  induction keys generalizing node place binding with
  | nil => exact ⟨binding, node, rfl⟩
  | cons key keys induction =>
      rcases merges with ⟨fields, annotations, field, rfl, _, _, held, _, below⟩
      rcases induction below ((binding.withScope fields).withPath key) with ⟨site, leaf, rest⟩
      refine ⟨site, leaf, ?_⟩
      rw [List.map_cons, Node.reach, Node.descend, Node.value_mk]
      simp only [held, Option.map_some, Option.bind_some]
      exact rest

end Node.MergesAlong

/-- The lookup of a path leads to the contents of a node. -/
def Binding.Finds (binding : Binding) (path : List String) (node : Node) : Prop :=
  ∃ found, binding.lookup path = .found found ∧ found.masked .contents = node.masked .contents

/-- A reference has a value when its lookup finds a node that is resolved. -/
theorem Binding.lookup_of_referenceOutcome {binding : Binding} {path : List String} {value : Node}
    {report : Report} (outcome : binding.referenceOutcome path = .value value report) :
    ∃ found, binding.lookup path = .found found ∧ found.isResolved ∧ value.value = found.value := by
  rcases value_of_referenceOutcome outcome with ⟨found, looked, resolved, rfl, _⟩
  exact ⟨found, looked, resolved, rfl⟩

namespace Resolution

variable {answers : Answers} {stubs : List Node} {template : Node} {keys : List String}

/-- Once merges are idle, a pass keeps what is resolved and what lookups find. -/
theorem run_idle (resolved : ∀ stub ∈ stubs, stub.isResolved) {before after leaf : Node}
    {site : Binding} (pass : Pass.run answers stubs before = .ok after)
    (merges : before.MergesAlong (Idle stubs) [] keys)
    (position : before.reach (root answers stubs) (keys.map .field) = some (site, leaf)) :
    after.MergesAlong (Idle stubs) [] keys ∧
      ∃ site' leaf', after.reach (root answers stubs) (keys.map .field) = some (site', leaf') ∧
        (leaf.isResolved → leaf' = leaf) ∧
        ∀ path, site.isDecided path →
          site'.lookup path = site.lookup path ∧ site'.isDecided path := by
  have quiet := Override.expressions_ne_all
  rcases Pass.visit_along position pass merges rfl resolved with
    ⟨merges', _, mode, leaf', visited, _, reaches⟩
  rcases reaches (root answers stubs) with ⟨site', position', idly⟩
  rcases idly (fun _ => id) quiet with ⟨quiet, around⟩
  have sites := around ⟨fun _ => .none, .nil⟩
  refine ⟨merges', site', leaf', position', fun whole => ?_, fun path decided => ?_⟩
  · rw [Pass.visit_of_isResolved leaf quiet whole] at visited
    exact (Except.ok.inj visited).symm
  · exact sites.lookup decided

theorem treeAfter_idle (resolved : ∀ stub ∈ stubs, stub.isResolved) {early passes : Nat}
    {first last leaf : Node} {site : Binding}
    (reachedFirst : treeAfter answers stubs early template = .ok first)
    (reachedLast : treeAfter answers stubs (early + passes) template = .ok last)
    (merges : first.MergesAlong (Idle stubs) [] keys)
    (position : first.reach (root answers stubs) (keys.map .field) = some (site, leaf)) :
    last.MergesAlong (Idle stubs) [] keys ∧
      ∃ site' leaf', last.reach (root answers stubs) (keys.map .field) = some (site', leaf') ∧
        (leaf.isResolved → leaf' = leaf) ∧
        ∀ path, site.isDecided path →
          site'.lookup path = site.lookup path ∧ site'.isDecided path := by
  induction passes generalizing last with
  | zero =>
      rw [Nat.add_zero, reachedFirst] at reachedLast
      cases reachedLast
      exact ⟨merges, site, leaf, position, fun _ => rfl, fun path decided => ⟨rfl, decided⟩⟩
  | succ passes induction =>
      rcases treeAfter_pred reachedLast with ⟨middle, earlier, pass⟩
      rcases induction earlier with ⟨merges, place, node, position, kept, lookups⟩
      rcases run_idle resolved pass merges position with
        ⟨merges, site', leaf', position, kept', lookups'⟩
      refine ⟨merges, site', leaf', position, fun whole => ?_, fun path decided => ?_⟩
      · have same := kept whole
        subst same
        exact kept' whole
      · rcases lookups path decided with ⟨same, decided⟩
        rcases lookups' path decided with ⟨same', decided⟩
        exact ⟨same'.trans same, decided⟩

/-- From the first pass on all merges along a route are idle. -/
theorem treeAfter_merges (resolved : ∀ stub ∈ stubs, stub.isResolved)
    (merges : template.MergesAlong (fun _ => True) [] keys) {passes : Nat} {document : Node}
    (reached : treeAfter answers stubs passes template = .ok document) :
    document.MergesAlong (fun _ => True) [] keys ∧
      (0 < passes → document.MergesAlong (Idle stubs) [] keys) := by
  induction passes generalizing document with
  | zero =>
      cases reached
      exact ⟨merges, fun positive => absurd positive (Nat.lt_irrefl 0)⟩
  | succ passes induction =>
      rcases treeAfter_pred reached with ⟨before, earlier, pass⟩
      rcases induction earlier with ⟨merges, _⟩
      rcases merges.reach (root answers stubs) with ⟨site, leaf, position⟩
      have idle := (Pass.visit_along position pass merges rfl resolved).1
      exact ⟨idle.mono fun _ _ => trivial, fun _ => idle⟩

/-- A pass that replaces a reference puts the value there that its lookup finds. -/
theorem run_reference (resolved : ∀ stub ∈ stubs, stub.isResolved) {before after node : Node}
    {place : Binding} {path : List String} (pass : Pass.run answers stubs before = .ok after)
    (merges : before.MergesAlong (fun _ => True) [] keys)
    (reached : before.reach (root answers stubs) (keys.map .field) = some (place, node))
    (holds : node.expression? keys = some (.ok (.reference path))) (direct : node.redirect = none)
    (alone : ∀ stub ∈ stubs, (stub.find keys).found? = none) :
    ∃ site node', after.reach (root answers stubs) (keys.map .field) = some (site, node') ∧
      (node'.expression? keys = some (.ok (.reference path)) ∧ node'.redirect = none ∨
        ∃ found, place.lookup path = .found found ∧ found.isResolved ∧
          node'.value = found.value) := by
  rcases Pass.visit_along reached pass merges rfl resolved with
    ⟨_, _, _, node', visited, _, reaches⟩
  rcases reaches (root answers stubs) with ⟨site, reached', _⟩
  refine ⟨site, node', reached', ?_⟩
  rcases Node.path_of_reach reached with ⟨atPath, atStubPath⟩
  have atPath : place.path = keys := atPath
  have none : place.findInStubs? place.stubPath = none := by
    rw [atStubPath, Node.findInStubs?_of_reach reached]
    exact List.findSome?_eq_none_iff.mpr alone
  rw [← atPath] at holds ⊢
  rcases Pass.visit_expression holds direct none visited with
    kept | ⟨value, report, evaluated, same⟩
  · exact .inl kept
  · have outcome : (place.withSource node.source).referenceOutcome path = .value value report :=
      Except.ok.inj evaluated
    rcases Binding.lookup_of_referenceOutcome outcome with ⟨found, looked, whole, same'⟩
    exact .inr ⟨found, looked, whole, same.trans same'⟩

/-- A reference below maps that at most merge has the value that its lookup found in some
pass. The document has the same for the reference in the end exactly when it already has it
in a document after the first pass in which the lookup is decided. So what was looked up
after the first pass is right, and what was looked up in the first pass is right when its
own merges leave the lookup alone. -/
theorem reference_equation {resolution : Resolution} (resolved : ∀ stub ∈ stubs, stub.isResolved)
    (merges : template.MergesAlong (fun _ => True) [] keys)
    (result : whole answers stubs template = .ok (.ok resolution)) {site : Binding} {leaf : Node}
    {path : List String}
    (position : template.reach (root answers stubs) (keys.map .field) = some (site, leaf))
    (holds : leaf.expression? keys = some (.ok (.reference path))) (direct : leaf.redirect = none)
    (alone : ∀ stub ∈ stubs, (stub.find keys).found? = none) :
    ∃ passes before place node found site' held, passes < resolution.passes ∧
      treeAfter answers stubs passes template = .ok before ∧
      before.reach (root answers stubs) (keys.map .field) = some (place, node) ∧
      place.lookup path = .found found ∧
      resolution.document.reach (root answers stubs) (keys.map .field) = some (site', held) ∧
      held.value = found.value ∧
      ∀ later after place' node', 0 < later → later ≤ resolution.passes →
        treeAfter answers stubs later template = .ok after →
        after.reach (root answers stubs) (keys.map .field) = some (place', node') →
        place'.isDecided path →
          (site'.Finds path held ↔ place'.Finds path found) := by
  rcases final_of_whole result with ⟨final, whole⟩
  -- The reference stands at its place until a pass replaces it.
  let pending (document : Node) : Prop := ∃ place node,
    document.reach (root answers stubs) (keys.map .field) = some (place, node) ∧
      node.expression? keys = some (.ok (.reference path)) ∧ node.redirect = none
  have done : ¬ pending resolution.document := by
    rintro ⟨place, node, reached, holds, _⟩
    exact Node.not_expression_of_isResolved (Node.isResolved_of_reach whole reached) holds
  obtain ⟨early, before, after, earlier, reachedBefore, ⟨place, node, reached, holds, direct⟩, pass,
    replaced⟩ := treeAfter_change ⟨site, leaf, position, holds, direct⟩ final done
  -- The pass that replaced the reference put the value of its lookup there.
  rcases run_reference resolved pass
      (treeAfter_merges resolved merges reachedBefore).1 reached holds direct alone
    with ⟨placeAfter, node', reachedAfter, outcome⟩
  rcases outcome with kept | ⟨found, looked, wholeFound, same⟩
  · exact absurd ⟨placeAfter, node', reachedAfter, kept⟩ replaced
  -- Once merges are idle nothing of this changes any more.
  have run := treeAfter_succ reachedBefore pass
  have idle : ∀ {later : Nat} {after : Node} {place' : Binding} {node' : Node}, 0 < later →
      later ≤ resolution.passes → treeAfter answers stubs later template = .ok after →
      after.reach (root answers stubs) (keys.map .field) = some (place', node') →
      ∃ site' held,
        resolution.document.reach (root answers stubs) (keys.map .field) = some (site', held) ∧
          (node'.isResolved → held = node') ∧
          ∀ path, place'.isDecided path →
            site'.lookup path = place'.lookup path ∧ site'.isDecided path := by
    intro later after place' node' positive bounded reached position
    rw [← Nat.add_sub_of_le bounded] at final
    exact (treeAfter_idle resolved reached final
      ((treeAfter_merges resolved merges reached).2 positive) position).2
  rcases idle (Nat.succ_pos early) earlier run reachedAfter with ⟨site', held, reachedHeld, kept, _⟩
  have unchanged : held = node' := kept (by rwa [Node.isResolved_congr same])
  subst unchanged
  refine ⟨early, before, place, node, found, site', held, earlier, reachedBefore, reached, looked,
    reachedHeld, same, ?_⟩
  intro later after place' node' positive bounded reached position decided
  rcases idle positive bounded reached position with ⟨_, _, reachedHeld', _, lookups⟩
  rw [reachedHeld, Option.some.injEq, Prod.mk.injEq] at reachedHeld'
  rcases reachedHeld' with ⟨rfl, _⟩
  unfold Binding.Finds
  rw [(lookups path decided).1, Node.masked_contents_congr same]

/-- A map inside another one. -/
def nested (outer : Value) (fields : List (String × Node)) : Node :=
  .mk (.map [("k", .mk outer {}), ("F", .mk (.map fields) {})]) {}

/-- A reference out of a map that merges. -/
def outward (outer : Value) : Node :=
  nested outer [(markerKey, .mk (.expression (.merge ["F"] false false)) {}),
    ("x", .mk (.expression (.reference ["k"])) {})]

theorem outward_merges (outer : Value) :
    (outward outer).MergesAlong (fun _ => True) [] ["F", "x"] := by
  refine ⟨_, _, _, rfl, rfl, by decide, rfl, ?_, _, _, _, rfl, rfl, by decide, rfl, ?_, trivial⟩
  · intro marker found
    cases found
  · intro marker found
    cases found
    exact .inr ⟨trivial, ["F"], rfl⟩

/-- The marker adds another field beside the reference. -/
theorem reference_equation_beside :
    let document : Node := nested (.integer 1) [("x", .mk (.integer 1) {}), ("y", .mk .null {})]
    let stubs : List Node := [.mk (.map [("F", .mk (.map [("y", .mk .null {})]) {})]) {}]
    let root := root .none stubs
    ∃ passes before place node found site' held, passes < 2 ∧
      treeAfter .none stubs passes (outward (.integer 1)) = .ok before ∧
      before.reach root [.field "F", .field "x"] = some (place, node) ∧
      place.lookup ["k"] = .found found ∧
      document.reach root [.field "F", .field "x"] = some (site', held) ∧
      held.value = found.value ∧
      ∀ later after place' node', 0 < later → later ≤ 2 →
        treeAfter .none stubs later (outward (.integer 1)) = .ok after →
        after.reach root [.field "F", .field "x"] = some (place', node') →
        place'.isDecided ["k"] → (site'.Finds ["k"] held ↔ place'.Finds ["k"] found) := by
  intro document stubs root
  have resolved : ∀ stub ∈ stubs, stub.isResolved := by decide
  have result : whole .none stubs (outward (.integer 1)) = .ok (.ok ⟨document, [], 2⟩) := rfl
  have alone : ∀ stub ∈ stubs, (stub.find ["F", "x"]).found? = none :=
    List.forall_mem_singleton.mpr rfl
  exact reference_equation resolved (outward_merges _) result rfl rfl rfl alone

/-! A merge may add a nearer field under the key of a reference in the very pass that looks
the reference up. The value is then that of the field farther out. -/

theorem reference_shadowed :
    ¬ ∀ (answers : Answers) (stubs : List Node) (template : Node) (resolution : Resolution)
        (keys path : List String) (site site' : Binding) (leaf held : Node),
      (∀ stub ∈ stubs, stub.isResolved) → template.MergesAlong (fun _ => True) [] keys →
      whole answers stubs template = .ok (.ok resolution) →
      template.reach (root answers stubs) (keys.map .field) = some (site, leaf) →
      leaf.expression? keys = some (.ok (.reference path)) → leaf.redirect = none →
      (∀ stub ∈ stubs, (stub.find keys).found? = none) →
      resolution.document.reach (root answers stubs) (keys.map .field) = some (site', held) →
      site'.Finds path held := by
  intro claim
  let document : Node := nested (.text "far") [("x", .mk (.text "far") {}),
    ("k", .mk (.text "near") {})]
  let stubs : List Node := [.mk (.map [("F", .mk (.map [("k", .mk (.text "near") {})]) {})]) {}]
  have resolved : ∀ stub ∈ stubs, stub.isResolved := by decide +kernel
  have result : whole .none stubs (outward (.text "far")) = .ok (.ok ⟨document, [], 2⟩) := rfl
  have alone : ∀ stub ∈ stubs, (stub.find ["F", "x"]).found? = none :=
    List.forall_mem_singleton.mpr rfl
  rcases claim .none stubs _ _ ["F", "x"] ["k"] _ _ _ _ resolved
      (outward_merges _) result rfl rfl rfl alone rfl with ⟨found, looked, same⟩
  obtain rfl : .mk (.text "near") {} = found := Lookup.found.inj looked
  have texts : some "near" = some "far" := congrArg (fun node => node.value.text?) same
  exact absurd texts (by decide)

end Resolution

end Stencil
