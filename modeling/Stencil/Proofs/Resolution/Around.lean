import Stencil.Proofs.Node.Equality
import Stencil.Proofs.Resolution.Keys
import Stencil.Proofs.Resolution.Overlay
import Stencil.Proofs.Resolution.Naming

namespace Stencil

/-! A node inside of maps that are resolved but for it. A pass changes nothing around the node,
and what is unresolved in the whole is so in the node. -/

/-- A map without the node of one of its fields. -/
structure Frame where
  front : List (String × Node)
  key : String
  back : List (String × Node)
  annotations : Annotations

namespace Frame

/-- The map with a node in that field. -/
def around (frame : Frame) (node : Node) : Node :=
  .mk (.map (frame.front ++ (frame.key, node) :: frame.back)) frame.annotations

def others (frame : Frame) : List (String × Node) := frame.front ++ frame.back

/-- The first map is the outermost one. -/
def all (frames : List Frame) (node : Node) : Node := frames.foldr Frame.around node

def keys (frames : List Frame) : List String := frames.map Frame.key

theorem others_resolved {frame : Frame} :
    fieldsResolved frame.others ↔ fieldsResolved frame.front ∧ fieldsResolved frame.back := by
  simp only [others, fieldsResolved_iff, List.forall_mem_append]

/-- Around a collection no expression stands. -/
theorem locally_all (frames : List Frame) {node : Node} (locally : node.isLocallyResolved) :
    (all frames node).isLocallyResolved := by
  cases frames with
  | nil => exact locally
  | cons frame frames => rfl

theorem locally (frame : Frame) {node : Node} (resolved : fieldsResolved frame.others)
    (locally : node.isLocallyResolved) :
    ∀ field ∈ frame.front ++ (frame.key, node) :: frame.back, field.2.isLocallyResolved := by
  rcases others_resolved.mp resolved with ⟨front, back⟩
  rw [fieldsResolved_iff] at front back
  intro field member
  rcases List.mem_append.mp member with early | late
  · exact Node.isLocallyResolved_of_isResolved (front field early)
  · rcases List.mem_cons.mp late with rfl | late
    · exact locally
    · exact Node.isLocallyResolved_of_isResolved (back field late)

end Frame

/-! ## Frames of a tree -/

/-- A key that stands at a field stands nowhere else. -/
theorem fresh_of_distinct {front back : List (String × Node)} {key : String} {node : Node}
    (distinct : fieldsDistinct (front ++ (key, node) :: back)) :
    front.lookup key = none ∧ back.lookup key = none := by
  induction front with
  | nil => exact ⟨rfl, (fieldsDistinct_cons.mp distinct).1⟩
  | cons field front induction =>
      rcases field with ⟨first, field⟩
      rw [List.cons_append] at distinct
      rcases fieldsDistinct_cons.mp distinct with ⟨fresh, _, others⟩
      rcases induction others with ⟨none, none'⟩
      have different : (key == first) = false := by
        rw [beq_eq_false_iff_ne]
        rintro rfl
        rw [List.lookup_append, none, Option.none_or, List.lookup_cons_self] at fresh
        cases fresh
      refine ⟨?_, none'⟩
      rw [List.lookup_cons, different]
      exact none

theorem Node.frames_of_at? {node inner : Node} {keys : List String} (distinct : node.keysDistinct)
    (found : node.at? (keys.map .field) = some inner) :
    ∃ frames, Frame.keys frames = keys ∧ node = Frame.all frames inner ∧
      ∀ new, node.replacedAt (keys.map .field) new = Frame.all frames new := by
  induction keys generalizing node with
  | nil =>
      cases found
      exact ⟨[], rfl, rfl, fun _ => rfl⟩
  | cons key keys induction =>
      rcases at?_cons found with ⟨child, first, rest⟩
      rcases below?_cases first with ⟨_, fields, annotations, ⟨⟩, rfl, held⟩ | ⟨_, _, _, ⟨⟩, _⟩
      have below := member_of_fieldsDistinct distinct _ (member_of_lookup held)
      rcases induction below rest with ⟨frames, same, whole, replaced⟩
      rcases List.lookup_eq_some_iff.mp held with ⟨front, back, rfl, _⟩
      rcases fresh_of_distinct distinct with ⟨none, none'⟩
      let frame : Frame := ⟨front, key, back, annotations⟩
      refine ⟨frame :: frames, congrArg (key :: ·) same, congrArg frame.around whole, fun new => ?_⟩
      let change (child : Node) : Node := child.replacedAt (keys.map .field) new
      have fields : (front ++ (key, child) :: back).map (fun field =>
          (field.1, if field.1 = key then change field.2 else field.2)) =
            front ++ (key, change child) :: back := by
        rw [List.map_append, List.map_cons, map_changed_of_fresh none change,
          map_changed_of_fresh none' change, if_pos rfl]
      have changed : (frame.around child).replacedAt ((key :: keys).map .field) new =
          frame.around (change child) :=
        congrArg (fun fields => Node.mk (.map fields) annotations) fields
      exact changed.trans (congrArg frame.around (replaced new))

/-! ## Passes -/

namespace Pass

variable {evaluator : Evaluator} {binding : Binding} {mode : Override}

/-- The fields are visited one after the other. -/
theorem visitFields_append {marker : FieldMarker} {front front' back back' : List (String × Node)}
    (first : visitFields evaluator binding mode marker front = .ok front')
    (second : visitFields evaluator binding mode marker back = .ok back') :
    visitFields evaluator binding mode marker (front ++ back) = .ok (front' ++ back') := by
  induction front generalizing front' with
  | nil =>
      cases first
      exact second
  | cons field front induction =>
      rcases field with ⟨key, field⟩
      rw [List.cons_append]
      by_cases here : marker = .ordinary ∨ key ≠ markerKey
      · rw [visitFields_visited here] at first ⊢
        rcases ok_of_bind first with ⟨visited, seen, first⟩
        rcases ok_of_bind first with ⟨rest, others, first⟩
        cases first
        rw [seen, induction others]
        rfl
      · rcases not_or.mp here with ⟨special, isMarker⟩
        cases Decidable.not_not.mp isMarker
        cases marker with
        | ordinary => exact absurd rfl special
        | dropped => exact induction first
        | kept kept =>
            rw [visitFields_kept] at first ⊢
            rcases ok_of_bind first with ⟨rest, others, first⟩
            cases first
            rw [induction others]
            rfl

/-- Where there is no marker it does not matter what becomes of it. -/
theorem visitFields_unmarked {fields : List (String × Node)}
    (absent : fields.lookup markerKey = none) (marker : FieldMarker) :
    visitFields evaluator binding mode marker fields =
      visitFields evaluator binding mode .ordinary fields := by
  induction fields with
  | nil => rfl
  | cons field fields induction =>
      rcases field with ⟨key, field⟩
      rw [List.lookup_cons] at absent
      cases same : markerKey == key with
      | true =>
          rw [same] at absent
          cases absent
      | false =>
          rw [same] at absent
          have other : key ≠ markerKey := (beq_eq_false_iff_ne.mp same).symm
          rw [visitFields_visited (.inr other), visitFields_visited (.inl rfl), induction absent]

theorem markerResolved_of_locally {fields : List (String × Node)}
    (locally : ∀ field ∈ fields, field.2.isLocallyResolved) : markerResolved fields := by
  unfold markerResolved
  cases found : fields.lookup markerKey with
  | none => rfl
  | some marker => exact locally _ (member_of_lookup found)

/-- A pass goes down to the node inside of the frames, and leaves the rest as it is. -/
theorem visit_frames {frames : List Frame} {inner inner' : Node} (quiet : mode = .expressions)
    (own : ∀ frame ∈ frames, frame.annotations.isBare)
    (resolved : ∀ frame ∈ frames, fieldsResolved frame.others) (locally : inner.isLocallyResolved)
    (visited : ∀ site : Binding, site.path = binding.path ++ Frame.keys frames →
      site.stubPath = binding.stubPath ++ Frame.keys frames → site.stubs = binding.stubs →
        visit evaluator site .expressions inner = .ok inner') :
    visit evaluator binding mode (Frame.all frames inner) = .ok (Frame.all frames inner') := by
  subst quiet
  induction frames generalizing binding with
  | nil => exact visited binding (List.append_nil _).symm (List.append_nil _).symm rfl
  | cons frame frames induction =>
      rw [List.forall_mem_cons] at own resolved
      rcases Annotations.isBare_iff.mp own.1 with ⟨direct, whole, _⟩
      rcases frame.others_resolved.mp resolved.1 with ⟨front, back⟩
      have below : visit evaluator (((binding.withSource frame.annotations.source).withScope
          (frame.front ++ (frame.key, Frame.all frames inner) :: frame.back)).withPath frame.key)
            .expressions (Frame.all frames inner) = .ok (Frame.all frames inner') := by
        refine induction own.2 resolved.2 fun site path stubPath stubs => visited site ?_ ?_ stubs
        · exact path.trans (List.append_assoc _ [frame.key] _)
        · exact stubPath.trans (List.append_assoc _ [frame.key] _)
      have fields : visitFields evaluator ((binding.withSource frame.annotations.source).withScope
          (frame.front ++ (frame.key, Frame.all frames inner) :: frame.back)) .expressions .ordinary
            (frame.front ++ (frame.key, Frame.all frames inner) :: frame.back) =
              .ok (frame.front ++ (frame.key, Frame.all frames inner') :: frame.back) := by
        refine visitFields_append
          (visitFields_of_resolved frame.front Override.expressions_ne_all front) ?_
        rw [visitFields_visited (.inl rfl), below,
          visitFields_of_resolved frame.back Override.expressions_ne_all back]
        rfl
      have markers := markerResolved_of_locally (frame.locally resolved.1
        (Frame.locally_all frames locally))
      rw [Frame.all, List.foldr_cons, Frame.around, ← Frame.all, visit_map markers, inside, direct,
        followRedirect, whole, Override.entries_same, fields]
      rfl

end Pass

/-! ## What is around a node -/

namespace Frame

theorem all_holds {holds : Node → Prop} (hereditary : Hereditary holds) (frames : List Frame)
    (node : Node) :
    holds (all frames node) ↔
      (∀ frame ∈ frames, ∀ field ∈ frame.others, holds field.2) ∧ holds node := by
  induction frames with
  | nil => simp [all]
  | cons frame frames induction =>
      have whole : holds (all (frame :: frames) node) ↔
          ∀ field ∈ frame.front ++ (frame.key, all frames node) :: frame.back, holds field.2 :=
        hereditary.map
      rw [whole, List.forall_mem_append, List.forall_mem_cons, induction, List.forall_mem_cons,
        others, List.forall_mem_append]
      tauto

/-- What is noted in the tree is noted about the frames, or in the node. -/
theorem bare_of_all {frames : List Frame} {node : Node} (bare : (all frames node).isBare) :
    (∀ frame ∈ frames, frame.annotations.isBare) ∧ node.isBare := by
  induction frames with
  | nil => exact ⟨List.forall_mem_nil _, bare⟩
  | cons frame frames induction =>
      rcases Node.isBare_mk.mp bare with ⟨here, below⟩
      have below : fieldsBare (frame.front ++ (frame.key, all frames node) :: frame.back) := below
      have inside := fieldsBare_iff.mp below (frame.key, all frames node) (by simp)
      rcases induction inside with ⟨others, whole⟩
      exact ⟨List.forall_mem_cons.mpr ⟨here, others⟩, whole⟩

theorem keysDistinct_of_all {frames : List Frame} {node : Node}
    (distinct : (all frames node).keysDistinct) : node.keysDistinct := by
  induction frames with
  | nil => exact distinct
  | cons frame frames induction =>
      have below : fieldsDistinct (frame.front ++ (frame.key, all frames node) :: frame.back) :=
        distinct
      exact induction (member_of_fieldsDistinct below (frame.key, all frames node) (by simp))

theorem masked_all (aspects : Aspects) (frames : List Frame) {node other : Node}
    (same : node.masked aspects = other.masked aspects) :
    (all frames node).masked aspects = (all frames other).masked aspects := by
  induction frames with
  | nil => exact same
  | cons frame frames induction =>
      have fields :
          fieldsMasked aspects (frame.front ++ (frame.key, all frames node) :: frame.back) =
            fieldsMasked aspects (frame.front ++ (frame.key, all frames other) :: frame.back) := by
        simp only [fieldsMasked_eq_map, List.map_append, List.map_cons, induction]
      exact congrArg (fun fields => Node.mk (.map fields) (frame.annotations.masked aspects)) fields

end Frame

/-- Trees with the same contents are equal, unless there is a decimal that is no number. -/
theorem Node.same_of_masked {left right : Node}
    (masked : left.masked .contents = right.masked .contents) (distinct : right.keysDistinct)
    (numbers : right.withoutNaN) : left.same right := by
  rw [← Node.same_masked .contents, masked, Node.same_masked]
  exact right.same_self distinct numbers

/-! ## Unresolved nodes -/

/-- The entry of the list of unresolved nodes for a node at a place. -/
def UnresolvedNode.of? (found : Place × Node) : Option UnresolvedNode :=
  if found.2.isLocallyResolved then none
  else some ⟨expressionText found.2.value, found.2.source, found.1, found.2.issue⟩

mutual
theorem Value.placesBelow_resolved : ∀ (value : Value) (place : Place), value.isResolved →
    ∀ found ∈ value.placesBelow place, found.2.isLocallyResolved
  | .list entries, place, resolved => entryPlaces_resolved entries place 0 resolved
  | .map fields, place, resolved => fieldPlaces_resolved fields place resolved
  | .null, _, _ | .boolean _, _, _ | .integer _, _, _ | .decimal _, _, _ | .text _, _, _
  | .expression _, _, _ | .lambda _ _ _, _, _ => List.forall_mem_nil _

theorem Node.placesFrom_resolved : ∀ (node : Node) (place : Place), node.isResolved →
    ∀ found ∈ node.placesFrom place, found.2.isLocallyResolved
  | .mk value annotations, place, resolved => by
      rw [Node.placesFrom, List.forall_mem_cons]
      exact ⟨Node.isLocallyResolved_of_isResolved resolved,
        Value.placesBelow_resolved value place resolved⟩

theorem entryPlaces_resolved : ∀ (entries : List Node) (place : Place) (index : Nat),
    entriesResolved entries → ∀ found ∈ entryPlaces place index entries, found.2.isLocallyResolved
  | [], _, _, _ => List.forall_mem_nil _
  | entry :: entries, place, index, resolved => by
      rw [entriesResolved, Bool.and_eq_true] at resolved
      rw [entryPlaces, List.forall_mem_append]
      exact ⟨Node.placesFrom_resolved entry _ resolved.1,
        entryPlaces_resolved entries place (index + 1) resolved.2⟩

theorem fieldPlaces_resolved : ∀ (fields : List (String × Node)) (place : Place),
    fieldsResolved fields → ∀ found ∈ fieldPlaces place fields, found.2.isLocallyResolved
  | [], _, _ => List.forall_mem_nil _
  | (_, field) :: fields, place, resolved => by
      rw [fieldsResolved, Bool.and_eq_true] at resolved
      rw [fieldPlaces, List.forall_mem_append]
      exact ⟨Node.placesFrom_resolved field _ resolved.1,
        fieldPlaces_resolved fields place resolved.2⟩
end

theorem UnresolvedNode.filterMap_of_resolved {places : List (Place × Node)}
    (resolved : ∀ found ∈ places, found.2.isLocallyResolved) : places.filterMap of? = [] := by
  rw [List.filterMap_eq_nil_iff]
  intro found member
  rw [of?, resolved found member, if_pos rfl]

theorem Node.unresolved_of_isResolved {document : Node} (resolved : document.isResolved) :
    document.unresolved = [] :=
  UnresolvedNode.filterMap_of_resolved (document.placesFrom_resolved .root resolved)

theorem fieldPlaces_append (place : Place) (front back : List (String × Node)) :
    fieldPlaces place (front ++ back) = fieldPlaces place front ++ fieldPlaces place back := by
  induction front with
  | nil => rfl
  | cons field front induction =>
      rcases field with ⟨key, field⟩
      rw [List.cons_append, fieldPlaces, fieldPlaces, induction, List.append_assoc]

/-- All that is unresolved is in the node inside of the frames. -/
theorem Frame.unresolved_all {frames : List Frame} {node : Node}
    (resolved : ∀ frame ∈ frames, fieldsResolved frame.others) (place : Place) :
    ((all frames node).placesFrom place).filterMap UnresolvedNode.of? =
      (node.placesFrom ⟨place.context ++ keys frames, place.logical ++ keys frames⟩).filterMap
        UnresolvedNode.of? := by
  induction frames generalizing place with
  | nil => simp only [keys, List.map_nil, List.append_nil]; rfl
  | cons frame frames induction =>
      rw [List.forall_mem_cons] at resolved
      rcases others_resolved.mp resolved.1 with ⟨front, back⟩
      have before := UnresolvedNode.filterMap_of_resolved (fieldPlaces_resolved _ place front)
      have behind := UnresolvedNode.filterMap_of_resolved (fieldPlaces_resolved _ place back)
      have below := induction resolved.2 (place.field frame.key)
      have split : (all (frame :: frames) node).placesFrom place =
          (place, all (frame :: frames) node) :: (fieldPlaces place frame.front ++
            ((all frames node).placesFrom (place.field frame.key) ++
              fieldPlaces place frame.back)) := by
        have fields :=
          fieldPlaces_append place frame.front ((frame.key, all frames node) :: frame.back)
        exact congrArg ((place, all (frame :: frames) node) :: ·) fields
      have here : UnresolvedNode.of? (place, all (frame :: frames) node) = none := rfl
      rw [split, List.filterMap_cons_none here, List.filterMap_append, List.filterMap_append,
        before, behind, below, List.nil_append, List.append_nil]
      simp only [Place.field, keys, List.map_cons, List.append_assoc, List.singleton_append]

/-! ## Runs -/

namespace Resolution

variable {answers : Answers} {stubs : List Node} {template first : Node} {limit : Nat}

/-- A first pass that resolves everything is the last one to change something. -/
theorem partly_of_resolved (distinct : template.keysDistinct)
    (stubsDistinct : ∀ stub ∈ stubs, stub.keysDistinct) (pending : template.isResolved = false)
    (pass : Pass.run answers stubs template = .ok first) (resolved : first.isResolved)
    (numbers : first.withoutNaN) (enough : 2 ≤ limit) :
    partly answers limit stubs template = .ok (.ok ⟨first, [], 2⟩) := by
  have run : treeAfter answers stubs 1 template = .ok first := pass
  have distinct' : first.keysDistinct := treeAfter_keysDistinct distinct stubsDistinct run
  have changed : (first == template) = false := by
    cases same : first == template with
    | false => rfl
    | true =>
        rw [Node.isResolved_of_same same distinct' distinct resolved] at pending
        cases pending
  have again : Pass.run answers stubs first = .ok first :=
    Pass.visit_of_isResolved first Override.expressions_ne_all resolved
  have self : (first == first) = true := first.same_self distinct' numbers
  obtain ⟨left, rfl⟩ := Nat.exists_eq_add_of_le' enough
  unfold partly settle settle
  simp only [pass, bind, Except.bind, changed, Bool.false_eq_true, if_false, again, self, if_true,
    Node.unresolved_of_isResolved resolved]
  rfl

/-- A first pass that changes no value is the last one. -/
theorem partly_of_same (pass : Pass.run answers stubs template = .ok first)
    (same : (first == template) = true) (positive : 0 < limit) :
    partly answers limit stubs template = .ok (.ok ⟨first, first.unresolved, 1⟩) := by
  rcases Nat.exists_eq_succ_of_ne_zero (Nat.ne_of_gt positive) with ⟨left, rfl⟩
  unfold partly settle
  simp only [pass, bind, Except.bind, same, if_true]
  rfl

variable {inner inner' : Node} {frames : List Frame}

/-- The first pass goes down to the node inside of the frames. -/
theorem run_frames (bare : (Frame.all frames inner).isBare)
    (resolved : ∀ frame ∈ frames, fieldsResolved frame.others) (locally : inner.isLocallyResolved)
    (visited : ∀ site : Binding, site.path = Frame.keys frames → site.stubPath = Frame.keys frames →
      site.stubs = stubs → Pass.visit (Expression.evaluate Expression.callDepth) site .expressions
        inner = .ok inner') :
    Pass.run answers stubs (Frame.all frames inner) = .ok (Frame.all frames inner') :=
  Pass.visit_frames rfl (Frame.bare_of_all bare).1 resolved locally visited

/-- A first pass that resolves the node inside of the frames. -/
theorem partly_of_frames (distinct : (Frame.all frames inner).keysDistinct)
    (stubsDistinct : ∀ stub ∈ stubs, stub.keysDistinct)
    (numbers : (Frame.all frames inner).withoutNaN)
    (resolved : ∀ frame ∈ frames, fieldsResolved frame.others)
    (pending : (Frame.all frames inner).isResolved = false)
    (pass : Pass.run answers stubs (Frame.all frames inner) = .ok (Frame.all frames inner'))
    (whole : inner'.isResolved) (numbered : inner'.withoutNaN) (enough : 2 ≤ limit) :
    partly answers limit stubs (Frame.all frames inner) =
      .ok (.ok ⟨Frame.all frames inner', [], 2⟩) := by
  refine partly_of_resolved distinct stubsDistinct pending pass ?_ ?_ enough
  · rw [Frame.all_holds hereditary_isResolved]
    exact ⟨fun frame member => fieldsResolved_iff.mp (resolved frame member), whole⟩
  · rw [Frame.all_holds hereditary_withoutNaN] at numbers ⊢
    exact ⟨numbers.1, numbered⟩

/-- A first pass that changes no value inside of the frames. -/
theorem partly_of_masked (distinct : (Frame.all frames inner).keysDistinct)
    (numbers : (Frame.all frames inner).withoutNaN)
    (pass : Pass.run answers stubs (Frame.all frames inner) = .ok (Frame.all frames inner'))
    (masked : inner'.masked .contents = inner.masked .contents) (enough : 2 ≤ limit) :
    partly answers limit stubs (Frame.all frames inner) =
      .ok (.ok ⟨Frame.all frames inner', (Frame.all frames inner').unresolved, 1⟩) :=
  partly_of_same pass
    (Node.same_of_masked (Frame.masked_all .contents frames masked) distinct numbers)
    (Nat.lt_of_lt_of_le Nat.two_pos enough)

end Resolution

end Stencil
