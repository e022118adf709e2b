import Stencil.Proofs.Resolution.Agreement

namespace Stencil

/-! Resolving a resolved document again. Passes end when no value changes, but a last pass
may still have changed annotations, and those of merges steer the next pass: a leaf
that is preferred, or a collection that replaces or is redirected, is visited in
another way. Where the last pass left them alone the document is a fixed point. -/

/-! ## Places of a tree -/

section
variable (aspects : Aspects)

mutual
theorem Value.placesBelow_masked : ∀ (value : Value) (place : Place),
    (value.masked aspects).placesBelow place =
      (value.placesBelow place).map fun (place, node) => (place, node.masked aspects)
  | .list entries, place => entryPlaces_masked entries place 0
  | .map fields, place => fieldPlaces_masked fields place
  | .null, _ | .boolean _, _ | .integer _, _ | .decimal _, _ | .text _, _ | .expression _, _
  | .lambda _ _ _, _ => rfl

theorem Node.placesFrom_masked : ∀ (node : Node) (place : Place),
    (node.masked aspects).placesFrom place =
      (node.placesFrom place).map fun (place, node) => (place, node.masked aspects)
  | .mk value annotations, place => by
      rw [Node.masked, Node.placesFrom, Node.placesFrom, Value.placesBelow_masked value place]
      rfl

theorem entryPlaces_masked : ∀ (entries : List Node) (place : Place) (index : Nat),
    entryPlaces place index (entriesMasked aspects entries) =
      (entryPlaces place index entries).map fun (place, node) => (place, node.masked aspects)
  | [], _, _ => rfl
  | entry :: entries, place, index => by
      have position : place.entry index (entry.masked aspects) = place.entry index entry := by
        unfold Place.entry
        rw [stepName_masked]
      rw [entriesMasked, entryPlaces, entryPlaces, position, entry.placesFrom_masked,
        entryPlaces_masked entries, List.map_append]

theorem fieldPlaces_masked : ∀ (fields : List (String × Node)) (place : Place),
    fieldPlaces place (fieldsMasked aspects fields) =
      (fieldPlaces place fields).map fun (place, node) => (place, node.masked aspects)
  | [], _ => rfl
  | (key, field) :: fields, place => by
      rw [fieldsMasked, fieldPlaces, fieldPlaces, field.placesFrom_masked,
        fieldPlaces_masked fields, List.map_append]
end

theorem Node.unresolvedPlaces_masked (document : Node) :
    (document.masked aspects).unresolved.map UnresolvedNode.place =
      document.unresolved.map UnresolvedNode.place := by
  unfold Node.unresolved Node.places
  rw [Node.placesFrom_masked, List.filterMap_map, List.map_filterMap, List.map_filterMap]
  congr 1
  funext found
  simp only [Function.comp, Node.isLocallyResolved_masked]
  split <;> rfl

end

namespace Resolution

variable {answers : Answers} {stubs : List Node}

/-- A pass does not see sources and issues. -/
theorem run_congr {document document' : Node}
    (same : document.masked .steering = document'.masked .steering) :
    (Pass.run answers stubs document).map (Node.masked .steering) =
      (Pass.run answers stubs document').map (Node.masked .steering) := by
  have place : ({ stubs, answers } : Binding).Precedes .steering false { stubs, answers } :=
    ⟨⟨rfl, rfl, rfl, rfl, rfl, rfl⟩, .nil⟩
  exact Pass.visit_congr rfl (Expression.evaluate_precedes _) document document' .expressions
    place same

/-- A document is a fixed point when the last of its passes changed nothing that steers
one: neither the redirect path, the replacement or the preference of any node, nor the
order of keys, nor the sign of a zero. -/
theorem partly_document {limit : Nat} {template last : Node} {resolution : Resolution}
    (result : partly answers limit stubs template = .ok (.ok resolution))
    (before : treeAfter answers stubs (resolution.passes - 1) template = .ok last)
    (unchanged : last.masked .steering = resolution.document.masked .steering) :
    ∃ again, partly answers limit stubs resolution.document = .ok (.ok again) ∧
      again.passes = 1 ∧
      (again.document == resolution.document) = true ∧
      again.document.masked .steering = resolution.document.masked .steering ∧
      again.unresolved.map UnresolvedNode.place =
        resolution.unresolved.map UnresolvedNode.place := by
  rcases settled_of_partly result with ⟨last', settled⟩
  cases before.symm.trans settled.reached
  obtain ⟨next, pass, agree⟩ : ∃ next, Pass.run answers stubs resolution.document = .ok next ∧
      next.masked .steering = resolution.document.masked .steering := by
    have runs : (Pass.run answers stubs last).map (Node.masked .steering) =
        (Pass.run answers stubs resolution.document).map (Node.masked .steering) :=
      run_congr unchanged
    rw [settled.pass] at runs
    rcases except_of_map_eq runs with ⟨pause, first, _⟩ | ⟨_, next, first, second, agree⟩
    · cases first
    · cases first
      exact ⟨next, second, agree.symm⟩
  have same : (next == resolution.document) = true := by
    calc (next == resolution.document)
        = (next.masked .steering).same (resolution.document.masked .steering) :=
          (Node.same_masked .steering next resolution.document).symm
      _ = (resolution.document.masked .steering).same (last.masked .steering) := by
          rw [agree, unchanged]
      _ = true := by
          rw [Node.same_masked]
          exact settled.same
  have positive : limit ≠ 0 := by
    rintro rfl
    cases result
  rcases Nat.exists_eq_succ_of_ne_zero positive with ⟨left, rfl⟩
  refine ⟨⟨next, next.unresolved, 1⟩, ?_, rfl, same, agree, ?_⟩
  · unfold partly settle
    simp only [pass, bind, Except.bind, same, if_true]
    rfl
  · rw [settled.unresolved, ← Node.unresolvedPlaces_masked .steering, agree,
      Node.unresolvedPlaces_masked]

/-- A reference that gets its value in the first of two passes. -/
theorem partly_document_reference :
    let field (value : Value) : Node :=
      .mk (.map [("a", .mk value {}), ("b", .mk (.integer 1) {})]) {}
    ∃ again, partly .none 3 [] (field (.integer 1)) = .ok (.ok again) ∧ again.passes = 1 ∧
      (again.document == field (.integer 1)) = true ∧
      again.document.masked .steering = (field (.integer 1)).masked .steering ∧
      again.unresolved.map UnresolvedNode.place = [] := by
  intro field
  have result : partly .none 3 [] (field (.expression (.reference ["b"]))) =
      .ok (.ok ⟨field (.integer 1), [], 2⟩) := rfl
  have before : treeAfter .none [] 1 (field (.expression (.reference ["b"]))) =
      .ok (field (.integer 1)) := rfl
  exact partly_document result before rfl

/-! The equality of values does not suffice. A stub may put a text in the place of an
equal one and mark it as preferred on the way: the next pass then leaves it to itself. -/

theorem partly_document_preferred :
    ¬ ∀ (answers : Answers) (limit : Nat) (stubs : List Node) (template : Node)
        (resolution : Resolution), partly answers limit stubs template = .ok (.ok resolution) →
      ∃ again, partly answers limit stubs resolution.document = .ok (.ok again) ∧
        again.passes = 1 ∧
        (again.document == resolution.document) = true ∧
        again.unresolved.map UnresolvedNode.place =
          resolution.unresolved.map UnresolvedNode.place := by
  intro claim
  let template : Node := .mk (.map [("a", .mk (.text "(( 1 ))") {})]) {}
  let stub : Node := .mk (.map [("a", .mk (.text "(( prefer \"(( 1 ))\" ))") {})]) {}
  let resolve (document : Node) : Option Resolution :=
    found? (partly .none 1024 [stub] document)
  have passes : ((resolve template).bind fun resolution => resolve resolution.document).map
      Resolution.passes = some 2 := by decide +kernel
  rw [Option.map_eq_some_iff] at passes
  rcases passes with ⟨again, repeated, two⟩
  rcases Option.bind_eq_some_iff.mp repeated with ⟨resolution, first, second⟩
  rcases claim .none 1024 [stub] template resolution (found?_eq_some_iff.mp first) with
    ⟨again', third, one, _⟩
  rw [found?_eq_some_iff.mp second, Except.ok.injEq, Except.ok.injEq] at third
  rw [← third, two] at one
  cases one

end Resolution

end Stencil
