import Stencil.Proofs.Resolution.Visit

namespace Stencil

/-! A `merge` without a path of its own. It looks at the path that the place has in the stubs, and
the first stub that has anything there decides alone what comes of it. -/

variable {depth : Nat} {binding : Binding} {fields : List (String × Node)} {marker found : Node}
  {path : List String} {redirected replacing : Bool}

theorem Binding.mergeOutcome_missing (absent : binding.findInStubs? binding.stubPath = none) :
    binding.mergeOutcome path false replacing = .ofIssue (.notInStubs binding.stubPath) := by
  simp [mergeOutcome, mergePath, absent]

theorem Binding.mergeOutcome_found (held : binding.findInStubs? binding.stubPath = some found) :
    binding.mergeOutcome path false replacing = .value (.ofSource found.source found.value)
      { merged := true, replace := replacing, source := found.source } := by
  simp [mergeOutcome, mergePath, held]

/-! ## As a marker -/

namespace Marker

theorem evaluate_of_merge
    (holds : marker.expression? binding.path = some (.ok (.merge path redirected replacing))) :
    evaluate (Expression.evaluate (depth + 1)) binding marker =
      .ok (ofOutcome marker (.merge path redirected replacing)
        (binding.mergeOutcome path redirected replacing)) := by
  unfold evaluate
  rw [holds]
  rfl

/-- It brings what the first stub has at the place. -/
theorem evaluate_merge
    (holds : marker.expression? binding.path = some (.ok (.merge path false replacing)))
    (held : binding.findInStubs? binding.stubPath = some found) :
    evaluate (Expression.evaluate (depth + 1)) binding marker =
      .ok (.merge (.ofSource found.source found.value) none replacing) := by
  rw [evaluate_of_merge holds, Binding.mergeOutcome_found held]
  rfl

/-- It goes away where no stub has anything. -/
theorem evaluate_unmerged
    (holds : marker.expression? binding.path = some (.ok (.merge path false replacing)))
    (absent : binding.findInStubs? binding.stubPath = none) :
    evaluate (Expression.evaluate (depth + 1)) binding marker = .ok .drop := by
  rw [evaluate_of_merge holds, Binding.mergeOutcome_missing absent]
  rfl

end Marker

namespace MapPlan

/-- What a map does about a plain `merge`, by what the first stub has that has anything at its
path. -/
def ofStub (marker : Node) : Option Node → MapPlan
  | none => .fields .dropped none none
  | some found =>
      match found.value with
      | .map base => .fields .dropped none (some base)
      | other => .fields (.kept (marker.withIssue (some (.mapMerge other.kind)))) none none

theorem ofStub_other (other : found.kind ≠ .map) :
    ofStub marker (some found) =
      .fields (.kept (marker.withIssue (some (.mapMerge found.kind)))) none none := by
  rcases found with ⟨value, annotations⟩
  cases value with
  | map base => exact absurd rfl other
  | _ => rfl

theorem ofFields_stub (held : fields.lookup markerKey = some marker)
    (holds : marker.expression? binding.path = some (.ok (.merge path false false))) :
    ofFields (Expression.evaluate (depth + 1)) binding fields =
      .ok (ofStub marker (binding.findInStubs? binding.stubPath)) := by
  unfold ofFields
  rw [held]
  cases found : binding.findInStubs? binding.stubPath with
  | none =>
      simp only [Marker.evaluate_unmerged holds found]
      rfl
  | some stub =>
      simp only [Marker.evaluate_merge holds found]
      rcases stub with ⟨value, annotations⟩
      cases value <;> rfl

end MapPlan

end Stencil
