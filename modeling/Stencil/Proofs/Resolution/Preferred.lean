import Stencil.Proofs.Node.Elementary
import Stencil.Proofs.Resolution.Overlay
import Stencil.Proofs.Resolution.Passage

namespace Stencil

/-! The value of a preferred expression. No stub takes the place of the expression, and none takes
the place of a value that is a scalar, also where a map around it merges later. What is inside a
map or a list is not marked: such a merge lets the stubs override it. -/

/-- What stands at the scalars inside a collection gives way to what the stubs have. A node that
is no collection stays. -/
def Node.overlaidInside (stubs : List Node) (path : List String) : Node → Node
  | .mk (.map fields) annotations =>
      .mk (.map (fieldsOverlaid stubs (annotations.redirect.getD path) fields)) annotations
  | .mk (.list entries) annotations =>
      .mk (.list (entriesOverlaid stubs (annotations.redirect.getD path) 0 entries)) annotations
  | scalar => scalar

namespace Pass

variable {evaluator : Evaluator} {binding : Binding} {mode : Override} {node node' : Node}

/-- No stub takes the place of a preferred expression, and its value is marked. -/
theorem visit_preferred {expression : Expression}
    (holds : node.expression? binding.path = some (.ok expression))
    (preferred : expression.isPreferred) (ends : visit evaluator binding mode node = .ok node')
    (resolved : node'.isResolved) : node'.annotations.preferred := by
  have alone : stubFor? node (binding.withSource node.source) mode = none := by
    have holds : node.expression? (binding.withSource node.source).path = some (.ok expression) :=
      holds
    simp only [stubFor?, holds, isPreferredLeaf, preferred, Bool.not_true, Bool.and_false,
      Bool.false_eq_true, if_false]
  rcases visit_outcome holds alone ends with ⟨outcome, _, rfl⟩
  cases outcome with
  | value result report =>
      simp only [ofOutcome, Node.withIssue, Node.withPreferred, Node.annotations_mk, preferred,
        Bool.or_true]
  | deferred report | failed report => cases resolved

/-- A scalar that is marked stays in every mode. -/
theorem visit_preferredScalar (preferred : node.annotations.preferred)
    (resolved : node.isLocallyResolved) (noMap : node.kind ≠ .map) (noList : node.kind ≠ .list) :
    visit evaluator binding mode node = .ok node := by
  have alone : stubFor? node (binding.withSource node.source) mode = none := by
    simp only [stubFor?, preferred, Bool.not_true, Bool.and_false, Bool.false_and,
      Bool.false_eq_true, if_false]
  rw [visit_leaf noMap noList, leaf, alone, Option.getD_none, evaluateNode_of_resolved resolved]

/-- Below a merge the marked value of an expression is overlaid inside. -/
theorem visit_overlaidInside (stubs : ∀ stub ∈ binding.stubs, stub.isResolved)
    (preferred : node.annotations.preferred) (whole : node.annotations.replace = false)
    (bare : node.value.isBare) (resolved : node.isResolved) :
    visit evaluator binding .all node =
      .ok (node.overlaidInside binding.stubs binding.stubPath) := by
  rcases node with ⟨value, annotations⟩
  have below : ∀ stub ∈ (inside binding annotations).stubs, stub.isResolved :=
    (stubs_inside binding annotations).symm ▸ stubs
  have same : annotations.replace = false := whole
  cases value with
  | map fields =>
      have visited : visitFields evaluator ((inside binding annotations).withScope fields) .all
          .ordinary fields = .ok (fieldsOverlaid (inside binding annotations).stubs
            (inside binding annotations).stubPath fields) :=
        visitFields_overlaid fields below bare resolved
      rw [visit_map (markerResolved_of_fieldsResolved resolved), same, Override.entries_same,
        visited, stubs_inside, stubPath_inside]
      rfl
  | list entries =>
      have visited : visitEntries evaluator (inside binding annotations) .all false 0
          (entries.map fun _ => .visit) entries =
            .ok (entriesOverlaid (inside binding annotations).stubs
              (inside binding annotations).stubPath 0 entries) :=
        visitEntries_overlaid entries 0 below bare resolved
      rw [visit_list (markersResolved_of_entriesResolved resolved), same, Override.entries_same,
        visited, stubs_inside, stubPath_inside]
      rfl
  | _ =>
      exact visit_preferredScalar preferred (Node.isLocallyResolved_of_isResolved resolved) nofun
        nofun

end Pass

namespace Resolution

variable {answers : Answers} {stubs : List Node} {template after document value : Node}
  {keys : List String} {early passes : Nat} {leaf : Visit} {expression : Expression}

/-- What every visit leaves as it is stays. -/
theorem stays_at_keys (first : treeAfter answers stubs early template = .ok after)
    (position : after.at? (keys.map .field) = some value)
    (leads : Leads answers stubs template early (keys.map .field) passes (keys.map .field))
    (last : treeAfter answers stubs passes template = .ok document)
    (step : ∀ middle visit, early ≤ middle → middle < passes →
      visit? answers stubs template middle (keys.map .field) = some visit →
      Pass.visit (Expression.evaluate Expression.callDepth) visit.binding visit.mode value =
        .ok value) :
    document.at? (keys.map .field) = some value := by
  have here : ∃ node, after.at? (keys.map .field) = some node ∧ node = value :=
    ⟨value, position, rfl⟩
  have stays := leads.keeps first here (by
    rintro middle before place visit _ result late soon reached leads visited _ _ leaves rfl
    rw [leads.keys] at visited
    have same := step middle visit late soon (visit?_eq_some_iff.mpr ⟨before, reached, visited⟩)
    exact Except.ok.inj (leaves.ends.symm.trans same)) last
  rcases stays with ⟨_, node, there, rfl⟩
  exact there

/-- Let a preferred expression below maps get a resolved value in a pass, and let no map above it be
replaced as a whole in the passes after that. A value that is no collection stays in all later
documents. Any value stays through all passes in which no merge above it lets the stubs override
plain values. In a pass in which one does, the scalars inside a collection give way to what the
stubs have for them. -/
theorem preferred_persists (ordinary : markerKey ∉ keys)
    (found : visit? answers stubs template early (keys.map .field) = some leaf)
    (holds : leaf.node.expression? leaf.binding.path = some (.ok expression))
    (preferred : expression.isPreferred)
    (first : treeAfter answers stubs (early + 1) template = .ok after)
    (position : after.at? (keys.map .field) = some value) (resolved : value.isResolved)
    (last : treeAfter answers stubs (early + 1 + passes) template = .ok document)
    (kept : ∀ middle, early + 1 ≤ middle → middle < early + 1 + passes →
      ∀ count < keys.length, ∀ inner,
        visit? answers stubs template middle ((keys.take count).map .field) = some inner →
        inner.isReplaced (Expression.evaluate Expression.callDepth) = false) :
    (value.kind ≠ .map → value.kind ≠ .list →
      document.at? (keys.map .field) = some value) ∧
    ((∀ middle visit, early + 1 ≤ middle → middle < early + 1 + passes →
        visit? answers stubs template middle (keys.map .field) = some visit → visit.mode ≠ .all) →
      document.at? (keys.map .field) = some value) ∧
    (document.at? (keys.map .field) = some value →
      (∀ stub ∈ stubs, stub.isResolved) → value.annotations.replace = false →
      value.value.isBare → ∀ visit next,
        visit? answers stubs template (early + 1 + passes) (keys.map .field) = some visit →
        visit.mode = .all → treeAfter answers stubs (early + 1 + passes + 1) template = .ok next →
        next.at? (keys.map .field) =
          some (value.overlaidInside stubs visit.binding.stubPath)) := by
  -- The pass that evaluates the expression marks what it leaves.
  have marked : value.annotations.preferred := by
    rcases visit?_pass found first with ⟨before, _, visited, pass⟩
    rcases run_visit pass visited with ⟨_, _, _, result, leaves⟩
    have stands := leaves.stands
    have route : leaf.route = keys.map .field := Pass.follow_keys visited
    rw [route, position, Option.some.injEq] at stands
    subst stands
    exact Pass.visit_preferred holds preferred leaves.ends resolved
  rcases leads_of_kept ordinary first position last kept with ⟨leads, _⟩
  refine ⟨fun noMap noList => ?_, fun quiet => ?_, fun stands whole fresh bare visit next visited
    loud run => ?_⟩
  · exact stays_at_keys first position leads last fun _ _ _ _ _ => Pass.visit_preferredScalar marked
      (Node.isLocallyResolved_of_isResolved resolved) noMap noList
  · exact stays_at_keys first position leads last fun middle visit late soon found =>
      Pass.visit_of_isResolved value (quiet middle visit late soon found) resolved
  · rcases visit?_pass visited run with ⟨before, reached, here, pass⟩
    cases last.symm.trans reached
    rcases run_visit pass here with ⟨held, stubsSame, _, result, leaves⟩
    cases stands.symm.trans held
    have route : visit.route = keys.map .field := Pass.follow_keys here
    have ends := leaves.ends
    rw [loud, Pass.visit_overlaidInside (stubsSame.symm ▸ whole) marked fresh bare resolved,
      Except.ok.injEq] at ends
    rw [← route, leaves.stands, ← ends, stubsSame]

/-- A map with a preferred expression that merges one pass later. -/
def preferring (source : String) : Node :=
  .mk (.map [
    ("F", .mk (.map [(markerKey, .mk (.text "(( y ))") {}), ("p", .mk (.text source) {})]) {}),
    ("y", .mk (.text "(( z ))") {}),
    ("z", .mk (.map [("k", .mk (.integer 2) {})]) {})]) {}

/-- A stub with something for the expression. -/
def against (value : Value) : List Node :=
  [.mk (.map [("F", .mk (.map [("p", .mk value {})]) {})]) {}]

/-- The visit of the expression in the first pass. -/
theorem preferring_visit {source : String} {stubs : List Node}
    (visited : (visit? .none stubs (preferring source) 0 (["F", "p"].map .field)).any
      fun leaf => leaf.binding.path == ["F", "p"]) :
    ∃ leaf, visit? .none stubs (preferring source) 0 (["F", "p"].map .field) = some leaf ∧
      leaf.node = .mk (.text source) {} ∧ leaf.binding.path = ["F", "p"] := by
  rcases (Option.any_eq_true _ _).mp visited with ⟨leaf, found, path⟩
  rcases visit?_eq_some_iff.mp found with ⟨before, begun, visited⟩
  cases begun
  exact ⟨leaf, found, (Option.some.inj (Pass.follow_node visited)).symm, beq_iff_eq.mp path⟩

/-- No map above is replaced in the second pass. -/
theorem kept_of_checked
    (checked : ∀ count < keys.length, (visit? answers stubs template 1
      ((keys.take count).map .field)).all fun inner =>
        !inner.isReplaced (Expression.evaluate Expression.callDepth)) :
    ∀ middle, 0 + 1 ≤ middle → middle < 0 + 1 + 1 → ∀ count < keys.length, ∀ inner,
      visit? answers stubs template middle ((keys.take count).map .field) = some inner →
      inner.isReplaced (Expression.evaluate Expression.callDepth) = false := by
  intro middle late soon count bound inner held
  cases Nat.le_antisymm (Nat.le_of_lt_succ soon) late
  have unreplaced := checked count bound
  rwa [held, Option.all_some, Bool.not_eq_true'] at unreplaced

theorem preferred_persists_scalar :
    let template := preferring "(( prefer 1 ))"
    let stubs := against (.integer 9)
    ∃ value document, treeAfter .none stubs 2 template = .ok document ∧
      document.at? (["F", "p"].map .field) = some value ∧ value.value = .integer 1 := by
  intro template stubs
  have visited : (visit? .none stubs template 0 (["F", "p"].map .field)).any
      fun leaf => leaf.binding.path == ["F", "p"] := by decide +kernel
  rcases preferring_visit visited with ⟨leaf, found, node, path⟩
  have holds : leaf.node.expression? leaf.binding.path = some (.ok (.prefer (.integer 1))) := by
    rw [node, path]
    cbv
  obtain ⟨after, first, shown⟩ : ∃ after,
      (treeAfter .none stubs 1 template).toOption = some after ∧
        (after.at? (["F", "p"].map .field)).any fun value => value.value.same (.integer 1) :=
    (Option.any_eq_true _ _).mp (by decide +kernel)
  obtain ⟨document, last⟩ : ∃ document,
      (treeAfter .none stubs 2 template).toOption = some document :=
    Option.isSome_iff_exists.mp (by decide +kernel)
  rw [toOption_eq_some_iff] at first last
  rcases (Option.any_eq_true _ _).mp shown with ⟨⟨value, annotations⟩, position, one⟩
  cases value with
  | integer number =>
      have same : number == 1 := one
      cases beq_iff_eq.mp same
      rcases preferred_persists (by decide) found holds rfl first position rfl last
        (kept_of_checked (by decide +kernel)) with ⟨stays, _⟩
      exact ⟨_, document, last, stays Kind.noConfusion Kind.noConfusion, rfl⟩
  | _ => cases one

/-! The scalars inside a list are not marked. -/

theorem preferred_overridden :
    ¬ ∀ (answers : Answers) (stubs : List Node) (template after document value : Node)
        (keys : List String) (early passes : Nat) (leaf : Visit) (expression : Expression),
      (∀ stub ∈ stubs, stub.isResolved) → markerKey ∉ keys →
      visit? answers stubs template early (keys.map .field) = some leaf →
      leaf.node.expression? leaf.binding.path = some (.ok expression) → expression.isPreferred →
      expression.isElementary → treeAfter answers stubs (early + 1) template = .ok after →
      after.at? (keys.map .field) = some value → value.isResolved →
      treeAfter answers stubs (early + 1 + passes) template = .ok document →
      (∀ middle, early + 1 ≤ middle → middle < early + 1 + passes →
        ∀ count < keys.length, ∀ inner,
          visit? answers stubs template middle ((keys.take count).map .field) = some inner →
          inner.isReplaced (Expression.evaluate Expression.callDepth) = false) →
      document.at? (keys.map .field) = some value := by
  intro claim
  let template := preferring "(( prefer [1] ))"
  let stubs := against (.list [.mk (.integer 9) {}])
  have visited : (visit? .none stubs template 0 (["F", "p"].map .field)).any
      fun leaf => leaf.binding.path == ["F", "p"] := by decide +kernel
  rcases preferring_visit visited with ⟨leaf, found, node, path⟩
  have holds : leaf.node.expression? leaf.binding.path =
      some (.ok (.prefer (.list [.integer 1]))) := by
    rw [node, path]
    cbv
  obtain ⟨after, first, shown⟩ : ∃ after,
      (treeAfter .none stubs 1 template).toOption = some after ∧
        (after.at? (["F", "p"].map .field)).any fun value =>
          value.isResolved && value.same (.mk (.list [.mk (.integer 1) {}]) {}) :=
    (Option.any_eq_true _ _).mp (by decide +kernel)
  obtain ⟨document, last, shown'⟩ : ∃ document,
      (treeAfter .none stubs 2 template).toOption = some document ∧
        (document.at? (["F", "p"].map .field)).any fun value =>
          !value.same (.mk (.list [.mk (.integer 1) {}]) {}) :=
    (Option.any_eq_true _ _).mp (by decide +kernel)
  rw [toOption_eq_some_iff] at first last
  rcases (Option.any_eq_true _ _).mp shown with ⟨value, position, here⟩
  rw [Bool.and_eq_true] at here
  have stays := claim .none stubs template after document value ["F", "p"] 0 1 leaf _ (by decide)
    (by decide) found holds rfl (by decide) first position here.1 last
    (kept_of_checked (by decide +kernel))
  rw [stays, Option.any_some, here.2] at shown'
  cases shown'

end Resolution

end Stencil
