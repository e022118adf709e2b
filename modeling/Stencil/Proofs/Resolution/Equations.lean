import Stencil.Proofs.Resolution.Elementary
import Stencil.Proofs.Resolution.Site

namespace Stencil

/-! A resolved document solves its own equations. Each expression was evaluated in some
pass against the document as it was then. From that pass on the document was only
refined, and evaluation is stable, so the expression still has that value in the end. -/

/-- A simple collection around something unresolved is not plain: nothing is merged into it or
redirected, and the child is simple in its place. -/
theorem Node.simple_of_descend {binding below : Binding} {node child : Node} {step : Step}
    (place : binding.IsSimple) (simple : node.isSimple)
    (found : node.descend binding step = some (below, child))
    (unresolved : child.isResolved = false) :
    below.IsSimple ∧ child.isSimple ∧ node.mergesNothing ∧ node.redirect = none := by
  rcases Node.simple_cases simple with whole | ⟨direct, simple⟩
  · have resolved := Node.isResolved_of_descend (Node.isResolved_of_isPlain whole) found
    rw [unresolved] at resolved
    cases resolved
  · rcases Node.descend_cases found with
      ⟨key, fields, annotations, rfl, rfl, held, rfl⟩ |
      ⟨index, entries, annotations, rfl, rfl, held, rfl⟩
    · exact ⟨(place.withScope simple).withPath key, (lookup_simple simple held).2,
        markerResolved_of_simple simple, direct⟩
    · exact ⟨place.withPath _, member_simple simple (List.mem_of_getElem? held),
        markersResolved_of_simple simple, direct⟩

theorem Node.simple_of_reach {binding site : Binding} {node leaf : Node} {route : List Step}
    (place : binding.IsSimple) (simple : node.isSimple)
    (reached : node.reach binding route = some (site, leaf))
    (unresolved : leaf.isResolved = false) :
    site.IsSimple ∧ leaf.isSimple ∧
      ∀ above ∈ node.above route, above.mergesNothing ∧ above.redirect = none := by
  induction route generalizing node binding with
  | nil =>
      cases reached
      exact ⟨place, simple, nofun⟩
  | cons step route induction =>
      rcases Node.reach_cons reached with ⟨below, child, first, rest⟩
      have pending : child.isResolved = false := by
        cases resolved : child.isResolved with
        | false => rfl
        | true =>
            rw [Node.isResolved_of_reach resolved rest] at unresolved
            cases unresolved
      rcases Node.simple_of_descend place simple first pending with ⟨place, within, alone⟩
      rcases induction place within rest with ⟨site, leaf, others⟩
      rw [Node.above_cons (Node.below?_of_descend first), List.forall_mem_cons]
      exact ⟨site, leaf, alone, others⟩

namespace Pass

variable {evaluator : Evaluator}

/-- A pass over a simple tree visits a leaf that is not resolved in its place, and puts it back
where it was. -/
theorem visit_reach {binding site : Binding} {mode : Override}
    {node node' leaf : Node} {route : List Step} (place : binding.IsSimple)
    (quiet : mode ≠ .all) (simple : node.isSimple)
    (ends : visit evaluator binding mode node = .ok node')
    (reached : node.reach binding route = some (site, leaf))
    (unresolved : leaf.isResolved = false) :
    site.IsSimple ∧ leaf.isSimple ∧
      node'.modeAlong mode route = node.modeAlong mode route ∧ node.modeAlong mode route ≠ .all ∧
      ∃ leaf', visit evaluator site (node.modeAlong mode route) leaf = .ok leaf' ∧
        node'.at? route = some leaf' := by
  rcases Node.simple_of_reach place simple reached unresolved with ⟨place, simple, alone⟩
  rcases visit_at alone reached ends with ⟨modes, leaf', stands, visited⟩
  exact ⟨place, simple, modes, Node.modeAlong_ne_all quiet, leaf', visited, stands⟩

end Pass

/-- What an expression evaluates to it also evaluates to at the same place of refined scopes. -/
theorem Binding.RefinedBy.value {place site : Binding} {expression : Expression}
    {source : Option String} {value : Node} {report : Report}
    (refined : place.RefinedBy .contents site) (settled : place.listsSettled)
    (evaluated : Expression.evaluate Expression.callDepth (place.withSource source) expression =
      .ok (.value value report)) (other : Option String) :
    ∃ value' report',
      Expression.evaluate Expression.callDepth (site.withSource other) expression =
          .ok (.value value' report') ∧
        value'.masked .contents = value.masked .contents := by
  have settled : (place.withSource source).listsSettled := settled
  have refined : (place.withSource source).RefinedBy .contents (site.withSource other) :=
    { refined with source := rfl }
  have precedes := Expression.evaluate_precedes Expression.callDepth _ _ expression
    (refined.precedes settled)
  rw [evaluated] at precedes
  rcases precedes.final rfl with ⟨outcome, evaluated', equal⟩
  cases outcome with
  | value value' report' =>
      rw [Outcome.masked, Outcome.masked, Outcome.value.injEq] at equal
      exact ⟨value', report', evaluated', equal.1⟩
  | deferred report' | failed report' => cases equal

namespace Resolution

variable {answers : Answers} {stubs : List Node} {template : Node}

theorem root_simple (plain : ∀ stub ∈ stubs, stub.isPlain) : (root answers stubs).IsSimple :=
  ⟨rfl, rfl, plain, fun _ member => by cases member⟩

theorem run_simple (plain : ∀ stub ∈ stubs, stub.isPlain) {before after : Node}
    (simple : before.isSimple) (pass : Pass.run answers stubs before = .ok after) :
    before.Yields after := by
  have quiet := Override.expressions_ne_all
  exact Pass.visit_simple (Expression.evaluate_plain _) before (root_simple plain) quiet simple pass

theorem run_elementary (plain : ∀ stub ∈ stubs, stub.isPlain) {before after : Node}
    (elementary : before.isElementary []) (pass : Pass.run answers stubs before = .ok after) :
    after.isElementary [] ∧ before.RefinedBy after := by
  rw [Node.isElementary_iff] at elementary ⊢
  have yields := run_simple plain elementary.1 pass
  exact ⟨⟨yields.simple, yields.settled elementary.2⟩, yields.refined⟩

theorem treeAfter_elementary (plain : ∀ stub ∈ stubs, stub.isPlain)
    (elementary : template.isElementary []) {passes : Nat} {document : Node}
    (reached : treeAfter answers stubs passes template = .ok document) :
    document.isElementary [] := by
  refine treeAfter_invariant (motive := fun document => document.isElementary []) elementary ?_
    reached
  intro before after elementary pass
  exact (run_elementary plain elementary pass).1

theorem treeAfter_refined (plain : ∀ stub ∈ stubs, stub.isPlain)
    (elementary : template.isElementary []) {early passes : Nat} {before after : Node}
    (first : treeAfter answers stubs early template = .ok before)
    (last : treeAfter answers stubs (early + passes) template = .ok after) :
    before.RefinedBy after := by
  refine treeAfter_related Node.RefinedBy.refl (fun _ _ _ => Node.RefinedBy.trans)
    (fun _ _ => treeAfter_elementary plain elementary) ?_ first last
  intro before after elementary pass
  exact (run_elementary plain elementary pass).2

/-- The binding of the whole document stays the same. -/
theorem root_refined : (root answers stubs).RefinedBy .contents (root answers stubs) :=
  ⟨⟨rfl, rfl, rfl, rfl, rfl, rfl⟩, .nil⟩

/-- An expression that evaluates to a value does so at the same position of every document
that is further along. -/
theorem evaluate_refined {before after : Node} {route : List Step} {place : Binding} {node : Node}
    {expression : Expression} {source : Option String} {value : Node} {report : Report}
    (settled : before.listsSettled) (refined : before.RefinedBy after)
    (reached : before.reach (root answers stubs) route = some (place, node))
    (evaluated : Expression.evaluate Expression.callDepth (place.withSource source) expression =
      .ok (.value value report)) :
    ∃ site held, after.reach (root answers stubs) route = some (site, held) ∧
      site.path = place.path ∧
      ∀ source, ∃ value' report',
        Expression.evaluate Expression.callDepth (site.withSource source) expression =
            .ok (.value value' report') ∧
          value'.masked .contents = value.masked .contents := by
  rcases refined.reach root_refined settled reached with ⟨site, held, reachedHeld, sites, _⟩
  have around : place.listsSettled := Binding.listsSettled_of_reach rfl settled reached
  exact ⟨site, held, reachedHeld, sites.path.symm, sites.value around evaluated⟩

/-- A pass that replaces an expression at a place that no stub has puts its value there. -/
theorem run_replaces (plain : ∀ stub ∈ stubs, stub.isPlain) {before after : Node}
    {route : List Step} {place : Binding} {node : Node} {expression : Expression}
    (elementary : before.isElementary []) (pass : Pass.run answers stubs before = .ok after)
    (reached : before.reach (root answers stubs) route = some (place, node))
    (holds : node.expression? place.path = some (.ok expression))
    (alone : ∀ stub ∈ stubs, (stub.find place.path).found? = none) :
    ∃ site node', after.reach (root answers stubs) route = some (site, node') ∧
      site.path = place.path ∧
      (node'.expression? place.path = some (.ok expression) ∨
        node'.isResolved ∧ ∃ value report,
          Expression.evaluate Expression.callDepth (place.withSource node.source) expression =
              .ok (.value value report) ∧
            node'.value = value.value) := by
  have unresolved := Node.unresolved_of_expression holds
  have quiet := Override.expressions_ne_all
  rw [Node.isElementary_iff] at elementary
  rcases Pass.visit_reach (root_simple plain) quiet elementary.1 pass reached unresolved with
    ⟨within, simple, _, _, node', visited, stands⟩
  rcases Node.reach_of_at? stands (root answers stubs) with ⟨site, reached'⟩
  have path : site.path = place.path := by
    rcases (run_simple plain elementary.1 pass).refined.reach
        root_refined elementary.2 reached
      with ⟨other, _, reachedOther, same, _⟩
    rw [reached', Option.some.injEq, Prod.mk.injEq] at reachedOther
    rw [reachedOther.1, ← same.path]
  refine ⟨site, node', reached', path, ?_⟩
  rcases Node.holds_of_simple simple (Node.not_resolved_of_expression holds) with ⟨_, held⟩
  have same := held.holds place.path
  rw [holds, Option.some.injEq, Except.ok.injEq] at same
  subst same
  have none : place.findInStubs? place.stubPath = none := by
    rw [within.stubPath, Node.findInStubs?_of_reach reached]
    exact List.findSome?_eq_none_iff.mpr alone
  rcases Pass.visit_expression holds held.direct none visited with
    ⟨kept, _⟩ | ⟨value, report, evaluated, same⟩
  · exact .inl kept
  · refine .inr ⟨?_, value, report, evaluated, same⟩
    rw [Node.isResolved_congr same]
    exact Node.isResolved_of_isPlain
      (Expression.evaluate_plain _ (within.withSource _).findsPlain held.elementary evaluated)

/-- An expression of the template, at a place that no stub has, evaluates in the resolved
document to what the document holds there. -/
theorem document_equation {resolution : Resolution} (plain : ∀ stub ∈ stubs, stub.isPlain)
    (elementary : template.isElementary [])
    (result : whole answers stubs template = .ok (.ok resolution)) {route : List Step}
    {site : Binding} {leaf : Node} {expression : Expression}
    (position : template.reach (root answers stubs) route = some (site, leaf))
    (holds : leaf.expression? site.path = some (.ok expression))
    (alone : ∀ stub ∈ stubs, (stub.find site.path).found? = none) :
    ∃ site' held, resolution.document.reach (root answers stubs) route = some (site', held) ∧
      site'.path = site.path ∧
      ∀ source, ∃ value report,
        Expression.evaluate Expression.callDepth (site'.withSource source) expression =
            .ok (.value value report) ∧
          value.masked .contents = held.masked .contents := by
  rcases final_of_whole result with ⟨final, resolved⟩
  -- The expression stands at its place until a pass replaces it.
  let pending (document : Node) : Prop := ∃ place node,
    document.reach (root answers stubs) route = some (place, node) ∧ place.path = site.path ∧
      node.expression? site.path = some (.ok expression)
  have done : ¬ pending resolution.document := by
    rintro ⟨place, node, reached, _, holds⟩
    exact Node.not_expression_of_isResolved (Node.isResolved_of_reach resolved reached) holds
  obtain ⟨early, before, after, earlier, reachedBefore, ⟨place, node, reached, path, still⟩, pass,
    replaced⟩ := treeAfter_change ⟨site, leaf, position, rfl, holds⟩ final done
  have elementaryBefore := treeAfter_elementary plain elementary reachedBefore
  have reachedAfter := treeAfter_succ reachedBefore pass
  have elementaryAfter := treeAfter_elementary plain elementary reachedAfter
  rw [← path] at still alone
  rcases run_replaces plain elementaryBefore pass reached still alone with
    ⟨place', node', reached', path', outcome⟩
  rcases outcome with kept | ⟨whole, value, report, evaluated, same⟩
  · rw [path] at path' kept
    exact absurd ⟨place', node', reached', path', kept⟩ replaced
  -- The value stays until the end, and so does all that it was computed from.
  have refinedAfter : after.RefinedBy resolution.document :=
    treeAfter_refined plain elementary reachedAfter
      (by rw [Nat.add_sub_of_le earlier]; exact final)
  have refinedBefore := (run_elementary plain elementaryBefore pass).2.trans refinedAfter
  rcases refinedAfter.reach root_refined
      (Node.isElementary_iff.mp elementaryAfter).2 reached'
    with ⟨_, held, reachedHeld, _, refinedHeld⟩
  cases refinedHeld.eq_of_isResolved whole
  rcases evaluate_refined
      (Node.isElementary_iff.mp elementaryBefore).2 refinedBefore reached evaluated
    with ⟨site', _, reachedAgain, sites, equation⟩
  rw [reachedHeld, Option.some.injEq, Prod.mk.injEq] at reachedAgain
  rcases reachedAgain with ⟨rfl, rfl⟩
  refine ⟨_, node', reachedHeld, sites.trans path, fun source => ?_⟩
  rcases equation source with ⟨value', report', evaluated', equal⟩
  exact ⟨value', report', evaluated', equal.trans (Node.masked_contents_congr same.symm)⟩

/-- A field of the map around is found from inside another map. -/
theorem document_equation_reference :
    let expression : Expression := .binary .fallback (.reference ["size"]) (.integer 0)
    let document (leaf : Node) : Node := .mk (.map [("size", .mk (.integer 2) {}),
      ("box", .mk (.map [("width", leaf)]) {})]) {}
    let stubs : List Node := [.mk (.map [("size", .mk (.integer 3) {})]) {}]
    ∃ site' held,
      (document (.mk (.integer 2) {})).reach (root .none stubs) [.field "box", .field "width"] =
          some (site', held) ∧
        site'.path = ["box", "width"] ∧
        ∀ source, ∃ value report,
          Expression.evaluate Expression.callDepth (site'.withSource source) expression =
              .ok (.value value report) ∧
            value.masked .contents = held.masked .contents := by
  intro expression document stubs
  let leaf : Node := .mk (.expression expression) {}
  have plain : ∀ stub ∈ stubs, stub.isPlain := by decide
  have elementary : (document leaf).isElementary [] := by decide
  have result : whole .none stubs (document leaf) =
      .ok (.ok ⟨document (.mk (.integer 2) {}), [], 2⟩) := rfl
  have alone : ∀ stub ∈ stubs, (stub.find ["box", "width"]).found? = none :=
    List.forall_mem_singleton.mpr rfl
  obtain ⟨site, position, path⟩ : ∃ site, (document leaf).reach (root .none stubs)
      [.field "box", .field "width"] = some (site, leaf) ∧ site.path = ["box", "width"] :=
    ⟨_, rfl, rfl⟩
  rw [← path] at alone ⊢
  exact document_equation plain elementary result position rfl alone

end Resolution

end Stencil
