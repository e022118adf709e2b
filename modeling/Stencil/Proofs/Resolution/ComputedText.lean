import Stencil.Proofs.Resolution.Passage
import Stencil.Proofs.Resolution.Persistence

namespace Stencil

/-! A text that an expression has for its value. Between two passes a value and a source share one
representation: a text is data for good unless it is an embedded expression itself, and then the
next pass reads it as one. -/

/-- Where every entry is visited, none of them moves. -/
theorem EntryStep.offset_visits {entries : List Node} {index : Nat}
    (bound : index ≤ entries.length) :
    offset (entries.map fun _ => .visit) index = index := by
  induction entries generalizing index with
  | nil =>
      cases Nat.le_zero.mp bound
      rfl
  | cons entry entries induction =>
      cases index with
      | zero => rfl
      | succ index =>
          rw [List.map_cons, offset_succ, length, induction (Nat.le_of_succ_le_succ bound),
            Nat.add_comm]

namespace Pass

variable {evaluator : Evaluator} {visit next last : Visit} {step : Step} {route : List Step}
  {binding : Binding} {mode : Override}

theorem Enters.route_of_unmarked (entered : Enters evaluator visit step next)
    (unmarked : visit.node.isUnmarked) : next.route = visit.route ++ [step] := by
  cases entered with
  | field planned ordinary held => rfl
  | @entry _ _ _ _ entries annotations index _ steps _ _ planned visited held =>
      have resolved : markersResolved entries := unmarked
      rw [ListPlan.ofEntries_of_resolved resolved] at planned
      cases planned
      rw [EntryStep.offset_visits (Nat.le_of_lt (List.getElem?_eq_some_iff.mp held).1)]

/-- Without merges on the way, the result stands where the node was. -/
theorem follow_unmarked (followed : follow evaluator visit route = .ok (some last))
    (unmarked : ∀ above ∈ visit.node.above route, above.isUnmarked) :
    last.route = visit.route ++ route := by
  induction route generalizing visit with
  | nil =>
      cases followed
      exact (List.append_nil _).symm
  | cons step route induction =>
      rcases follow_cons followed with ⟨next, entered, followed⟩
      have entered := enters entered
      rw [Node.above_cons entered.node, List.forall_mem_cons] at unmarked
      rw [induction followed unmarked.2, entered.route_of_unmarked unmarked.1, List.append_assoc]
      rfl

/-- An embedded expression is read and evaluated. Where it cannot be read, the text stays, with an
issue. -/
theorem visit_embedded {node node' : Node} {text source : String} (shows : node.value = .text text)
    (embedded : Text.embedded? text = some source)
    (alone : stubFor? node (binding.withSource node.source) mode = none)
    (ends : Pass.visit evaluator binding mode node = .ok node') :
    match Expression.parse source binding.path with
    | .error error => node' = node.withIssue (some (.unparseable error))
    | .ok inner => ∃ outcome, evaluator (binding.withSource node.source) inner = .ok outcome ∧
        node' = ofOutcome node inner outcome := by
  rcases node with ⟨value, annotations⟩
  cases shows
  cases parsed : Expression.parse source binding.path with
  | ok inner =>
      have holds : (Node.mk (.text text) annotations).expression? binding.path =
          some (.ok inner) := by
        simp only [Node.expression?, Node.value_mk, embedded, Option.map_some, parsed]
      exact visit_outcome holds alone ends
  | error error =>
      have holds : (Node.mk (.text text) annotations).expression?
          (binding.withSource annotations.source).path = some (.error (.unparseable error)) := by
        simp only [Node.expression?, Node.value_mk, embedded, Option.map_some]
        rw [show (binding.withSource annotations.source).path = binding.path from rfl, parsed]
      rcases Node.leaf_of_expression holds with ⟨noMap, noList⟩
      have ends : evaluateNode evaluator (binding.withSource annotations.source)
          (.mk (.text text) annotations) = .ok node' := by
        rwa [visit_leaf noMap noList, leaf, alone, Option.getD_none] at ends
      rw [evaluateNode, holds] at ends
      exact (Except.ok.inj ends).symm

end Pass

namespace Resolution

variable {answers : Answers} {stubs : List Node} {template before after result : Node}
  {early : Nat} {route : List Step} {leaf : Visit} {expression : Expression} {report : Report}
  {text : String}

/-- The value stands where the expression was. -/
theorem value_at
    (found : visit? answers stubs template early route = some leaf)
    (start : treeAfter answers stubs early template = .ok before)
    (unmarked : ∀ node ∈ before.above route, node.isUnmarked)
    (holds : leaf.node.expression? leaf.binding.path = some (.ok expression))
    (alone : Pass.stubFor? leaf.node (leaf.binding.withSource leaf.node.source) leaf.mode = none)
    (evaluated : Expression.evaluate Expression.callDepth
      (leaf.binding.withSource leaf.node.source) expression = .ok (.value result report))
    (first : treeAfter answers stubs (early + 1) template = .ok after) :
    ∃ node, after.at? route = some node ∧ node.value = result.value ∧
      (∀ above ∈ after.above route, above.kind = .map → above.isUnmarked) ∧
      ((root answers stubs).IsUnmarked → ∀ above ∈ after.above route, above.isUnmarked) := by
  rcases visit?_pass found first with ⟨same, run, visited, pass⟩
  cases start.symm.trans run
  rcases run_visit pass visited with ⟨held, _, _, node', leaves⟩
  have stands := leaves.stands
  have place : leaf.route = route := Pass.follow_unmarked visited unmarked
  rw [place] at stands
  rcases Pass.visit_outcome holds alone leaves.ends with ⟨outcome, ends, rfl⟩
  cases evaluated.symm.trans ends
  rcases (Pass.VisitedIn.of_visit Override.expressions_ne_all pass).surroundings unmarked held with
    ⟨maps, all⟩
  exact ⟨_, stands, rfl, maps,
    all (Expression.evaluate_preserves Value.withoutMarkers_inherited _)⟩

/-- Let a pass evaluate an expression around which no merge is pending to a text. If the text is no
embedded expression, all later documents hold it as it is, up to the first pass that starts with a
merge pending around it; without markers in the stubs and in what comes from the outside there is
no such pass. If it is one, the next pass reads it and evaluates it. -/
theorem computed_text
    (found : visit? answers stubs template early route = some leaf)
    (start : treeAfter answers stubs early template = .ok before)
    (unmarked : ∀ node ∈ before.above route, node.isUnmarked)
    (holds : leaf.node.expression? leaf.binding.path = some (.ok expression))
    (alone : Pass.stubFor? leaf.node (leaf.binding.withSource leaf.node.source) leaf.mode = none)
    (evaluated : Expression.evaluate Expression.callDepth
      (leaf.binding.withSource leaf.node.source) expression = .ok (.value result report))
    (shows : result.value = .text text)
    (first : treeAfter answers stubs (early + 1) template = .ok after) :
    ∃ node, after.at? route = some node ∧ node.value = .text text ∧
      (Text.embedded? text = none → ∀ passes document,
        treeAfter answers stubs (early + 1 + passes) template = .ok document →
          ((∀ middle document, early + 1 ≤ middle → middle < early + 1 + passes →
              treeAfter answers stubs middle template = .ok document →
                ∀ above ∈ document.above route, above.kind = .list → above.isUnmarked) →
            document.at? route = some node) ∧
          ((∀ stub ∈ stubs, stub.withoutMarkers) →
            (answers.Provide fun value => value.withoutMarkers) →
            document.at? route = some node)) ∧
      ∀ source, Text.embedded? text = some source → ∀ next final,
        visit? answers stubs template (early + 1) route = some next →
        Pass.stubFor? node (next.binding.withSource node.source) next.mode = none →
        treeAfter answers stubs (early + 2) template = .ok final →
        match Expression.parse source next.binding.path with
        | .error error => final.at? next.route = some (node.withIssue (some (.unparseable error)))
        | .ok inner => ∃ outcome,
            Expression.evaluate Expression.callDepth (next.binding.withSource node.source) inner =
                .ok outcome ∧
              final.at? next.route = some (Pass.ofOutcome node inner outcome) := by
  rcases value_at found start unmarked holds alone evaluated first with
    ⟨node, stands, same, maps, all⟩
  rw [shows] at same
  refine ⟨node, stands, same, fun plain passes document last => ?_,
    fun source embedded next final there alone last => ?_⟩
  · have resolved : node.isResolved := by
      rcases node with ⟨value, annotations⟩
      cases same
      exact Option.isNone_iff_eq_none.mpr plain
    exact ⟨fun lists => (treeAfter_above first stands resolved maps last lists).1,
      fun stubsUnmarked outside => (treeAfter_above_of_unmarked stubsUnmarked outside first stands
        resolved (all ⟨stubsUnmarked, outside⟩) last).1⟩
  · rcases visit?_pass there last with ⟨_, run, visited, pass⟩
    cases first.symm.trans run
    rcases run_visit pass visited with ⟨held, _, _, node', leaves⟩
    cases stands.symm.trans held
    have read := Pass.visit_embedded same embedded alone leaves.ends
    cases parsed : Expression.parse source next.binding.path with
    | error error =>
        simp only [parsed] at read ⊢
        rw [leaves.stands, read]
    | ok inner =>
        simp only [parsed] at read ⊢
        rcases read with ⟨outcome, ends, rfl⟩
        exact ⟨outcome, ends, leaves.stands⟩

/-- Whether an expression is made of texts that stand side by side. -/
def isJoined : Expression → Bool
  | .text _ => true
  | .binary .concatenation left right => isJoined left && isJoined right
  | _ => false

/-- A list with one entry. -/
def single (source : String) : Node :=
  .mk (.map [("l", .mk (.list [.mk (.text source) {}]) {})]) {}

/-- What the first pass does at the entry. -/
theorem single_visit {source text text' : String}
    (visited : (visit? .none [] (single source) 0 [.field "l", .entry 0]).any
      fun leaf => leaf.binding.path == ["l", "[0]"])
    (holds : (Node.mk (.text source) {}).expression? ["l", "[0]"] =
      some (.ok (.binary .concatenation (.text text) (.text text')))) :
    ∃ leaf result report, visit? .none [] (single source) 0 [.field "l", .entry 0] = some leaf ∧
      leaf.node.expression? leaf.binding.path =
        some (.ok (.binary .concatenation (.text text) (.text text'))) ∧
      Pass.stubFor? leaf.node (leaf.binding.withSource leaf.node.source) leaf.mode = none ∧
      Expression.evaluate Expression.callDepth (leaf.binding.withSource leaf.node.source)
        (.binary .concatenation (.text text) (.text text')) = .ok (.value result report) ∧
      result.value = .text (text ++ text') := by
  rcases (Option.any_eq_true _ _).mp visited with ⟨leaf, found, path⟩
  rcases visit?_eq_some_iff.mp found with ⟨before, begun, visited⟩
  cases begun
  have node : Node.mk (.text source) {} = leaf.node := Option.some.inj (Pass.follow_node visited)
  have stubs : leaf.binding.stubs = [] := (Pass.follow_binding visited).1
  refine ⟨leaf, _, _, found, ?_, ?_, rfl, rfl⟩
  · rw [← node, beq_iff_eq.mp path, holds]
  · have none (path : List String) :
        (leaf.binding.withSource leaf.node.source).findInStubs? path = none := by
      show leaf.binding.stubs.findSome? _ = none
      rw [stubs]
      rfl
    simp only [Pass.stubFor?, none, Option.map_none, ite_self]

theorem computed_text_joined :
    ∃ node document, treeAfter .none [] 3 (single "(( \"a\" \"b\" ))") = .ok document ∧
      document.at? [.field "l", .entry 0] = some node ∧ node.value = .text "ab" := by
  let template := single "(( \"a\" \"b\" ))"
  have holds : (Node.mk (.text "(( \"a\" \"b\" ))") {}).expression? ["l", "[0]"] =
      some (.ok (.binary .concatenation (.text "a") (.text "b"))) := by cbv
  rcases single_visit (by decide +kernel) holds with
    ⟨leaf, result, report, found, read, alone, evaluated, value⟩
  obtain ⟨after, first⟩ : ∃ after, (treeAfter .none [] 1 template).toOption = some after :=
    Option.isSome_iff_exists.mp (by decide +kernel)
  obtain ⟨document, last⟩ : ∃ document, (treeAfter .none [] 3 template).toOption = some document :=
    Option.isSome_iff_exists.mp (by decide +kernel)
  rw [toOption_eq_some_iff] at first last
  have outside : Answers.none.Provide fun value => value.withoutMarkers :=
    { settings := fun known => by cases known
      file := fun known => by cases known
      output := fun known => by cases known }
  rcases computed_text found rfl (by decide +kernel) read alone evaluated value first with
    ⟨node, _, shows, stays, _⟩
  have there := (stays (by decide) 2 document last).2 (List.forall_mem_nil _) outside
  exact ⟨node, document, last, there, shows⟩

/-! A text that is an embedded expression does not stay. -/

theorem computed_text_evaluated :
    ¬ ∀ (answers : Answers) (stubs : List Node) (template before : Node) (early : Nat)
        (route : List Step) (leaf : Visit) (expression : Expression) (result : Node)
        (report : Report) (text : String),
      visit? answers stubs template early route = some leaf →
      treeAfter answers stubs early template = .ok before →
      (∀ node ∈ before.above route, node.isUnmarked) → isJoined expression →
      leaf.node.expression? leaf.binding.path = some (.ok expression) →
      Pass.stubFor? leaf.node (leaf.binding.withSource leaf.node.source) leaf.mode = none →
      Expression.evaluate Expression.callDepth (leaf.binding.withSource leaf.node.source)
        expression = .ok (.value result report) →
      result.value = .text text → ∀ passes document,
        treeAfter answers stubs (early + 1 + passes) template = .ok document →
          (document.at? route).map Node.value = some (.text text) := by
  intro claim
  let template := single "(( \"((\" \" 1 ))\" ))"
  have holds : (Node.mk (.text "(( \"((\" \" 1 ))\" ))") {}).expression? ["l", "[0]"] =
      some (.ok (.binary .concatenation (.text "((") (.text " 1 ))"))) := by cbv
  rcases single_visit (by decide +kernel) holds with
    ⟨leaf, result, report, found, read, alone, evaluated, value⟩
  obtain ⟨document, last, changed⟩ : ∃ document,
      (treeAfter .none [] 2 template).toOption = some document ∧
        (document.at? [.field "l", .entry 0]).any fun node => node.kind = .integer :=
    (Option.any_eq_true _ _).mp (by decide +kernel)
  rw [toOption_eq_some_iff] at last
  have stays := claim .none [] template template 0 [.field "l", .entry 0] leaf _ result report _
    found rfl (by decide +kernel) rfl read alone evaluated value 1 document last
  rcases Option.map_eq_some_iff.mp stays with ⟨node, there, shows⟩
  rw [there, Option.any_some, decide_eq_true_iff, Node.kind, shows] at changed
  cases changed

end Resolution

end Stencil
