import Mathlib
import Stencil.Proofs.Resolution.Plan
import Stencil.Proofs.Resolution.Run
import Stencil.Proofs.Resolution.Site

namespace Stencil

/-! The way of a pass to a position of its document. What stands there is visited in a binding
and a mode that the markers above it decide, and the result may stand elsewhere: the entries of
a list move where markers among them give way to other entries. There is no way into a
collection that is replaced as a whole, and none to a marker. -/

/-- A node on the way of a pass, with the position of the result in the new document. -/
structure Visit where
  binding : Binding
  mode : Override
  node : Node
  route : List Step

namespace EntryStep

/-- How many entries stand for one. -/
def length : EntryStep → Nat
  | .visit => 1
  | .splice nodes => nodes.length

/-- The index that the entry at an index gets. -/
def offset (steps : List EntryStep) (index : Nat) : Nat :=
  ((steps.take index).map length).sum

theorem offset_succ (step : EntryStep) (steps : List EntryStep) (index : Nat) :
    offset (step :: steps) (index + 1) = step.length + offset steps index := by
  rw [offset, List.take_succ_cons, List.map_cons, List.sum_cons, offset]

end EntryStep

/-- Whether the field under a key is visited, or treated as the marker. -/
def FieldMarker.visits (marker : FieldMarker) (key : String) : Bool :=
  match marker with
  | .ordinary => true
  | _ => key != markerKey

theorem FieldMarker.visits_iff {marker : FieldMarker} {key : String} :
    marker.visits key ↔ marker = .ordinary ∨ key ≠ markerKey := by
  cases marker <;> simp [visits]

namespace Pass

/-- One step further down. -/
def enter (evaluator : Evaluator) (visit : Visit) : Step → Except Pause (Option Visit)
  | .field key =>
      match visit.node with
      | .mk (.map fields) annotations => do
          let inside := (inside visit.binding annotations).withScope fields
          match ← MapPlan.ofFields evaluator inside fields with
          | .replaced _ _ => return none
          | .fields marker redirect base =>
              if marker.visits key then
                return (fields.lookup key).map fun field =>
                  { binding := (followRedirect inside redirect).withPath key
                    mode := visit.mode.entries annotations.replace base.isSome
                    node := field
                    route := visit.route ++ [.field key] }
              else return none
      | _ => return none
  | .entry index =>
      match visit.node with
      | .mk (.list entries) annotations => do
          match ← ListPlan.ofEntries evaluator (entries.filterMap Node.name?)
              (inside visit.binding annotations) none false entries with
          | .replaced _ _ => return none
          | .entries steps place _ merged =>
              match steps[index]?, entries[index]? with
              | some .visit, some entry =>
                  -- The name counts in the new list when the entry has none of its own.
                  let index := EntryStep.offset steps index
                  return some
                    { binding := place.withPath (stepName index entry)
                      mode := entryMode (visit.mode.entries annotations.replace merged) merged entry
                      node := entry
                      route := visit.route ++ [.entry index] }
              | _, _ => return none
      | _ => return none

/-- The way down along a position. -/
def follow (evaluator : Evaluator) (visit : Visit) : List Step → Except Pause (Option Visit)
  | [] => return some visit
  | step :: route => do
      match ← enter evaluator visit step with
      | none => return none
      | some next => follow evaluator next route

/-- The two kinds of steps. -/
inductive Enters (evaluator : Evaluator) : Visit → Step → Visit → Prop where
  | field {binding : Binding} {mode : Override} {route : List Step} {fields : List (String × Node)}
      {annotations : Annotations} {key : String} {field : Node} {marker : FieldMarker}
      {redirect : Option (List String)} {base : Option (List (String × Node))}
      (planned : MapPlan.ofFields evaluator ((inside binding annotations).withScope fields) fields =
        .ok (.fields marker redirect base))
      (ordinary : marker = .ordinary ∨ key ≠ markerKey)
      (held : fields.lookup key = some field) :
      Enters evaluator ⟨binding, mode, .mk (.map fields) annotations, route⟩ (.field key)
        ⟨(followRedirect ((inside binding annotations).withScope fields) redirect).withPath key,
          mode.entries annotations.replace base.isSome, field, route ++ [.field key]⟩
  | entry {binding place : Binding} {mode : Override} {route : List Step} {entries : List Node}
      {annotations : Annotations} {index : Nat} {entry : Node} {steps : List EntryStep}
      {redirect : Option (List String)} {merged : Bool}
      (planned : ListPlan.ofEntries evaluator (entries.filterMap Node.name?)
        (inside binding annotations) none false entries =
          .ok (.entries steps place redirect merged))
      (visited : steps[index]? = some .visit) (held : entries[index]? = some entry) :
      Enters evaluator ⟨binding, mode, .mk (.list entries) annotations, route⟩ (.entry index)
        ⟨place.withPath (stepName (EntryStep.offset steps index) entry),
          entryMode (mode.entries annotations.replace merged) merged entry, entry,
          route ++ [.entry (EntryStep.offset steps index)]⟩

variable {evaluator : Evaluator} {binding : Binding} {mode : Override} {annotations : Annotations}
  {visit next : Visit} {step : Step}

theorem enters (entered : enter evaluator visit step = .ok (some next)) :
    Enters evaluator visit step next := by
  rcases visit with ⟨binding, mode, ⟨value, annotations⟩, route⟩
  unfold enter at entered
  cases step with
  | field key =>
      cases value with
      | map fields =>
          rcases ok_of_bind entered with ⟨plan, planned, entered⟩
          cases plan with
          | replaced base redirect => cases entered
          | fields marker redirect base =>
              simp only at entered
              split at entered
              · rename_i visits
                cases held : fields.lookup key with
                | none =>
                    rw [held] at entered
                    cases entered
                | some field =>
                    rw [held] at entered
                    cases entered
                    exact .field planned (FieldMarker.visits_iff.mp visits) held
              · cases entered
      | _ => cases entered
  | entry index =>
      cases value with
      | list entries =>
          rcases ok_of_bind entered with ⟨plan, planned, entered⟩
          cases plan with
          | replaced added redirect => cases entered
          | entries steps place redirect merged =>
              simp only at entered
              split at entered
              · rename_i visited held
                cases entered
                exact .entry planned visited held
              · cases entered
      | _ => cases entered

theorem follow_cons {route : List Step} {last : Visit}
    (followed : follow evaluator visit (step :: route) = .ok (some last)) :
    ∃ next, enter evaluator visit step = .ok (some next) ∧
      follow evaluator next route = .ok (some last) := by
  rw [follow] at followed
  rcases ok_of_bind followed with ⟨next, entered, followed⟩
  cases next with
  | none => cases followed
  | some next => exact ⟨next, entered, followed⟩

theorem path_inside (binding : Binding) (annotations : Annotations) :
    (inside binding annotations).path = binding.path := by
  unfold inside
  cases annotations.redirect <;> rfl

theorem stubPath_inside (binding : Binding) (annotations : Annotations) :
    (inside binding annotations).stubPath = annotations.redirect.getD binding.stubPath := by
  unfold inside
  cases annotations.redirect <;> rfl

/-! ## Visits of collections whose plan is known -/

theorem visit_map_planned {fields : List (String × Node)} {marker : FieldMarker}
    {redirect : Option (List String)} {base : Option (List (String × Node))} {node' : Node}
    (planned : MapPlan.ofFields evaluator ((inside binding annotations).withScope fields) fields =
      .ok (.fields marker redirect base))
    (ends : Pass.visit evaluator binding mode (.mk (.map fields) annotations) = .ok node') :
    ∃ fields', visitFields evaluator
        (followRedirect ((inside binding annotations).withScope fields) redirect)
        (mode.entries annotations.replace base.isSome) marker fields = .ok fields' ∧
      node' =
        (Node.mk (.map (MapPlan.addBase fields' base)) annotations).withRedirect redirect := by
  unfold inside at planned ⊢
  rw [Pass.visit] at ends
  simp only [planned, bind, Except.bind] at ends
  rcases ok_of_bind ends with ⟨fields', visited, ends⟩
  cases ends
  exact ⟨fields', visited, rfl⟩

theorem visit_list_entries_planned {entries : List Node} {steps : List EntryStep} {place : Binding}
    {redirect : Option (List String)} {merged : Bool} {node' : Node}
    (planned : ListPlan.ofEntries evaluator (entries.filterMap Node.name?)
      (inside binding annotations) none false entries = .ok (.entries steps place redirect merged))
    (ends : Pass.visit evaluator binding mode (.mk (.list entries) annotations) = .ok node') :
    ∃ entries', visitEntries evaluator place (mode.entries annotations.replace merged) merged 0
        steps entries = .ok entries' ∧
      node' = (Node.mk (.list entries') annotations).withRedirect redirect := by
  unfold inside at planned
  rw [Pass.visit] at ends
  simp only [planned, bind, Except.bind] at ends
  rcases ok_of_bind ends with ⟨entries', visited, ends⟩
  cases ends
  exact ⟨entries', visited, rfl⟩

/-- Each entry that is visited comes to its new index. -/
theorem visitEntries_offset {start index : Nat} {steps : List EntryStep}
    {entries entries' : List Node} {entry : Node} {merged : Bool}
    (ends : visitEntries evaluator binding mode merged start steps entries = .ok entries')
    (visited : steps[index]? = some .visit) (held : entries[index]? = some entry) :
    ∃ entry', Pass.visit evaluator
        (binding.withPath (stepName (start + EntryStep.offset steps index) entry))
        (entryMode mode merged entry) entry = .ok entry' ∧
      entries'[EntryStep.offset steps index]? = some entry' := by
  induction entries generalizing start index steps entries' with
  | nil => cases held
  | cons first entries induction =>
      cases steps with
      | nil => cases visited
      | cons step steps =>
          cases step with
          | visit =>
              rcases visitEntries_visit_ends ends with ⟨first', rest, rfl, here, others⟩
              cases index with
              | zero =>
                  cases held
                  exact ⟨first', here, rfl⟩
              | succ index =>
                  rcases induction others visited held with ⟨entry', visited, found⟩
                  rw [EntryStep.offset_succ, EntryStep.length, ← Nat.add_assoc]
                  refine ⟨entry', visited, ?_⟩
                  rw [Nat.add_comm, List.getElem?_cons_succ]
                  exact found
          | splice nodes =>
              rcases visitEntries_splice_ends ends with ⟨rest, rfl, others⟩
              cases index with
              | zero => cases visited
              | succ index =>
                  rcases induction others visited held with ⟨entry', visited, found⟩
                  rw [EntryStep.offset_succ, EntryStep.length, ← Nat.add_assoc]
                  refine ⟨entry', visited, ?_⟩
                  rw [List.getElem?_append_right (Nat.le_add_right _ _), Nat.add_sub_cancel_left]
                  exact found

end Pass

/-! ## What a visit leaves -/

/-- The result of the visit, and that it stands where the way says. -/
structure Visit.Leaves (evaluator : Evaluator) (visit : Visit) (document result : Node) : Prop where
  ends : Pass.visit evaluator visit.binding visit.mode visit.node = .ok result
  stands : document.at? visit.route = some result

theorem Node.at?_append {node child : Node} {route : List Step}
    (reached : node.at? route = some child) (step : Step) :
    node.at? (route ++ [step]) = child.below? step := by
  induction route generalizing node with
  | nil =>
      cases reached
      exact Option.bind_fun_some _
  | cons first route induction =>
      rcases Node.at?_cons reached with ⟨next, here, rest⟩
      rw [List.cons_append, Node.at?_of_below? here]
      exact induction rest

namespace Pass

variable {evaluator : Evaluator} {visit next : Visit} {step : Step} {document result : Node}

/-- A step of the way leads to what the visit of the collection does at the child. -/
theorem Enters.leaves (entered : Enters evaluator visit step next)
    (leaves : visit.Leaves evaluator document result) :
    ∃ child, next.Leaves evaluator document child := by
  cases entered with
  | @field _ _ _ fields annotations key _ _ redirect base planned ordinary held =>
      rcases visit_map_planned planned leaves.ends with ⟨fields', visited, rfl⟩
      rcases visitFields_found ordinary visited held with ⟨field', found, ends⟩
      refine ⟨field', ends, ?_⟩
      rw [Node.at?_append leaves.stands, Node.withRedirect, Node.value_mk, Node.below?_field]
      exact MapPlan.addBase_lookup found base
  | @entry _ _ _ _ entries annotations index _ steps redirect merged planned visited held =>
      rcases visit_list_entries_planned planned leaves.ends with ⟨entries', ends, rfl⟩
      rcases visitEntries_offset ends visited held with ⟨entry', ends, found⟩
      rw [Nat.zero_add] at ends
      refine ⟨entry', ends, ?_⟩
      rw [Node.at?_append leaves.stands, Node.withRedirect, Node.value_mk, Node.below?_entry]
      exact found

theorem Enters.node (entered : Enters evaluator visit step next) :
    visit.node.below? step = some next.node := by
  cases entered with
  | field planned ordinary held => rwa [Node.below?_field]
  | entry planned visited held => rwa [Node.below?_entry]

theorem Enters.binding (entered : Enters evaluator visit step next) :
    next.binding.stubs = visit.binding.stubs ∧ next.binding.answers = visit.binding.answers := by
  cases entered with
  | @field binding _ _ fields annotations _ _ _ redirect _ planned ordinary held =>
      rcases followRedirect_eq ((inside binding annotations).withScope fields) redirect with
        ⟨path, same⟩
      rw [same]
      exact ⟨stubs_inside binding annotations, answers_inside binding annotations⟩
  | @entry binding _ _ _ _ annotations _ _ _ _ _ planned visited held =>
      rcases ListPlan.ofEntries_follows (inside binding annotations).stubPath planned with
        @⟨steps, merged, path, redirect, each⟩
      exact ⟨stubs_inside binding annotations, answers_inside binding annotations⟩

variable {route : List Step} {last : Visit}

theorem follow_leaves (followed : follow evaluator visit route = .ok (some last))
    (leaves : visit.Leaves evaluator document result) :
    ∃ child, last.Leaves evaluator document child := by
  induction route generalizing visit result with
  | nil =>
      cases followed
      exact ⟨result, leaves⟩
  | cons step route induction =>
      rcases follow_cons followed with ⟨next, entered, followed⟩
      rcases (enters entered).leaves leaves with ⟨child, leaves⟩
      exact induction followed leaves

theorem follow_node (followed : follow evaluator visit route = .ok (some last)) :
    visit.node.at? route = some last.node := by
  induction route generalizing visit with
  | nil =>
      cases followed
      rfl
  | cons step route induction =>
      rcases follow_cons followed with ⟨next, entered, followed⟩
      rw [Node.at?_of_below? (enters entered).node]
      exact induction followed

theorem follow_binding (followed : follow evaluator visit route = .ok (some last)) :
    last.binding.stubs = visit.binding.stubs ∧ last.binding.answers = visit.binding.answers := by
  induction route generalizing visit with
  | nil =>
      cases followed
      exact ⟨rfl, rfl⟩
  | cons step route induction =>
      rcases follow_cons followed with ⟨next, entered, followed⟩
      rw [(induction followed).1, (induction followed).2]
      exact (enters entered).binding

/-- Along keys only, the result stands where the node was. -/
theorem follow_keys {keys : List String}
    (followed : follow evaluator visit (keys.map .field) = .ok (some last)) :
    last.route = visit.route ++ keys.map .field := by
  induction keys generalizing visit with
  | nil =>
      cases followed
      exact (List.append_nil _).symm
  | cons key keys induction =>
      rcases follow_cons followed with ⟨next, entered, followed⟩
      rw [induction followed]
      cases enters entered with
      | field planned ordinary held => exact List.append_assoc _ [Step.field key] _

end Pass

/-! ## Collections that are replaced as a whole -/

/-- Whether a marker replaces the whole map. -/
def Visit.isReplaced (evaluator : Evaluator) (visit : Visit) : Bool :=
  match visit.node with
  | .mk (.map fields) annotations =>
      match MapPlan.ofFields evaluator ((Pass.inside visit.binding annotations).withScope fields)
          fields with
      | .ok (.replaced _ _) => true
      | _ => false
  | _ => false

namespace Pass

variable {evaluator : Evaluator} {visit : Visit} {document result field : Node}

/-- The fields of a map are visited, unless the map is replaced. -/
theorem enter_field {key : String} (leaves : visit.Leaves evaluator document result)
    (held : visit.node.below? (.field key) = some field) (ordinary : key ≠ markerKey)
    (kept : visit.isReplaced evaluator = false) :
    ∃ next, enter evaluator visit (.field key) = .ok (some next) := by
  rcases visit with ⟨binding, mode, ⟨value, annotations⟩, route⟩
  cases value with
  | map fields =>
      rw [Node.below?_field] at held
      have ends := leaves.ends
      rw [Pass.visit] at ends
      rcases ok_of_bind ends with ⟨plan, planned, _⟩
      have planned : MapPlan.ofFields evaluator ((inside binding annotations).withScope fields)
          fields = .ok plan := planned
      cases plan with
      | replaced base redirect =>
          simp only [Visit.isReplaced, planned] at kept
          cases kept
      | fields marker redirect base =>
          have visits : marker.visits key := FieldMarker.visits_iff.mpr (.inr ordinary)
          simp only [enter, planned, bind, Except.bind, visits, if_true, held]
          exact ⟨_, rfl⟩
  | _ => cases held

/-- There is a way along keys when no map on it is replaced. -/
theorem follow_fields {keys : List String} {node : Node}
    (leaves : visit.Leaves evaluator document result)
    (held : visit.node.at? (keys.map .field) = some node) (ordinary : markerKey ∉ keys)
    (kept : ∀ count < keys.length, ∀ inner,
      follow evaluator visit ((keys.take count).map .field) = .ok (some inner) →
      inner.isReplaced evaluator = false) :
    ∃ last, follow evaluator visit (keys.map .field) = .ok (some last) := by
  induction keys generalizing visit result with
  | nil => exact ⟨visit, rfl⟩
  | cons key keys induction =>
      rw [List.mem_cons, not_or] at ordinary
      rcases Node.at?_cons held with ⟨field, here, rest⟩
      rcases enter_field leaves here (Ne.symm ordinary.1) (kept 0 (Nat.succ_pos _) visit rfl) with
        ⟨next, entered⟩
      rcases (enters entered).leaves leaves with ⟨child, below⟩
      have same := (enters entered).node
      rw [here, Option.some.injEq] at same
      subst same
      have step : ∀ more, follow evaluator visit (.field key :: more) =
          follow evaluator next more := by
        intro more
        rw [follow, entered]
        rfl
      rw [List.map_cons, step]
      refine induction below rest ordinary.2 fun count bound inner reached => ?_
      refine kept (count + 1) (Nat.succ_lt_succ bound) inner ?_
      rw [List.take_succ_cons, List.map_cons, step, reached]

end Pass

/-! ## Runs -/

namespace Resolution

/-- The way of a pass over a document to a position. -/
def visitAt (answers : Answers) (stubs : List Node) (document : Node) (route : List Step) :
    Except Pause (Option Visit) :=
  Pass.follow (Expression.evaluate Expression.callDepth)
    { binding := root answers stubs, mode := .expressions, node := document, route := [] } route

/-- The positions in the documents of a run at which the passes leave what stood at a position
of one of them. -/
inductive Leads (answers : Answers) (stubs : List Node) (template : Node) (early : Nat)
    (route : List Step) : Nat → List Step → Prop where
  | start : Leads answers stubs template early route early route
  | pass {passes : Nat} {document : Node} {place : List Step} {visit : Visit}
      (earlier : Leads answers stubs template early route passes place)
      (reached : treeAfter answers stubs passes template = .ok document)
      (visited : visitAt answers stubs document place = .ok (some visit)) :
      Leads answers stubs template early route (passes + 1) visit.route

/-- The visit of a position in a pass of a run, if the pass comes there. -/
def visit? (answers : Answers) (stubs : List Node) (template : Node) (passes : Nat)
    (route : List Step) : Option Visit :=
  (treeAfter answers stubs passes template).toOption.bind fun document =>
    (visitAt answers stubs document route).toOption.join

variable {answers : Answers} {stubs : List Node} {template document document' : Node}
  {route : List Step} {visit : Visit}

theorem toOption_eq_some_iff {α : Type} {result : Except Pause α} {value : α} :
    result.toOption = some value ↔ result = .ok value := by
  cases result with
  | error pause => exact ⟨nofun, nofun⟩
  | ok found => simp only [Except.toOption, Option.some.injEq, Except.ok.injEq]

theorem toOption_join_eq_some_iff {result : Except Pause (Option Visit)} :
    result.toOption.join = some visit ↔ result = .ok (some visit) := by
  cases result with
  | error pause => exact ⟨nofun, nofun⟩
  | ok found => simp only [Except.toOption, Option.join_some, Except.ok.injEq]

theorem visit?_eq_some_iff {passes : Nat} :
    visit? answers stubs template passes route = some visit ↔
      ∃ document, treeAfter answers stubs passes template = .ok document ∧
        visitAt answers stubs document route = .ok (some visit) := by
  unfold visit?
  cases treeAfter answers stubs passes template with
  | error pause => exact ⟨nofun, nofun⟩
  | ok document =>
      simp only [Except.toOption, Option.bind_some, Except.ok.injEq, exists_eq_left']
      exact toOption_join_eq_some_iff

/-- The pass that a visit belongs to. -/
theorem visit?_pass {passes : Nat}
    (found : visit? answers stubs template passes route = some visit)
    (next : treeAfter answers stubs (passes + 1) template = .ok document') :
    ∃ document, treeAfter answers stubs passes template = .ok document ∧
      visitAt answers stubs document route = .ok (some visit) ∧
      Pass.run answers stubs document = .ok document' := by
  rcases visit?_eq_some_iff.mp found with ⟨document, reached, visited⟩
  rcases treeAfter_pred next with ⟨same, run, pass⟩
  cases reached.symm.trans run
  exact ⟨document, reached, visited, pass⟩

/-- A pass leaves the result of a visit at the position that the way ends with. -/
theorem run_visit (pass : Pass.run answers stubs document = .ok document')
    (visited : visitAt answers stubs document route = .ok (some visit)) :
    document.at? route = some visit.node ∧ visit.binding.stubs = stubs ∧
      visit.binding.answers = answers ∧
      ∃ result, visit.Leaves (Expression.evaluate Expression.callDepth) document' result := by
  rcases Pass.follow_binding visited with ⟨stubsSame, answersSame⟩
  exact ⟨Pass.follow_node visited, stubsSame, answersSame, Pass.follow_leaves visited ⟨pass, rfl⟩⟩

/-- What holds of the node at a position and outlasts each visit of it holds wherever the run
leads from there. -/
theorem Leads.keeps {early passes : Nat} {place : List Step} {holds : Node → Prop}
    {before : Node} (start : treeAfter answers stubs early template = .ok before)
    (first : ∃ node, before.at? route = some node ∧ holds node)
    (step : ∀ middle document position visit document' result, early ≤ middle → middle < passes →
      treeAfter answers stubs middle template = .ok document →
      Leads answers stubs template early route middle position →
      visitAt answers stubs document position = .ok (some visit) →
      visit.binding.stubs = stubs → visit.binding.answers = answers →
      visit.Leaves (Expression.evaluate Expression.callDepth) document' result →
      holds visit.node → holds result)
    (leads : Leads answers stubs template early route passes place)
    (reached : treeAfter answers stubs passes template = .ok document) :
    early ≤ passes ∧ ∃ node, document.at? place = some node ∧ holds node := by
  induction leads generalizing document with
  | start =>
      rw [start] at reached
      cases reached
      exact ⟨Nat.le_refl early, first⟩
  | @pass passes middle place visit earlier run visited induction =>
      rcases induction (fun middle document position visit document' result late soon =>
        step middle document position visit document' result late (Nat.lt_succ_of_lt soon)) run with
        ⟨late, node, here, held⟩
      rcases treeAfter_pred reached with ⟨same, again, pass⟩
      rw [run] at again
      cases again
      rcases run_visit pass visited with ⟨found, stubsSame, answersSame, result, leaves⟩
      rw [here] at found
      cases found
      exact ⟨Nat.le_succ_of_le late, result, leaves.stands,
        step passes middle place visit document result late (Nat.lt_succ_self passes) run earlier
          visited stubsSame answersSame leaves held⟩

/-- Along keys only, a run leads from a position to the same one. -/
theorem Leads.keys {early passes : Nat} {keys : List String} {place : List Step}
    (leads : Leads answers stubs template early (keys.map .field) passes place) :
    place = keys.map .field := by
  induction leads with
  | start => rfl
  | pass earlier reached visited induction =>
      subst induction
      exact Pass.follow_keys visited

theorem leads_keys {early passes : Nat} {keys : List String}
    (visited : ∀ middle, early ≤ middle → middle < early + passes →
      (visit? answers stubs template middle (keys.map .field)).isSome) :
    Leads answers stubs template early (keys.map .field) (early + passes) (keys.map .field) := by
  induction passes with
  | zero => exact .start
  | succ passes induction =>
      rcases Option.isSome_iff_exists.mp (visited (early + passes) (Nat.le_add_right early passes)
        (Nat.lt_succ_self _)) with ⟨visit, found⟩
      rcases visit?_eq_some_iff.mp found with ⟨document, reached, here⟩
      have leads := (induction fun middle after before =>
        visited middle after (Nat.lt_succ_of_lt before)).pass reached here
      rwa [Pass.follow_keys here] at leads

theorem Leads.late {early passes : Nat} {place : List Step}
    (leads : Leads answers stubs template early route passes place) : early ≤ passes := by
  induction leads with
  | start => exact Nat.le_refl early
  | pass _ _ _ late => exact Nat.le_succ_of_le late

theorem Leads.at_start {early : Nat} {place : List Step}
    (leads : Leads answers stubs template early route early place) : place = route := by
  cases leads with
  | start => rfl
  | pass earlier => exact absurd earlier.late (Nat.not_succ_le_self _)

/-- A run leads on from where its first pass leads. -/
theorem Leads.after {early passes : Nat} {place : List Step}
    (leads : Leads answers stubs template early route passes place) (later : early < passes) :
    ∃ visit, visit? answers stubs template early route = some visit ∧
      Leads answers stubs template (early + 1) visit.route passes place := by
  -- The last pass is the first one, or the first one is among those before it.
  induction leads with
  | start => exact absurd later (Nat.lt_irrefl early)
  | @pass passes document place visit earlier reached visited induction =>
      rcases Nat.eq_or_lt_of_le earlier.late with rfl | before
      · cases earlier.at_start
        exact ⟨visit, visit?_eq_some_iff.mpr ⟨document, reached, visited⟩, .start⟩
      · rcases induction before with ⟨first, found, leads⟩
        exact ⟨first, found, leads.pass reached visited⟩

theorem Leads.before {early passes : Nat} {place : List Step}
    (found : visit? answers stubs template early route = some visit)
    (leads : Leads answers stubs template (early + 1) visit.route passes place) :
    Leads answers stubs template early route passes place := by
  induction leads with
  | start =>
      rcases visit?_eq_some_iff.mp found with ⟨document, reached, visited⟩
      exact Leads.start.pass reached visited
  | pass _ reached visited induction => exact induction.pass reached visited

/-- The documents before one of a run. -/
theorem treeAfter_earlier {early passes : Nat} (before : early ≤ passes)
    (reached : treeAfter answers stubs passes template = .ok document) :
    ∃ earlier, treeAfter answers stubs early template = .ok earlier := by
  induction passes generalizing document with
  | zero =>
      cases Nat.le_zero.mp before
      exact ⟨document, reached⟩
  | succ passes induction =>
      rcases Nat.eq_or_lt_of_le before with rfl | before
      · exact ⟨document, reached⟩
      · rcases treeAfter_pred reached with ⟨last, run, _⟩
        exact induction (Nat.le_of_lt_succ before) run

/-- As long as no map above it is replaced, a position below maps stays one. -/
theorem leads_of_kept {keys : List String} {early passes : Nat} {before after node : Node}
    (ordinary : markerKey ∉ keys) (first : treeAfter answers stubs early template = .ok before)
    (held : before.at? (keys.map .field) = some node)
    (last : treeAfter answers stubs (early + passes) template = .ok after)
    (kept : ∀ middle, early ≤ middle → middle < early + passes → ∀ count < keys.length, ∀ inner,
      visit? answers stubs template middle ((keys.take count).map .field) = some inner →
      inner.isReplaced (Expression.evaluate Expression.callDepth) = false) :
    Leads answers stubs template early (keys.map .field) (early + passes) (keys.map .field) ∧
      ∃ node', after.at? (keys.map .field) = some node' := by
  induction passes generalizing after with
  | zero =>
      cases first.symm.trans last
      exact ⟨.start, node, held⟩
  | succ passes induction =>
      rcases treeAfter_pred last with ⟨middle, run, pass⟩
      rcases induction run fun middle late soon =>
        kept middle late (Nat.lt_succ_of_lt soon) with ⟨leads, node, here⟩
      have whole : Visit.Leaves (Expression.evaluate Expression.callDepth)
          { binding := root answers stubs, mode := .expressions, node := middle, route := [] }
          after after := ⟨pass, rfl⟩
      rcases Pass.follow_fields whole here ordinary fun count bound inner reached =>
          kept (early + passes) (Nat.le_add_right early passes) (Nat.lt_succ_self _) count bound
            inner (visit?_eq_some_iff.mpr ⟨middle, run, reached⟩) with
        ⟨visit, visited⟩
      have route : visit.route = keys.map .field := Pass.follow_keys visited
      rcases run_visit pass visited with ⟨_, _, _, result, leaves⟩
      exact ⟨route ▸ leads.pass run visited, result, route ▸ leaves.stands⟩

end Resolution

end Stencil
