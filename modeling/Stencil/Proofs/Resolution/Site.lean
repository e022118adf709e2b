import Stencil.Proofs.Evaluation.Stability
import Stencil.Proofs.Resolution.Visit

namespace Stencil

/-! Positions in a tree, and what an expression at a position is evaluated in: the fields
of all maps around it, and the path that leads to it. -/

inductive Step where
  | field (key : String)
  | entry (index : Nat)
deriving DecidableEq, Repr

namespace Node

/-- One step into a collection. -/
def descend (binding : Binding) (node : Node) : Step → Option (Binding × Node)
  | .field key =>
      match node.value with
      | .map fields =>
          (fields.lookup key).map fun field => ((binding.withScope fields).withPath key, field)
      | _ => none
  | .entry index =>
      match node.value with
      | .list entries =>
          entries[index]?.map fun entry => (binding.withPath (stepName index entry), entry)
      | _ => none

/-- The node at a position, and the binding there. -/
def reach (binding : Binding) (node : Node) : List Step → Option (Binding × Node)
  | [] => some (binding, node)
  | step :: route => (node.descend binding step).bind fun (site, child) => child.reach site route

theorem reach_cons {binding site : Binding} {node leaf : Node} {step : Step} {route : List Step}
    (reached : node.reach binding (step :: route) = some (site, leaf)) :
    ∃ place child, node.descend binding step = some (place, child) ∧
      child.reach place route = some (site, leaf) := by
  rw [reach, Option.bind_eq_some_iff] at reached
  rcases reached with ⟨⟨place, child⟩, first, rest⟩
  exact ⟨place, child, first, rest⟩

theorem reach_of_descend {binding place : Binding} {node child : Node} {step : Step}
    (found : node.descend binding step = some (place, child)) (route : List Step) :
    node.reach binding (step :: route) = child.reach place route := by
  rw [reach, found, Option.bind_some]

/-- What every step into a collection keeps holds wherever a route leads. -/
theorem reach_induction {motive : Binding → Node → Prop}
    (steps : ∀ {binding place node child step}, motive binding node →
      node.descend binding step = some (place, child) → motive place child)
    {binding site : Binding} {node leaf : Node} {route : List Step} (holds : motive binding node)
    (reached : node.reach binding route = some (site, leaf)) : motive site leaf := by
  induction route generalizing node binding with
  | nil =>
      cases reached
      exact holds
  | cons step route induction =>
      rcases reach_cons reached with ⟨place, child, first, rest⟩
      exact induction (steps holds first) rest

/-- A step leads to a field of a map or to an entry of a list. -/
theorem descend_cases {binding place : Binding} {node child : Node} {step : Step}
    (found : node.descend binding step = some (place, child)) :
    (∃ key fields annotations, step = .field key ∧ node = .mk (.map fields) annotations ∧
        fields.lookup key = some child ∧ place = (binding.withScope fields).withPath key) ∨
      ∃ index entries annotations, step = .entry index ∧ node = .mk (.list entries) annotations ∧
        entries[index]? = some child ∧ place = binding.withPath (stepName index child) := by
  rcases node with ⟨value, annotations⟩
  unfold descend at found
  cases step with
  | field key =>
      cases value with
      | map fields =>
          simp only [value_mk, Option.map_eq_some_iff, Prod.mk.injEq] at found
          rcases found with ⟨field, held, rfl, rfl⟩
          exact .inl ⟨key, fields, annotations, rfl, rfl, held, rfl⟩
      | _ => cases found
  | entry index =>
      cases value with
      | list entries =>
          simp only [value_mk, Option.map_eq_some_iff, Prod.mk.injEq] at found
          rcases found with ⟨entry, held, rfl, rfl⟩
          exact .inr ⟨index, entries, annotations, rfl, rfl, held, rfl⟩
      | _ => cases found

theorem descend_withSource {binding place : Binding} {node child : Node} {step : Step}
    (found : node.descend binding step = some (place, child)) (source : Option String) :
    node.descend (binding.withSource source) step = some (place.withSource source, child) := by
  rcases descend_cases found with ⟨_, _, _, rfl, rfl, held, rfl⟩ | ⟨_, _, _, rfl, rfl, held, rfl⟩
  · rw [descend, value_mk]
    simp only [held, Option.map_some]
    rfl
  · rw [descend, value_mk]
    simp only [held, Option.map_some]
    rfl

theorem isResolved_of_descend {binding place : Binding} {node child : Node} {step : Step}
    (resolved : node.isResolved) (found : node.descend binding step = some (place, child)) :
    child.isResolved := by
  rcases descend_cases found with ⟨_, _, _, rfl, rfl, held, _⟩ | ⟨_, _, _, rfl, rfl, held, _⟩
  · exact lookup_resolved resolved held
  · exact member_resolved resolved (List.mem_of_getElem? held)

theorem isResolved_of_reach {binding site : Binding} {node leaf : Node} {route : List Step}
    (resolved : node.isResolved) (reached : node.reach binding route = some (site, leaf)) :
    leaf.isResolved :=
  reach_induction (motive := fun _ node => node.isResolved) isResolved_of_descend resolved reached

/-- A step leaves the stubs and the answers of the binding alone. -/
theorem stubs_of_descend {binding place : Binding} {node child : Node} {step : Step}
    (found : node.descend binding step = some (place, child)) :
    place.stubs = binding.stubs ∧ place.answers = binding.answers := by
  rcases descend_cases found with ⟨_, _, _, _, _, _, rfl⟩ | ⟨_, _, _, _, _, _, rfl⟩ <;>
    exact ⟨rfl, rfl⟩

theorem stubs_of_reach {binding site : Binding} {node leaf : Node} {route : List Step}
    (reached : node.reach binding route = some (site, leaf)) : site.stubs = binding.stubs :=
  reach_induction (motive := fun site _ => site.stubs = binding.stubs)
    (fun same found => (stubs_of_descend found).1.trans same) rfl reached

theorem answers_of_reach {binding site : Binding} {node leaf : Node} {route : List Step}
    (reached : node.reach binding route = some (site, leaf)) : site.answers = binding.answers :=
  reach_induction (motive := fun site _ => site.answers = binding.answers)
    (fun same found => (stubs_of_descend found).2.trans same) rfl reached

/-- The stubs have the same at a path wherever it is looked up. -/
theorem findInStubs?_of_reach {binding site : Binding} {node leaf : Node} {route : List Step}
    (reached : node.reach binding route = some (site, leaf)) (path : List String) :
    site.findInStubs? path = binding.findInStubs? path := by
  rw [Binding.findInStubs?, stubs_of_reach reached, ← Binding.findInStubs?]

/-- Below maps only, the place in the document is the keys that lead there. -/
theorem path_of_reach {binding site : Binding} {node leaf : Node} {keys : List String}
    (reached : node.reach binding (keys.map .field) = some (site, leaf)) :
    site.path = binding.path ++ keys ∧ site.stubPath = binding.stubPath ++ keys := by
  induction keys generalizing node binding with
  | nil =>
      cases reached
      exact ⟨(List.append_nil _).symm, (List.append_nil _).symm⟩
  | cons key keys induction =>
      rcases reach_cons reached with ⟨place, child, first, rest⟩
      rcases induction rest with ⟨path, stubPath⟩
      rcases descend_cases first with ⟨_, _, _, same, _, _, rfl⟩ | ⟨_, _, _, same, _⟩
      · cases same
        exact ⟨path.trans (List.append_assoc _ [key] keys),
          stubPath.trans (List.append_assoc _ [key] keys)⟩
      · cases same

/-- The same step leads to the same path, if an entry has the same name. -/
theorem path_of_descend {binding later place place' : Binding} {node node' child child' : Node}
    {step : Step} (first : node.descend binding step = some (place, child))
    (second : node'.descend later step = some (place', child')) (same : later.path = binding.path)
    (named : (∃ index, step = .entry index) → child'.name? = child.name?) :
    place'.path = place.path := by
  rcases descend_cases first with ⟨key, _, _, rfl, _, _, rfl⟩ | ⟨index, _, _, rfl, _, _, rfl⟩
  · rcases descend_cases second with ⟨_, _, _, ⟨⟩, _, _, rfl⟩ | ⟨_, _, _, ⟨⟩, _⟩
    exact congrArg (· ++ [key]) same
  · rcases descend_cases second with ⟨_, _, _, ⟨⟩, _⟩ | ⟨_, _, _, ⟨⟩, _, _, rfl⟩
    have steps : stepName index child' = stepName index child := by
      rw [stepName, named ⟨index, rfl⟩, ← stepName]
    rw [steps]
    exact congrArg (· ++ [stepName index child]) same

/-! The same positions without a binding. -/

/-- The node that one step leads to. -/
def below? (node : Node) (step : Step) : Option Node :=
  (node.descend {} step).map Prod.snd

/-- The node at a position. -/
def at? (node : Node) : List Step → Option Node
  | [] => some node
  | step :: route => (node.below? step).bind fun child => child.at? route

/-- The nodes on the way to a position. -/
def above (node : Node) : List Step → List Node
  | [] => []
  | step :: route => node :: ((node.below? step).map fun child => child.above route).getD []

theorem below?_cases {node child : Node} {step : Step} (found : node.below? step = some child) :
    (∃ key fields annotations, step = .field key ∧ node = .mk (.map fields) annotations ∧
        fields.lookup key = some child) ∨
      ∃ index entries annotations, step = .entry index ∧ node = .mk (.list entries) annotations ∧
        entries[index]? = some child := by
  rcases Option.map_eq_some_iff.mp found with ⟨⟨place, child'⟩, descended, rfl⟩
  rcases descend_cases descended with
    ⟨key, fields, annotations, rfl, rfl, held, _⟩ | ⟨index, entries, annotations, rfl, rfl, held, _⟩
  · exact .inl ⟨key, fields, annotations, rfl, rfl, held⟩
  · exact .inr ⟨index, entries, annotations, rfl, rfl, held⟩

/-- Only a collection has children. -/
theorem kind_of_below? {node child : Node} {step : Step} (found : node.below? step = some child) :
    node.kind = .map ∨ node.kind = .list := by
  rcases below?_cases found with ⟨_, _, _, _, rfl, _⟩ | ⟨_, _, _, _, rfl, _⟩
  · exact .inl rfl
  · exact .inr rfl

theorem below?_field {fields : List (String × Node)} {annotations : Annotations} (key : String) :
    (Node.mk (.map fields) annotations).below? (.field key) = fields.lookup key := by
  unfold below? descend
  simp only [value_mk, Option.map_map]
  exact Option.map_id'

theorem below?_entry {entries : List Node} {annotations : Annotations} (index : Nat) :
    (Node.mk (.list entries) annotations).below? (.entry index) = entries[index]? := by
  unfold below? descend
  simp only [value_mk, Option.map_map]
  exact Option.map_id'

theorem below?_of_descend {binding place : Binding} {node child : Node} {step : Step}
    (found : node.descend binding step = some (place, child)) : node.below? step = some child := by
  rcases descend_cases found with
    ⟨key, fields, annotations, rfl, rfl, held, _⟩ | ⟨index, entries, annotations, rfl, rfl, held, _⟩
  · rwa [below?_field]
  · rwa [below?_entry]

theorem descend_of_below? {node child : Node} {step : Step} (found : node.below? step = some child)
    (binding : Binding) : ∃ place, node.descend binding step = some (place, child) := by
  rcases below?_cases found with
    ⟨key, fields, annotations, rfl, rfl, held⟩ | ⟨index, entries, annotations, rfl, rfl, held⟩
  · refine ⟨(binding.withScope fields).withPath key, ?_⟩
    simp only [descend, value_mk, held, Option.map_some]
  · refine ⟨binding.withPath (stepName index child), ?_⟩
    simp only [descend, value_mk, held, Option.map_some]

theorem above_cons {node child : Node} {step : Step} {route : List Step}
    (found : node.below? step = some child) :
    node.above (step :: route) = node :: child.above route := by
  rw [above, found, Option.map_some, Option.getD_some]

theorem at?_cons {node leaf : Node} {step : Step} {route : List Step}
    (reached : node.at? (step :: route) = some leaf) :
    ∃ child, node.below? step = some child ∧ child.at? route = some leaf :=
  Option.bind_eq_some_iff.mp reached

theorem at?_of_below? {node child : Node} {step : Step} (found : node.below? step = some child)
    (route : List Step) : node.at? (step :: route) = child.at? route := by
  rw [at?, found, Option.bind_some]

theorem at?_of_reach {binding site : Binding} {node leaf : Node} {route : List Step}
    (reached : node.reach binding route = some (site, leaf)) : node.at? route = some leaf := by
  induction route generalizing node binding with
  | nil =>
      cases reached
      rfl
  | cons step route induction =>
      rcases reach_cons reached with ⟨place, child, first, rest⟩
      rw [at?_of_below? (below?_of_descend first)]
      exact induction rest

theorem reach_of_at? {node leaf : Node} {route : List Step} (reached : node.at? route = some leaf)
    (binding : Binding) : ∃ site, node.reach binding route = some (site, leaf) := by
  induction route generalizing node binding with
  | nil =>
      cases reached
      exact ⟨binding, rfl⟩
  | cons step route induction =>
      rcases at?_cons reached with ⟨child, first, rest⟩
      rcases descend_of_below? first binding with ⟨place, first⟩
      rw [reach_of_descend first]
      exact induction rest place

theorem reach_append {binding site : Binding} {node child : Node} {route : List Step}
    (reached : node.reach binding route = some (site, child)) (step : Step) :
    node.reach binding (route ++ [step]) = child.descend site step := by
  induction route generalizing node binding with
  | nil =>
      cases reached
      exact Option.bind_fun_some _
  | cons first route induction =>
      rcases reach_cons reached with ⟨place, next, here, rest⟩
      rw [List.cons_append, reach_of_descend here]
      exact induction rest

/-- Nothing is merged into a collection in which no marker is an expression. -/
def mergesNothing (node : Node) : Bool :=
  match node.value with
  | .map fields => markerResolved fields
  | .list entries => markersResolved entries
  | _ => true

/-- What a stub may override at a position, when nothing merges on the way. -/
def modeAlong (mode : Override) (node : Node) : List Step → Override
  | [] => mode
  | step :: route =>
      ((node.below? step).map fun child =>
        child.modeAlong (mode.entries node.annotations.replace false) route).getD mode

theorem modeAlong_ne_all {node : Node} {route : List Step} {mode : Override} (quiet : mode ≠ .all) :
    node.modeAlong mode route ≠ .all := by
  induction route generalizing node mode with
  | nil => exact quiet
  | cons step route induction =>
      rw [modeAlong]
      cases node.below? step with
      | none => exact quiet
      | some child => exact induction (Override.entries_ne_all quiet _)

theorem modeAlong_cons {node child : Node} {step : Step} (found : node.below? step = some child)
    (mode : Override) (route : List Step) :
    node.modeAlong mode (step :: route) =
      child.modeAlong (mode.entries node.annotations.replace false) route := by
  rw [modeAlong, found, Option.map_some, Option.getD_some]

end Node

namespace Pass

variable {evaluator : Evaluator} {binding place : Binding} {mode : Override}
  {node node' child : Node} {step : Step}

/-- A child of a collection into which nothing is merged is visited inside of the collection, and
stays where it is. -/
theorem visit_inner (alone : node.mergesNothing)
    (found : node.descend (inside binding node.annotations) step = some (place, child))
    (ends : visit evaluator binding mode node = .ok node') :
    node'.annotations = node.annotations ∧ ∃ child', node'.below? step = some child' ∧
      visit evaluator place (mode.entries node.annotations.replace false) child = .ok child' := by
  rcases Node.descend_cases found with
    ⟨key, fields, annotations, rfl, rfl, held, rfl⟩ |
      ⟨index, entries, annotations, rfl, rfl, held, rfl⟩
  · rcases visit_map_ends alone ends with ⟨fields', rfl, visited⟩
    rcases visitFields_found (.inl rfl) visited held with ⟨child', found', here⟩
    exact ⟨rfl, child', by rwa [Node.below?_field], here⟩
  · rcases visit_list_ends alone ends with ⟨entries', rfl, visited⟩
    rcases visitEntries_found visited held with ⟨child', found', here⟩
    rw [Nat.zero_add] at here
    exact ⟨rfl, child', by rwa [Node.below?_entry], here⟩

/-- Without a redirect that is the place of the child in the collection. -/
theorem visit_direct (alone : node.mergesNothing) (direct : node.redirect = none)
    (found : node.descend binding step = some (place, child))
    (ends : visit evaluator binding mode node = .ok node') :
    node'.annotations = node.annotations ∧ ∃ child', node'.below? step = some child' ∧
      visit evaluator place (mode.entries node.annotations.replace false) child = .ok child' := by
  have same : inside binding node.annotations = binding.withSource node.source := by
    rw [inside, show node.annotations.redirect = none from direct]
    rfl
  have found := Node.descend_withSource found node.source
  rw [← same] at found
  rcases visit_inner alone found ends with ⟨kept, child', found', here⟩
  exact ⟨kept, child', found', (visit_withSource node.source child).symm.trans here⟩

/-- Where nothing is merged and nothing redirected on the way, a node is visited in its place. -/
theorem visit_at {site : Binding} {leaf : Node} {route : List Step}
    (alone : ∀ above ∈ node.above route, above.mergesNothing ∧ above.redirect = none)
    (reached : node.reach binding route = some (site, leaf))
    (ends : visit evaluator binding mode node = .ok node') :
    node'.modeAlong mode route = node.modeAlong mode route ∧
      ∃ leaf', node'.at? route = some leaf' ∧
        visit evaluator site (node.modeAlong mode route) leaf = .ok leaf' := by
  induction route generalizing node node' binding mode with
  | nil =>
      cases reached
      exact ⟨rfl, node', rfl, ends⟩
  | cons step route induction =>
      rcases Node.reach_cons reached with ⟨place, child, first, rest⟩
      have found := Node.below?_of_descend first
      rw [Node.above_cons found, List.forall_mem_cons] at alone
      rcases visit_direct alone.1.1 alone.1.2 first ends with ⟨kept, child', found', visited⟩
      rw [Node.modeAlong_cons found, Node.modeAlong_cons found', kept, Node.at?_of_below? found']
      exact induction alone.2 rest visited

end Pass

/-! ## Positions in refined trees -/

section
variable {aspects : Aspects}

theorem Node.RefinedBy.below? {node node' child : Node} {step : Step}
    (refined : (node.masked aspects).RefinedBy (node'.masked aspects))
    (found : node.below? step = some child) :
    ∃ child', node'.below? step = some child' ∧
      (child.masked aspects).RefinedBy (child'.masked aspects) := by
  rcases node' with ⟨value', annotations'⟩
  rcases Node.below?_cases found with
    ⟨key, fields, annotations, rfl, rfl, held⟩ | ⟨index, entries, annotations, rfl, rfl, held⟩
  · have inner := (refined.inner rfl).2
    cases value' with
    | map fields' =>
        have inner : fieldsRefined (fieldsMasked aspects fields) (fieldsMasked aspects fields') :=
          inner
        rcases inner.lookup key with ⟨absent, _⟩ | ⟨field, field', held', found', here⟩
        · rw [lookup_fieldsMasked, held] at absent
          cases absent
        · rw [lookup_fieldsMasked, held] at held'
          cases held'
          rw [lookup_fieldsMasked, Option.map_eq_some_iff] at found'
          rcases found' with ⟨child', found', rfl⟩
          exact ⟨child', by rwa [Node.below?_field], here⟩
    | _ => cases inner
  · have inner := (refined.inner rfl).2
    cases value' with
    | list entries' =>
        have inner : entriesRefined (entriesMasked aspects entries)
            (entriesMasked aspects entries') := inner
        rw [entriesMasked_eq_map, entriesMasked_eq_map] at inner
        have held : (entries.map (Node.masked aspects))[index]? = some (child.masked aspects) := by
          rw [List.getElem?_map, held, Option.map_some]
        rcases inner.get held with ⟨entry', found', here⟩
        rw [List.getElem?_map, Option.map_eq_some_iff] at found'
        rcases found' with ⟨child', found', rfl⟩
        exact ⟨child', by rwa [Node.below?_entry], here⟩
    | _ => cases inner

theorem Node.RefinedBy.at? {node node' leaf : Node} {route : List Step}
    (refined : (node.masked aspects).RefinedBy (node'.masked aspects))
    (reached : node.at? route = some leaf) :
    ∃ leaf', node'.at? route = some leaf' ∧
      (leaf.masked aspects).RefinedBy (leaf'.masked aspects) := by
  induction route generalizing node node' with
  | nil =>
      cases reached
      exact ⟨node', rfl, refined⟩
  | cons step route induction =>
      rcases Node.at?_cons reached with ⟨child, first, rest⟩
      rcases refined.below? first with ⟨child', first', children⟩
      rcases induction children rest with ⟨leaf', rest', leaves⟩
      refine ⟨leaf', ?_, leaves⟩
      rw [Node.at?_of_below? first']
      exact rest'

/-- One step into a tree with settled lists and into a refined one: the bindings refine each
other again, since the names of the entries stay. -/
theorem Node.RefinedBy.descend {binding later place : Binding} {node node' child : Node}
    {step : Step} (bindings : binding.RefinedBy aspects later) (settled : node.listsSettled)
    (refined : (node.masked aspects).RefinedBy (node'.masked aspects))
    (found : node.descend binding step = some (place, child)) :
    ∃ place' child', node'.descend later step = some (place', child') ∧
      place.RefinedBy aspects place' ∧
      (child.masked aspects).RefinedBy (child'.masked aspects) := by
  rcases refined.below? (Node.below?_of_descend found) with ⟨child', found', children⟩
  rcases Node.descend_cases found with
    ⟨key, fields, annotations, rfl, rfl, held, rfl⟩ |
      ⟨index, entries, annotations, rfl, rfl, held, rfl⟩
  · rcases Node.below?_cases found' with ⟨_, fields', _, ⟨⟩, rfl, held'⟩ | ⟨_, _, _, ⟨⟩, _⟩
    have scopes : fieldsRefined (fieldsMasked aspects fields) (fieldsMasked aspects fields') :=
      (refined.inner rfl).2
    refine ⟨(later.withScope fields').withPath key, child', ?_,
      { bindings with
        path := congrArg (· ++ [key]) bindings.path
        stubPath := congrArg (· ++ [key]) bindings.stubPath
        scopes := .cons scopes bindings.scopes }, children⟩
    simp only [Node.descend, Node.value_mk, held', Option.map_some]
  · rcases Node.below?_cases found' with ⟨_, _, _, ⟨⟩, _⟩ | ⟨_, entries', _, ⟨⟩, rfl, held'⟩
    have whole := (member_settled settled (List.mem_of_getElem? held)).1
    have position : stepName index child' = stepName index child := by
      have names := children.name? (by rwa [Node.isSettledEntry_masked])
      rw [Node.name?_masked, Node.name?_masked] at names
      rw [stepName, stepName, names]
    refine ⟨later.withPath (stepName index child), child', ?_,
      { bindings with
        path := congrArg (· ++ [stepName index child]) bindings.path
        stubPath := congrArg (· ++ [stepName index child]) bindings.stubPath }, children⟩
    simp only [Node.descend, Node.value_mk, held', Option.map_some, position]

theorem Node.listsSettled_of_descend {binding place : Binding} {node child : Node} {step : Step}
    (settled : node.listsSettled) (found : node.descend binding step = some (place, child)) :
    child.listsSettled := by
  rcases Node.descend_cases found with ⟨_, _, _, _, rfl, held, _⟩ | ⟨_, _, _, _, rfl, held, _⟩
  · exact lookup_settled settled held
  · exact (member_settled settled (List.mem_of_getElem? held)).2

/-- The bindings of a position, in a tree with settled lists and in a refined one. -/
theorem Node.RefinedBy.sites {binding later site : Binding} {node node' leaf : Node}
    {route : List Step} (bindings : binding.RefinedBy aspects later) (settled : node.listsSettled)
    (refined : (node.masked aspects).RefinedBy (node'.masked aspects))
    (reached : node.reach binding route = some (site, leaf)) :
    ∃ site' leaf', node'.reach later route = some (site', leaf') ∧ site.RefinedBy aspects site' := by
  induction route generalizing node node' binding later with
  | nil =>
      cases reached
      exact ⟨later, node', rfl, bindings⟩
  | cons step route induction =>
      rcases Node.reach_cons reached with ⟨place, child, first, rest⟩
      rcases Node.RefinedBy.descend bindings settled refined first with
        ⟨place', child', first', places, children⟩
      rw [Node.reach_of_descend first']
      exact induction places (Node.listsSettled_of_descend settled first) children rest

theorem Node.RefinedBy.reach {binding later site : Binding} {node node' leaf : Node}
    {route : List Step} (bindings : binding.RefinedBy aspects later) (settled : node.listsSettled)
    (refined : node.RefinedBy node') (reached : node.reach binding route = some (site, leaf)) :
    ∃ site' leaf', node'.reach later route = some (site', leaf') ∧
      site.RefinedBy aspects site' ∧ leaf.RefinedBy leaf' := by
  rcases Node.RefinedBy.sites bindings settled (refined.masked aspects) reached with
    ⟨site', leaf', reached', sites⟩
  rcases (refined.masked .all).at? (Node.at?_of_reach reached) with ⟨held, same, leaves⟩
  rw [Node.at?_of_reach reached', Option.some.injEq] at same
  subst same
  rw [Node.masked_all, Node.masked_all] at leaves
  exact ⟨site', leaf', reached', sites, leaves⟩

theorem Binding.listsSettled_of_descend {binding place : Binding} {node child : Node}
    {step : Step} (around : binding.listsSettled) (settled : node.listsSettled)
    (found : node.descend binding step = some (place, child)) : place.listsSettled := by
  rcases Node.descend_cases found with ⟨_, fields, _, _, rfl, _, rfl⟩ | ⟨_, _, _, _, _, _, rfl⟩
  · unfold Binding.listsSettled Binding.withPath Binding.withScope
    rw [List.all_cons, Bool.and_eq_true]
    exact ⟨settled, around⟩
  · exact around

/-- The scopes around a position in a tree with settled lists have settled lists. -/
theorem Binding.listsSettled_of_reach {binding site : Binding} {node leaf : Node}
    {route : List Step} (around : binding.listsSettled) (settled : node.listsSettled)
    (reached : node.reach binding route = some (site, leaf)) : site.listsSettled :=
  (Node.reach_induction (motive := fun site node => site.listsSettled ∧ node.listsSettled)
    (fun both found => ⟨Binding.listsSettled_of_descend both.1 both.2 found,
      Node.listsSettled_of_descend both.2 found⟩) ⟨around, settled⟩ reached).1

end

end Stencil
