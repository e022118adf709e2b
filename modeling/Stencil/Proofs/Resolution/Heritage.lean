import Stencil.Proofs.Resolution.Overlay
import Stencil.Proofs.Resolution.Plan
import Stencil.Proofs.Resolution.Run

namespace Stencil

/-! What a pass makes of a tree is put together from what was there, from the values of its
expressions and from what the stubs have. So a property of all leaves lasts when the leaves keep
it, the markers that stay do, and every value has it that a marker brings in. -/

/-- What a pass with these stubs has to keep where it changes something. -/
structure Evaluator.Keeps (evaluator : Evaluator) (stubs : List Node) (holds : Node → Prop) :
    Prop where
  hereditary : Hereditary holds
  stays {path : List String} {marker kept : Node} (stays : Marker.Stays path marker kept)
    (here : holds marker) : holds kept
  brings {binding : Binding} {marker base : Node} {expression : Expression} {report : Report}
    (here : holds marker) (reads : marker.expression? binding.path = some (.ok expression))
    (ends : evaluator binding expression = .ok (.value base report))
    (same : binding.stubs = stubs) : holds base
  leaf {binding : Binding} {mode : Override} {node node' : Node} (here : holds node)
    (ends : Pass.leaf evaluator binding mode node = .ok node') (same : binding.stubs = stubs) :
    holds node'

variable {evaluator : Evaluator} {stubs : List Node} {holds : Node → Prop} {binding : Binding}

namespace Evaluator.Keeps

theorem broughtMap (keeps : evaluator.Keeps stubs holds) {marker : Node}
    {fields : List (String × Node)} {report : Report} (here : holds marker)
    (brings : Marker.Brings evaluator binding marker (.map fields) report)
    (same : binding.stubs = stubs) : ∀ field ∈ fields, holds field.2 := by
  rcases brings with ⟨expression, base, reads, ends, value⟩
  have whole := keeps.brings here reads ends same
  rcases base with ⟨value', annotations⟩
  cases value
  exact keeps.hereditary.map.mp whole

theorem broughtList (keeps : evaluator.Keeps stubs holds) {marker : Node} {entries : List Node}
    {report : Report} (here : holds marker)
    (brings : Marker.Brings evaluator binding marker (.list entries) report)
    (same : binding.stubs = stubs) : ∀ entry ∈ entries, holds entry := by
  rcases brings with ⟨expression, base, reads, ends, value⟩
  have whole := keeps.brings here reads ends same
  rcases base with ⟨value', annotations⟩
  cases value
  exact keeps.hereditary.list.mp whole

theorem marker (keeps : evaluator.Keeps stubs holds) {entry marker : Node}
    (held : listMarker? entry = some marker) (here : holds entry) : holds marker := by
  rcases markerField held with ⟨annotations, rfl⟩
  exact keeps.hereditary.map.mp here _ List.mem_cons_self

/-- The nodes that take the place of entries. -/
theorem spliced (keeps : evaluator.Keeps stubs holds) {names : List String} {entries : List Node}
    {steps : List EntryStep} {merged : Bool}
    (follows : EntriesFollow evaluator binding names entries steps merged)
    (here : ∀ entry ∈ entries, holds entry) (same : binding.stubs = stubs) :
    ∀ nodes, .splice nodes ∈ steps → ∀ node ∈ nodes, holds node := by
  induction follows with
  | nil => exact fun _ member => nomatch member
  | visit resolved rest induction =>
      rw [List.forall_mem_cons] at here
      intro nodes member
      rcases List.mem_cons.mp member with same | member
      · cases same
      · exact induction here.2 nodes member
  | dropped held unresolved rest induction =>
      rw [List.forall_mem_cons] at here
      intro nodes member
      rcases List.mem_cons.mp member with same | member
      · cases same
        exact List.forall_mem_nil _
      · exact induction here.2 nodes member
  | @kept entry _ _ _ _ _ held stays rest induction =>
      rw [List.forall_mem_cons] at here
      intro nodes member
      rcases List.mem_cons.mp member with same | member
      · cases same
        rw [List.forall_mem_singleton]
        rcases entry with ⟨value, annotations⟩
        exact keeps.hereditary.map.mpr (List.forall_mem_singleton.mpr
          (keeps.stays stays (keeps.marker held here.1)))
      · exact induction here.2 nodes member
  | merged held brings rest induction =>
      rw [List.forall_mem_cons] at here
      intro nodes member
      rcases List.mem_cons.mp member with same' | member
      · cases same'
        have added := keeps.broughtList (keeps.marker held here.1) brings same
        exact fun node listed => added node (List.mem_filter.mp listed).1
      · exact induction here.2 nodes member

end Evaluator.Keeps

namespace Pass

mutual
theorem visit_keeps (keeps : evaluator.Keeps stubs holds) : ∀ (node : Node)
    {binding : Binding} {mode : Override} {node' : Node}, holds node →
      visit evaluator binding mode node = .ok node' → binding.stubs = stubs → holds node'
  | .mk (.map fields) annotations, binding, mode, .mk value' annotations', here, ends, same => by
      have here := keeps.hereditary.map.mp here
      have inner : (inside binding annotations).stubs = stubs := by rw [stubs_inside, same]
      rcases visit_map_cases ends with ⟨plan, follows, ⟨base, redirect, rfl, value⟩ |
        ⟨marker, redirect, base, path, fields', rfl, visited, value⟩⟩
      · cases value
        cases follows with
        | replaced held brings =>
            exact keeps.hereditary.map.mpr
              (keeps.broughtMap (here _ (member_of_lookup held)) brings inner)
      · cases value
        refine keeps.hereditary.map.mpr fun field member => ?_
        have below : ∀ field ∈ fields', holds field.2 := by
          refine visitFields_keep keeps fields here ?_ visited inner
          rintro kept rfl
          cases follows with
          | kept held stays => exact keeps.stays stays (here _ (member_of_lookup held))
        cases base with
        | none => exact below field member
        | some base =>
            rcases List.mem_append.mp member with member | member
            · exact below field member
            · cases follows with
              | merged held brings =>
                  exact keeps.broughtMap (here _ (member_of_lookup held)) brings inner field
                    (List.mem_filter.mp member).1
  | .mk (.list entries) annotations, binding, mode, .mk value' annotations', here, ends, same => by
      have here := keeps.hereditary.list.mp here
      have inner : (inside binding annotations).stubs = stubs := by rw [stubs_inside, same]
      rcases visit_list_cases ends with ⟨plan, follows, ⟨added, redirect, rfl, value⟩ |
        ⟨steps, below, redirect, merged, entries', rfl, visited, value⟩⟩
      · cases value
        cases follows with
        | replaced member held brings =>
            exact keeps.hereditary.list.mpr
              (keeps.broughtList (keeps.marker held (here _ member)) brings inner)
      · cases value
        cases follows with
        | entries path redirect each =>
            exact keeps.hereditary.list.mpr
              (visitEntries_keep keeps entries here (keeps.spliced each here inner) visited inner)
  | .mk .null annotations, _, _, _, here, ends, same
  | .mk (.boolean _) annotations, _, _, _, here, ends, same
  | .mk (.integer _) annotations, _, _, _, here, ends, same
  | .mk (.decimal _) annotations, _, _, _, here, ends, same
  | .mk (.text _) annotations, _, _, _, here, ends, same
  | .mk (.expression _) annotations, _, _, _, here, ends, same
  | .mk (.lambda _ _ _) annotations, _, _, _, here, ends, same =>
      keeps.leaf here ends same

theorem visitFields_keep (keeps : evaluator.Keeps stubs holds) : ∀ (fields : List (String × Node))
    {binding : Binding} {mode : Override} {marker : FieldMarker} {fields' : List (String × Node)},
    (∀ field ∈ fields, holds field.2) → (∀ kept, marker = .kept kept → holds kept) →
      visitFields evaluator binding mode marker fields = .ok fields' → binding.stubs = stubs →
        ∀ field ∈ fields', holds field.2
  | [], _, _, _, _, _, _, ends, _ => by
      cases ends
      exact List.forall_mem_nil _
  | (key, field) :: fields, binding, mode, marker, fields', here, also, ends, same => by
      rw [List.forall_mem_cons] at here
      rcases visitFields_cons_ends ends with ⟨rest, others, left⟩
      have below := visitFields_keep keeps fields here.2 also others same
      cases left with
      | visited _ visited =>
          exact List.forall_mem_cons.mpr ⟨visit_keeps keeps field here.1 visited same, below⟩
      | kept => exact List.forall_mem_cons.mpr ⟨also _ rfl, below⟩
      | dropped => exact below

theorem visitEntries_keep (keeps : evaluator.Keeps stubs holds) : ∀ (entries : List Node)
    {binding : Binding} {mode : Override} {merged : Bool} {index : Nat} {steps : List EntryStep}
    {entries' : List Node}, (∀ entry ∈ entries, holds entry) →
      (∀ nodes, .splice nodes ∈ steps → ∀ node ∈ nodes, holds node) →
        visitEntries evaluator binding mode merged index steps entries = .ok entries' →
          binding.stubs = stubs → ∀ entry ∈ entries', holds entry
  | [], _, _, _, _, _, _, _, _, ends, _ => by
      rw [visitEntries] at ends
      cases ends
      exact List.forall_mem_nil _
  | entry :: entries, binding, mode, merged, index, steps, entries', here, also, ends, same => by
      rw [List.forall_mem_cons] at here
      cases steps with
      | nil =>
          cases ends
          exact List.forall_mem_nil _
      | cons step steps =>
          have later : ∀ nodes, .splice nodes ∈ steps → ∀ node ∈ nodes, holds node :=
            fun nodes member => also nodes (List.mem_cons_of_mem _ member)
          cases step with
          | splice nodes =>
              rcases visitEntries_splice_ends ends with ⟨rest, rfl, others⟩
              exact List.forall_mem_append.mpr ⟨also nodes List.mem_cons_self,
                visitEntries_keep keeps entries here.2 later others same⟩
          | visit =>
              rcases visitEntries_visit_ends ends with ⟨visited, rest, rfl, first, others⟩
              exact List.forall_mem_cons.mpr ⟨visit_keeps keeps entry here.1 first same,
                visitEntries_keep keeps entries here.2 later others same⟩
end

end Pass

/-- What holds of all leaves of a template holds of those of every document of a run. -/
theorem Resolution.treeAfter_keeps {answers : Answers} {template document : Node}
    (keeps : (Expression.evaluate Expression.callDepth).Keeps stubs holds) (first : holds template)
    {passes : Nat} (reached : treeAfter answers stubs passes template = .ok document) :
    holds document :=
  treeAfter_invariant first (fun before _ here pass => Pass.visit_keeps keeps before here pass rfl)
    reached

end Stencil
