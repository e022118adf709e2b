import Stencil.Proofs.Evaluation.Elementary
import Stencil.Proofs.Node.Simple
import Stencil.Proofs.Resolution.Run
import Stencil.Proofs.Resolution.Visit

namespace Stencil

/-! A pass over a simple document replaces some of its expressions by plain values and leaves
everything else as it is. -/

theorem Node.RefinedBy.isSettledEntry {entry later : Node} (refined : entry.RefinedBy later)
    (settled : entry.isSettledEntry) : later.isSettledEntry := by
  unfold Node.isSettledEntry at settled ⊢
  rw [Bool.and_eq_true] at settled ⊢
  refine ⟨refined.isLocallyResolved settled.1, ?_⟩
  have names := refined.get? settled.1 "name"
  have resolved := settled.2
  generalize entry.get? "name" = name at names resolved
  generalize later.get? "name" = name' at names ⊢
  cases names with
  | none => rfl
  | some here => exact here.isLocallyResolved resolved

/-- What the stubs have is plain when the stubs are. -/
theorem Binding.IsSimple.findInStubs? {binding : Binding} (place : binding.IsSimple)
    {path : List String} {found : Node} (held : binding.findInStubs? path = some found) :
    found.isPlain := by
  rcases binding.stub_of_findInStubs? held with ⟨stub, member, below⟩
  have plain := place.stubs stub member
  exact Node.isPlain_of_resolved (Node.find_simple (Node.isSimple_of_isPlain plain) below)
    (Node.isResolved_of_find (Node.isResolved_of_isPlain plain) below)

theorem Binding.IsSimple.withScope {binding : Binding} (place : binding.IsSimple)
    {fields : List (String × Node)} (simple : fieldsSimple fields) :
    (binding.withScope fields).IsSimple :=
  { place with scopes := List.forall_mem_cons.mpr ⟨simple, place.scopes⟩ }

theorem Binding.IsSimple.withPath {binding : Binding} (place : binding.IsSimple)
    (step : String) : (binding.withPath step).IsSimple :=
  { place with stubPath := congrArg (· ++ [step]) place.stubPath }

theorem Binding.IsSimple.withSource {binding : Binding} (place : binding.IsSimple)
    (source : Option String) : (binding.withSource source).IsSimple :=
  { place with }

/-- A simple map has no marker. -/
theorem markerResolved_of_simple {fields : List (String × Node)} (simple : fieldsSimple fields) :
    markerResolved fields := by
  unfold markerResolved
  cases found : fields.lookup markerKey with
  | none => rfl
  | some marker => exact absurd rfl (lookup_simple simple found).1

theorem markersResolved_of_simple {entries : List Node} (simple : entriesSimple entries) :
    markersResolved entries := by
  refine markersResolved_of_markers fun marker annotations member => ?_
  have found : [(markerKey, marker)].lookup markerKey = some marker := by simp
  rcases Node.simple_cases (member_simple simple member) with plain | ⟨_, simple⟩
  · exact absurd rfl (lookup_plain plain found).1
  · exact absurd rfl (lookup_simple simple found).1

/-- An evaluator that gives plain values for elementary expressions. -/
def Evaluator.Plain (evaluator : Evaluator) : Prop :=
  ∀ {binding : Binding} {expression : Expression} {node : Node} {report : Report},
    binding.FindsPlain → expression.isElementary →
      evaluator binding expression = .ok (.value node report) → node.isPlain

theorem Expression.evaluate_plain (depth : Nat) : (evaluate depth).Plain := by
  cases depth with
  | zero =>
      intro _ _ _ _ _ _ ends
      cases ends
  | succ depth => exact fun place elementary ends => evaluateWith_plain place _ elementary ends

/-- What a pass makes of a simple tree: a simple tree that is further along, with settled lists
where the lists were settled. -/
structure Node.Yields (node node' : Node) : Prop where
  simple : node'.isSimple
  refined : node.RefinedBy node'
  settled : node.listsSettled → node'.listsSettled

theorem Node.Yields.refl {node : Node} (simple : node.isSimple) : node.Yields node :=
  ⟨simple, RefinedBy.refl node, id⟩

theorem Node.Yields.of_plain {node node' : Node} (unresolved : node.isLocallyResolved = false)
    (plain : node'.isPlain) : node.Yields node' := by
  refine ⟨isSimple_of_isPlain plain, ?_, fun _ => ?_⟩
  · rcases node with ⟨value, annotations⟩
    exact .inl unresolved
  · exact listsSettled_of_isResolved (isResolved_of_isPlain plain)

namespace Pass

variable {evaluator : Evaluator}

/-- A simple expression becomes what the stubs have for it, or its value, or it stays. -/
theorem visit_holds (plain : evaluator.Plain) {binding : Binding} {mode : Override}
    {node node' : Node} {expression : Expression} {preferred : Bool} (place : binding.IsSimple)
    (held : node.Holds expression preferred)
    (ends : visit evaluator binding mode node = .ok node') :
    node'.isPlain ∨ node'.Holds expression preferred ∧ node'.value = .expression expression := by
  have place := place.withSource node.source
  rcases Node.leaf_of_expression (held.holds []) with ⟨noMap, noList⟩
  rw [visit_leaf noMap noList] at ends
  rcases leaf_cases (held.holds _) held.direct
    (fun found below => Node.isLocallyResolved_of_isResolved
      (Node.isResolved_of_isPlain (place.findInStubs? below))) ends
    with below | ⟨outcome, evaluated, rfl⟩
  · exact .inl (place.findInStubs? below)
  · cases outcome with
    | value result report =>
        have whole := plain place.findsPlain held.elementary evaluated
        rcases result with ⟨value, annotations⟩
        exact .inl whole
    | deferred report | failed report =>
        exact .inr ⟨⟨fun _ => rfl, held.elementary, held.direct, held.preferred⟩, rfl⟩

theorem leaf_simple (plain : evaluator.Plain) {binding : Binding} {mode : Override}
    {node node' : Node} (place : binding.IsSimple) (quiet : mode ≠ .all) (simple : node.isSimple)
    (noMap : node.kind ≠ .map) (noList : node.kind ≠ .list)
    (ends : visit evaluator binding mode node = .ok node') : node.Yields node' := by
  cases resolved : node.isLocallyResolved with
  | true =>
      rw [visit_leaf noMap noList, leaf_of_resolved quiet resolved] at ends
      cases ends
      exact .refl simple
  | false =>
      rcases Node.holds_of_simple simple resolved with ⟨expression, held⟩
      rcases visit_holds plain place held ends with whole | ⟨held', same⟩
      · exact .of_plain resolved whole
      · rcases node with ⟨value, annotations⟩
        rcases node' with ⟨_, annotations'⟩
        cases same
        exact ⟨Node.isSimple_of_direct held'.direct held'.elementary, .inl resolved, fun _ => rfl⟩

mutual
theorem visit_simple (plain : evaluator.Plain) :
    ∀ (node : Node) {binding : Binding} {mode : Override} {node' : Node},
    binding.IsSimple → mode ≠ .all → node.isSimple →
      visit evaluator binding mode node = .ok node' → node.Yields node'
  | .mk (.map fields) annotations, binding, mode, node', place, quiet, simple, ends => by
      rcases Node.simple_cases simple with whole | ⟨direct, inner⟩
      · rw [visit_of_isResolved _ quiet (Node.isResolved_of_isPlain whole)] at ends
        cases ends
        exact .refl simple
      · have direct : annotations.redirect = none := direct
        rcases visit_map_ends (markerResolved_of_simple inner) ends with ⟨fields', rfl, visited⟩
        rw [inside, direct] at visited
        rcases visitFields_simple plain fields
            ((place.withSource annotations.source).withScope inner)
            (Override.entries_ne_all quiet _) inner visited
          with ⟨simple', refined, settled⟩
        exact ⟨Node.isSimple_of_direct direct simple', .inr ⟨rfl, refined⟩, settled⟩
  | .mk (.list entries) annotations, binding, mode, node', place, quiet, simple, ends => by
      rcases Node.simple_cases simple with whole | ⟨direct, inner⟩
      · rw [visit_of_isResolved _ quiet (Node.isResolved_of_isPlain whole)] at ends
        cases ends
        exact .refl simple
      · have direct : annotations.redirect = none := direct
        rcases visit_list_ends (markersResolved_of_simple inner) ends with ⟨entries', rfl, visited⟩
        rw [inside, direct] at visited
        rcases visitEntries_simple plain entries 0 (place.withSource annotations.source)
            (Override.entries_ne_all quiet _) inner visited
          with ⟨simple', refined, settled⟩
        exact ⟨Node.isSimple_of_direct direct simple', .inr ⟨rfl, refined⟩, settled⟩
  | .mk .null _, _, _, _, place, quiet, simple, ends
  | .mk (.boolean _) _, _, _, _, place, quiet, simple, ends
  | .mk (.integer _) _, _, _, _, place, quiet, simple, ends
  | .mk (.decimal _) _, _, _, _, place, quiet, simple, ends
  | .mk (.text _) _, _, _, _, place, quiet, simple, ends
  | .mk (.expression _) _, _, _, _, place, quiet, simple, ends
  | .mk (.lambda _ _ _) _, _, _, _, place, quiet, simple, ends =>
      leaf_simple plain place quiet simple Kind.noConfusion Kind.noConfusion ends

theorem visitFields_simple (plain : evaluator.Plain) :
    ∀ (fields : List (String × Node)) {binding : Binding} {mode : Override}
    {fields' : List (String × Node)}, binding.IsSimple → mode ≠ .all → fieldsSimple fields →
      visitFields evaluator binding mode .ordinary fields = .ok fields' →
        fieldsSimple fields' ∧ fieldsRefined fields fields' ∧
          (fieldsSettled fields → fieldsSettled fields')
  | [], _, _, _, _, _, _, ends => by
      cases ends
      exact ⟨rfl, trivial, id⟩
  | (key, field) :: fields, binding, mode, fields', place, quiet, simple, ends => by
      rw [fieldsSimple, Bool.and_eq_true, Bool.and_eq_true] at simple
      rcases visitFields_cons_ends ends with ⟨rest, others, left⟩
      rcases visitFields_simple plain fields place quiet simple.2 others with
        ⟨simple', refined, settled⟩
      cases left with
      | visited _ visited =>
          have here := visit_simple plain field (place.withPath key) quiet simple.1.2 visited
          rw [fieldsSimple, Bool.and_eq_true, Bool.and_eq_true]
          refine ⟨⟨⟨simple.1.1, here.simple⟩, simple'⟩, ⟨rfl, here.refined, refined⟩, ?_⟩
          rw [fieldsSettled, fieldsSettled, Bool.and_eq_true, Bool.and_eq_true]
          exact And.imp here.settled settled

theorem visitEntries_simple (plain : evaluator.Plain) :
    ∀ (entries : List Node) (index : Nat) {binding : Binding} {mode : Override}
    {entries' : List Node}, binding.IsSimple → mode ≠ .all → entriesSimple entries →
      visitEntries evaluator binding mode false index (entries.map fun _ => .visit) entries =
          .ok entries' →
        entriesSimple entries' ∧ entriesRefined entries entries' ∧
          (entriesSettled entries → entriesSettled entries')
  | [], _, _, _, _, _, _, _, ends => by
      rw [visitEntries] at ends
      cases ends
      exact ⟨rfl, trivial, id⟩
  | entry :: entries, index, binding, mode, entries', place, quiet, simple, ends => by
      rw [entriesSimple, Bool.and_eq_true] at simple
      rcases visitEntries_visit_ends ends with ⟨entry', rest, rfl, visited, others⟩
      have here := visit_simple plain entry (place.withPath _) quiet simple.1 visited
      rcases visitEntries_simple plain entries (index + 1) place quiet simple.2 others with
        ⟨simple', refined, settled⟩
      rw [entriesSimple, Bool.and_eq_true]
      refine ⟨⟨here.simple, simple'⟩, ⟨here.refined, refined⟩, ?_⟩
      rw [entriesSettled, entriesSettled, Bool.and_eq_true, Bool.and_eq_true, Bool.and_eq_true,
        Bool.and_eq_true]
      exact And.imp (And.imp here.refined.isSettledEntry here.settled) settled
end

end Pass

end Stencil
