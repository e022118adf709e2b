import Stencil.Proofs.Evaluation.Precedence
import Stencil.Proofs.Node.Plain
import Stencil.Resolution.Resolve

namespace Stencil

/-! The steps of a pass, one equation for each thing that it does at a node. -/

/-- At a resolved node no expression stands. -/
theorem Node.not_expression_of_isResolved {node : Node} (resolved : node.isResolved)
    {place : List String} {expression : Expression} :
    node.expression? place ≠ some (.ok expression) := by
  rw [Node.expression?_eq_none_iff.mpr (Node.isLocallyResolved_of_isResolved resolved)]
  exact (Option.some_ne_none _).symm

/-- No expression stands at a collection. -/
theorem Node.leaf_of_expression {node : Node} {place : List String}
    {found : Except Issue Expression} (holds : node.expression? place = some found) :
    node.kind ≠ .map ∧ node.kind ≠ .list := by
  rcases node with ⟨value, annotations⟩
  cases value with
  | map fields | list entries => cases holds
  | _ => constructor <;> intro kind <;> cases kind

theorem markerField {entry marker : Node} (held : listMarker? entry = some marker) :
    ∃ annotations, entry = .mk (.map [(markerKey, marker)]) annotations := by
  rcases entry with ⟨value, annotations⟩
  unfold listMarker? at held
  split at held
  · rename_i key marker' same
    split at held
    · rename_i isMarker
      cases held
      subst isMarker
      simp only [Node.value_mk] at same
      exact ⟨annotations, by rw [same]⟩
    · cases held
  · cases held

/-- A collection is no expression. -/
theorem Node.isLocallyResolved_of_kind {node : Node}
    (collection : node.kind = .map ∨ node.kind = .list) : node.isLocallyResolved := by
  rcases node with ⟨value, annotations⟩
  cases value with
  | map fields | list entries => rfl
  | _ => rcases collection with kind | kind <;> cases kind

theorem Override.expressions_ne_all : Override.expressions ≠ .all := by decide

theorem Override.entries_ne_all {mode : Override} (quiet : mode ≠ .all) (replaced : Bool) :
    mode.entries replaced false ≠ .all := by
  unfold Override.entries
  split
  · decide
  · exact quiet

theorem Override.entries_same (mode : Override) : mode.entries false false = mode := by
  cases mode <;> rfl

theorem Binding.stub_of_findInStubs? {binding : Binding} {path : List String} {found : Node}
    (held : binding.findInStubs? path = some found) :
    ∃ stub ∈ binding.stubs, stub.find path = .found found := by
  rcases List.exists_of_findSome?_eq_some held with ⟨stub, member, held⟩
  refine ⟨stub, member, ?_⟩
  cases below : stub.find path with
  | found node =>
      rw [below] at held
      cases held
      rfl
  | unresolved | missing =>
      rw [below] at held
      cases held

/-- Resolved stubs have resolved nodes only. -/
theorem Binding.findInStubs?_resolved {binding : Binding}
    (resolved : ∀ stub ∈ binding.stubs, stub.isResolved) {path : List String} {found : Node}
    (held : binding.findInStubs? path = some found) : found.isResolved := by
  rcases binding.stub_of_findInStubs? held with ⟨stub, member, below⟩
  exact Node.isResolved_of_find (resolved stub member) below

/-! ## Markers that hold no expression -/

section
variable {evaluator : Evaluator} {binding : Binding}

theorem Marker.evaluate_of_resolved {marker : Node} (resolved : marker.isLocallyResolved) :
    Marker.evaluate evaluator binding marker = .ok .literal := by
  unfold Marker.evaluate
  rw [Node.expression?_eq_none_iff.mpr resolved]

/-- No marker of a map is an expression. -/
def markerResolved (fields : List (String × Node)) : Bool :=
  (fields.lookup markerKey).all Node.isLocallyResolved

theorem markerResolved_of_absent {fields : List (String × Node)}
    (absent : fields.lookup markerKey = none) : markerResolved fields := by
  unfold markerResolved
  rw [absent]
  rfl

theorem marker_of_unresolved {fields : List (String × Node)}
    (unresolved : markerResolved fields = false) :
    ∃ marker, fields.lookup markerKey = some marker ∧ marker.isLocallyResolved = false := by
  unfold markerResolved at unresolved
  cases held : fields.lookup markerKey with
  | none =>
      rw [held] at unresolved
      cases unresolved
  | some marker =>
      rw [held] at unresolved
      exact ⟨marker, rfl, unresolved⟩

theorem MapPlan.ofFields_of_resolved {fields : List (String × Node)}
    (resolved : markerResolved fields) :
    MapPlan.ofFields evaluator binding fields = .ok (.fields .ordinary none none) := by
  unfold MapPlan.ofFields
  unfold markerResolved at resolved
  cases found : fields.lookup markerKey with
  | none => rfl
  | some marker =>
      rw [found, Option.all_some] at resolved
      simp only [Marker.evaluate_of_resolved resolved]
      rfl

/-- No marker among the entries of a list is an expression. -/
def markersResolved (entries : List Node) : Bool :=
  entries.all fun entry => (listMarker? entry).all Node.isLocallyResolved

theorem ListPlan.ofEntries_of_resolved {names : List String} {redirect : Option (List String)}
    {merged : Bool} {entries : List Node} (resolved : markersResolved entries) :
    ofEntries evaluator names binding redirect merged entries =
      .ok (.entries (entries.map fun _ => .visit) binding redirect merged) := by
  induction entries with
  | nil => rfl
  | cons entry entries induction =>
      unfold markersResolved at resolved
      rw [List.all_cons, Bool.and_eq_true] at resolved
      unfold ofEntries
      rw [induction resolved.2]
      have here := resolved.1
      cases found : listMarker? entry with
      | none => rfl
      | some marker =>
          rw [found, Option.all_some] at here
          simp only [Marker.evaluate_of_resolved here]
          rfl

theorem markerResolved_of_fieldsResolved {fields : List (String × Node)}
    (resolved : fieldsResolved fields) : markerResolved fields := by
  unfold markerResolved
  cases found : fields.lookup markerKey with
  | none => rfl
  | some marker => exact Node.isLocallyResolved_of_isResolved (lookup_resolved resolved found)

theorem markersResolved_of_markers {entries : List Node}
    (markers : ∀ marker annotations, Node.mk (.map [(markerKey, marker)]) annotations ∈ entries →
      marker.isLocallyResolved) : markersResolved entries := by
  refine List.all_eq_true.mpr fun entry member => ?_
  cases held : listMarker? entry with
  | none => rfl
  | some marker =>
      rcases markerField held with ⟨annotations, rfl⟩
      exact markers marker annotations member

theorem markersResolved_of_entriesResolved {entries : List Node}
    (resolved : entriesResolved entries) : markersResolved entries := by
  refine markersResolved_of_markers fun marker annotations member => ?_
  have inner : fieldsResolved [(markerKey, marker)] := member_resolved resolved member
  rw [fieldsResolved, Bool.and_eq_true] at inner
  exact Node.isLocallyResolved_of_isResolved inner.1

end

/-! ## Nodes -/

namespace Pass

variable {evaluator : Evaluator} {binding : Binding} {mode : Override}

/-- What is no collection is visited as a leaf. -/
theorem visit_leaf {node : Node} (noMap : node.kind ≠ .map) (noList : node.kind ≠ .list) :
    visit evaluator binding mode node =
      leaf evaluator (binding.withSource node.source) mode node := by
  rcases node with ⟨value, annotations⟩
  cases value with
  | map fields => exact absurd rfl noMap
  | list entries => exact absurd rfl noList
  | _ => rfl

/-- A node brings its own source. -/
theorem visit_withSource (source : Option String) (node : Node) :
    visit evaluator (binding.withSource source) mode node = visit evaluator binding mode node := by
  rcases node with ⟨value, annotations⟩
  cases value <;> simp only [visit] <;> rfl

theorem evaluateNode_of_resolved {node : Node} (resolved : node.isLocallyResolved) :
    evaluateNode evaluator binding node = .ok node := by
  unfold evaluateNode
  rw [Node.expression?_eq_none_iff.mpr resolved]

/-- A leaf without an expression stays, unless plain values may be overridden. -/
theorem leaf_of_resolved {node : Node} (quiet : mode ≠ .all) (resolved : node.isLocallyResolved) :
    leaf evaluator binding mode node = .ok node := by
  have alone : stubFor? node binding mode = none := by
    unfold stubFor?
    cases mode with
    | all => exact absurd rfl quiet
    | never => simp [Override.allows]
    | expressions => simp [Override.allows, Node.expression?_eq_none_iff.mpr resolved]
  rw [leaf, alone, Option.getD_none, evaluateNode_of_resolved resolved]

/-- What overrides an expression that is not redirected. -/
theorem stubFor?_of_expression {node : Node} {expression : Expression}
    (holds : node.expression? binding.path = some (.ok expression)) (direct : node.redirect = none) :
    stubFor? node binding mode =
      if mode.allows true && !node.annotations.preferred && !expression.isPreferred then
        binding.findInStubs? binding.stubPath
      else none := by
  unfold stubFor?
  rw [holds, direct, Option.getD_none]
  simp only [Option.isSome_some, isPreferredLeaf]
  cases binding.findInStubs? binding.stubPath with
  | none => rfl
  | some found =>
      rcases found with ⟨value, annotations⟩
      rfl

theorem evaluateNode_of_expression {node node' : Node} {expression : Expression}
    (holds : node.expression? binding.path = some (.ok expression))
    (ends : evaluateNode evaluator binding node = .ok node') :
    ∃ outcome, evaluator binding expression = .ok outcome ∧
      node' = ofOutcome node expression outcome := by
  unfold evaluateNode at ends
  rw [holds] at ends
  rcases ok_of_bind ends with ⟨outcome, evaluated, ends⟩
  cases ends
  exact ⟨outcome, evaluated, rfl⟩

/-- An expression is replaced by what the stubs have for it, or by its outcome. -/
theorem leaf_cases {node node' : Node} {expression : Expression}
    (holds : node.expression? binding.path = some (.ok expression)) (direct : node.redirect = none)
    (stubs : ∀ found, binding.findInStubs? binding.stubPath = some found → found.isLocallyResolved)
    (ends : leaf evaluator binding mode node = .ok node') :
    binding.findInStubs? binding.stubPath = some node' ∨
      ∃ outcome, evaluator binding expression = .ok outcome ∧
        node' = ofOutcome node expression outcome := by
  have evaluated : ∀ {node' : Node}, evaluateNode evaluator binding node = .ok node' →
      ∃ outcome, evaluator binding expression = .ok outcome ∧
        node' = ofOutcome node expression outcome := fun ends =>
    evaluateNode_of_expression holds ends
  unfold leaf stubFor? at ends
  rw [direct, Option.getD_none] at ends
  simp only at ends
  split at ends
  · cases held : binding.findInStubs? binding.stubPath with
    | none =>
        rw [held] at ends
        exact .inr (evaluated ends)
    | some found =>
        rw [held] at ends
        rcases found with ⟨value, annotations⟩
        have resolved : ∀ place, (Node.mk value annotations).expression? place = none :=
          fun place => Node.expression?_eq_none_iff.mpr (stubs _ held)
        have ends : evaluateNode evaluator binding (.mk value annotations) = .ok node' := ends
        unfold evaluateNode at ends
        rw [resolved] at ends
        exact .inl (congrArg some (Except.ok.inj ends))
  · exact .inr (evaluated ends)

theorem visit_outcome {node node' : Node} {expression : Expression}
    (holds : node.expression? binding.path = some (.ok expression))
    (alone : stubFor? node (binding.withSource node.source) mode = none)
    (ends : visit evaluator binding mode node = .ok node') :
    ∃ outcome, evaluator (binding.withSource node.source) expression = .ok outcome ∧
      node' = ofOutcome node expression outcome := by
  rcases Node.leaf_of_expression holds with ⟨noMap, noList⟩
  rw [visit_leaf noMap noList, leaf, alone, Option.getD_none] at ends
  exact evaluateNode_of_expression holds ends

theorem visit_overridden {node node' found : Node} {expression : Expression}
    (holds : node.expression? binding.path = some (.ok expression))
    (overridden : stubFor? node (binding.withSource node.source) mode = some found)
    (resolved : found.isLocallyResolved) (ends : visit evaluator binding mode node = .ok node') :
    node' = found := by
  rcases Node.leaf_of_expression holds with ⟨noMap, noList⟩
  rw [visit_leaf noMap noList, leaf, overridden, Option.getD_some,
    evaluateNode_of_resolved resolved] at ends
  exact (Except.ok.inj ends).symm

/-- An expression that no stub replaces stays, or its value takes its place. -/
theorem visit_expression {node node' : Node} {expression : Expression}
    (holds : node.expression? binding.path = some (.ok expression))
    (direct : node.redirect = none) (alone : binding.findInStubs? binding.stubPath = none)
    (ends : visit evaluator binding mode node = .ok node') :
    (node'.expression? binding.path = some (.ok expression) ∧ node'.redirect = none) ∨
      ∃ value report,
        evaluator (binding.withSource node.source) expression = .ok (.value value report) ∧
          node'.value = value.value := by
  rcases Node.leaf_of_expression holds with ⟨noMap, noList⟩
  rw [visit_leaf noMap noList] at ends
  have alone : (binding.withSource node.source).findInStubs?
      (binding.withSource node.source).stubPath = none := alone
  have holds : node.expression? (binding.withSource node.source).path = some (.ok expression) :=
    holds
  rcases leaf_cases holds direct (fun _ held => by rw [alone] at held; cases held) ends
    with held | ⟨outcome, evaluated, rfl⟩
  · rw [alone] at held
    cases held
  · cases outcome with
    | value value report => exact .inr ⟨value, report, evaluated, rfl⟩
    | deferred report | failed report => exact .inl ⟨rfl, direct⟩

/-- A collection stays a collection of its kind. -/
theorem visit_kind {node node' : Node} (collection : node.kind = .map ∨ node.kind = .list)
    (ends : visit evaluator binding mode node = .ok node') : node'.kind = node.kind := by
  rcases node with ⟨value, annotations⟩
  cases value with
  | map fields =>
      rw [visit] at ends
      rcases ok_of_bind ends with ⟨plan, _, ends⟩
      cases plan with
      | replaced fields' redirect =>
          cases ends
          rfl
      | fields marker redirect base =>
          rcases ok_of_bind ends with ⟨fields', _, ends⟩
          cases ends
          rfl
  | list entries =>
      rw [visit] at ends
      rcases ok_of_bind ends with ⟨plan, _, ends⟩
      cases plan with
      | replaced entries' redirect =>
          cases ends
          rfl
      | entries steps place redirect merged =>
          rcases ok_of_bind ends with ⟨entries', _, ends⟩
          cases ends
          rfl
  | _ => rcases collection with kind | kind <;> cases kind

/-- Every value that is neither a collection nor an expression stays. -/
theorem visit_cases {node node' : Node} (quiet : mode ≠ .all) (resolved : node.isLocallyResolved)
    (ends : visit evaluator binding mode node = .ok node') :
    node' = node ∨ (node.kind = .map ∨ node.kind = .list) ∧ node'.kind = node.kind := by
  by_cases collection : node.kind = .map ∨ node.kind = .list
  · exact .inr ⟨collection, visit_kind collection ends⟩
  · rcases not_or.mp collection with ⟨noMap, noList⟩
    rw [visit_leaf noMap noList, leaf_of_resolved quiet resolved] at ends
    cases ends
    exact .inl rfl

/-- Resolved stubs never put an expression where there was none. -/
theorem visit_isLocallyResolved_of_stubs {node node' : Node}
    (ends : visit evaluator binding mode node = .ok node') (resolved : node.isLocallyResolved)
    (stubs : ∀ stub ∈ binding.stubs, stub.isResolved) : node'.isLocallyResolved := by
  by_cases collection : node.kind = .map ∨ node.kind = .list
  · exact Node.isLocallyResolved_of_kind (by rwa [visit_kind collection ends])
  · rcases not_or.mp collection with ⟨noMap, noList⟩
    rw [visit_leaf noMap noList, leaf] at ends
    cases held : stubFor? node (binding.withSource node.source) mode with
    | none =>
        rw [held, Option.getD_none, evaluateNode_of_resolved resolved] at ends
        cases ends
        exact resolved
    | some found =>
        have whole : found.isLocallyResolved := by
          unfold stubFor? at held
          simp only at held
          split at held
          · rcases Option.map_eq_some_iff.mp held with ⟨stub, there, rfl⟩
            have resolved : stub.isResolved := Binding.findInStubs?_resolved stubs there
            exact (Node.isLocallyResolved_of_isResolved resolved : stub.isLocallyResolved)
          · cases held
        rw [held, Option.getD_some, evaluateNode_of_resolved whole] at ends
        cases ends
        exact whole

/-- Where the fields or the entries of a collection are visited. -/
def inside (binding : Binding) (annotations : Annotations) : Binding :=
  followRedirect (binding.withSource annotations.source) annotations.redirect

theorem visit_map {fields : List (String × Node)} {annotations : Annotations}
    (resolved : markerResolved fields) :
    visit evaluator binding mode (.mk (.map fields) annotations) = (do
      let entries ← visitFields evaluator ((inside binding annotations).withScope fields)
        (mode.entries annotations.replace false) .ordinary fields
      return .mk (.map entries) annotations) := by
  simp only [visit, MapPlan.ofFields_of_resolved resolved]
  rfl

theorem visit_list {entries : List Node} {annotations : Annotations}
    (resolved : markersResolved entries) :
    visit evaluator binding mode (.mk (.list entries) annotations) = (do
      let visited ← visitEntries evaluator (inside binding annotations)
        (mode.entries annotations.replace false) false 0 (entries.map fun _ => .visit) entries
      return .mk (.list visited) annotations) := by
  simp only [visit, ListPlan.ofEntries_of_resolved resolved]
  rfl

/-- Where nothing is merged into a map, a visit of it is one of its fields. -/
theorem visit_map_ends {fields : List (String × Node)} {annotations : Annotations} {node' : Node}
    (resolved : markerResolved fields)
    (ends : visit evaluator binding mode (.mk (.map fields) annotations) = .ok node') :
    ∃ fields', node' = .mk (.map fields') annotations ∧
      visitFields evaluator ((inside binding annotations).withScope fields)
        (mode.entries annotations.replace false) .ordinary fields = .ok fields' := by
  rw [visit_map resolved] at ends
  rcases ok_of_bind ends with ⟨fields', visited, ends⟩
  cases ends
  exact ⟨fields', rfl, visited⟩

/-- Where nothing is merged into a list, a visit of it is one of its entries. -/
theorem visit_list_ends {entries : List Node} {annotations : Annotations} {node' : Node}
    (resolved : markersResolved entries)
    (ends : visit evaluator binding mode (.mk (.list entries) annotations) = .ok node') :
    ∃ entries', node' = .mk (.list entries') annotations ∧
      visitEntries evaluator (inside binding annotations) (mode.entries annotations.replace false)
        false 0 (entries.map fun _ => .visit) entries = .ok entries' := by
  rw [visit_list resolved] at ends
  rcases ok_of_bind ends with ⟨entries', visited, ends⟩
  cases ends
  exact ⟨entries', rfl, visited⟩

section
variable {marker : FieldMarker} {key : String} {field : Node} {fields : List (String × Node)}

/-- Every field but a marker is visited in place. -/
theorem visitFields_visited (ordinary : marker = .ordinary ∨ key ≠ markerKey) :
    visitFields evaluator binding mode marker ((key, field) :: fields) = (do
      let visited ← visit evaluator (binding.withPath key) mode field
      return (key, visited) :: (← visitFields evaluator binding mode marker fields)) := by
  rw [visitFields.eq_def]
  rcases ordinary with rfl | different
  · rfl
  · have different : (key == markerKey) = false := by simpa using different
    simp only [different]

theorem visitFields_dropped :
    visitFields evaluator binding mode .dropped ((markerKey, field) :: fields) =
      visitFields evaluator binding mode .dropped fields := rfl

theorem visitFields_kept {kept : Node} :
    visitFields evaluator binding mode (.kept kept) ((markerKey, field) :: fields) =
      (do return (markerKey, kept) ::
        (← visitFields evaluator binding mode (.kept kept) fields)) := rfl

end

/-- What is left of one field, in front of what is left of the others. -/
inductive FieldLeft (evaluator : Evaluator) (binding : Binding) (mode : Override)
    (rest : List (String × Node)) :
    FieldMarker → String → Node → List (String × Node) → Prop
  | visited {marker : FieldMarker} {key : String} {field field' : Node}
      (ordinary : marker = .ordinary ∨ key ≠ markerKey)
      (ends : visit evaluator (binding.withPath key) mode field = .ok field') :
      FieldLeft evaluator binding mode rest marker key field ((key, field') :: rest)
  | kept {field kept : Node} :
      FieldLeft evaluator binding mode rest (.kept kept) markerKey field ((markerKey, kept) :: rest)
  | dropped {field : Node} :
      FieldLeft evaluator binding mode rest .dropped markerKey field rest

theorem visitFields_cons_ends {marker : FieldMarker} {key : String} {field : Node}
    {fields fields' : List (String × Node)}
    (ends : visitFields evaluator binding mode marker ((key, field) :: fields) = .ok fields') :
    ∃ rest, visitFields evaluator binding mode marker fields = .ok rest ∧
      FieldLeft evaluator binding mode rest marker key field fields' := by
  by_cases ordinary : marker = .ordinary ∨ key ≠ markerKey
  · rw [visitFields_visited ordinary] at ends
    rcases ok_of_bind ends with ⟨field', visited, ends⟩
    rcases ok_of_bind ends with ⟨rest, others, ends⟩
    cases ends
    exact ⟨rest, others, .visited ordinary visited⟩
  · rcases not_or.mp ordinary with ⟨special, isMarker⟩
    cases Decidable.not_not.mp isMarker
    cases marker with
    | ordinary => exact absurd rfl special
    | dropped => exact ⟨fields', ends, .dropped⟩
    | kept kept =>
        rw [visitFields_kept] at ends
        rcases ok_of_bind ends with ⟨rest, others, ends⟩
        cases ends
        exact ⟨rest, others, .kept⟩

section
variable {merged : Bool} {index : Nat} {steps : List EntryStep} {entry : Node}
  {entries entries' : List Node}

theorem visitEntries_visit_ends
    (ends : visitEntries evaluator binding mode merged index (.visit :: steps) (entry :: entries) =
      .ok entries') :
    ∃ entry' rest, entries' = entry' :: rest ∧
      visit evaluator (binding.withPath (stepName index entry)) (entryMode mode merged entry)
        entry = .ok entry' ∧
      visitEntries evaluator binding mode merged (index + 1) steps entries = .ok rest := by
  rw [visitEntries] at ends
  rcases ok_of_bind ends with ⟨entry', visited, ends⟩
  rcases ok_of_bind ends with ⟨rest, others, ends⟩
  cases ends
  exact ⟨entry', rest, rfl, visited, others⟩

theorem visitEntries_splice_ends {nodes : List Node}
    (ends : visitEntries evaluator binding mode merged index (.splice nodes :: steps)
      (entry :: entries) = .ok entries') :
    ∃ rest, entries' = nodes ++ rest ∧
      visitEntries evaluator binding mode merged (index + nodes.length) steps entries =
        .ok rest := by
  rw [visitEntries] at ends
  rcases ok_of_bind ends with ⟨rest, others, ends⟩
  cases ends
  exact ⟨rest, rfl, others⟩

end

/-! Every field and every entry keeps its place. -/

theorem visitFields_lookup {marker : FieldMarker} {key : String}
    (ordinary : marker = .ordinary ∨ key ≠ markerKey) {fields fields' : List (String × Node)}
    (ends : visitFields evaluator binding mode marker fields = .ok fields') :
    (fields.lookup key = none ∧ fields'.lookup key = none) ∨
      ∃ field field', fields.lookup key = some field ∧ fields'.lookup key = some field' ∧
        visit evaluator (binding.withPath key) mode field = .ok field' := by
  induction fields generalizing fields' with
  | nil =>
      cases ends
      exact .inl ⟨rfl, rfl⟩
  | cons entry fields induction =>
      rcases entry with ⟨first, field⟩
      rcases visitFields_cons_ends ends with ⟨rest, others, left⟩
      rw [List.lookup_cons]
      cases left with
      | @visited _ _ _ field' _ visited =>
          rw [List.lookup_cons]
          cases same : key == first with
          | true =>
              rw [← beq_iff_eq.mp same] at visited
              exact .inr ⟨field, field', rfl, rfl, visited⟩
          | false => exact induction others
      -- The marker is not the field that is looked up.
      | kept =>
          have different : (key == markerKey) = false := by simpa using ordinary
          rw [List.lookup_cons, different]
          exact induction others
      | dropped =>
          have different : (key == markerKey) = false := by simpa using ordinary
          rw [different]
          exact induction others

theorem visitFields_found {marker : FieldMarker} {key : String}
    (ordinary : marker = .ordinary ∨ key ≠ markerKey) {fields fields' : List (String × Node)}
    {field : Node} (ends : visitFields evaluator binding mode marker fields = .ok fields')
    (held : fields.lookup key = some field) :
    ∃ field', fields'.lookup key = some field' ∧
      visit evaluator (binding.withPath key) mode field = .ok field' := by
  rcases visitFields_lookup ordinary ends with ⟨absent, _⟩ | ⟨_, field', held', found, visited⟩
  · rw [held] at absent
    cases absent
  · cases held.symm.trans held'
    exact ⟨field', found, visited⟩

theorem visitEntries_get {index : Nat} {entries entries' : List Node}
    (ends : visitEntries evaluator binding mode false index (entries.map fun _ => .visit) entries =
      .ok entries') (position : Nat) :
    (entries[position]? = none ∧ entries'[position]? = none) ∨
      ∃ entry entry', entries[position]? = some entry ∧ entries'[position]? = some entry' ∧
        visit evaluator (binding.withPath (stepName (index + position) entry)) mode entry =
          .ok entry' := by
  induction entries generalizing index entries' position with
  | nil =>
      rw [List.map_nil, visitEntries] at ends
      cases ends
      exact .inl ⟨rfl, rfl⟩
  | cons entry entries induction =>
      rcases visitEntries_visit_ends ends with ⟨entry', rest, rfl, visited, others⟩
      cases position with
      | zero => exact .inr ⟨entry, entry', rfl, rfl, visited⟩
      | succ position =>
          have later := induction others position
          rw [Nat.add_right_comm, Nat.add_assoc] at later
          exact later

theorem visitEntries_found {index position : Nat} {entries entries' : List Node} {entry : Node}
    (ends : visitEntries evaluator binding mode false index (entries.map fun _ => .visit) entries =
      .ok entries') (held : entries[position]? = some entry) :
    ∃ entry', entries'[position]? = some entry' ∧
      visit evaluator (binding.withPath (stepName (index + position) entry)) mode entry =
        .ok entry' := by
  rcases visitEntries_get ends position with ⟨absent, _⟩ | ⟨_, entry', held', found, visited⟩
  · rw [held] at absent
    cases absent
  · cases held.symm.trans held'
    exact ⟨entry', found, visited⟩

/-- Every entry of the result comes from one of the entries. -/
theorem visitEntries_came {index : Nat} {entries entries' : List Node} {entry' : Node}
    (ends : visitEntries evaluator binding mode false index (entries.map fun _ => .visit) entries =
      .ok entries') (member : entry' ∈ entries') :
    ∃ position entry, entry ∈ entries ∧
      visit evaluator (binding.withPath (stepName (index + position) entry)) mode entry =
        .ok entry' := by
  rcases List.mem_iff_getElem?.mp member with ⟨position, there⟩
  rcases visitEntries_get ends position with ⟨_, absent⟩ | ⟨entry, _, held, found, visited⟩
  · rw [there] at absent
    cases absent
  · cases there.symm.trans found
    exact ⟨position, entry, List.mem_of_getElem? held, visited⟩

/-! What is resolved stays as it is, as long as nothing is merged around it. -/

mutual
theorem visit_of_isResolved : ∀ (node : Node) {binding : Binding} {mode : Override},
    mode ≠ .all → node.isResolved → visit evaluator binding mode node = .ok node
  | .mk (.map fields) annotations, binding, mode, quiet, resolved => by
      rw [visit_map (markerResolved_of_fieldsResolved resolved),
        visitFields_of_resolved fields (Override.entries_ne_all quiet _) resolved]
      rfl
  | .mk (.list entries) annotations, binding, mode, quiet, resolved => by
      rw [visit_list (markersResolved_of_entriesResolved resolved),
        visitEntries_of_resolved entries 0 (Override.entries_ne_all quiet _) resolved]
      rfl
  | .mk .null _, _, _, quiet, resolved | .mk (.boolean _) _, _, _, quiet, resolved
  | .mk (.integer _) _, _, _, quiet, resolved | .mk (.decimal _) _, _, _, quiet, resolved
  | .mk (.text _) _, _, _, quiet, resolved | .mk (.expression _) _, _, _, quiet, resolved
  | .mk (.lambda _ _ _) _, _, _, quiet, resolved => leaf_of_resolved quiet resolved

theorem visitFields_of_resolved : ∀ (fields : List (String × Node)) {binding : Binding}
    {mode : Override}, mode ≠ .all → fieldsResolved fields →
      visitFields evaluator binding mode .ordinary fields = .ok fields
  | [], _, _, _, _ => rfl
  | (key, field) :: fields, binding, mode, quiet, resolved => by
      rw [fieldsResolved, Bool.and_eq_true] at resolved
      rw [visitFields_visited (.inl rfl), visit_of_isResolved field quiet resolved.1,
        visitFields_of_resolved fields quiet resolved.2]
      rfl

theorem visitEntries_of_resolved : ∀ (entries : List Node) (index : Nat) {binding : Binding}
    {mode : Override}, mode ≠ .all → entriesResolved entries →
      visitEntries evaluator binding mode false index (entries.map fun _ => .visit) entries =
        .ok entries
  | [], _, _, _, _, _ => by rw [visitEntries]
  | entry :: entries, index, binding, mode, quiet, resolved => by
      rw [entriesResolved, Bool.and_eq_true] at resolved
      have same : entryMode mode false entry = mode := rfl
      rw [List.map_cons, visitEntries, same, visit_of_isResolved entry quiet resolved.1,
        visitEntries_of_resolved entries (index + 1) quiet resolved.2]
      rfl
end

end Pass

end Stencil
