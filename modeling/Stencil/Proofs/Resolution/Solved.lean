import Stencil.Proofs.Resolution.Graph

namespace Stencil

open Chain

/-! A map of scalars and references is solved. The passes go on for as long as a value is still on
its way along a chain, and what they leave behind are the chains that are stuck. -/

namespace Node

variable {node other : Node} {key : String}

/-- Only a reference to the same key equals a reference. -/
theorem Refers.value_of_same (refers : node.Refers key) (same : other.same node) :
    other.value = node.value := by
  rcases node with ⟨value, annotations⟩
  rcases other with ⟨value', annotations'⟩
  rcases refers.value with text | text
  all_goals
    cases text
    rw [Node.same] at same
    cases value' <;> first | exact absurd same Bool.false_ne_true | skip
  · rw [Value.same, beq_iff_eq] at same
    exact congrArg Value.text same
  · rw [Value.same, beq_iff_eq] at same
    exact congrArg Value.expression same

end Node

namespace Graph

variable {fields : List (String × Node)} {node : Node} {key : String}

/-! ## Passes that change something -/

theorem fieldsDistinct_fieldsAfter (graph : IsGraph fields) (passes : Nat) :
    fieldsDistinct (fieldsAfter fields passes) := by
  refine fieldsDistinct_map graph.distinct fun field member => ?_
  rw [← Node.value_keysDistinct]
  exact (isField_nodeAfter graph passes (graph.lookup member)).plain.1

/-- A pass that changes nothing changes no field. -/
theorem same_nodeAfter {annotations : Annotations} {passes : Nat}
    (same : (documentAfter fields annotations (passes + 1) ==
      documentAfter fields annotations passes) = true)
    (held : fields.lookup key = some node) :
    (nodeAfter fields (passes + 1) node).same (nodeAfter fields passes node) := by
  have same : (Value.map (fieldsAfter fields (passes + 1))).same
      (.map (fieldsAfter fields passes)) := same
  rw [Value.same, Bool.and_eq_true] at same
  have after (passes : Nat) : (fieldsAfter fields passes).lookup key =
      some (nodeAfter fields passes node) := by
    rw [lookup_fieldsAfter, held, Option.map_some]
  rcases same_of_sameFields same.2 (after (passes + 1)) with ⟨other, found, same⟩
  cases (after passes).symm.trans found
  exact same

/-- A pass in which a value comes to a key changes something. -/
theorem changes_of_reaches (graph : IsGraph fields) (annotations : Annotations) {passes : Nat}
    {scalar : Node} (reaches : Reaches fields key (passes + 1) scalar) :
    (documentAfter fields annotations (passes + 1) ==
      documentAfter fields annotations passes) = false := by
  rw [Bool.eq_false_iff]
  intro same
  rcases reaches.held with ⟨node, held⟩
  have later := reaches.later (Nat.lt_succ_self passes)
  rcases graph.names_of_later held later with ⟨next, names⟩
  have before := (progress graph passes).refers graph held names later
  have after := (progress graph (passes + 1)).reached reaches held (Nat.le_refl _)
  have value := before.value_of_same (same_nodeAfter same held)
  have resolved : (nodeAfter fields passes node).isResolved :=
    Node.resolved_of_scalar (value ▸ after ▸ reaches.isScalar)
  rw [before.not_resolved] at resolved
  cases resolved

/-- A stuck reference was read and has found nothing. -/
theorem nodeAfter_of_stuck (graph : IsGraph fields) {passes : Nat} (stuck : Stuck fields key)
    (held : fields.lookup key = some node) (read : passes ≠ 0) :
    ∃ next, Names fields key next ∧ nodeAfter fields passes node = pending fields next node := by
  have later : Later fields key passes := stuck.later
  rcases graph.names_of_later held later with ⟨next, names⟩
  refine ⟨next, names, ?_⟩
  rw [(progress graph passes).waiting held names later, if_neg read]

/-- In the first pass the texts of stuck references become expressions. -/
theorem changes_of_stuck (graph : IsGraph fields) (annotations : Annotations)
    (stuck : Stuck fields key) (held : fields.lookup key = some node) :
    (documentAfter fields annotations 1 == documentAfter fields annotations 0) = false := by
  rw [Bool.eq_false_iff]
  intro same
  rcases nodeAfter_of_stuck graph stuck held Nat.one_ne_zero with ⟨next, names, after⟩
  have before : node.Refers next := ⟨graph.legible names, .inl (names.value held)⟩
  have value := before.value_of_same (same_nodeAfter same held)
  rw [after, names.value held] at value
  cases value

/-- After so many passes every value has come, and every stuck reference was read. -/
structure Complete (fields : List (String × Node)) (passes : Nat) : Prop where
  come : ∀ {key length scalar}, Reaches fields key length scalar → length ≤ passes
  read : ∀ field ∈ fields, Stuck fields field.1 → passes ≠ 0

theorem Complete.succ {passes : Nat} (complete : Complete fields passes) :
    Complete fields (passes + 1) :=
  ⟨fun reaches => Nat.le_succ_of_le (complete.come reaches), fun _ _ _ => Nat.succ_ne_zero passes⟩

theorem Complete.reached {passes length : Nat} {scalar : Node} (complete : Complete fields passes)
    (graph : IsGraph fields) (reaches : Reaches fields key length scalar)
    (held : fields.lookup key = some node) :
    (nodeAfter fields passes node).value = scalar.value :=
  (progress graph passes).reached reaches held (complete.come reaches)

theorem Complete.stuck {passes : Nat} (complete : Complete fields passes) (graph : IsGraph fields)
    (stuck : Stuck fields key) (held : fields.lookup key = some node) :
    ∃ next, Names fields key next ∧ nodeAfter fields passes node = pending fields next node :=
  nodeAfter_of_stuck graph stuck held (complete.read _ (member_of_lookup held) stuck)

/-- Then a pass changes nothing. -/
theorem Complete.same {passes : Nat} (complete : Complete fields passes) (graph : IsGraph fields)
    (annotations : Annotations) :
    (documentAfter fields annotations (passes + 1) ==
      documentAfter fields annotations passes) = true := by
  have value : ∀ field ∈ fields, (nodeAfter fields (passes + 1) field.2).value =
      (nodeAfter fields passes field.2).value := by
    intro field member
    have held := graph.lookup member
    rcases graph.reaches_or_stuck field.1 with ⟨length, scalar, reaches⟩ | stuck
    · rw [complete.reached graph reaches held, complete.succ.reached graph reaches held]
    · rcases complete.stuck graph stuck held with ⟨next, names, here⟩
      rcases complete.succ.stuck graph stuck held with ⟨next', names', there⟩
      rw [here, there, names.unique names']
  refine Value.same_map (fieldsDistinct_fieldsAfter graph passes) ?_
  refine List.forall₂_map_left_iff.mpr (List.forall₂_map_right_iff.mpr (List.forall₂_same.mpr ?_))
  intro field member
  exact ⟨rfl, (isField_nodeAfter graph passes (graph.lookup member)).same (value field member)⟩

/-! ## The number of passes -/

open Classical in
/-- One pass for every reference of the longest chain that ends, and one that changes nothing.
Where no value has to come, stuck references need one to be read. -/
noncomputable def passesOf (fields : List (String × Node)) (longest : Nat) : Nat :=
  if longest = 0 ∧ ∃ field ∈ fields, Stuck fields field.1 then 2 else longest + 1

/-- All passes but the last one have something to do. -/
theorem passesOf_eq {longest : Nat} (long : IsLongest fields longest) :
    ∃ total, passesOf fields longest = total + 1 ∧ Complete fields total ∧
      ∀ passes < total, (∃ key scalar, Reaches fields key (passes + 1) scalar) ∨
        passes = 0 ∧ ∃ field ∈ fields, Stuck fields field.1 := by
  unfold passesOf
  split
  · rename_i only
    rcases only with ⟨rfl, stuck⟩
    refine ⟨1, rfl, ⟨?_, fun _ _ _ => Nat.one_ne_zero⟩, fun passes less => .inr ?_⟩
    · exact fun reaches => Nat.le_succ_of_le (long.bound reaches)
    · exact ⟨Nat.lt_one_iff.mp less, stuck⟩
  · rename_i other
    refine ⟨longest, rfl, ⟨long.bound, ?_⟩, fun passes less => .inl ?_⟩
    · rintro field member stuck rfl
      exact other ⟨rfl, field, member, stuck⟩
    · rcases long.attained with rfl | ⟨key, scalar, reaches⟩
      · cases less
      · rcases reaches.shorter less with ⟨later, reaches⟩
        exact ⟨later, scalar, reaches⟩

end Graph

/-! ## Settling -/

namespace Resolution

/-- A run in which some passes change something and the next one changes nothing. -/
theorem settle_of_changes {answers : Answers} {stubs : List Node} {tree : Nat → Node} {total : Nat}
    (runs : ∀ passes, Pass.run answers stubs (tree passes) = .ok (tree (passes + 1)))
    (changes : ∀ passes < total, (tree (passes + 1) == tree passes) = false)
    (same : (tree (total + 1) == tree total) = true) {left passes : Nat} (few : passes ≤ total)
    (enough : total < passes + left) :
    settle answers stubs left passes (tree passes) =
      .ok (some ⟨tree (total + 1), (tree (total + 1)).unresolved, total + 1⟩) := by
  induction left generalizing passes with
  | zero => omega
  | succ left induction =>
      rw [settle, runs]
      simp only [bind, Except.bind]
      rcases Nat.eq_or_lt_of_le few with rfl | less
      · rw [same]
        rfl
      · rw [changes passes less]
        exact induction less (by omega)

variable {fields : List (String × Node)}

theorem settle_graph (graph : IsGraph fields) (answers : Answers) (annotations : Annotations)
    {longest limit : Nat} (long : IsLongest fields longest)
    (enough : Graph.passesOf fields longest ≤ limit) :
    settle answers [] limit 0 (.mk (.map fields) annotations) =
      .ok (some ⟨Graph.documentAfter fields annotations (Graph.passesOf fields longest),
        (Graph.documentAfter fields annotations (Graph.passesOf fields longest)).unresolved,
        Graph.passesOf fields longest⟩) := by
  have start : Node.mk (.map fields) annotations = Graph.documentAfter fields annotations 0 := by
    rw [Graph.documentAfter, Graph.fieldsAfter_zero]
  rcases Graph.passesOf_eq long with ⟨total, equal, complete, busy⟩
  rw [equal] at enough ⊢
  rw [start]
  refine settle_of_changes (Graph.run_documentAfter graph answers annotations) ?_ ?_
    (Nat.zero_le total) (by omega)
  · intro passes less
    rcases busy passes less with ⟨key, scalar, reaches⟩ | ⟨rfl, field, member, stuck⟩
    · exact Graph.changes_of_reaches graph annotations reaches
    · exact Graph.changes_of_stuck graph annotations stuck (graph.lookup member)
  · exact complete.same graph annotations

end Resolution

/-! ## What is unresolved -/

theorem Node.placesFrom_of_isField {node : Node} (field : node.IsField) (place : Place) :
    node.placesFrom place = [(place, node)] := by
  rcases node with ⟨value, annotations⟩
  rw [Node.placesFrom]
  cases value with
  | map fields => exact absurd rfl field.kind.1
  | list entries => exact absurd rfl field.kind.2
  | _ => rfl

/-- The fields are all the nodes there are. -/
theorem fieldPlaces_of_isField {fields : List (String × Node)} (place : Place)
    (all : ∀ field ∈ fields, field.2.IsField) :
    fieldPlaces place fields = fields.map fun (key, node) => (place.field key, node) := by
  induction fields with
  | nil => rfl
  | cons field fields induction =>
      rcases field with ⟨key, node⟩
      rw [List.forall_mem_cons] at all
      rw [fieldPlaces, node.placesFrom_of_isField all.1, induction all.2]
      rfl

theorem forall₂_filterMap {Given Found : Type} {condition : Given → Bool}
    {relation : Given → Found → Prop} {choice : Given → Option Found} {values : List Given}
    (chosen : ∀ value ∈ values, condition value →
      ∃ found, choice value = some found ∧ relation value found)
    (other : ∀ value ∈ values, ¬ condition value → choice value = none) :
    List.Forall₂ relation (values.filter condition) (values.filterMap choice) := by
  induction values with
  | nil => exact .nil
  | cons value values induction =>
      rw [List.forall_mem_cons] at chosen other
      have rest := induction chosen.2 other.2
      rw [List.filter_cons, List.filterMap_cons]
      split
      · rename_i holds
        rcases chosen.1 holds with ⟨found, choose, related⟩
        rw [choose]
        exact .cons related rest
      · rename_i fails
        rw [other.1 fails]
        exact rest

/-- The report of a reference that is stuck. It has an issue where the next key is not there. -/
structure Reports (fields : List (String × Node)) (field : String × Node)
    (report : UnresolvedNode) : Prop where
  expression : .text report.expression = field.2.value
  source : report.source = field.2.source
  place : report.place = Place.root.field field.1
  issue : ∀ next, Names fields field.1 next → report.issue.map Issue.message =
    if (fields.lookup next).isNone then some ("'" ++ next ++ "' not found") else none

namespace Graph

variable {fields : List (String × Node)}

theorem reports_pending {field : String × Node} {next : String} (names : Names fields field.1 next)
    (held : fields.lookup field.1 = some field.2) :
    Reports fields field ⟨UnresolvedNode.expressionText (pending fields next field.2).value,
      (pending fields next field.2).source, Place.root.field field.1,
      (pending fields next field.2).issue⟩ := by
  refine ⟨?_, rfl, rfl, fun next' names' => ?_⟩
  · have value : (pending fields next field.2).value = .expression (.reference [next]) := rfl
    rw [names.value held, value, UnresolvedNode.expressionText, Expression.printEmbedded,
      print_key, referenceText]
  · cases names.unique names'
    have message : Issue.message (.notFound [next]) = "'" ++ next ++ "' not found" :=
      congrArg (fun path => "'" ++ path ++ "' not found") (print_key next)
    have issue : (pending fields next field.2).issue =
        if (fields.lookup next).isNone then some (.notFound [next]) else none := rfl
    rw [issue]
    split
    · rw [Option.map_some, message]
    · rfl

open Classical in
/-- After the last pass the references that are stuck are reported, in the order of the map. -/
theorem Complete.unresolved {passes : Nat} (complete : Complete fields passes)
    (graph : IsGraph fields) (annotations : Annotations) :
    List.Forall₂ (Reports fields) (fields.filter fun field => Stuck fields field.1)
      (documentAfter fields annotations passes).unresolved := by
  have places : (documentAfter fields annotations passes).places =
      (Place.root, documentAfter fields annotations passes) :: fields.map fun (key, node) =>
        (Place.root.field key, nodeAfter fields passes node) := by
    have all : ∀ field ∈ fieldsAfter fields passes, field.2.IsField :=
      mem_fieldsAfter fun field member => isField_nodeAfter graph passes (graph.lookup member)
    have below := fieldPlaces_of_isField Place.root all
    rw [fieldsAfter, List.map_map] at below
    rw [Node.places, documentAfter, Node.placesFrom, Value.placesBelow, fieldsAfter, below]
    rfl
  have whole : (documentAfter fields annotations passes).isLocallyResolved := rfl
  rw [Node.unresolved, places, List.filterMap_cons]
  simp only [whole, if_true, List.filterMap_map]
  refine forall₂_filterMap ?_ ?_
  · intro field member stuck
    have held := graph.lookup member
    rcases complete.stuck graph (of_decide_eq_true stuck) held with ⟨next, names, here⟩
    refine ⟨_, ?_, reports_pending names held⟩
    have waits : (pending fields next field.2).isLocallyResolved = false := rfl
    simp only [Function.comp_apply, here, waits]
    rfl
  · intro field member free
    have held := graph.lookup member
    rcases graph.reaches_or_stuck field.1 with ⟨length, scalar, reaches⟩ | stuck
    · have value := complete.reached graph reaches held
      have resolved := Node.resolved_of_scalar (value ▸ reaches.isScalar)
      simp only [Function.comp_apply, Node.isLocallyResolved_of_isResolved resolved, if_true]
    · exact absurd (decide_eq_true stuck) free

end Graph

/-! ## The whole run -/

open Classical in
/-- What becomes of a map of scalars and references. The keys stay in their order. A field whose
chain ends at a scalar has its value; all others are stuck, and they are what is reported. -/
structure Solves (fields : List (String × Node)) (annotations : Annotations) (longest : Nat)
    (resolution : Resolution) (solved : List (String × Node)) : Prop where
  document : resolution.document = .mk (.map solved) annotations
  keys : solved.map Prod.fst = fields.map Prod.fst
  reached : ∀ {key length scalar}, Reaches fields key length scalar →
    ∃ node, solved.lookup key = some node ∧ node.value = scalar.value
  stuck : ∀ field ∈ fields, Stuck fields field.1 →
    ∃ node, solved.lookup field.1 = some node ∧ node.isResolved = false
  ends : ∀ field ∈ fields,
    (∃ length scalar, Reaches fields field.1 length scalar) ∨ Stuck fields field.1
  unresolved : List.Forall₂ (Reports fields) (fields.filter fun field => Stuck fields field.1)
    resolution.unresolved
  passes : resolution.passes = Graph.passesOf fields longest

namespace Resolution

variable {fields : List (String × Node)}

/-- A map of scalars and references is solved, by as many passes as its longest chain needs. -/
theorem partly_graph (graph : IsGraph fields) (answers : Answers) (annotations : Annotations) :
    ∃ longest, IsLongest fields longest ∧ ∀ limit, Graph.passesOf fields longest ≤ limit →
      ∃ resolution solved,
        partly answers limit [] (.mk (.map fields) annotations) = .ok (.ok resolution) ∧
          Solves fields annotations longest resolution solved := by
  rcases exists_longest fields with ⟨longest, long⟩
  refine ⟨longest, long, fun limit enough => ?_⟩
  have settled := settle_graph graph answers annotations long enough
  have complete : Graph.Complete fields (Graph.passesOf fields longest) := by
    rcases Graph.passesOf_eq long with ⟨total, equal, complete, _⟩
    exact equal ▸ complete.succ
  generalize passes : Graph.passesOf fields longest = total at settled complete
  refine ⟨⟨Graph.documentAfter fields annotations total, _, total⟩,
    Graph.fieldsAfter fields total, ?_, rfl, ?_, ?_, ?_, ?_,
    complete.unresolved graph annotations, passes.symm⟩
  · rw [partly, settled]
    rfl
  · exact List.map_map
  · intro key length scalar reaches
    rcases reaches.held with ⟨node, held⟩
    refine ⟨Graph.nodeAfter fields total node, ?_, complete.reached graph reaches held⟩
    rw [Graph.lookup_fieldsAfter, held, Option.map_some]
  · intro field member stuck
    have held := graph.lookup member
    rcases complete.stuck graph stuck held with ⟨next, _, after⟩
    refine ⟨Graph.pending fields next field.2, ?_, rfl⟩
    rw [Graph.lookup_fieldsAfter, held, Option.map_some, after]
  · exact fun field _ => graph.reaches_or_stuck field.1

/-- A chain of two references, a circle with a tail, and a key that is not there. -/
theorem partly_graph_circle :
    let text (value : String) : Node := .mk (.text value) {}
    let fields := [("a", text "(( b ))"), ("b", text "(( c ))"), ("c", text "plain"),
      ("d", text "(( e ))"), ("e", text "(( e ))"), ("f", text "(( none ))")]
    IsGraph fields ∧ ∃ longest, IsLongest fields longest ∧
      ∀ limit, Graph.passesOf fields longest ≤ limit → ∃ resolution solved,
        partly .none limit [] (.mk (.map fields) {}) = .ok (.ok resolution) ∧
          Solves fields {} longest resolution solved := by
  intro text fields
  have reference (key : String) (legible : IsKey key) :
      (text (referenceText key)).value.isScalar ∨
        ∃ next, IsKey next ∧ (text (referenceText key)).value = .text (referenceText next) :=
    .inr ⟨key, legible, rfl⟩
  have graph : IsGraph fields := by
    refine ⟨by decide, by decide, ?_⟩
    simp only [fields, List.forall_mem_cons]
    exact ⟨reference "b" (by decide), reference "c" (by decide), .inl rfl,
      reference "e" (by decide), reference "e" (by decide), reference "none" (by decide), nofun⟩
  exact ⟨graph, partly_graph graph .none {}⟩

end Resolution

end Stencil
