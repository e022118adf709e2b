import Stencil.Proofs.Resolution.Reordering
import Stencil.Proofs.Resolution.Run

namespace Stencil

/-! The order of keys does not matter. Two resolutions whose templates and stubs differ in it
only, and in which no percent sign stands, end in the same way after the same number of passes,
with documents that differ in the order of keys only and with the same unresolved nodes. -/

namespace Pass

section
variable {evaluator : Evaluator} {answers : Answers} {binding other : Binding} {mode : Override}
  {marker marker' : FieldMarker}

/-! ## Fields one by one -/

/-- What a pass leaves of a field: nothing of a marker that goes away. -/
def visitField (evaluator : Evaluator) (binding : Binding) (mode : Override)
    (marker : FieldMarker) (key : String) (field : Node) : Except Pause (Option Node) :=
  match marker, (key == markerKey) with
  | .dropped, true => .ok none
  | .kept kept, true => .ok (some kept)
  | _, _ => (visit evaluator (binding.withPath key) mode field).map some

theorem visitFields_cons (key : String) (field : Node) (fields : List (String × Node)) :
    visitFields evaluator binding mode marker ((key, field) :: fields) = (do
      let left ← visitField evaluator binding mode marker key field
      let rest ← visitFields evaluator binding mode marker fields
      return (left.map (key, ·)).toList ++ rest) := by
  have through : (do
      let visited ← visit evaluator (binding.withPath key) mode field
      return (key, visited) :: (← visitFields evaluator binding mode marker fields)) = (do
      let left ← (visit evaluator (binding.withPath key) mode field).map some
      let rest ← visitFields evaluator binding mode marker fields
      return (left.map (key, ·)).toList ++ rest) := by
    cases visit evaluator (binding.withPath key) mode field <;> rfl
  rw [visitFields.eq_def]
  unfold visitField
  simp only
  cases marker <;> cases (key == markerKey) <;> first
    | exact through
    | (cases visitFields evaluator binding mode _ fields <;> rfl)

theorem visitFields_isOk_iff {fields : List (String × Node)} :
    (∃ made, visitFields evaluator binding mode marker fields = .ok made) ↔
      ∀ field ∈ fields, ∃ left, visitField evaluator binding mode marker field.1 field.2 = .ok left := by
  induction fields with
  | nil => exact ⟨fun _ => List.forall_mem_nil _, fun _ => ⟨[], rfl⟩⟩
  | cons field fields induction =>
      rcases field with ⟨key, field⟩
      rw [List.forall_mem_cons, ← induction, visitFields_cons]
      cases visitField evaluator binding mode marker key field <;>
        cases visitFields evaluator binding mode marker fields <;>
        simp [bind, Except.bind, pure, Except.pure]

/-- The fields under one key are visited without the others. -/
theorem visitFields_under {fields made : List (String × Node)}
    (ends : visitFields evaluator binding mode marker fields = .ok made) (key : String) :
    visitFields evaluator binding mode marker (Table.under key fields) =
      .ok (Table.under key made) := by
  induction fields generalizing made with
  | nil =>
      cases ends
      rfl
  | cons field fields induction =>
      rcases field with ⟨first, field⟩
      rw [visitFields_cons] at ends
      rcases ok_of_bind ends with ⟨left, here, ends⟩
      rcases ok_of_bind ends with ⟨rest, others, ends⟩
      cases ends
      have below := induction others
      rw [Table.under_append]
      by_cases same : first = key
      · have held : Table.under key ((first, field) :: fields) =
            (first, field) :: Table.under key fields := by
          simp [Table.under, same]
        have kept : Table.under key (left.map (first, ·)).toList = (left.map (first, ·)).toList := by
          cases left <;> simp [Table.under, same]
        rw [held, visitFields_cons, here, below, kept]
        rfl
      · have apart : Table.under key ((first, field) :: fields) = Table.under key fields := by
          simp [Table.under, same]
        have none : Table.under key (left.map (first, ·)).toList = [] := by
          cases left <;> simp [Table.under, same]
        rw [apart, below, none, List.nil_append]

theorem visitFields_pause {fields : List (String × Node)} {pause : Pause}
    (ends : visitFields evaluator binding mode marker fields = .error pause) :
    ∃ field ∈ fields, visitField evaluator binding mode marker field.1 field.2 = .error pause := by
  induction fields with
  | nil => cases ends
  | cons field fields induction =>
      rcases field with ⟨key, field⟩
      rw [visitFields_cons] at ends
      cases here : visitField evaluator binding mode marker key field with
      | error pause' =>
          rw [here] at ends
          cases ends
          exact ⟨(key, field), List.mem_cons_self, here⟩
      | ok left =>
          cases others : visitFields evaluator binding mode marker fields with
          | error pause' =>
              rw [here, others] at ends
              cases ends
              rcases induction others with ⟨field', member, held⟩
              exact ⟨field', List.mem_cons_of_mem _ member, held⟩
          | ok rest =>
              rw [here, others] at ends
              cases ends

/-- Fields with different keys may be visited in any order. -/
theorem visitFields_abreast_sorted {fields fields' : List (String × Node)}
    (pauses : ∀ field ∈ fields, ∀ pause,
      visitField evaluator binding mode marker field.1 field.2 = .error pause →
        answers.Paused pause pause)
    (same : Table.sorted fields = Table.sorted fields') :
    Abreast answers (fun made made' => Table.sorted made = Table.sorted made')
      (visitFields evaluator binding mode marker fields)
      (visitFields evaluator binding mode marker fields') := by
  have members : ∀ field, field ∈ fields ↔ field ∈ fields' := by
    intro field
    rw [← Table.mem_sorted, same, Table.mem_sorted]
  have results : (∃ made, visitFields evaluator binding mode marker fields = .ok made) ↔
      ∃ made, visitFields evaluator binding mode marker fields' = .ok made := by
    rw [visitFields_isOk_iff, visitFields_isOk_iff]
    simp only [members]
  cases ends : visitFields evaluator binding mode marker fields with
  | error pause =>
      cases ends' : visitFields evaluator binding mode marker fields' with
      | error pause' =>
          rcases visitFields_pause ends with ⟨field, member, held⟩
          rcases visitFields_pause ends' with ⟨field', member', held'⟩
          exact .error fun complete => ⟨(pauses field member pause held complete).1,
            (pauses field' ((members field').mpr member') pause' held' complete).1⟩
      | ok made' => simp [ends, ends'] at results
  | ok made =>
      cases ends' : visitFields evaluator binding mode marker fields' with
      | error pause' => simp [ends, ends'] at results
      | ok made' =>
          refine .ok (Table.sorted_eq_iff.mpr fun key => ?_)
          have here := visitFields_under ends key
          rw [Table.sorted_eq_iff.mp same, visitFields_under ends' key] at here
          exact (Except.ok.inj here).symm

theorem visitField_abreast (markers : marker.Reordered marker') (key : String)
    {field field' : Node}
    (visits : Abreast answers Node.Reordered (visit evaluator (binding.withPath key) mode field)
      (visit evaluator (other.withPath key) mode field')) :
    Abreast answers (Option.Rel Node.Reordered) (visitField evaluator binding mode marker key field)
      (visitField evaluator other mode marker' key field') := by
  have through := Parallel.map visits fun _ _ both => (Option.Rel.some both)
  unfold visitField
  cases markers <;> cases (key == markerKey) <;> first
    | exact through
    | exact .ok .none
    | exact .ok (.some ‹_›)

/-! ## A node and the same one in order -/

section
variable {fields : List (String × Node)}
  (each : ∀ field ∈ fields, Abreast answers (Option.Rel Node.Reordered)
    (visitField evaluator binding mode marker field.1 field.2)
    (visitField evaluator other mode marker' field.1 field.2.ordered))
  (free : fieldsWithoutPercent fields)
include each free

theorem visitFields_abreast :
    Abreast answers NamesReordered (visitFields evaluator binding mode marker fields)
      (visitFields evaluator other mode marker' (fieldsOrdered fields)) := by
  induction fields with
  | nil => exact .ok ⟨rfl, rfl⟩
  | cons field fields induction =>
      rcases field with ⟨key, field⟩
      rw [List.forall_mem_cons] at each
      rw [fieldsWithoutPercent, Bool.and_eq_true, Bool.and_eq_true] at free
      rw [fieldsOrdered, visitFields_cons, visitFields_cons]
      refine Parallel.bind each.1 fun left left' both => ?_
      refine Parallel.bind (induction each.2 free.2) fun rest rest' others => ?_
      cases both with
      | none => exact .ok others
      | some both => exact .ok (others.cons free.1.1 both)

theorem visitFields_abreast_ordered :
    Abreast answers FieldsReordered (visitFields evaluator binding mode marker fields)
      (visitFields evaluator other mode marker' (tableOrdered fields)) := by
  have order : Table.sorted (fieldsOrdered fields) = Table.sorted (tableOrdered fields) :=
    (Table.sorted_sorted _).symm
  have pauses : ∀ field ∈ fieldsOrdered fields, ∀ pause,
      visitField evaluator other mode marker' field.1 field.2 = .error pause →
        answers.Paused pause pause := by
    intro field member pause ends complete
    rw [fieldsOrdered_eq_map] at member
    rcases List.mem_map.mp member with ⟨field, held, rfl⟩
    have here := each _ held
    rw [ends] at here
    generalize visitField evaluator binding mode marker _ _ = first at here
    cases here with
    | error both => exact ⟨(both complete).2, (both complete).2⟩
  refine (visitFields_abreast each free).trans (visitFields_abreast_sorted pauses order)
    fun made made' made'' names same => ⟨?_, names.free⟩
  calc tableOrdered made
      = fieldsOrdered (Table.sorted made') := by
        rw [tableOrdered, names.same, fieldsOrdered_sorted]
    _ = tableOrdered made'' := by rw [same, fieldsOrdered_sorted, tableOrdered]

end

theorem visitLeaf_ordered (deeper : evaluator.IgnoresOrder) {node : Node}
    (noMap : node.kind ≠ .map) (noList : node.kind ≠ .list) (places : binding.Reordered answers other)
    (free : node.withoutPercent) :
    Abreast answers Node.Reordered (visit evaluator binding mode node)
      (visit evaluator other mode node.ordered) := by
  rw [visit_leaf noMap noList,
    visit_leaf (node.kind_ordered ▸ noMap) (node.kind_ordered ▸ noList), Node.source,
    Node.source, Node.annotations_ordered]
  exact leaf_abreast deeper (places.withSource _) (.ordered free) mode

mutual
theorem visit_ordered (deeper : evaluator.IgnoresOrder) : ∀ (node : Node) {binding other : Binding}
    {mode : Override}, binding.Reordered answers other → node.withoutPercent →
      Abreast answers Node.Reordered (visit evaluator binding mode node)
        (visit evaluator other mode node.ordered)
  | .mk (.map fields) annotations, binding, other, mode, places, free => by
      have here : Node.Reordered (.mk (.map fields) annotations)
          (Node.mk (.map fields) annotations).ordered := .ordered free
      have tables : FieldsReordered fields (tableOrdered fields) := .of_map here.value
      have inside := (((places.withSource annotations.source).followRedirect
        annotations.redirect).withScope tables)
      rw [Node.ordered, Value.ordered, ← tableOrdered]
      unfold visit
      refine Parallel.bind (MapPlan.ofFields_abreast deeper inside tables) fun plan plan' plans => ?_
      cases plans with
      | replaced entries redirect =>
          exact .ok (((here.withValue entries.map).withRedirect redirect).withReplace true)
      | @fields marker marker' markers redirect base base' bases =>
          have same : base.isSome = base'.isSome := by cases bases <;> rfl
          simp only [same]
          refine Parallel.bind (visitFields_abreast_ordered (visitFields_ordered deeper fields
            (inside.followRedirect redirect) markers free) free) fun made made' both => ?_
          exact .ok ((here.withValue (MapPlan.addBase_reordered both bases).map).withRedirect redirect)
  | .mk (.list entries) annotations, binding, other, mode, places, free => by
      have here : Node.Reordered (.mk (.list entries) annotations)
          (Node.mk (.list entries) annotations).ordered := .ordered free
      have both : NodesReordered entries (entriesOrdered entries) := .of_list here.value
      have inside := (places.withSource annotations.source).followRedirect annotations.redirect
      rw [Node.ordered, Value.ordered]
      unfold visit
      rw [← names_reordered both]
      refine Parallel.bind (ListPlan.ofEntries_abreast deeper _ none false both inside)
        fun plan plan' plans => ?_
      cases plans with
      | replaced nodes redirect =>
          exact .ok (((here.withValue nodes.list).withRedirect redirect).withReplace true)
      | entries steps below redirect merged =>
          refine Parallel.bind (visitEntries_ordered deeper entries below steps free)
            fun made made' both => ?_
          exact .ok ((here.withValue both.list).withRedirect redirect)
  | .mk .null annotations, _, _, _, places, free
  | .mk (.boolean _) annotations, _, _, _, places, free
  | .mk (.integer _) annotations, _, _, _, places, free
  | .mk (.decimal _) annotations, _, _, _, places, free
  | .mk (.text _) annotations, _, _, _, places, free
  | .mk (.expression _) annotations, _, _, _, places, free
  | .mk (.lambda _ _ _) annotations, _, _, _, places, free =>
      visitLeaf_ordered deeper Kind.noConfusion Kind.noConfusion places free

theorem visitFields_ordered (deeper : evaluator.IgnoresOrder) : ∀ (fields : List (String × Node))
    {binding other : Binding} {mode : Override} {marker marker' : FieldMarker},
      binding.Reordered answers other → marker.Reordered marker' → fieldsWithoutPercent fields →
        ∀ field ∈ fields, Abreast answers (Option.Rel Node.Reordered)
          (visitField evaluator binding mode marker field.1 field.2)
          (visitField evaluator other mode marker' field.1 field.2.ordered)
  | [], _, _, _, _, _, _, _, _ => fun _ member => nomatch member
  | (key, field) :: fields, _, _, _, _, _, places, markers, free => by
      rw [fieldsWithoutPercent, Bool.and_eq_true, Bool.and_eq_true] at free
      rw [List.forall_mem_cons]
      exact ⟨visitField_abreast markers key
          (visit_ordered deeper field (places.withPath key) free.1.2),
        visitFields_ordered deeper fields places markers free.2⟩

theorem visitEntries_ordered (deeper : evaluator.IgnoresOrder) : ∀ (entries : List Node)
    {binding other : Binding} {mode : Override} {merged : Bool} {index : Nat}
    {steps steps' : List EntryStep}, binding.Reordered answers other →
      List.Forall₂ EntryStep.Reordered steps steps' → entriesWithoutPercent entries →
        Abreast answers NodesReordered (visitEntries evaluator binding mode merged index steps entries)
          (visitEntries evaluator other mode merged index steps' (entriesOrdered entries))
  | [], _, _, _, _, _, _, _, _, steps, _ => by
      cases steps with
      | nil => exact .ok .nil
      | cons step _ => cases step <;> exact .ok .nil
  | entry :: entries, _, _, _, _, _, _, _, places, steps, free => by
      rw [entriesWithoutPercent, Bool.and_eq_true] at free
      cases steps with
      | nil => exact .ok .nil
      | cons step steps =>
          cases step with
          | visit =>
              have mode : ∀ mode merged, entryMode mode merged entry.ordered =
                  entryMode mode merged entry := by
                intro mode merged
                unfold entryMode
                rw [Node.name?_ordered]
              unfold visitEntries
              rw [entriesOrdered]
              simp only [stepName_ordered, mode]
              refine Parallel.bind (visit_ordered deeper entry (places.withPath _) free.1)
                fun visited visited' both => ?_
              refine Parallel.bind (visitEntries_ordered deeper entries places steps free.2)
                fun rest rest' others => ?_
              exact .ok (.cons both others)
          | splice nodes =>
              unfold visitEntries
              rw [entriesOrdered]
              simp only [List.Forall₂.length_eq nodes]
              refine Parallel.bind (visitEntries_ordered deeper entries places steps free.2)
                fun rest rest' others => ?_
              exact .ok (List.rel_append nodes others)
end

end

/-- Both nodes go along with the first one in order. -/
theorem run_abreast {answers : Answers} {stubs stubs' : List Node} {document document' : Node}
    (provide : answers.Provide fun value => value.withoutPercent)
    (sources : NodesReordered stubs stubs') (documents : document.Reordered document') :
    Abreast answers Node.Reordered (run answers stubs document) (run answers stubs' document') := by
  have places {stubs stubs' : List Node} (sources : NodesReordered stubs stubs') :
      Binding.Reordered answers { stubs, answers } { stubs := stubs', answers } :=
    ⟨.nil, ⟨rfl, rfl⟩, rfl, rfl, sources, rfl, rfl, rfl, provide⟩
  have deeper := Expression.evaluate_ignoresOrder Expression.callDepth
  have first : Abreast answers Node.Reordered (run answers stubs document)
      (run answers stubs' document.ordered) :=
    visit_ordered deeper document (places sources) documents.free
  have second : Abreast answers Node.Reordered (run answers stubs' document')
      (run answers stubs' document'.ordered) :=
    visit_ordered deeper document' (places sources.right) documents.free'
  rw [← documents.same] at second
  exact first.trans (second.symm fun _ _ both => both.symm) fun _ _ _ both also => both.trans also

end Pass

/-! ## What is left unresolved -/

/-- What is listed of a node that is found at a place. -/
def UnresolvedNode.ofPlace? (found : Place × Node) : Option UnresolvedNode :=
  if found.2.isLocallyResolved then none
  else some ⟨expressionText found.2.value, found.2.source, found.1, found.2.issue⟩

theorem fieldPlaces_perm (place : Place) {fields fields' : List (String × Node)}
    (same : fields.Perm fields') : (fieldPlaces place fields).Perm (fieldPlaces place fields') := by
  have below (fields : List (String × Node)) :
      fieldPlaces place fields =
        fields.flatMap fun field => field.2.placesFrom (place.field field.1) := by
    induction fields with
    | nil => rfl
    | cons field fields induction => rw [fieldPlaces, induction, List.flatMap_cons]
  rw [below, below]
  exact same.flatMap_right _

namespace UnresolvedNode

theorem ofPlace?_ordered (place : Place) (node : Node) :
    ofPlace? (place, node.ordered) = ofPlace? (place, node) := by
  rcases node with ⟨value, annotations⟩
  cases value <;> rfl

mutual
theorem valuePlaces_ordered : ∀ (value : Value) (place : Place),
    ((value.placesBelow place).filterMap ofPlace?).Perm
      ((value.ordered.placesBelow place).filterMap ofPlace?)
  | .list entries, place => entryPlaces_ordered entries place 0
  | .map fields, place =>
      (fieldPlaces_ordered fields place).trans
        ((fieldPlaces_perm place (Table.perm_sorted (fieldsOrdered fields))).symm.filterMap _)
  | .null, _ | .boolean _, _ | .integer _, _ | .decimal _, _ | .text _, _ | .expression _, _
  | .lambda _ _ _, _ => .refl _

theorem places_ordered : ∀ (node : Node) (place : Place),
    ((node.placesFrom place).filterMap ofPlace?).Perm
      ((node.ordered.placesFrom place).filterMap ofPlace?)
  | .mk value annotations, place => by
      have here := ofPlace?_ordered place (.mk value annotations)
      rw [Node.ordered] at here
      rw [Node.ordered, Node.placesFrom, Node.placesFrom, List.filterMap_cons, List.filterMap_cons,
        here]
      cases ofPlace? (place, .mk value annotations) with
      | none => exact valuePlaces_ordered value place
      | some node => exact (valuePlaces_ordered value place).cons node

theorem entryPlaces_ordered : ∀ (entries : List Node) (place : Place) (index : Nat),
    ((entryPlaces place index entries).filterMap ofPlace?).Perm
      ((entryPlaces place index (entriesOrdered entries)).filterMap ofPlace?)
  | [], _, _ => .refl _
  | entry :: entries, place, index => by
      have logical : place.entry index entry.ordered = place.entry index entry := by
        rw [Place.entry, Place.entry, stepName_ordered]
      rw [entriesOrdered, entryPlaces, entryPlaces, List.filterMap_append, List.filterMap_append,
        logical]
      exact (places_ordered entry _).append (entryPlaces_ordered entries place (index + 1))

theorem fieldPlaces_ordered : ∀ (fields : List (String × Node)) (place : Place),
    ((fieldPlaces place fields).filterMap ofPlace?).Perm
      ((fieldPlaces place (fieldsOrdered fields)).filterMap ofPlace?)
  | [], _ => .refl _
  | (key, field) :: fields, place => by
      rw [fieldsOrdered, fieldPlaces, fieldPlaces, List.filterMap_append, List.filterMap_append]
      exact (places_ordered field _).append (fieldPlaces_ordered fields place)
end

end UnresolvedNode

theorem Node.Reordered.unresolved {node node' : Node} (both : node.Reordered node') :
    node.unresolved.Perm node'.unresolved := by
  have first := UnresolvedNode.places_ordered node .root
  have second := UnresolvedNode.places_ordered node' .root
  rw [← both.same] at second
  exact first.trans second.symm

/-! ## Resolution -/

namespace Resolution

/-- Two resolutions in as many passes. -/
structure Reordered (resolution resolution' : Resolution) : Prop where
  passes : resolution.passes = resolution'.passes
  document : resolution.document.ordered = resolution'.document.ordered
  unresolved : resolution.unresolved.Perm resolution'.unresolved

variable {answers : Answers} {stubs stubs' : List Node}

theorem settle_abreast (provide : answers.Provide fun value => value.withoutPercent)
    (sources : NodesReordered stubs stubs') (left passes : Nat) {document document' : Node}
    (documents : document.Reordered document') :
    Abreast answers (Option.Rel Reordered) (settle answers stubs left passes document)
      (settle answers stubs' left passes document') := by
  induction left generalizing passes document document' with
  | zero => exact .ok .none
  | succ left induction =>
      refine Parallel.bind (Pass.run_abreast provide sources documents) fun next next' nexts => ?_
      have settled : (next == document) = (next' == document') := by
        change next.same document = next'.same document'
        rw [← next.same_ordered, nexts.same, documents.same, next'.same_ordered]
      rw [settled]
      split
      · exact .ok (.some ⟨rfl, nexts.same, nexts.unresolved⟩)
      · exact induction (passes + 1) nexts

end Resolution

end Stencil
