import Stencil.Proofs.Evaluation.Inheritance
import Stencil.Proofs.Resolution.Plan
import Stencil.Proofs.Resolution.Run

namespace Stencil

/-! In all documents of a run the keys of every map are distinct, when they are in the
template and in the stubs. -/

/-- The names of a table belong to nodes with distinct keys. -/
def TableDistinct (table : List (String × Node)) : Prop :=
  ∀ entry ∈ table, entry.2.keysDistinct

theorem Value.keysDistinct_inherited : Inherited (fun value => value.keysDistinct) TableDistinct where
  flat flat := by
    rename_i value
    cases value <;> first | rfl | cases flat
  list := by
    intro entries
    refine entriesDistinct_iff.trans (forall₂_congr fun entry _ => ?_)
    rcases entry with ⟨value, annotations⟩
    exact Iff.rfl
  field distinct := by
    intro entry member
    have here := member_of_fieldsDistinct distinct entry member
    rcases entry with ⟨key, value, annotations⟩
    exact here
  lambda := capturedDistinct_iff
  nil := fun _ member => nomatch member
  merge first second := by
    intro entry member
    rcases Table.mem_mergeSorted member with member | member
    · exact second entry member
    · exact first entry member
  arguments first second := by
    intro entry member
    rcases Table.mem_mergeSorted member with member | member
    · have here := second entry.2 (List.of_mem_zip member).2
      rcases entry with ⟨key, value, annotations⟩
      exact here
    · exact first entry member

namespace HostFunction

theorem settings_distinct {known : List (String × String)} {source : Option String}
    {arguments : List Node} {value : Value}
    (ends : settings known source arguments = .ok value) : value.keysDistinct := by
  rcases settings_cases ends with ⟨_, _, _, rfl⟩ | ⟨fields, rfl, texts⟩
  · rfl
  · refine fieldsDistinct_ofList fun field member => ?_
    rcases texts field member with ⟨text, _, held⟩
    rw [held]
    rfl

theorem fileOutcome_distinct {path kind contents : String} {source : Option String} {node : Node}
    {report : Report} (ends : fileOutcome path kind source contents = .value node report) :
    node.keysDistinct := by
  unfold fileOutcome at ends
  split at ends
  · split at ends
    · cases ends
      exact Node.keysDistinct_ofTree _ _
    · cases ends
  · cases ends
    rfl
  · cases ends

theorem outputNode_distinct (source : Option String) (output : String) :
    (outputNode source output).keysDistinct := by
  unfold outputNode
  split
  · exact Node.keysDistinct_ofTree _ _
  · exact Node.keysDistinct_ofTree _ _
  · exact Node.keysDistinct_ofTree _ _
  · exact Node.keysDistinct_ofTree _ _
  · exact Node.keysDistinct_ofTree _ _
  · rfl

end HostFunction

/-- What comes from the outside has distinct keys. -/
theorem Answers.provide_keysDistinct (answers : Answers) :
    answers.Provide fun value => value.keysDistinct where
  settings _ ends := HostFunction.settings_distinct ends
  file _ ends := by
    rw [Node.value_keysDistinct]
    exact HostFunction.fileOutcome_distinct ends
  output _ := by
    rw [Node.value_keysDistinct]
    exact HostFunction.outputNode_distinct _ _

theorem Node.keysDistinct_of_find {node next : Node} {path : List String}
    (distinct : node.keysDistinct) (found : node.find path = .found next) : next.keysDistinct := by
  refine find_induction (motive := fun node => node.keysDistinct) ?_ distinct found
  intro node step next distinct found
  rcases child_cases found with ⟨fields, annotations, rfl, held⟩ | ⟨entries, annotations, rfl, held⟩
  · exact member_of_fieldsDistinct distinct _ (member_of_lookup held)
  · exact entriesDistinct_iff.mp distinct _ (listEntry_member held)

/-! ## Bindings -/

/-- There are no local names, and scopes and stubs have distinct keys. -/
structure Binding.IsDistinct (binding : Binding) : Prop where
  locals : binding.locals = []
  scopes : ∀ fields ∈ binding.scopes, fieldsDistinct fields
  stubs : ∀ stub ∈ binding.stubs, stub.keysDistinct

theorem Binding.IsDistinct.provides {binding : Binding} (distinct : binding.IsDistinct) :
    binding.Provides (fun value => value.keysDistinct) TableDistinct where
  locals := by
    rw [distinct.locals]
    exact fun _ member => nomatch member
  lookup := by
    intro names path node known found _
    rw [Node.value_keysDistinct]
    rcases table_of_lookup found with ⟨fields, member, first, rest, held⟩
    unfold findIn at held
    rcases Option.map_eq_some_iff.mp held with ⟨field, held, found⟩
    refine Node.keysDistinct_of_find ?_ found
    rcases List.mem_cons.mp member with rfl | member
    · exact known _ (member_of_lookup held)
    · exact member_of_fieldsDistinct (distinct.scopes fields member) _ (member_of_lookup held)
  stubs := by
    intro path node found
    rw [Node.value_keysDistinct]
    rcases binding.stub_of_findInStubs? found with ⟨stub, member, below⟩
    exact Node.keysDistinct_of_find (distinct.stubs stub member) below
  answers := binding.answers.provide_keysDistinct

theorem Binding.IsDistinct.inside {binding : Binding} (distinct : binding.IsDistinct)
    (annotations : Annotations) : (Pass.inside binding annotations).IsDistinct := by
  unfold Pass.inside
  rcases Pass.followRedirect_eq (binding.withSource annotations.source) annotations.redirect with
    ⟨path, same⟩
  rw [same]
  exact { distinct with }

theorem Binding.IsDistinct.withScope {binding : Binding} (distinct : binding.IsDistinct)
    {fields : List (String × Node)} (also : fieldsDistinct fields) :
    (binding.withScope fields).IsDistinct :=
  { distinct with scopes := List.forall_mem_cons.mpr ⟨also, distinct.scopes⟩ }

theorem Binding.IsDistinct.withSource {binding : Binding} (distinct : binding.IsDistinct)
    (source : Option String) : (binding.withSource source).IsDistinct := { distinct with }

theorem Binding.IsDistinct.withStubPath {binding : Binding} (distinct : binding.IsDistinct)
    (path : List String) : (binding.withStubPath path).IsDistinct := { distinct with }

theorem Binding.IsDistinct.withPath {binding : Binding} (distinct : binding.IsDistinct)
    (step : String) : (binding.withPath step).IsDistinct := { distinct with }

/-! ## Passes -/

/-- What an evaluator makes in bindings with distinct keys has distinct keys. -/
def Evaluator.MakesDistinct (evaluator : Evaluator) : Prop :=
  evaluator.Preserves (fun value => value.keysDistinct) TableDistinct

variable {evaluator : Evaluator} {binding : Binding}

theorem Evaluator.MakesDistinct.value (makes : evaluator.MakesDistinct)
    (distinct : binding.IsDistinct) {expression : Expression} {node : Node} {report : Report}
    (ends : evaluator binding expression = .ok (.value node report)) : node.value.keysDistinct :=
  makes _ _ _ _ distinct.provides ends

theorem Marker.Brings.keysDistinct (makes : evaluator.MakesDistinct)
    (distinct : binding.IsDistinct) {marker : Node} {value : Value} {report : Report}
    (brings : Marker.Brings evaluator binding marker value report) : value.keysDistinct := by
  rcases brings with ⟨expression, base, _, evaluated, rfl⟩
  exact makes.value distinct evaluated

theorem Marker.Stays.keysDistinct {path : List String} {marker kept : Node}
    (stays : Marker.Stays path marker kept) (distinct : marker.keysDistinct) :
    kept.keysDistinct := by
  cases stays with
  | noted issue unresolved =>
      rcases marker with ⟨value, annotations⟩
      exact distinct
  | evaluated issue holds => rfl

theorem MapPlan.fieldsDistinct_addBase {fields : List (String × Node)}
    {base : Option (List (String × Node))} (distinct : fieldsDistinct fields)
    (also : ∀ added, base = some added → fieldsDistinct added) :
    fieldsDistinct (addBase fields base) := by
  cases base with
  | none => exact distinct
  | some added =>
      refine fieldsDistinct_append distinct (fieldsDistinct_filter _ (also added rfl)) ?_
      intro entry member
      have here := (List.mem_filter.mp member).2
      rw [Bool.and_eq_true] at here
      exact Option.isNone_iff_eq_none.mp here.2

theorem newEntries_distinct {names : List String} {added : List Node}
    (distinct : entriesDistinct added) : entriesDistinct (newEntries names added) :=
  entriesDistinct_iff.mpr fun entry member =>
    entriesDistinct_iff.mp distinct entry (List.mem_filter.mp member).1

theorem marker_keysDistinct {entry marker : Node} (held : listMarker? entry = some marker)
    (distinct : entry.keysDistinct) : marker.keysDistinct := by
  rcases markerField held with ⟨annotations, rfl⟩
  exact member_of_fieldsDistinct distinct _ List.mem_cons_self

theorem keptEntry_distinct {entry kept : Node} (distinct : kept.keysDistinct) :
    ∀ nodes, ListPlan.keptEntry entry kept = .splice nodes → entriesDistinct nodes := by
  intro nodes same
  cases same
  rw [entriesDistinct_iff, List.forall_mem_singleton]
  exact fieldsDistinct_cons.mpr ⟨rfl, distinct, rfl⟩

/-- The nodes that take the place of entries have distinct keys. -/
theorem EntriesFollow.keysDistinct (makes : evaluator.MakesDistinct)
    (place : binding.IsDistinct) {names : List String} {entries : List Node}
    {steps : List EntryStep} {merged : Bool}
    (follows : EntriesFollow evaluator binding names entries steps merged)
    (distinct : entriesDistinct entries) :
    ∀ nodes, .splice nodes ∈ steps → entriesDistinct nodes := by
  induction follows with
  | nil => exact fun _ member => nomatch member
  | visit resolved rest induction =>
      rw [entriesDistinct, Bool.and_eq_true] at distinct
      intro nodes member
      rcases List.mem_cons.mp member with same | member
      · cases same
      · exact induction distinct.2 nodes member
  | dropped held unresolved rest induction =>
      rw [entriesDistinct, Bool.and_eq_true] at distinct
      intro nodes member
      rcases List.mem_cons.mp member with same | member
      · cases same
        rfl
      · exact induction distinct.2 nodes member
  | kept held stays rest induction =>
      rw [entriesDistinct, Bool.and_eq_true] at distinct
      intro nodes member
      rcases List.mem_cons.mp member with same | member
      · exact keptEntry_distinct (stays.keysDistinct (marker_keysDistinct held distinct.1)) nodes
          same.symm
      · exact induction distinct.2 nodes member
  | merged held brings rest induction =>
      rw [entriesDistinct, Bool.and_eq_true] at distinct
      intro nodes member
      rcases List.mem_cons.mp member with same | member
      · cases same
        exact newEntries_distinct (brings.keysDistinct makes (place.withStubPath _))
      · exact induction distinct.2 nodes member

namespace Pass

theorem leaf_keysDistinct {mode : Override} (makes : evaluator.MakesDistinct)
    (place : binding.IsDistinct) {node node' : Node} (distinct : node.keysDistinct)
    (ends : leaf evaluator binding mode node = .ok node') : node'.keysDistinct := by
  rw [← Node.value_keysDistinct] at distinct ⊢
  rcases leaf_values ends with ⟨current, origin, result⟩
  have current : current.value.keysDistinct := by
    rcases origin with rfl | ⟨found, path, held, same⟩
    · exact distinct
    · rw [same]
      exact place.provides.stubs held
  rcases result with same | ⟨expression, _, same | ⟨value, report, evaluated, same⟩⟩
  · rwa [same]
  · rw [same]
    rfl
  · rw [same]
    exact makes.value place evaluated

/-- No pass brings a key that is not there into the fields that it visits. -/
theorem visitFields_fresh {mode : Override} {marker : FieldMarker} {key : String}
    {fields fields' : List (String × Node)}
    (ends : visitFields evaluator binding mode marker fields = .ok fields')
    (fresh : fields.lookup key = none) : fields'.lookup key = none := by
  induction fields generalizing fields' with
  | nil =>
      cases ends
      rfl
  | cons entry fields induction =>
      rcases entry with ⟨first, field⟩
      rw [List.lookup_cons] at fresh
      split at fresh
      · cases fresh
      · rename_i different
        have shown : ∀ {field : Node} {rest : List (String × Node)}, rest.lookup key = none →
            ((first, field) :: rest).lookup key = none := by
          intro field rest none
          rw [List.lookup_cons, different]
          exact none
        rcases visitFields_cons_ends ends with ⟨rest, others, left⟩
        cases left with
        | visited => exact shown (induction others fresh)
        | kept => exact shown (induction others fresh)
        | dropped => exact induction others fresh

mutual
theorem visit_keysDistinct (makes : evaluator.MakesDistinct) : ∀ (node : Node)
    {binding : Binding} {mode : Override} {node' : Node}, binding.IsDistinct →
      node.keysDistinct → visit evaluator binding mode node = .ok node' → node'.keysDistinct
  | .mk (.map fields) annotations, binding, mode, node', place, distinct, ends => by
      have distinct : fieldsDistinct fields := distinct
      have inner := (place.inside annotations).withScope distinct
      rw [← Node.value_keysDistinct]
      rcases visit_map_cases ends with ⟨plan, follows, ⟨base, redirect, rfl, same⟩ |
        ⟨marker, redirect, base, path, fields', rfl, visited, same⟩⟩
      · rw [same]
        cases follows with
        | replaced held brings => exact brings.keysDistinct makes inner
      · rw [same]
        refine MapPlan.fieldsDistinct_addBase ?_ ?_
        · refine visitFields_distinct makes fields (inner.withStubPath path) distinct ?_ visited
          rintro kept rfl
          cases follows with
          | kept held stays =>
              exact stays.keysDistinct (member_of_fieldsDistinct distinct _ (member_of_lookup held))
        · rintro added rfl
          cases follows with
          | merged held brings => exact brings.keysDistinct makes inner
  | .mk (.list entries) annotations, binding, mode, node', place, distinct, ends => by
      have distinct : entriesDistinct entries := distinct
      have inner := place.inside annotations
      rw [← Node.value_keysDistinct]
      rcases visit_list_cases ends with ⟨plan, follows, ⟨added, redirect, rfl, same⟩ |
        ⟨steps, below, redirect, merged, entries', rfl, visited, same⟩⟩
      · rw [same]
        cases follows with
        | replaced member held brings => exact brings.keysDistinct makes (inner.withStubPath _)
      · rw [same]
        cases follows with
        | entries path redirect each =>
            exact visitEntries_distinct makes entries (inner.withStubPath path) distinct
              (each.keysDistinct makes inner distinct) visited
  | .mk .null annotations, _, _, _, place, distinct, ends
  | .mk (.boolean _) annotations, _, _, _, place, distinct, ends
  | .mk (.integer _) annotations, _, _, _, place, distinct, ends
  | .mk (.decimal _) annotations, _, _, _, place, distinct, ends
  | .mk (.text _) annotations, _, _, _, place, distinct, ends
  | .mk (.expression _) annotations, _, _, _, place, distinct, ends
  | .mk (.lambda _ _ _) annotations, _, _, _, place, distinct, ends =>
      leaf_keysDistinct makes (place.withSource annotations.source) distinct ends

theorem visitFields_distinct (makes : evaluator.MakesDistinct) : ∀ (fields : List (String × Node))
    {binding : Binding} {mode : Override} {marker : FieldMarker} {fields' : List (String × Node)},
    binding.IsDistinct → fieldsDistinct fields →
      (∀ kept, marker = .kept kept → kept.keysDistinct) →
        visitFields evaluator binding mode marker fields = .ok fields' → fieldsDistinct fields'
  | [], _, _, _, _, _, _, _, ends => by
      cases ends
      rfl
  | (key, field) :: fields, binding, mode, marker, fields', place, distinct, also, ends => by
      rcases fieldsDistinct_cons.mp distinct with ⟨fresh, here, distinct⟩
      rcases visitFields_cons_ends ends with ⟨rest, others, left⟩
      have below := visitFields_distinct makes fields place distinct also others
      cases left with
      | visited _ visited =>
          exact fieldsDistinct_cons.mpr ⟨visitFields_fresh others fresh,
            visit_keysDistinct makes field (place.withPath key) here visited, below⟩
      | kept =>
          exact fieldsDistinct_cons.mpr ⟨visitFields_fresh others fresh, also _ rfl, below⟩
      | dropped => exact below

theorem visitEntries_distinct (makes : evaluator.MakesDistinct) : ∀ (entries : List Node)
    {binding : Binding} {mode : Override} {merged : Bool} {index : Nat} {steps : List EntryStep}
    {entries' : List Node}, binding.IsDistinct → entriesDistinct entries →
      (∀ nodes, .splice nodes ∈ steps → entriesDistinct nodes) →
        visitEntries evaluator binding mode merged index steps entries = .ok entries' →
          entriesDistinct entries'
  | [], _, _, _, _, _, _, _, _, _, ends => by
      rw [visitEntries] at ends
      cases ends
      rfl
  | entry :: entries, binding, mode, merged, index, steps, entries', place, distinct, also,
      ends => by
      rw [entriesDistinct, Bool.and_eq_true] at distinct
      cases steps with
      | nil =>
          cases ends
          rfl
      | cons step steps =>
          have later : ∀ nodes, .splice nodes ∈ steps → entriesDistinct nodes :=
            fun nodes member => also nodes (List.mem_cons_of_mem _ member)
          cases step with
          | splice nodes =>
              rcases visitEntries_splice_ends ends with ⟨rest, rfl, others⟩
              have rest := visitEntries_distinct makes entries place distinct.2 later others
              rw [entriesDistinct_iff] at rest ⊢
              exact List.forall_mem_append.mpr
                ⟨entriesDistinct_iff.mp (also nodes List.mem_cons_self), rest⟩
          | visit =>
              rcases visitEntries_visit_ends ends with ⟨visited, rest, rfl, first, others⟩
              rw [entriesDistinct, Bool.and_eq_true]
              exact ⟨visit_keysDistinct makes entry (place.withPath _) distinct.1 first,
                visitEntries_distinct makes entries place distinct.2 later others⟩
end

end Pass

/-! ## Runs -/

namespace Resolution

variable {answers : Answers} {stubs : List Node} {template : Node}

theorem treeAfter_keysDistinct (distinct : template.keysDistinct)
    (stubsDistinct : ∀ stub ∈ stubs, stub.keysDistinct) {passes : Nat} {document : Node}
    (reached : treeAfter answers stubs passes template = .ok document) : document.keysDistinct := by
  refine treeAfter_invariant (motive := fun node => node.keysDistinct) distinct ?_ reached
  intro before after distinct pass
  have place : (root answers stubs).IsDistinct :=
    ⟨rfl, (fun _ member => nomatch member), stubsDistinct⟩
  exact Pass.visit_keysDistinct
    (Expression.evaluate_preserves Value.keysDistinct_inherited Expression.callDepth) before place
    distinct pass

end Resolution

end Stencil
