import Stencil.Proofs.Node.Comparison
import Stencil.Proofs.Resolution.Heritage
import Stencil.Proofs.Resolution.Passage
import Stencil.Proofs.Resolution.Persistence

namespace Stencil

/-! The names in a list that merges. Each marker adds stub entries with names that the list does
not have at the start of the pass. So the names stay distinct as long as two markers do not add
the same one in the same pass, and no stub gives another name to an entry that is there. -/

/-- The names that the entries of a list show. -/
def entryNames (entries : List Node) : List String := entries.filterMap Node.name?

theorem entryNames_cons (entry : Node) (entries : List Node) :
    entryNames (entry :: entries) = entry.name?.toList ++ entryNames entries := by
  unfold entryNames
  cases named : entry.name? <;> simp [named]

theorem entryNames_singleton (entry : Node) : entryNames [entry] = entry.name?.toList := by
  rw [entryNames_cons]
  exact List.append_nil _

/-! ## Trees with distinct names -/

mutual
/-- In every list the names are distinct. -/
def Value.namesDistinct : Value → Bool
  | .list entries => decide (entryNames entries).Nodup && entriesNamesDistinct entries
  | .map fields => fieldsNamesDistinct fields
  | _ => true

def Node.namesDistinct : Node → Bool
  | .mk value _ => value.namesDistinct

def entriesNamesDistinct : List Node → Bool
  | [] => true
  | entry :: entries => entry.namesDistinct && entriesNamesDistinct entries

def fieldsNamesDistinct : List (String × Node) → Bool
  | [] => true
  | (_, field) :: fields => field.namesDistinct && fieldsNamesDistinct fields
end

theorem entriesNamesDistinct_iff {entries : List Node} :
    entriesNamesDistinct entries ↔ ∀ entry ∈ entries, entry.namesDistinct := by
  induction entries with
  | nil => simp [entriesNamesDistinct]
  | cons entry entries induction =>
      rw [entriesNamesDistinct, Bool.and_eq_true, induction, List.forall_mem_cons]

theorem fieldsNamesDistinct_iff {fields : List (String × Node)} :
    fieldsNamesDistinct fields ↔ ∀ field ∈ fields, field.2.namesDistinct := by
  induction fields with
  | nil => simp [fieldsNamesDistinct]
  | cons field fields induction =>
      rw [fieldsNamesDistinct, Bool.and_eq_true, induction, List.forall_mem_cons]

theorem Node.namesDistinct_list {entries : List Node} {annotations : Annotations} :
    (Node.mk (.list entries) annotations).namesDistinct ↔
      (entryNames entries).Nodup ∧ ∀ entry ∈ entries, entry.namesDistinct := by
  rw [Node.namesDistinct, Value.namesDistinct, Bool.and_eq_true, decide_eq_true_iff,
    entriesNamesDistinct_iff]

theorem Node.namesDistinct_of_find {node next : Node} {path : List String}
    (distinct : node.namesDistinct) (found : node.find path = .found next) :
    next.namesDistinct := by
  refine find_induction (motive := fun node => node.namesDistinct) ?_ distinct found
  intro node step next distinct found
  rcases child_cases found with ⟨fields, annotations, rfl, held⟩ | ⟨entries, annotations, rfl, held⟩
  · exact fieldsNamesDistinct_iff.mp distinct _ (member_of_lookup held)
  · exact (namesDistinct_list.mp distinct).2 next (listEntry_member held)

/-- What a list found in such stubs adds has distinct names, and none that is there already. -/
theorem newEntries_names {names : List String} {added : List Node}
    (distinct : (entryNames added).Nodup) :
    (entryNames (newEntries names added)).Nodup ∧
      ∀ name ∈ entryNames (newEntries names added), name ∉ names := by
  constructor
  · exact distinct.sublist (List.filter_sublist.filterMap Node.name?)
  · intro name member
    rcases List.mem_filterMap.mp member with ⟨entry, member, named⟩
    have fresh := (List.mem_filter.mp member).2
    rw [named] at fresh
    simpa using fresh

/-! ## Resolved nodes below a merge -/

namespace Pass

variable {evaluator : Evaluator}

theorem stubFor?_resolved {binding : Binding} {mode : Override} {node given : Node}
    (stubs : ∀ stub ∈ binding.stubs, stub.isResolved)
    (held : stubFor? node binding mode = some given) : given.isResolved := by
  simp only [stubFor?] at held
  split at held
  · rcases Option.map_eq_some_iff.mp held with ⟨found, below, rfl⟩
    have same : (found.withRedirect node.redirect).value = found.value := rfl
    rw [Node.isResolved_congr same]
    exact Binding.findInStubs?_resolved stubs below
  · cases held

/-- A plain leaf stays, or a plain stub takes its place. -/
theorem leaf_of_stubs {binding : Binding} {mode : Override} {node : Node}
    (stubs : ∀ stub ∈ binding.stubs, stub.isResolved) (resolved : node.isLocallyResolved) :
    leaf evaluator binding mode node = .ok ((stubFor? node binding mode).getD node) := by
  unfold leaf
  cases held : stubFor? node binding mode with
  | none => exact evaluateNode_of_resolved resolved
  | some given =>
      exact evaluateNode_of_resolved
        (Node.isLocallyResolved_of_isResolved (stubFor?_resolved stubs held))

theorem leaf_resolved_of_stubs {binding : Binding} {mode : Override} {node node' : Node}
    (ends : leaf evaluator binding mode node = .ok node')
    (stubs : ∀ stub ∈ binding.stubs, stub.isResolved) (resolved : node.isResolved) :
    node'.isResolved := by
  rw [leaf_of_stubs stubs (Node.isLocallyResolved_of_isResolved resolved)] at ends
  cases ends
  cases held : stubFor? node binding mode with
  | none => exact resolved
  | some given => exact stubFor?_resolved stubs held

/-- Nothing is evaluated and no marker is left in what is resolved, so only stubs come in. -/
theorem keeps_isResolved {stubs : List Node} (resolved : ∀ stub ∈ stubs, stub.isResolved) :
    evaluator.Keeps stubs fun node => node.isResolved where
  hereditary := hereditary_isResolved
  stays stays here := by
    have unresolved := stays.unresolved
    rw [Node.isLocallyResolved_of_isResolved here] at unresolved
    cases unresolved
  brings here reads _ _ := absurd reads (Node.not_expression_of_isResolved here)
  leaf here ends same := leaf_resolved_of_stubs ends (same ▸ resolved) here

/-! ## Names that the stubs give -/

/-- What the stubs put in the place of a node that is no collection. -/
def overriding? (binding : Binding) (mode : Override) (node : Node) : Option Node :=
  match node.value with
  | .map _ | .list _ => none
  | _ => stubFor? node binding mode

theorem visit_overriding {binding : Binding} {mode : Override} {node node' : Node}
    (ends : visit evaluator binding mode node = .ok node')
    (stubs : ∀ stub ∈ binding.stubs, stub.isResolved) (resolved : node.isLocallyResolved)
    (noMap : node.kind ≠ .map) (noList : node.kind ≠ .list) :
    node' = (overriding? binding mode node).getD node := by
  have result : leaf evaluator (binding.withSource node.source) mode node =
      .ok ((stubFor? node binding mode).getD node) := leaf_of_stubs stubs resolved
  rw [visit_leaf noMap noList, result] at ends
  cases ends
  rcases node with ⟨value, annotations⟩
  cases value with
  | map fields => exact absurd rfl noMap
  | list entries => exact absurd rfl noList
  | _ => rfl

end Pass

/-- The text that stands at a node as it is. -/
def Node.plainText? (node : Node) : Option String :=
  match node.value with
  | .text text => some text
  | _ => none

theorem Node.plainText?_of_kind {node : Node} (other : node.kind ≠ .text) :
    node.plainText? = none := by
  rcases node with ⟨value, annotations⟩
  cases value with
  | text text => exact absurd rfl other
  | _ => rfl

theorem Node.name?_map {fields : List (String × Node)} {annotations : Annotations} :
    (Node.mk (.map fields) annotations).name? = (fields.lookup "name").bind Node.plainText? := by
  cases held : fields.lookup "name" with
  | none => simp only [name?, findText?, get?, value_mk, held, Option.map_none, Option.bind_none]
  | some field =>
      rcases field with ⟨value, annotations⟩
      simp only [name?, findText?, get?, value_mk, held, Option.map_some, Option.bind_some]
      cases value <;> rfl

theorem Node.name?_of_kind {node : Node} (other : node.kind ≠ .map) : node.name? = none := by
  rcases node with ⟨value, annotations⟩
  cases value with
  | map fields => exact absurd rfl other
  | _ => rfl

namespace Visit

/-- The name in what the stubs put in the place of a node, or of the field with its name. -/
def stubName? (visit : Visit) : Option String :=
  match visit.node with
  | .mk (.map fields) annotations =>
      ((fields.lookup "name").bind (Pass.overriding?
        (((Pass.inside visit.binding annotations).withScope fields).withPath "name")
        (visit.mode.entries annotations.replace false))).bind Node.plainText?
  | node => (Pass.overriding? visit.binding visit.mode node).bind Node.name?

variable {evaluator : Evaluator}

theorem plainText?_of_visit {binding : Binding} {mode : Override} {node node' : Node}
    {text : String} (ends : Pass.visit evaluator binding mode node = .ok node')
    (stubs : ∀ stub ∈ binding.stubs, stub.isResolved) (resolved : node.isResolved)
    (shows : node'.plainText? = some text) :
    node.plainText? = some text ∨
      (Pass.overriding? binding mode node).bind Node.plainText? = some text := by
  by_cases collection : node.kind = .map ∨ node.kind = .list
  · have kind := Pass.visit_kind collection ends
    rw [Node.plainText?_of_kind] at shows
    · cases shows
    · rw [kind]
      rcases collection with same | same <;> rw [same] <;> exact nofun
  · rw [not_or] at collection
    have result := Pass.visit_overriding ends stubs
      (Node.isLocallyResolved_of_isResolved resolved) collection.1 collection.2
    cases held : Pass.overriding? binding mode node with
    | none =>
        rw [held, Option.getD_none] at result
        subst result
        exact .inl shows
    | some given =>
        rw [held, Option.getD_some] at result
        subst result
        exact .inr shows

/-- The names of a resolved node after a visit are its own one and what the stubs give. -/
theorem name?_of_visit {visit : Visit} {node' : Node} {name : String}
    (ends : Pass.visit evaluator visit.binding visit.mode visit.node = .ok node')
    (stubs : ∀ stub ∈ visit.binding.stubs, stub.isResolved) (resolved : visit.node.isResolved)
    (named : node'.name? = some name) :
    visit.node.name? = some name ∨ visit.stubName? = some name := by
  rcases visit with ⟨binding, mode, ⟨value, annotations⟩, route⟩
  unfold stubName?
  simp only at ends stubs resolved ⊢
  cases value with
  | map fields =>
      rcases Pass.visit_map_ends (markerResolved_of_fieldsResolved resolved) ends with
        ⟨fields', rfl, visited⟩
      simp only [Node.name?_map] at named ⊢
      rcases Pass.visitFields_lookup (.inl rfl) visited with
        ⟨_, absent⟩ | ⟨field, field', held, found, here⟩
      · rw [absent] at named
        cases named
      · rw [found, Option.bind_some] at named
        rw [held, Option.bind_some, Option.bind_some]
        refine plainText?_of_visit here ?_ (lookup_resolved resolved held) named
        rwa [show (((Pass.inside binding annotations).withScope fields).withPath "name").stubs =
          binding.stubs from Pass.stubs_inside binding annotations]
  | list entries =>
      have kind := Pass.visit_kind (.inr rfl) ends
      rw [Node.name?_of_kind (by rw [kind]; exact nofun)] at named
      cases named
  | _ =>
      have result := Pass.visit_overriding ends stubs
        (Node.isLocallyResolved_of_isResolved resolved) nofun nofun
      right
      simp only
      cases held : Pass.overriding? binding mode (.mk _ annotations) with
      | none =>
          rw [held, Option.getD_none] at result
          subst result
          cases named
      | some given =>
          rw [held, Option.getD_some] at result
          subst result
          exact named

end Visit

/-! ## Lists of markers and resolved entries -/

/-- An entry that is a marker with a `merge` that does not replace the list. -/
def Node.IsMerge (entry : Node) : Prop :=
  ∃ marker, listMarker? entry = some marker ∧
    ∀ place, ∃ path redirected, marker.expression? place = some (.ok (.merge path redirected false))

section
variable {depth : Nat} {binding : Binding} {marker : Node}

theorem isResolved_of_listMarker {entry : Node} (resolved : entry.isResolved)
    (held : listMarker? entry = some marker) : marker.isResolved := by
  rcases markerField held with ⟨annotations, rfl⟩
  have inner : fieldsResolved [(markerKey, marker)] := resolved
  rw [fieldsResolved, Bool.and_eq_true] at inner
  exact inner.1

theorem Node.IsMerge.unnamed {entry : Node} (merges : entry.IsMerge) : entry.name? = none := by
  rcases merges with ⟨marker, held, _⟩
  rcases markerField held with ⟨annotations, rfl⟩
  rfl

theorem Node.IsMerge.kept {entry kept : Node} {path : List String} (merges : entry.IsMerge)
    (held : listMarker? entry = some marker) (stays : Marker.Stays path marker kept) :
    (entry.withValue (.map [(markerKey, kept)])).IsMerge := by
  rcases merges with ⟨same, found, merges⟩
  rw [held] at found
  cases found
  refine ⟨kept, rfl, ?_⟩
  intro place
  cases stays with
  | noted issue unresolved => exact merges place
  | evaluated issue holds =>
      rcases merges path with ⟨below, redirected, merge⟩
      rw [holds] at merge
      cases merge
      exact ⟨below, redirected, rfl⟩

/-- Such a marker brings what a stub has. -/
theorem Node.IsMerge.brings {entry : Node} {value : Value} {report : Report}
    (merges : entry.IsMerge) (held : listMarker? entry = some marker)
    (brings : Marker.Brings (Expression.evaluate (depth + 1)) binding marker value report) :
    report.replace = false ∧
      ∃ path found, binding.findInStubs? path = some found ∧ found.value = value := by
  rcases merges with ⟨same, found, merges⟩
  rw [held] at found
  cases found
  rcases merges binding.path with ⟨path, redirected, merge⟩
  rcases brings with ⟨expression, base, holds, evaluated, rfl⟩
  rw [merge] at holds
  cases holds
  have evaluated : Except.ok (binding.mergeOutcome path redirected false) =
      Except.ok (ε := Pause) (.value base report) := evaluated
  simp only [Binding.mergeOutcome] at evaluated
  cases found : binding.findInStubs? (binding.mergePath path redirected) with
  | none =>
      rw [found] at evaluated
      cases evaluated
  | some stub =>
      rw [found] at evaluated
      cases evaluated
      exact ⟨rfl, _, stub, found, rfl⟩

end

namespace ListPlan

variable {evaluator : Evaluator} {depth : Nat} {names : List String} {binding : Binding}
  {redirect : Option (List String)} {merged : Bool} {entries : List Node}

/-- A list is replaced as a whole by a marker of it that says so. -/
theorem replaced_by {added : List Node} {moved : Option (List String)}
    (ends : ofEntries evaluator names binding redirect merged entries =
      .ok (.replaced added moved)) :
    ∃ entry ∈ entries, ∃ marker place base, listMarker? entry = some marker ∧
      Marker.evaluate evaluator place marker = .ok (.merge base moved true) := by
  induction entries generalizing binding redirect merged with
  | nil => cases ends
  | cons entry entries induction =>
      have later : ∀ {binding : Binding} {redirect : Option (List String)} {merged : Bool},
          ofEntries evaluator names binding redirect merged entries =
            .ok (.replaced added moved) →
          ∃ other ∈ entry :: entries, ∃ marker place base, listMarker? other = some marker ∧
            Marker.evaluate evaluator place marker = .ok (.merge base moved true) := by
        intro binding redirect merged others
        rcases induction others with ⟨other, member, found⟩
        exact ⟨other, List.mem_cons_of_mem entry member, found⟩
      generalize whole : ListPlan.replaced added moved = plan at ends
      cases ofEntries_begins ends with
      | replaced held evaluated =>
          cases whole
          exact ⟨entry, List.mem_cons_self, _, binding, _, held, evaluated⟩
      | merged held evaluated others =>
          cases addStep_replaced whole.symm
          exact later others
      | unmerged step plain others =>
          cases addStep_replaced whole.symm
          exact later others


/-- A list of such markers and resolved entries is not replaced. -/
theorem ofEntries_merges {plan : ListPlan}
    (each : ∀ entry ∈ entries, entry.isResolved ∨ entry.IsMerge)
    (ends : ofEntries (Expression.evaluate (depth + 1)) names binding redirect merged entries =
      .ok plan) :
    ∃ steps place redirect' merged', plan = .entries steps place redirect' merged' := by
  cases plan with
  | entries steps place redirect' merged' => exact ⟨steps, place, redirect', merged', rfl⟩
  | replaced added moved =>
      rcases replaced_by ends with ⟨entry, member, marker, place, base, held, evaluated⟩
      rcases Marker.evaluate_cases evaluated with
        ⟨same, _⟩ | ⟨same, _⟩ | ⟨kept, same, _⟩ | ⟨other, report, same, brings⟩
      · cases same
      · cases same
      · cases same
      · rw [Marker.merge.injEq] at same
        rcases each entry member with resolved | merges
        · have unresolved := brings.unresolved
          rw [Node.isLocallyResolved_of_isResolved (isResolved_of_listMarker resolved held)]
            at unresolved
          cases unresolved
        · rw [(merges.brings held brings).1] at same
          cases same.2.2

end ListPlan

section
variable {evaluator : Evaluator} {binding : Binding} {names : List String} {entries : List Node}
  {steps : List EntryStep} {merged : Bool}

/-- What stands for an entry with a marker: nothing, the entry as it is kept, or what is new in
the list that the marker brings in. -/
inductive Marker.Gives (evaluator : Evaluator) (binding : Binding) (names : List String)
    (entry marker : Node) : List Node → Prop where
  | dropped : Gives evaluator binding names entry marker []
  | kept {kept : Node} (stays : Marker.Stays binding.path marker kept) :
      Gives evaluator binding names entry marker [entry.withValue (.map [(markerKey, kept)])]
  | merged {path : List String} {added : List Node} {report : Report}
      (brings : Marker.Brings evaluator (binding.withStubPath path) marker (.list added) report) :
      Gives evaluator binding names entry marker (newEntries names added)

/-- Each entry is visited, or it is a marker, and other nodes stand for it. -/
theorem EntriesFollow.entry {index : Nat} {entry : Node}
    (each : EntriesFollow evaluator binding names entries steps merged)
    (held : entries[index]? = some entry) :
    (steps[index]? = some .visit ∧ (listMarker? entry).all Node.isLocallyResolved) ∨
      ∃ nodes marker, steps[index]? = some (.splice nodes) ∧ listMarker? entry = some marker ∧
        marker.isLocallyResolved = false ∧
        Marker.Gives evaluator binding names entry marker nodes := by
  induction each generalizing index with
  | nil => cases held
  | visit resolved rest induction =>
      cases index with
      | zero =>
          cases held
          exact .inl ⟨rfl, resolved⟩
      | succ index => exact induction held
  | @dropped _ marker _ _ _ here unresolved rest induction =>
      cases index with
      | zero =>
          cases held
          exact .inr ⟨_, marker, rfl, here, unresolved, .dropped⟩
      | succ index => exact induction held
  | @kept _ marker _ _ _ _ here stays rest induction =>
      cases index with
      | zero =>
          cases held
          exact .inr ⟨_, marker, rfl, here, stays.unresolved, .kept stays⟩
      | succ index => exact induction held
  | @merged _ marker _ _ _ _ _ _ here brings rest induction =>
      cases index with
      | zero =>
          cases held
          exact .inr ⟨_, marker, rfl, here, brings.unresolved, .merged brings⟩
      | succ index => exact induction held

namespace Pass

variable {mode : Override} {start : Nat}

/-- What stands for the entry at an index after a pass. -/
inductive Segment (evaluator : Evaluator) (binding : Binding) (mode : Override) (merged : Bool)
    (start : Nat) (steps : List EntryStep) (entries : List Node) (index : Nat) :
    List Node → Prop where
  | spliced {entry : Node} {nodes : List Node} (held : entries[index]? = some entry)
      (step : steps[index]? = some (.splice nodes)) :
      Segment evaluator binding mode merged start steps entries index nodes
  | visited {entry entry' : Node} (held : entries[index]? = some entry)
      (step : steps[index]? = some .visit)
      (ends : visit evaluator
        (binding.withPath (stepName (start + EntryStep.offset steps index) entry))
        (entryMode mode merged entry) entry = .ok entry') :
      Segment evaluator binding mode merged start steps entries index [entry']

/-- An entry before it moves what stands for an entry on. -/
theorem Segment.behind {step : EntryStep} {index : Nat} {segment : List Node} (entry : Node)
    (stands : Segment evaluator binding mode merged (start + step.length) steps entries index
      segment) :
    Segment evaluator binding mode merged start (step :: steps) (entry :: entries) (index + 1)
      segment := by
  cases stands with
  | spliced held here => exact .spliced held here
  | visited held here ends =>
      refine .visited held here ?_
      rwa [EntryStep.offset_succ, ← Nat.add_assoc]

theorem visitEntries_segments {entries' : List Node}
    (ends : visitEntries evaluator binding mode merged start steps entries = .ok entries') :
    ∃ segments : List (List Node), entries' = segments.flatten ∧
      ∀ index segment, segments[index]? = some segment →
        Segment evaluator binding mode merged start steps entries index segment := by
  induction entries generalizing start steps entries' with
  | nil =>
      rw [visitEntries] at ends
      cases ends
      exact ⟨[], rfl, nofun⟩
  | cons entry entries induction =>
      cases steps with
      | nil =>
          rw [visitEntries] at ends
          cases ends
          exact ⟨[], rfl, nofun⟩
      | cons step steps =>
          cases step with
          | visit =>
              rcases visitEntries_visit_ends ends with ⟨entry', rest, rfl, here, others⟩
              rcases induction others with ⟨segments, rfl, each⟩
              refine ⟨[entry'] :: segments, rfl, fun index segment held => ?_⟩
              cases index with
              | zero =>
                  cases held
                  exact .visited rfl rfl here
              | succ index => exact (each index segment held).behind entry
          | splice nodes =>
              rcases visitEntries_splice_ends ends with ⟨rest, rfl, others⟩
              rcases induction others with ⟨segments, rfl, each⟩
              refine ⟨nodes :: segments, rfl, fun index segment held => ?_⟩
              cases index with
              | zero =>
                  cases held
                  exact .spliced rfl rfl
              | succ index => exact (each index segment held).behind entry

end Pass

end

/-! ## A pass -/

namespace Visit

def entries (visit : Visit) : List Node :=
  match visit.node with
  | .mk (.list entries) _ => entries
  | _ => []

/-- What a pass does about each entry of a list. -/
def steps (evaluator : Evaluator) (visit : Visit) : List EntryStep :=
  match visit.node with
  | .mk (.list entries) annotations =>
      match ListPlan.ofEntries evaluator (entryNames entries)
          (Pass.inside visit.binding annotations) none false entries with
      | .ok (.entries steps _ _ _) => steps
      | _ => []
  | _ => []

/-- The names of what takes the place of a marker. -/
def added (evaluator : Evaluator) (visit : Visit) (index : Nat) : List String :=
  match (visit.steps evaluator)[index]? with
  | some (.splice nodes) => entryNames nodes
  | _ => []

/-- Another name that an entry gets because a stub overrides it, or the field with its name. -/
def renamed (evaluator : Evaluator) (visit : Visit) (index : Nat) : List String :=
  match Pass.enter evaluator visit (.entry index) with
  | .ok (some next) => (next.stubName?.filter fun name => next.node.name? != some name).toList
  | _ => []

/-- The stubs bring no name twice, and give no entry a name that the list has already. -/
structure NamesApart (evaluator : Evaluator) (visit : Visit) : Prop where
  once : ∀ second < visit.entries.length, ∀ first < second,
    ∀ name ∈ visit.added evaluator first ++ visit.renamed evaluator first,
      name ∉ visit.added evaluator second ++ visit.renamed evaluator second
  fresh : ∀ index < visit.entries.length, ∀ name ∈ visit.renamed evaluator index,
    name ∉ entryNames visit.entries

instance (evaluator : Evaluator) (visit : Visit) : Decidable (visit.NamesApart evaluator) :=
  decidable_of_iff
    ((∀ second < visit.entries.length, ∀ first < second,
      ∀ name ∈ visit.added evaluator first ++ visit.renamed evaluator first,
        name ∉ visit.added evaluator second ++ visit.renamed evaluator second) ∧
      ∀ index < visit.entries.length, ∀ name ∈ visit.renamed evaluator index,
        name ∉ entryNames visit.entries)
    ⟨fun both => ⟨both.1, both.2⟩, fun apart => ⟨apart.once, apart.fresh⟩⟩

end Visit

/-- A list of markers that merge and of resolved entries, without two entries of one name. -/
inductive Node.MergesApart : Node → Prop where
  | list {entries : List Node} {annotations : Annotations}
      (each : ∀ entry ∈ entries, entry.isResolved ∨ entry.IsMerge)
      (distinct : (entryNames entries).Nodup) : MergesApart (.mk (.list entries) annotations)

section
variable {depth : Nat} {binding : Binding} {entries : List Node}

/-- Two entries with one name are the same one. -/
theorem index_of_name {first second : Nat} {entry other : Node} {name : String}
    (distinct : (entryNames entries).Nodup) (held : entries[first]? = some entry)
    (held' : entries[second]? = some other) (named : entry.name? = some name)
    (named' : other.name? = some name) : first = second := by
  have apart := List.pairwise_filterMap.mp distinct
  rcases List.getElem?_eq_some_iff.mp held with ⟨bound, rfl⟩
  rcases List.getElem?_eq_some_iff.mp held' with ⟨bound', rfl⟩
  rcases Nat.lt_trichotomy first second with before | same | behind
  · exact absurd rfl
      (List.pairwise_iff_getElem.mp apart first second bound bound' before _ named _ named')
  · exact same
  · exact absurd rfl
      (List.pairwise_iff_getElem.mp apart second first bound' bound behind _ named' _ named)

/-- What stands for a marker are markers and resolved entries, with distinct names that the list
does not have. -/
theorem spliced_names (names : List String) {entry marker : Node} {nodes : List Node}
    (stubs : ∀ stub ∈ binding.stubs, stub.isResolved ∧ stub.namesDistinct)
    (merges : entry.IsMerge) (held : listMarker? entry = some marker)
    (gives : Marker.Gives (Expression.evaluate (depth + 1)) binding names entry marker nodes) :
    (∀ node ∈ nodes, node.isResolved ∨ node.IsMerge) ∧ (entryNames nodes).Nodup ∧
      ∀ name ∈ entryNames nodes, name ∉ names := by
  cases gives with
  | dropped => exact ⟨nofun, List.nodup_nil, nofun⟩
  | kept stays =>
      have merges := merges.kept held stays
      rw [List.forall_mem_singleton, entryNames_cons, merges.unnamed]
      exact ⟨.inr merges, List.nodup_nil, nofun⟩
  | @merged path added report brings =>
      rcases merges.brings held brings with ⟨_, path, found, below, list⟩
      rcases Binding.stub_of_findInStubs? below with ⟨stub, member, below⟩
      have resolved := Node.isResolved_of_find (stubs stub member).1 below
      have distinct := Node.namesDistinct_of_find (stubs stub member).2 below
      rcases found with ⟨value, annotations⟩
      cases list
      rcases newEntries_names (Node.namesDistinct_list.mp distinct).1 with ⟨distinct, fresh⟩
      refine ⟨fun node member => .inl ?_, distinct, fresh⟩
      exact member_resolved resolved (List.mem_of_mem_filter member)

end

/-! A visit of such a list. -/

namespace Visit

variable {evaluator : Evaluator} {visit : Visit} {entries : List Node} {annotations : Annotations}
  {steps : List EntryStep} {place : Binding} {redirect : Option (List String)} {merged : Bool}

/-- What stands for an entry after the pass. -/
inductive Stands (evaluator : Evaluator) (visit : Visit) (index : Nat) : List Node → Prop where
  | spliced {nodes : List Node} (step : (visit.steps evaluator)[index]? = some (.splice nodes)) :
      Stands evaluator visit index nodes
  | visited {next : Visit} {entry' : Node}
      (entered : Pass.enter evaluator visit (.entry index) = .ok (some next))
      (ends : Pass.visit evaluator next.binding next.mode next.node = .ok entry') :
      Stands evaluator visit index [entry']

theorem steps_planned (list : visit.node = .mk (.list entries) annotations)
    (planned : ListPlan.ofEntries evaluator (entryNames entries)
      (Pass.inside visit.binding annotations) none false entries =
        .ok (.entries steps place redirect merged)) :
    visit.steps evaluator = steps := by
  rw [Visit.steps, list]
  simp only [planned]

/-- The new list is made of what stands for the entries. -/
theorem segments {node' : Node} (list : visit.node = .mk (.list entries) annotations)
    (planned : ListPlan.ofEntries evaluator (entryNames entries)
      (Pass.inside visit.binding annotations) none false entries =
        .ok (.entries steps place redirect merged))
    (ends : Pass.visit evaluator visit.binding visit.mode visit.node = .ok node') :
    ∃ segments : List (List Node),
      node' = (Node.mk (.list segments.flatten) annotations).withRedirect redirect ∧
      ∀ index segment, segments[index]? = some segment → ∃ entry, entries[index]? = some entry ∧
        visit.Stands evaluator index segment := by
  have stepsSame := steps_planned list planned
  rcases visit with ⟨binding, mode, node, route⟩
  cases list
  rcases Pass.visit_list_entries_planned planned ends with ⟨entries', visited, rfl⟩
  rcases Pass.visitEntries_segments visited with ⟨segments, rfl, each⟩
  refine ⟨segments, rfl, fun index segment stands => ?_⟩
  cases each index segment stands with
  | spliced held step => exact ⟨_, held, .spliced (stepsSame ▸ step)⟩
  | @visited entry entry' held visited ends =>
      rw [Nat.zero_add] at ends
      have entered : Pass.enter evaluator ⟨binding, mode, .mk (.list entries) annotations, route⟩
          (.entry index) = .ok (some
            ⟨place.withPath (stepName (EntryStep.offset steps index) entry),
            Pass.entryMode (mode.entries annotations.replace merged) merged entry, entry,
            route ++ [.entry (EntryStep.offset steps index)]⟩) := by
        unfold entryNames at planned
        simp only [Pass.enter, planned, bind, Except.bind, visited, held]
        rfl
      exact ⟨entry, held, .visited entered ends⟩

end Visit

/-- A marker that is an expression is not visited as an entry. -/
theorem Pass.Enters.ordinary {evaluator : Evaluator} {visit next : Visit} {index : Nat}
    (entered : Enters evaluator visit (.entry index) next) :
    (listMarker? next.node).all Node.isLocallyResolved := by
  cases entered with
  | @entry binding _ _ _ _ annotations _ _ _ _ _ planned visited held =>
      rcases ListPlan.ofEntries_follows (inside binding annotations).stubPath planned with
        @⟨_, _, path, _, each⟩
      rcases each.entry held with ⟨_, ordinary⟩ | ⟨nodes, marker, spliced, _⟩
      · exact ordinary
      · rw [visited] at spliced
        cases spliced

/-- What stands for an entry of a list of markers and resolved entries is such a list. Its names
are the one of the entry and what the stubs bring to it. -/
structure Visit.KeepsNames (evaluator : Evaluator) (visit : Visit) (index : Nat) (entry : Node)
    (segment : List Node) : Prop where
  each : ∀ node ∈ segment, node.isResolved ∨ node.IsMerge
  distinct : (entryNames segment).Nodup
  own : ∀ name ∈ entryNames segment, entry.name? = some name ∨
    name ∉ entryNames visit.entries ∧
      name ∈ visit.added evaluator index ++ visit.renamed evaluator index

section
variable {evaluator : Evaluator} {depth : Nat} {visit next : Visit} {entries : List Node}
  {annotations : Annotations} {steps : List EntryStep} {place : Binding}
  {redirect : Option (List String)} {merged : Bool} {index : Nat} {entry entry' : Node}
  {segment : List Node}

/-- An entry that is visited keeps its name, or a stub gives it another one. -/
theorem keepsNames_of_visited (stubs : ∀ stub ∈ visit.binding.stubs, stub.isResolved)
    (list : visit.node = .mk (.list entries) annotations) (apart : visit.NamesApart evaluator)
    (whole : entry.isResolved ∨ entry.IsMerge) (held : entries[index]? = some entry)
    (entered : Pass.enter evaluator visit (.entry index) = .ok (some next))
    (ends : Pass.visit evaluator next.binding next.mode next.node = .ok entry') :
    visit.KeepsNames evaluator index entry [entry'] := by
  have same := (Pass.enters entered).node
  rw [list, Node.below?_entry, held, Option.some.injEq] at same
  subst same
  -- A marker that merges is not visited.
  have resolved : next.node.isResolved := by
    rcases whole with resolved | ⟨marker, here, merges⟩
    · exact resolved
    · rcases merges [] with ⟨path, redirected, merge⟩
      have ordinary := (Pass.enters entered).ordinary
      rw [here, Option.all_some, Node.not_resolved_of_expression merge] at ordinary
      cases ordinary
  have below : ∀ stub ∈ next.binding.stubs, stub.isResolved :=
    (Pass.enters entered).binding.1.symm ▸ stubs
  have bound : index < visit.entries.length := by
    rw [Visit.entries, list]
    exact (List.getElem?_eq_some_iff.mp held).1
  have still := Pass.visit_keeps (Pass.keeps_isResolved below) _ resolved ends rfl
  refine ⟨List.forall_mem_singleton.mpr (.inl still), ?_, ?_⟩
  · rw [entryNames_singleton]
    cases entry'.name? with
    | none => exact List.nodup_nil
    | some name => exact List.nodup_cons.mpr ⟨nofun, List.nodup_nil⟩
  · intro name named
    rw [entryNames_singleton, Option.mem_toList] at named
    by_cases own : next.node.name? = some name
    · exact .inl own
    · have given : name ∈ visit.renamed evaluator index := by
        rcases Visit.name?_of_visit ends below resolved named with same | given
        · exact absurd same own
        · rw [Visit.renamed, entered]
          simp only [given, Option.filter_some, bne_iff_ne, ne_eq, own, not_false_eq_true,
            if_true, Option.toList_some, List.mem_singleton]
      exact .inr ⟨apart.fresh index bound name given, List.mem_append_right _ given⟩

/-- What a marker brings in is new. -/
theorem keepsNames_of_spliced
    (stubs : ∀ stub ∈ visit.binding.stubs, stub.isResolved ∧ stub.namesDistinct)
    (list : visit.node = .mk (.list entries) annotations)
    (planned : ListPlan.ofEntries (Expression.evaluate (depth + 1)) (entryNames entries)
      (Pass.inside visit.binding annotations) none false entries =
        .ok (.entries steps place redirect merged))
    (whole : entry.isResolved ∨ entry.IsMerge) (held : entries[index]? = some entry)
    (step : steps[index]? = some (.splice segment)) :
    visit.KeepsNames (Expression.evaluate (depth + 1)) index entry segment := by
  have inner : (Pass.inside visit.binding annotations).stubs = visit.binding.stubs :=
    Pass.stubs_inside visit.binding annotations
  have names : visit.entries = entries := by rw [Visit.entries, list]
  have added : visit.added (Expression.evaluate (depth + 1)) index = entryNames segment := by
    rw [Visit.added, Visit.steps_planned list planned, step]
  rcases ListPlan.ofEntries_follows (Pass.inside visit.binding annotations).stubPath planned with
    @⟨_, _, path, _, each⟩
  rcases each.entry held with ⟨visited, _⟩ | ⟨nodes, marker, spliced, here, pending, gives⟩
  · cases step.symm.trans visited
  · cases step.symm.trans spliced
    have merges : entry.IsMerge := by
      rcases whole with resolved | merges
      · rw [Node.isLocallyResolved_of_isResolved (isResolved_of_listMarker resolved here)]
          at pending
        cases pending
      · exact merges
    rcases spliced_names (entryNames entries) (inner ▸ stubs) merges here gives with
      ⟨all, distinct, fresh⟩
    refine ⟨all, distinct, fun name member => .inr ⟨names ▸ fresh name member, ?_⟩⟩
    rw [added]
    exact List.mem_append_left _ member

/-- Names are distinct when entries keep theirs, and what comes to them is new and comes once. -/
theorem nodup_segments {given : Nat → List String} {segments : List (List Node)}
    (distinct : (entryNames entries).Nodup)
    (once : ∀ second < entries.length, ∀ first < second, ∀ name ∈ given first, name ∉ given second)
    (each : ∀ index segment, segments[index]? = some segment → ∃ entry,
      entries[index]? = some entry ∧ (entryNames segment).Nodup ∧
        ∀ name ∈ entryNames segment, entry.name? = some name ∨
          name ∉ entryNames entries ∧ name ∈ given index) :
    (entryNames segments.flatten).Nodup := by
  have shown : ∀ {index : Nat} {entry : Node} {name : String}, entries[index]? = some entry →
      entry.name? = some name → name ∈ entryNames entries :=
    fun held named => List.mem_filterMap.mpr ⟨_, List.mem_of_getElem? held, named⟩
  unfold entryNames at each ⊢
  rw [List.filterMap_flatten, List.nodup_flatten]
  constructor
  · intro names member
    rcases List.mem_map.mp member with ⟨segment, among, rfl⟩
    rcases List.mem_iff_getElem?.mp among with ⟨index, found⟩
    rcases each index segment found with ⟨entry, held, unique, _⟩
    exact unique
  · rw [List.pairwise_map, List.pairwise_iff_getElem]
    intro first second bound bound' before name member member'
    rcases each first _ (List.getElem?_eq_getElem bound) with ⟨entry, held, _, own⟩
    rcases each second _ (List.getElem?_eq_getElem bound') with ⟨other, held', _, own'⟩
    -- A name that comes to an entry is no name of the list, and comes to no other entry.
    rcases own name member with named | ⟨new, brought⟩
    · rcases own' name member' with named' | ⟨new', _⟩
      · exact Nat.ne_of_lt before (index_of_name distinct held held' named named')
      · exact new' (shown held named)
    · rcases own' name member' with named' | ⟨_, brought'⟩
      · exact new (shown held' named')
      · exact once second (List.getElem?_eq_some_iff.mp held').1 first before name brought brought'

/-- A visit leaves such a list such a list. -/
theorem visit_mergesApart {node' : Node}
    (stubs : ∀ stub ∈ visit.binding.stubs, stub.isResolved ∧ stub.namesDistinct)
    (apart : visit.NamesApart (Expression.evaluate (depth + 1)))
    (merges : visit.node.MergesApart)
    (ends : Pass.visit (Expression.evaluate (depth + 1)) visit.binding visit.mode visit.node =
      .ok node') : node'.MergesApart := by
  generalize list : visit.node = node at merges
  cases merges with
  | @list entries annotations each distinct =>
      have begun := ends
      rw [list, Pass.visit] at begun
      rcases ok_of_bind begun with ⟨plan, planned, _⟩
      rcases ListPlan.ofEntries_merges each planned with ⟨steps, place, redirect, merged, rfl⟩
      rcases Visit.segments list planned ends with ⟨segments, rfl, stands⟩
      have names : visit.entries = entries := by rw [Visit.entries, list]
      have keeps : ∀ index segment, segments[index]? = some segment → ∃ entry,
          entries[index]? = some entry ∧
            visit.KeepsNames (Expression.evaluate (depth + 1)) index entry segment := by
        intro index segment found
        rcases stands index segment found with ⟨entry, held, stands⟩
        have whole := each entry (List.mem_of_getElem? held)
        refine ⟨entry, held, ?_⟩
        cases stands with
        | spliced step =>
            exact keepsNames_of_spliced stubs list planned whole held
              (Visit.steps_planned list planned ▸ step)
        | visited entered ends =>
            exact keepsNames_of_visited (fun stub member => (stubs stub member).1) list apart whole
              held entered ends
      refine .list ?_ (nodup_segments distinct (names ▸ apart.once) ?_)
      · intro node member
        rcases List.mem_flatten.mp member with ⟨segment, member, inside⟩
        rcases List.mem_iff_getElem?.mp member with ⟨index, found⟩
        rcases keeps index segment found with ⟨entry, held, keeps⟩
        exact keeps.each node inside
      · intro index segment found
        rcases keeps index segment found with ⟨entry, held, keeps⟩
        exact ⟨entry, held, keeps.distinct, names ▸ keeps.own⟩

end

/-! ## Runs -/

namespace Resolution

variable {answers : Answers} {stubs : List Node} {template : Node} {limit : Nat}
  {resolution : Resolution} {route place : List Step} {entries : List Node}
  {annotations : Annotations}

/-- A list of markers and resolved entries gets no two entries of one name, when in each pass what
the stubs bring to it has names that are new and different. -/
theorem merged_names_distinct (stubsResolved : ∀ stub ∈ stubs, stub.isResolved)
    (stubsDistinct : ∀ stub ∈ stubs, stub.namesDistinct)
    (position : template.at? route = some (.mk (.list entries) annotations))
    (each : ∀ entry ∈ entries, entry.isResolved ∨ entry.IsMerge)
    (distinct : (entryNames entries).Nodup)
    (apart : ∀ passes position visit, passes < resolution.passes →
      Leads answers stubs template 0 route passes position →
      visit? answers stubs template passes position = some visit →
      visit.NamesApart (Expression.evaluate Expression.callDepth))
    (result : partly answers limit stubs template = .ok (.ok resolution))
    (leads : Leads answers stubs template 0 route resolution.passes place) :
    ∃ entries annotations, resolution.document.at? place = some (.mk (.list entries) annotations) ∧
      (entryNames entries).Nodup := by
  rcases settled_of_partly result with ⟨last, settled⟩
  have first : ∃ node, template.at? route = some node ∧ node.MergesApart :=
    ⟨_, position, .list each distinct⟩
  -- The run keeps that the entries are markers and resolved nodes with distinct names.
  have kept := leads.keeps rfl first (fun passes document position visit _ _ _ soon reached leads
      visited same _ leaves merges => visit_mergesApart
        (same ▸ fun stub member => ⟨stubsResolved stub member, stubsDistinct stub member⟩)
        (apart passes position visit soon leads
          (visit?_eq_some_iff.mpr ⟨document, reached, visited⟩)) merges leaves.ends)
    settled.final
  rcases kept with ⟨_, node, found, merges⟩
  cases merges with
  | list each distinct => exact ⟨_, _, found, distinct⟩

/-- An entry with nothing but a name. -/
def namedEntry (name : String) : Node := .mk (.map [("name", .mk (.text name) {})]) {}

/-- An entry with nothing but a marker. -/
def markerEntry (source : String) : Node := .mk (.map [(markerKey, .mk (.text source) {})]) {}

/-- A document with lists. -/
def lists (fields : List (String × List Node)) : Node :=
  .mk (.map (fields.map fun field => (field.1, .mk (.list field.2) {}))) {}

theorem markerEntry_isMerge {source : String} {path : List String} (read : ∀ place,
    (Node.mk (.text source) {}).expression? place = some (.ok (.merge path true false))) :
    (markerEntry source).IsMerge :=
  ⟨_, rfl, fun place => ⟨path, true, read place⟩⟩

/-- Two markers bring different names. -/
theorem merged_names_distinct_markers :
    let template := lists [("l", [markerEntry "(( merge a ))", namedEntry "z",
      markerEntry "(( merge b ))"])]
    let stubs := [lists [("a", [namedEntry "x"]), ("b", [namedEntry "z", namedEntry "y"])]]
    ∃ resolution entries annotations, partly .none 8 stubs template = .ok (.ok resolution) ∧
      resolution.document.at? [.field "l"] = some (.mk (.list entries) annotations) ∧
      (entryNames entries).Nodup := by
  intro template stubs
  have first : (markerEntry "(( merge a ))").IsMerge := markerEntry_isMerge fun place => by cbv
  have last : (markerEntry "(( merge b ))").IsMerge := markerEntry_isMerge fun place => by cbv
  obtain ⟨resolution, result⟩ : ∃ resolution,
      found? (partly .none 8 stubs template) = some resolution :=
    Option.isSome_iff_exists.mp (by decide +kernel)
  have passes : (found? (partly .none 8 stubs template)).map Resolution.passes = some 2 := by
    decide +kernel
  rw [result, Option.map_some, Option.some.injEq] at passes
  have visits : ∀ passes < 2, (visit? .none stubs template passes (["l"].map .field)).any
      fun visit => decide (visit.NamesApart (Expression.evaluate Expression.callDepth)) := by
    decide +kernel
  have leads : Leads .none stubs template 0 (["l"].map .field) (0 + 2) (["l"].map .field) :=
    leads_keys fun middle _ before => by
      rcases Option.any_eq_true _ _ |>.mp (visits middle before) with ⟨visit, found, _⟩
      exact Option.isSome_of_eq_some found
  rw [found?_eq_some_iff] at result
  rw [Nat.zero_add, ← passes] at leads
  have apart : ∀ early position visit, early < resolution.passes →
      Leads .none stubs template 0 (["l"].map .field) early position →
      visit? .none stubs template early position = some visit →
      visit.NamesApart (Expression.evaluate Expression.callDepth) := by
    intro early position visit before leads found
    rw [passes] at before
    rw [leads.keys] at found
    have apart := visits early before
    rwa [found, Option.any_some, decide_eq_true_iff] at apart
  have each : ∀ entry ∈ [markerEntry "(( merge a ))", namedEntry "z",
      markerEntry "(( merge b ))"], entry.isResolved ∨ entry.IsMerge :=
    List.forall_mem_cons.mpr ⟨.inr first, List.forall_mem_cons.mpr
      ⟨.inl rfl, List.forall_mem_singleton.mpr (.inr last)⟩⟩
  rcases merged_names_distinct (by decide) (by decide) rfl each (by decide +kernel) apart result
    leads with ⟨entries, annotations, found, distinct⟩
  exact ⟨resolution, entries, annotations, result, found, distinct⟩

/-! Two markers may bring the same name. -/

theorem merged_names_repeated :
    ¬ ∀ (answers : Answers) (limit : Nat) (stubs : List Node) (template : Node)
        (resolution : Resolution) (route place : List Step) (entries : List Node)
        (annotations : Annotations), (∀ stub ∈ stubs, stub.isResolved) →
      (∀ stub ∈ stubs, stub.namesDistinct) →
      template.at? route = some (.mk (.list entries) annotations) →
      (∀ entry ∈ entries, entry.isResolved ∨ entry.IsMerge) → (entryNames entries).Nodup →
      partly answers limit stubs template = .ok (.ok resolution) →
      Leads answers stubs template 0 route resolution.passes place →
      ∃ entries annotations,
        resolution.document.at? place = some (.mk (.list entries) annotations) ∧
          (entryNames entries).Nodup := by
  intro claim
  let template := lists [("l", [markerEntry "(( merge a ))", markerEntry "(( merge b ))"])]
  let stubs := [lists [("a", [namedEntry "x"]), ("b", [namedEntry "x"])]]
  have wrong : ((found? (partly .none 8 stubs template)).map fun resolution =>
      (resolution.passes, (resolution.document.at? (["l"].map .field)).map fun node =>
        match node with
        | .mk (.list entries) _ => entryNames entries
        | _ => [])) = some (2, some ["x", "x"]) := by decide +kernel
  rcases Option.map_eq_some_iff.mp wrong with ⟨resolution, result, shown⟩
  rw [Prod.mk.injEq] at shown
  have visits : ∀ passes < 2,
      (visit? .none stubs template passes (["l"].map .field)).isSome := by decide +kernel
  have leads : Leads .none stubs template 0 (["l"].map .field) (0 + 2) (["l"].map .field) :=
    leads_keys fun middle _ before => visits middle before
  rw [Nat.zero_add, ← shown.1] at leads
  have each : ∀ entry ∈ [markerEntry "(( merge a ))", markerEntry "(( merge b ))"],
      entry.isResolved ∨ entry.IsMerge :=
    List.forall_mem_cons.mpr ⟨.inr (markerEntry_isMerge fun place => by cbv),
      List.forall_mem_singleton.mpr (.inr (markerEntry_isMerge fun place => by cbv))⟩
  rcases claim .none 8 stubs template resolution _ _ _ _ (by decide) (by decide) rfl each
    (by decide +kernel) (found?_eq_some_iff.mp result) leads with
    ⟨entries, annotations, found, distinct⟩
  rw [found, Option.map_some, Option.some.injEq] at shown
  have twice : entryNames entries = ["x", "x"] := shown.2
  rw [twice] at distinct
  exact absurd distinct (by decide)

/-! And a stub may override the names of two entries, where a map around them merges. -/

example :
    let named (name : String) : Node := .mk (.map [("name", .mk (.text name) {})]) {}
    let template := .mk (.map [("F", .mk (.map [(markerKey, .mk (.text "(( merge ))") {}),
      ("l", .mk (.list [named "a", named "b"]) {})]) {})]) {}
    let stubs := [.mk (.map [("F", .mk (.map [("l", .mk (.map [("a", named "z"),
      ("b", named "z")]) {})]) {})]) {}]
    ((found? (partly .none 8 stubs template)).bind fun resolution =>
      (resolution.document.at? [.field "F", .field "l"]).map fun node =>
        match node with
        | .mk (.list entries) _ => entries.filterMap Node.name?
        | _ => []) = some ["z", "z"] := by decide +kernel

end Resolution

end Stencil
