import Mathlib.Data.List.Forall2
import Stencil.Proofs.Node.Refinement
import Stencil.Proofs.Resolution.Visit

namespace Stencil

/-! A lookup is decided when no later pass can change what it comes upon. No merge is
pending in the maps on its way. The entries of the lists on its way are settled, and no
merge can bring a name to one of them. What is found is resolved. -/

/-- No merge into a map is pending. -/
def Node.isMerged (node : Node) : Bool :=
  match node.value with
  | .map fields => markerResolved fields
  | _ => true

/-- The children that there are stay the children. -/
def Node.isSteady (node : Node) : Bool :=
  match node.value with
  | .map fields => markerResolved fields
  | .list entries => entries.all fun entry => entry.isSettledEntry && entry.isMerged
  | _ => true

def Node.isDecided (node : Node) : List String → Bool
  | [] => node.isResolved
  | step :: rest =>
      node.isSteady &&
        match node.child step with
        | .found next => next.isDecided rest
        | .unresolved => false
        | .missing => true

/-! What the kind of a node says about it. -/

theorem Node.eq_map {node : Node} (kind : node.kind = .map) :
    ∃ fields annotations, node = .mk (.map fields) annotations := by
  rcases node with ⟨value, annotations⟩
  cases value with
  | map fields => exact ⟨fields, annotations, rfl⟩
  | _ => cases kind

theorem Node.eq_list {node : Node} (kind : node.kind = .list) :
    ∃ entries annotations, node = .mk (.list entries) annotations := by
  rcases node with ⟨value, annotations⟩
  cases value with
  | list entries => exact ⟨entries, annotations, rfl⟩
  | _ => cases kind

theorem Node.isMerged_of_kind {node : Node} (kind : node.kind ≠ .map) : node.isMerged := by
  rcases node with ⟨value, annotations⟩
  cases value with
  | map fields => exact absurd rfl kind
  | _ => rfl

theorem Node.get?_of_kind {node : Node} (kind : node.kind ≠ .map) (key : String) :
    node.get? key = none := by
  rcases node with ⟨value, annotations⟩
  cases value with
  | map fields => exact absurd rfl kind
  | _ => rfl

/-- A collection is no text. -/
theorem Node.findText?_of_kind {node field : Node} {key : String}
    (held : node.get? key = some field) (collection : field.kind = .map ∨ field.kind = .list) :
    node.findText? key = none := by
  unfold Node.findText?
  rw [held]
  rcases field with ⟨value, annotations⟩
  cases value with
  | map fields | list entries => rfl
  | _ => rcases collection with kind | kind <;> cases kind

theorem Node.child_of_unresolved {node : Node} (unresolved : node.isLocallyResolved = false)
    (step : String) : node.child step = .unresolved := by
  unfold Node.child
  rw [unresolved]
  rfl

/-- A decided lookup does not stop at an expression. -/
theorem Node.isLocallyResolved_of_isDecided {node : Node} {path : List String}
    (decided : node.isDecided path) : node.isLocallyResolved := by
  cases path with
  | nil => exact Node.isLocallyResolved_of_isResolved decided
  | cons step rest =>
      cases resolved : node.isLocallyResolved with
      | true => rfl
      | false =>
          rw [Node.isDecided, Node.child_of_unresolved resolved, Bool.and_eq_true] at decided
          cases decided.2


theorem steady_list {entries : List Node} {annotations : Annotations}
    (steady : (Node.mk (.list entries) annotations).isSteady) :
    ∀ entry ∈ entries, entry.isSettledEntry ∧ entry.isMerged := by
  intro entry member
  have here := List.all_eq_true.mp steady entry member
  rwa [Bool.and_eq_true] at here

/-- In a list of merged maps no merge is pending. -/
theorem markersResolved_of_merged {entries : List Node}
    (merged : ∀ entry ∈ entries, entry.isMerged) : markersResolved entries := by
  refine markersResolved_of_markers fun marker annotations member => ?_
  have here : markerResolved [(markerKey, marker)] := merged _ member
  have found : [(markerKey, marker)].lookup markerKey = some marker := by simp
  unfold markerResolved at here
  rwa [found] at here

namespace Pass

variable {evaluator : Evaluator} {binding : Binding} {mode : Override}

theorem visit_isLocallyResolved {node node' : Node} (quiet : mode ≠ .all)
    (resolved : node.isLocallyResolved) (ends : visit evaluator binding mode node = .ok node') :
    node'.isLocallyResolved := by
  rcases visit_cases quiet resolved ends with rfl | ⟨collection, kind⟩
  · exact resolved
  · exact Node.isLocallyResolved_of_kind (by rwa [kind])

/-- The marker of a map becomes an expression only if the visit makes it one. -/
theorem visitFields_marker_resolved {fields fields' : List (String × Node)}
    (keeps : ∀ {marker marker' : Node}, marker.isLocallyResolved →
      visit evaluator (binding.withPath markerKey) mode marker = .ok marker' →
        marker'.isLocallyResolved)
    (resolved : markerResolved fields)
    (ends : visitFields evaluator binding mode .ordinary fields = .ok fields') :
    markerResolved fields' := by
  unfold markerResolved at resolved ⊢
  rcases visitFields_lookup (.inl rfl) ends with
    ⟨_, absent⟩ | ⟨marker, marker', held, found, visited⟩
  · rw [absent]
    rfl
  · rw [held] at resolved
    rw [found]
    exact keeps resolved visited

theorem visitFields_markerResolved {fields fields' : List (String × Node)} (quiet : mode ≠ .all)
    (resolved : markerResolved fields)
    (ends : visitFields evaluator binding mode .ordinary fields = .ok fields') :
    markerResolved fields' :=
  visitFields_marker_resolved (visit_isLocallyResolved quiet) resolved ends

/-- A visit of a merged map visits its fields. -/
theorem visit_merged {fields : List (String × Node)} {annotations : Annotations} {node' : Node}
    (quiet : mode ≠ .all) (resolved : markerResolved fields)
    (ends : visit evaluator binding mode (.mk (.map fields) annotations) = .ok node') :
    ∃ fields' below mode', mode' ≠ .all ∧ node' = .mk (.map fields') annotations ∧
      visitFields evaluator below mode' .ordinary fields = .ok fields' := by
  rcases visit_map_ends resolved ends with ⟨fields', rfl, visited⟩
  exact ⟨fields', _, _, Override.entries_ne_all quiet _, rfl, visited⟩

theorem visit_isMerged {node node' : Node} (quiet : mode ≠ .all) (resolved : node.isLocallyResolved)
    (merged : node.isMerged) (ends : visit evaluator binding mode node = .ok node') :
    node'.isMerged := by
  rcases visit_cases quiet resolved ends with rfl | ⟨collection, kind⟩
  · exact merged
  · rcases collection with isMap | isList
    · rcases Node.eq_map isMap with ⟨fields, annotations, rfl⟩
      rcases visit_merged quiet merged ends with ⟨fields', below, mode', quiet, rfl, visited⟩
      exact visitFields_markerResolved quiet merged visited
    · exact Node.isMerged_of_kind (by rw [kind, isList]; decide)

/-- The fields of a merged map are visited; what is no map has none before and after. -/
theorem visit_get? {node node' : Node} (quiet : mode ≠ .all) (resolved : node.isLocallyResolved)
    (merged : node.isMerged) (ends : visit evaluator binding mode node = .ok node') (key : String) :
    (node.get? key = none ∧ node'.get? key = none) ∨
      ∃ field field' below mode', mode' ≠ .all ∧ node.get? key = some field ∧
        node'.get? key = some field' ∧ visit evaluator below mode' field = .ok field' := by
  by_cases isMap : node.kind = .map
  · rcases Node.eq_map isMap with ⟨fields, annotations, rfl⟩
    rcases visit_merged quiet merged ends with ⟨fields', below, mode', quiet, rfl, visited⟩
    rcases visitFields_lookup (.inl rfl) visited with
      ⟨absent, absent'⟩ | ⟨field, field', held, found, visited⟩
    · exact .inl ⟨absent, absent'⟩
    · exact .inr ⟨field, field', _, mode', quiet, held, found, visited⟩
  · have kind : node'.kind = node.kind := by
      rcases visit_cases quiet resolved ends with rfl | ⟨_, kind⟩
      · rfl
      · exact kind
    exact .inl ⟨Node.get?_of_kind isMap key, Node.get?_of_kind (by rwa [kind]) key⟩

/-- A field that is no expression keeps its text. -/
theorem visit_findText? {node node' : Node} {key : String} (quiet : mode ≠ .all)
    (resolved : node.isLocallyResolved) (merged : node.isMerged)
    (settled : (node.get? key).all Node.isLocallyResolved)
    (ends : visit evaluator binding mode node = .ok node') :
    (node'.get? key).all Node.isLocallyResolved ∧ node'.findText? key = node.findText? key := by
  rcases visit_get? quiet resolved merged ends key with
    ⟨absent, absent'⟩ | ⟨field, field', below, mode', quiet, held, found, visited⟩
  · unfold Node.findText?
    rw [absent, absent']
    exact ⟨rfl, rfl⟩
  · rw [held, Option.all_some] at settled
    refine ⟨?_, ?_⟩
    · rw [found]
      exact visit_isLocallyResolved quiet settled visited
    · rcases visit_cases quiet settled visited with rfl | ⟨collection, kind⟩
      · unfold Node.findText?
        rw [held, found]
      · rw [Node.findText?_of_kind held collection,
          Node.findText?_of_kind found (by rwa [kind])]

theorem visit_settledEntry {entry entry' : Node} (quiet : mode ≠ .all)
    (settled : entry.isSettledEntry) (merged : entry.isMerged)
    (ends : visit evaluator binding mode entry = .ok entry') :
    entry'.isSettledEntry ∧ entry'.name? = entry.name? := by
  unfold Node.isSettledEntry at settled ⊢
  rw [Bool.and_eq_true] at settled ⊢
  rcases settled with ⟨resolved, name⟩
  rcases visit_findText? quiet resolved merged name ends with ⟨name', same⟩
  exact ⟨⟨visit_isLocallyResolved quiet resolved ends, name'⟩, same⟩

/-- Every entry of a steady list is visited where it is, and keeps its name. -/
theorem visitEntries_listEntry {entries entries' : List Node} {index : Nat} (quiet : mode ≠ .all)
    (steady : ∀ entry ∈ entries, entry.isSettledEntry ∧ entry.isMerged)
    (ends : visitEntries evaluator binding mode false index (entries.map fun _ => .visit) entries =
      .ok entries') (step : String) :
    (Node.listEntry entries step = none ∧ Node.listEntry entries' step = none) ∨
      ∃ entry entry' below, Node.listEntry entries step = some entry ∧
        Node.listEntry entries' step = some entry' ∧
        visit evaluator below mode entry = .ok entry' := by
  unfold Node.listEntry
  cases indexOf? step with
  | some position =>
      rcases visitEntries_get ends position with
        ⟨absent, absent'⟩ | ⟨entry, entry', held, found, visited⟩
      · exact .inl ⟨absent, absent'⟩
      · exact .inr ⟨entry, entry', _, held, found, visited⟩
  | none =>
      induction entries generalizing index entries' with
      | nil =>
          rw [List.map_nil, visitEntries] at ends
          cases ends
          exact .inl ⟨rfl, rfl⟩
      | cons entry entries induction =>
          rw [List.forall_mem_cons] at steady
          rcases visitEntries_visit_ends ends with ⟨entry', rest, rfl, visited, others⟩
          have name := (visit_settledEntry quiet steady.1.1 steady.1.2 visited).2
          simp only [List.find?_cons, name]
          cases here : decide (entry.name? = some step) with
          | true => exact .inr ⟨entry, entry', _, rfl, rfl, visited⟩
          | false => exact induction steady.2 others

/-- What a visit of the fields of a map does with its children. -/
theorem visitFields_child {fields fields' : List (String × Node)}
    {annotations annotations' : Annotations} (quiet : mode ≠ .all)
    (ends : visitFields evaluator binding mode .ordinary fields = .ok fields') (step : String) :
    (Node.mk (.map fields) annotations).child step = .unresolved ∨
      ((Node.mk (.map fields) annotations).child step = .missing ∧
        (Node.mk (.map fields') annotations').child step = .missing) ∨
      ∃ next next', (Node.mk (.map fields) annotations).child step = .found next ∧
        (Node.mk (.map fields') annotations').child step = .found next' ∧
        visit evaluator (binding.withPath step) mode next = .ok next' := by
  unfold Node.child
  simp only [Node.isLocallyResolved, Node.value_mk, Value.isLocallyResolved, Bool.not_true,
    Bool.false_eq_true, if_false]
  rcases visitFields_lookup (.inl rfl) ends with
    ⟨absent, absent'⟩ | ⟨field, field', held, found, visited⟩
  · rw [absent, absent']
    rcases visitFields_lookup (.inl rfl) ends with
      ⟨none, none'⟩ | ⟨marker, marker', held, found, visited⟩
    · rw [none, none']
      exact .inr (.inl ⟨rfl, rfl⟩)
    · rw [held, found]
      cases whole : marker.isResolved with
      | false => exact .inl (by simp only [whole, Bool.false_eq_true, if_false])
      | true =>
          rw [visit_of_isResolved marker quiet whole] at visited
          cases visited
          exact .inr (.inl (by simp only [whole, if_true, and_self]))
  · rw [held, found]
    exact .inr (.inr ⟨field, field', rfl, rfl, visited⟩)

/-- What a visit of a steady node does with its children. -/
theorem visit_child {node node' : Node} (quiet : mode ≠ .all) (steady : node.isSteady)
    (ends : visit evaluator binding mode node = .ok node') (step : String) :
    node.child step = .unresolved ∨ (node.child step = .missing ∧ node'.child step = .missing) ∨
      ∃ next next' below mode', mode' ≠ .all ∧ node.child step = .found next ∧
        node'.child step = .found next' ∧ visit evaluator below mode' next = .ok next' := by
  cases resolved : node.isLocallyResolved with
  | false => exact .inl (Node.child_of_unresolved resolved step)
  | true =>
      rcases node with ⟨value, annotations⟩
      cases value with
      | map fields =>
          rcases visit_merged quiet steady ends with ⟨fields', below, mode', quiet, rfl, visited⟩
          exact (visitFields_child quiet visited step).imp_right fun children =>
            children.imp_right fun ⟨next, next', held, found, visited⟩ =>
              ⟨next, next', _, mode', quiet, held, found, visited⟩
      | list entries =>
          have steady := steady_list steady
          rcases visit_list_ends (markersResolved_of_merged fun entry member =>
            (steady entry member).2) ends with ⟨entries', rfl, visited⟩
          unfold Node.child
          simp only [Node.isLocallyResolved, Node.value_mk, Value.isLocallyResolved, Bool.not_true,
            Bool.false_eq_true, if_false]
          have quiet := Override.entries_ne_all quiet annotations.replace
          rcases visitEntries_listEntry quiet steady visited step with
            ⟨absent, absent'⟩ | ⟨entry, entry', below, held, found, visited⟩
          · rw [absent, absent']
            exact .inr (.inl ⟨rfl, rfl⟩)
          · rw [held, found]
            exact .inr (.inr ⟨entry, entry', below, _, quiet, rfl, rfl, visited⟩)
      | _ =>
          rcases visit_cases quiet resolved ends with rfl | ⟨kind | kind, _⟩ <;> try cases kind
          refine .inr (.inl (and_self_iff.mpr ?_))
          unfold Node.child
          simp only [resolved, Bool.not_true, Bool.false_eq_true, if_false, Node.value_mk]

theorem visit_isSteady {node node' : Node} (quiet : mode ≠ .all) (resolved : node.isLocallyResolved)
    (steady : node.isSteady) (ends : visit evaluator binding mode node = .ok node') :
    node'.isSteady := by
  rcases node with ⟨value, annotations⟩
  cases value with
  | map fields =>
      rcases visit_merged quiet steady ends with ⟨fields', below, mode', quiet, rfl, visited⟩
      exact visitFields_markerResolved quiet steady visited
  | list entries =>
      have steady := steady_list steady
      rcases visit_list_ends (markersResolved_of_merged fun entry member =>
        (steady entry member).2) ends with ⟨entries', rfl, visited⟩
      apply List.all_eq_true.mpr
      intro entry' member
      rcases visitEntries_came visited member with ⟨position, entry, held, visited⟩
      have quiet := Override.entries_ne_all quiet annotations.replace
      rcases steady entry held with ⟨settled, merged⟩
      have resolved : entry.isLocallyResolved := by
        rw [Node.isSettledEntry, Bool.and_eq_true] at settled
        exact settled.1
      rw [Bool.and_eq_true]
      exact ⟨(visit_settledEntry quiet settled merged visited).1,
        visit_isMerged quiet resolved merged visited⟩
  | _ =>
      rcases visit_cases quiet resolved ends with rfl | ⟨kind | kind, _⟩ <;> try cases kind
      exact steady

/-- What a decided lookup comes upon stays, and so does the lookup. -/
theorem visit_find {node node' : Node} {path : List String} (quiet : mode ≠ .all)
    (decided : node.isDecided path) (ends : visit evaluator binding mode node = .ok node') :
    node'.find path = node.find path ∧ node'.isDecided path := by
  induction path generalizing node node' binding mode with
  | nil =>
      rw [visit_of_isResolved node quiet decided] at ends
      cases ends
      exact ⟨rfl, decided⟩
  | cons step rest induction =>
      have resolved := Node.isLocallyResolved_of_isDecided decided
      rw [Node.isDecided, Bool.and_eq_true] at decided
      rcases decided with ⟨steady, decided⟩
      rcases visit_child quiet steady ends step with
        stopped | ⟨absent, absent'⟩ | ⟨next, next', below, mode', quiet', held, found, visited⟩
      · rw [stopped] at decided
        cases decided
      · rw [Node.find, Node.find, absent, absent', Node.isDecided, absent', Bool.and_eq_true]
        exact ⟨rfl, visit_isSteady quiet resolved steady ends, rfl⟩
      · rw [held] at decided
        rcases induction quiet' decided visited with ⟨same, decided'⟩
        rw [Node.find, Node.find, held, found, Node.isDecided, found, Bool.and_eq_true]
        exact ⟨same, visit_isSteady quiet resolved steady ends, decided'⟩

end Pass

/-! ## Lookups from inside a document -/

namespace Binding

/-- The scopes that a path is searched in, from the nearest on, and its steps there. -/
def searched (binding : Binding) : List String → List (List (String × Node)) × List String
  | "" :: path => (binding.scopes.getLast?.toList, path)
  | path => (binding.locals :: binding.scopes, path)

/-- The first scope that has the first step decides. -/
def findNearest (scopes : List (List (String × Node))) : List String → Lookup
  | [] => .missing
  | first :: rest =>
      ((scopes.findSome? fun fields => fields.lookup first).map fun node => node.find rest).getD
        .missing

theorem lookup_searched (binding : Binding) (path : List String) :
    binding.lookup path = findNearest (binding.searched path).1 (binding.searched path).2 := by
  cases path with
  | nil => rfl
  | cons first rest =>
      by_cases outermost : first = ""
      · subst outermost
        cases rest with
        | nil => rfl
        | cons first rest =>
            unfold lookup findFromRoot searched findNearest
            cases binding.scopes.getLast? with
            | none => rfl
            | some root =>
                simp only [Option.bind_some, Option.toList_some, List.findSome?_singleton]
                rfl
      · have searched : binding.searched (first :: rest) =
            (binding.locals :: binding.scopes, first :: rest) := by
          simp [searched, outermost]
        have nearest : binding.lookup (first :: rest) = binding.findReference (first :: rest) := by
          simp [lookup, outermost]
        rw [searched, nearest, findReference, findNearest, List.map_findSome?]
        rfl

def isDecidedIn (scopes : List (List (String × Node))) : List String → Bool
  | [] => true
  | first :: rest =>
      (scopes.findSome? fun fields => fields.lookup first).all fun node => node.isDecided rest

/-- No later pass changes what a path leads to. -/
def isDecided (binding : Binding) (path : List String) : Bool :=
  isDecidedIn (binding.searched path).1 (binding.searched path).2

end Binding

/-- A node before and after a pass in which nothing is merged around it. An expression may
become anything. -/
def Node.VisitedBy (evaluator : Evaluator) (node later : Node) : Prop :=
  node.isLocallyResolved →
    ∃ binding mode, mode ≠ .all ∧ Pass.visit evaluator binding mode node = .ok later

theorem Node.VisitedBy.find {evaluator : Evaluator} {node later : Node} {path : List String}
    (visited : node.VisitedBy evaluator later) (decided : node.isDecided path) :
    later.find path = node.find path ∧ later.isDecided path := by
  rcases visited (Node.isLocallyResolved_of_isDecided decided) with ⟨binding, mode, quiet, ends⟩
  exact Pass.visit_find quiet decided ends

/-- The fields of a map before and after such a pass. -/
def FieldsVisited (evaluator : Evaluator) (fields laters : List (String × Node)) : Prop :=
  ∀ key, Option.Rel (Node.VisitedBy evaluator) (fields.lookup key) (laters.lookup key)

/-- All that a lookup can start from. -/
structure Binding.VisitedBy (evaluator : Evaluator) (binding later : Binding) : Prop where
  locals : FieldsVisited evaluator binding.locals later.locals
  scopes : List.Forall₂ (FieldsVisited evaluator) binding.scopes later.scopes

namespace Binding.VisitedBy

variable {evaluator : Evaluator}

theorem findSome {related : Node → Node → Prop} {scopes laters : List (List (String × Node))}
    (scopesRelated : List.Forall₂ (fun fields laters : List (String × Node) => ∀ key,
      Option.Rel related (fields.lookup key) (laters.lookup key)) scopes laters) (first : String) :
    Option.Rel related (scopes.findSome? fun fields => fields.lookup first)
      (laters.findSome? fun fields => fields.lookup first) := by
  induction scopesRelated with
  | nil => exact .none
  | cons here _ induction =>
      have lookups := here first
      rw [List.findSome?_cons, List.findSome?_cons]
      generalize List.lookup first _ = found at lookups ⊢
      generalize List.lookup first _ = found' at lookups ⊢
      cases lookups with
      | none => exact induction
      | some here => exact .some here

theorem findNearest {scopes laters : List (List (String × Node))}
    (visited : List.Forall₂ (FieldsVisited evaluator) scopes laters) {path : List String}
    (decided : isDecidedIn scopes path) :
    Binding.findNearest laters path = Binding.findNearest scopes path ∧
      isDecidedIn laters path := by
  cases path with
  | nil => exact ⟨rfl, rfl⟩
  | cons first rest =>
      have nodes := findSome visited first
      rw [isDecidedIn] at decided ⊢
      rw [Binding.findNearest, Binding.findNearest]
      generalize (scopes.findSome? fun fields => fields.lookup first) = node at nodes decided ⊢
      generalize (laters.findSome? fun fields => fields.lookup first) = later at nodes ⊢
      cases nodes with
      | none => exact ⟨rfl, rfl⟩
      | some visited => exact visited.find decided

theorem getLast {related : List (String × Node) → List (String × Node) → Prop}
    {scopes laters : List (List (String × Node))}
    (scopesRelated : List.Forall₂ related scopes laters) :
    List.Forall₂ related scopes.getLast?.toList laters.getLast?.toList := by
  induction scopesRelated with
  | nil => exact .nil
  | cons here rest induction =>
      cases rest with
      | nil => exact .cons here .nil
      | cons _ _ => exact induction

variable {binding later : Binding}

theorem searched (visited : binding.VisitedBy evaluator later) (path : List String) :
    List.Forall₂ (FieldsVisited evaluator) (binding.searched path).1 (later.searched path).1 ∧
      (later.searched path).2 = (binding.searched path).2 := by
  unfold Binding.searched
  split
  · exact ⟨getLast visited.scopes, rfl⟩
  · exact ⟨.cons visited.locals visited.scopes, rfl⟩

/-- A lookup that is decided finds the same after the pass, and is still decided. -/
theorem lookup (visited : binding.VisitedBy evaluator later) {path : List String}
    (decided : binding.isDecided path) :
    later.lookup path = binding.lookup path ∧ later.isDecided path := by
  rcases visited.searched path with ⟨scopes, steps⟩
  rw [lookup_searched, lookup_searched, isDecided, steps]
  exact findNearest scopes decided

end Binding.VisitedBy

end Stencil
