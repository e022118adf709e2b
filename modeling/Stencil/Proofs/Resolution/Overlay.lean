import Stencil.Document
import Stencil.Proofs.Node.Selective
import Stencil.Proofs.Node.Sorting
import Stencil.Proofs.Resolution.Visit

namespace Stencil

/-! What a merge does to the values that a collection has already. Each scalar below it gives way
to what the first stub has that has anything at its path; everything else stays. Around the
collection nothing changes, when all of that is resolved. -/

/-! ## Trees as they are read -/

/-- Nothing is noted that a pass looks at. -/
def Annotations.isBare (annotations : Annotations) : Bool :=
  annotations.redirect.isNone && !annotations.replace && !annotations.preferred

mutual
/-- All that is noted in the tree is where it comes from, and issues. -/
def Value.isBare : Value → Bool
  | .list entries => entriesBare entries
  | .map fields => fieldsBare fields
  | _ => true

def Node.isBare : Node → Bool
  | .mk value annotations => annotations.isBare && value.isBare

def entriesBare : List Node → Bool
  | [] => true
  | entry :: entries => entry.isBare && entriesBare entries

def fieldsBare : List (String × Node) → Bool
  | [] => true
  | (_, field) :: fields => field.isBare && fieldsBare fields
end

theorem Annotations.isBare_iff {annotations : Annotations} :
    annotations.isBare ↔ annotations.redirect = none ∧ annotations.replace = false ∧
      annotations.preferred = false := by
  simp [isBare, and_assoc]

theorem Node.isBare_mk {value : Value} {annotations : Annotations} :
    (Node.mk value annotations).isBare ↔ annotations.isBare ∧ value.isBare := by
  rw [isBare, Bool.and_eq_true]

theorem entriesBare_iff {entries : List Node} :
    entriesBare entries ↔ ∀ entry ∈ entries, entry.isBare := by
  induction entries with
  | nil => simp [entriesBare]
  | cons entry entries induction =>
      rw [entriesBare, Bool.and_eq_true, induction, List.forall_mem_cons]

theorem fieldsBare_iff {fields : List (String × Node)} :
    fieldsBare fields ↔ ∀ field ∈ fields, field.2.isBare := by
  induction fields with
  | nil => simp [fieldsBare]
  | cons field fields induction =>
      rw [fieldsBare, Bool.and_eq_true, induction, List.forall_mem_cons]

mutual
/-- Documents are bare when they are read. -/
theorem Node.isBare_ofTree (source : Option String) :
    ∀ tree : Tree, (Node.ofTree source tree).isBare
  | .null | .boolean _ | .decimal _ | .text _ => rfl
  | .integer value => by
      rw [Node.ofTree, Tree.integerValue]
      split <;> rfl
  | .sequence entries => Node.isBare_mk.mpr ⟨rfl, entriesBare_ofTrees source entries⟩
  | .mapping fields => Node.isBare_mk.mpr ⟨rfl, fieldsBare_iff.mpr fun field member =>
      bare_ofTrees source fields field (Table.mem_ofList member)⟩
  | .tagged _ tree => Node.isBare_ofTree source tree

theorem entriesBare_ofTrees (source : Option String) :
    ∀ trees : List Tree, entriesBare (entriesOfTrees source trees)
  | [] => rfl
  | tree :: trees => by
      rw [entriesOfTrees, entriesBare, Bool.and_eq_true]
      exact ⟨Node.isBare_ofTree source tree, entriesBare_ofTrees source trees⟩

theorem bare_ofTrees (source : Option String) :
    ∀ trees : List (Tree × Tree), ∀ entry ∈ fieldsOfTrees source trees, entry.2.isBare
  | [] => by
      intro entry member
      cases member
  | (_, tree) :: trees => by
      rw [fieldsOfTrees, List.forall_mem_cons]
      exact ⟨Node.isBare_ofTree source tree, bare_ofTrees source trees⟩
end

/-! ## Properties of all scalars -/

/-- What holds of a collection when it holds of everything in it. -/
structure Hereditary (holds : Node → Prop) : Prop where
  list {entries : List Node} {annotations : Annotations} :
    holds (.mk (.list entries) annotations) ↔ ∀ entry ∈ entries, holds entry
  map {fields : List (String × Node)} {annotations : Annotations} :
    holds (.mk (.map fields) annotations) ↔ ∀ field ∈ fields, holds field.2

theorem hereditary_isResolved : Hereditary fun node => node.isResolved where
  list := entriesResolved_iff
  map := fieldsResolved_iff

theorem hereditary_withoutNaN : Hereditary fun node => node.withoutNaN where
  list := entriesWithoutNaN_iff
  map := fieldsWithoutNaN_iff

theorem Hereditary.find {holds : Node → Prop} (hereditary : Hereditary holds) {node next : Node}
    {path : List String} (here : holds node) (found : node.find path = .found next) :
    holds next := by
  refine Node.find_induction (motive := holds) ?_ here found
  intro node step next here found
  rcases Node.child_cases found with
    ⟨fields, annotations, rfl, held⟩ | ⟨entries, annotations, rfl, held⟩
  · exact hereditary.map.mp here _ (member_of_lookup held)
  · exact hereditary.list.mp here _ (listEntry_member held)

theorem Hereditary.findInStubs? {holds : Node → Prop} (hereditary : Hereditary holds)
    {binding : Binding} (stubs : ∀ stub ∈ binding.stubs, holds stub) {path : List String}
    {found : Node} (held : binding.findInStubs? path = some found) : holds found := by
  rcases binding.stub_of_findInStubs? held with ⟨stub, member, below⟩
  exact hereditary.find (stubs stub member) below

/-! ## The overlay -/

mutual
/-- The tree with every scalar replaced by what the first stub has that has anything at its
path. -/
def Node.overlaid (stubs : List Node) (path : List String) : Node → Node
  | .mk (.list entries) annotations =>
      .mk (.list (entriesOverlaid stubs path 0 entries)) annotations
  | .mk (.map fields) annotations => .mk (.map (fieldsOverlaid stubs path fields)) annotations
  | scalar => (({ stubs } : Binding).findInStubs? path).getD scalar

def entriesOverlaid (stubs : List Node) (path : List String) (index : Nat) :
    List Node → List Node
  | [] => []
  | entry :: entries =>
      entry.overlaid stubs (path ++ [stepName index entry]) ::
        entriesOverlaid stubs path (index + 1) entries

def fieldsOverlaid (stubs : List Node) (path : List String) :
    List (String × Node) → List (String × Node)
  | [] => []
  | (key, field) :: fields =>
      (key, field.overlaid stubs (path ++ [key])) :: fieldsOverlaid stubs path fields
end

theorem lookup_fieldsOverlaid (stubs : List Node) (path : List String)
    (fields : List (String × Node)) (key : String) :
    (fieldsOverlaid stubs path fields).lookup key =
      (fields.lookup key).map fun field => field.overlaid stubs (path ++ [key]) := by
  induction fields with
  | nil => rfl
  | cons field fields induction =>
      rcases field with ⟨first, field⟩
      rw [fieldsOverlaid, List.lookup_cons, List.lookup_cons]
      cases same : key == first with
      | true =>
          rw [beq_iff_eq.mp same]
          rfl
      | false => exact induction

theorem fieldsOverlaid_append (stubs : List Node) (path : List String)
    (front back : List (String × Node)) :
    fieldsOverlaid stubs path (front ++ back) =
      fieldsOverlaid stubs path front ++ fieldsOverlaid stubs path back := by
  induction front with
  | nil => rfl
  | cons field front induction =>
      rcases field with ⟨key, field⟩
      rw [List.cons_append, fieldsOverlaid, fieldsOverlaid, induction, List.cons_append]

section
variable {holds : Node → Prop} {stubs : List Node}

theorem scalar_holds (hereditary : Hereditary holds) (from_stubs : ∀ stub ∈ stubs, holds stub)
    {path : List String} {node : Node} (here : holds node) :
    holds ((({ stubs } : Binding).findInStubs? path).getD node) := by
  cases held : ({ stubs } : Binding).findInStubs? path with
  | none => exact here
  | some found => exact hereditary.findInStubs? from_stubs held

mutual
/-- What holds of all scalars of a tree and of the stubs holds of those of the overlay. -/
theorem Node.overlaid_holds (hereditary : Hereditary holds)
    (from_stubs : ∀ stub ∈ stubs, holds stub) :
    ∀ (node : Node) (path : List String), holds node → holds (node.overlaid stubs path)
  | .mk (.list entries) _, path, here =>
      hereditary.list.mpr (entriesOverlaid_hold hereditary from_stubs entries path 0
        (hereditary.list.mp here))
  | .mk (.map fields) _, path, here =>
      hereditary.map.mpr (fieldsOverlaid_hold hereditary from_stubs fields path
        (hereditary.map.mp here))
  | .mk .null _, _, here | .mk (.boolean _) _, _, here | .mk (.integer _) _, _, here
  | .mk (.decimal _) _, _, here | .mk (.text _) _, _, here | .mk (.expression _) _, _, here
  | .mk (.lambda _ _ _) _, _, here => scalar_holds hereditary from_stubs here

theorem entriesOverlaid_hold (hereditary : Hereditary holds)
    (from_stubs : ∀ stub ∈ stubs, holds stub) :
    ∀ (entries : List Node) (path : List String) (index : Nat), (∀ entry ∈ entries, holds entry) →
      ∀ entry ∈ entriesOverlaid stubs path index entries, holds entry
  | [], _, _, _ => List.forall_mem_nil _
  | entry :: entries, path, index, each => by
      rw [List.forall_mem_cons] at each
      rw [entriesOverlaid, List.forall_mem_cons]
      exact ⟨Node.overlaid_holds hereditary from_stubs entry _ each.1,
        entriesOverlaid_hold hereditary from_stubs entries path (index + 1) each.2⟩

theorem fieldsOverlaid_hold (hereditary : Hereditary holds)
    (from_stubs : ∀ stub ∈ stubs, holds stub) :
    ∀ (fields : List (String × Node)) (path : List String), (∀ field ∈ fields, holds field.2) →
      ∀ field ∈ fieldsOverlaid stubs path fields, holds field.2
  | [], _, _ => List.forall_mem_nil _
  | (key, field) :: fields, path, each => by
      rw [List.forall_mem_cons] at each
      rw [fieldsOverlaid, List.forall_mem_cons]
      exact ⟨Node.overlaid_holds hereditary from_stubs field _ each.1,
        fieldsOverlaid_hold hereditary from_stubs fields path each.2⟩
end

end

namespace Pass

variable {evaluator : Evaluator} {binding : Binding} {mode : Override}

/-- A plain scalar gives way where all values do. -/
theorem leaf_overlaid {node : Node} (resolved : node.isLocallyResolved)
    (direct : node.redirect = none) (plain : node.annotations.preferred = false)
    (stubs : ∀ stub ∈ binding.stubs, stub.isResolved) :
    leaf evaluator binding .all node =
      .ok ((binding.findInStubs? binding.stubPath).getD node) := by
  have none : node.expression? binding.path = none := Node.expression?_eq_none_iff.mpr resolved
  have overridden : stubFor? node binding .all =
      (binding.findInStubs? binding.stubPath).map fun found => found.withRedirect .none := by
    simp [stubFor?, none, isPreferredLeaf, Override.allows, plain, direct]
  rw [leaf, overridden]
  cases held : binding.findInStubs? binding.stubPath with
  | none => exact evaluateNode_of_resolved resolved
  | some found =>
      have whole := Binding.findInStubs?_resolved stubs held
      rcases found with ⟨value, annotations⟩
      exact evaluateNode_of_resolved (Node.isLocallyResolved_of_isResolved whole)

mutual
/-- A bare tree below a merge is overlaid. -/
theorem visit_overlaid : ∀ (node : Node) {binding : Binding},
    (∀ stub ∈ binding.stubs, stub.isResolved) → node.isBare → node.isResolved →
      visit evaluator binding .all node = .ok (node.overlaid binding.stubs binding.stubPath)
  | .mk (.map fields) annotations, binding, stubs, bare, resolved => by
      rcases Node.isBare_mk.mp bare with ⟨here, below⟩
      rcases Annotations.isBare_iff.mp here with ⟨direct, whole, _⟩
      have visited : visitFields evaluator
          ((binding.withSource annotations.source).withScope fields) .all .ordinary fields =
            .ok (fieldsOverlaid binding.stubs binding.stubPath fields) :=
        visitFields_overlaid fields stubs below resolved
      rw [visit_map (markerResolved_of_fieldsResolved resolved), inside, direct, followRedirect,
        whole, Override.entries_same, visited]
      rfl
  | .mk (.list entries) annotations, binding, stubs, bare, resolved => by
      rcases Node.isBare_mk.mp bare with ⟨here, below⟩
      rcases Annotations.isBare_iff.mp here with ⟨direct, whole, _⟩
      have visited : visitEntries evaluator (binding.withSource annotations.source) .all false 0
          (entries.map fun _ => .visit) entries =
            .ok (entriesOverlaid binding.stubs binding.stubPath 0 entries) :=
        visitEntries_overlaid entries 0 stubs below resolved
      rw [visit_list (markersResolved_of_entriesResolved resolved), inside, direct, followRedirect,
        whole, Override.entries_same, visited]
      rfl
  | .mk .null _, _, stubs, bare, resolved | .mk (.boolean _) _, _, stubs, bare, resolved
  | .mk (.integer _) _, _, stubs, bare, resolved | .mk (.decimal _) _, _, stubs, bare, resolved
  | .mk (.text _) _, _, stubs, bare, resolved | .mk (.expression _) _, _, stubs, bare, resolved
  | .mk (.lambda _ _ _) _, _, stubs, bare, resolved => by
      rcases Annotations.isBare_iff.mp (Node.isBare_mk.mp bare).1 with ⟨direct, _, plain⟩
      exact leaf_overlaid resolved direct plain stubs

theorem visitFields_overlaid : ∀ (fields : List (String × Node)) {binding : Binding},
    (∀ stub ∈ binding.stubs, stub.isResolved) → fieldsBare fields → fieldsResolved fields →
      visitFields evaluator binding .all .ordinary fields =
        .ok (fieldsOverlaid binding.stubs binding.stubPath fields)
  | [], _, _, _, _ => rfl
  | (key, field) :: fields, binding, stubs, bare, resolved => by
      rw [fieldsBare, Bool.and_eq_true] at bare
      rw [fieldsResolved, Bool.and_eq_true] at resolved
      have below : ∀ stub ∈ (binding.withPath key).stubs, stub.isResolved := stubs
      rw [visitFields_visited (.inl rfl), visit_overlaid field below bare.1 resolved.1,
        visitFields_overlaid fields stubs bare.2 resolved.2]
      rfl

theorem visitEntries_overlaid : ∀ (entries : List Node) (index : Nat) {binding : Binding},
    (∀ stub ∈ binding.stubs, stub.isResolved) → entriesBare entries → entriesResolved entries →
      visitEntries evaluator binding .all false index (entries.map fun _ => .visit) entries =
        .ok (entriesOverlaid binding.stubs binding.stubPath index entries)
  | [], _, _, _, _, _ => by rw [List.map_nil, visitEntries, entriesOverlaid]
  | entry :: entries, index, binding, stubs, bare, resolved => by
      rw [entriesBare, Bool.and_eq_true] at bare
      rw [entriesResolved, Bool.and_eq_true] at resolved
      have below : ∀ stub ∈ (binding.withPath (stepName index entry)).stubs, stub.isResolved :=
        stubs
      have same : entryMode .all false entry = .all := rfl
      rw [List.map_cons, visitEntries, same, visit_overlaid entry below bare.1 resolved.1,
        visitEntries_overlaid entries (index + 1) stubs bare.2 resolved.2]
      rfl
end

end Pass

end Stencil
