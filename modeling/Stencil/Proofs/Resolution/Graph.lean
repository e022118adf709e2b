import Stencil.Proofs.Resolution.Chains
import Stencil.Proofs.Resolution.Convergence

namespace Stencil

open Chain

/-! Passes over a map of scalars and references. A pass gives each reference the value that the
field it names had before the pass, so in every pass the values go along the chains by one
reference. -/

/-! ## Fields -/

/-- The key that a node refers to. -/
def Node.named? (node : Node) : Option String :=
  match node.value with
  | .text words => Text.embedded? words
  | .expression (.reference [key]) => some key
  | _ => none

/-- The node is a reference to the key, as a text or as an expression. -/
structure Node.Refers (node : Node) (key : String) : Prop where
  legible : IsKey key
  value : node.value = .text (referenceText key) ∨ node.value = .expression (.reference [key])

namespace Node

variable {node : Node} {key : String}

theorem Refers.named (refers : node.Refers key) : node.named? = some key := by
  unfold named?
  rcases refers.value with same | same
  · rw [same]
    exact refers.legible.embedded
  · rw [same]

theorem Refers.expression (refers : node.Refers key) (place : List String) :
    node.expression? place = some (.ok (.reference [key])) := by
  unfold expression?
  rcases refers.value with same | same
  · rw [same]
    simp only [refers.legible.embedded, Option.map_some, refers.legible.parse]
  · rw [same]

theorem Refers.unresolved (refers : node.Refers key) : node.isLocallyResolved = false := by
  unfold isLocallyResolved
  rcases refers.value with same | same
  · rw [same, Value.isLocallyResolved, refers.legible.embedded]
    rfl
  · rw [same]
    rfl

theorem Refers.not_resolved (refers : node.Refers key) : node.isResolved = false := by
  rw [Bool.eq_false_iff]
  intro resolved
  have here := isLocallyResolved_of_isResolved resolved
  rw [refers.unresolved] at here
  cases here

theorem named_of_scalar (scalar : node.value.isScalar) : node.named? = none := by
  unfold named?
  split
  · rename_i words same
    rw [same] at scalar
    exact Option.isNone_iff_eq_none.mp scalar
  · rename_i same
    rw [same] at scalar
    cases scalar
  · rfl

theorem resolved_of_scalar (scalar : node.value.isScalar) : node.isResolved := by
  rw [← node.value_isResolved]
  rcases node with ⟨value, annotations⟩
  cases value <;> first | rfl | exact scalar | cases scalar

/-- A scalar or a reference. -/
def IsField (node : Node) : Prop := node.value.isScalar ∨ ∃ key, node.Refers key

theorem IsField.kind (field : node.IsField) : node.kind ≠ .map ∧ node.kind ≠ .list := by
  unfold Node.kind
  rcases field with scalar | ⟨key, refers⟩
  · rcases node with ⟨value, annotations⟩
    cases value <;>
      first | exact absurd scalar Bool.false_ne_true | exact ⟨nofun, nofun⟩
  · rcases refers.value with same | same <;> (rw [same]; exact ⟨nofun, nofun⟩)

theorem IsField.plain (field : node.IsField) : node.value.keysDistinct ∧ node.value.withoutNaN := by
  rcases field with scalar | ⟨key, refers⟩
  · rcases node with ⟨value, annotations⟩
    cases value <;>
      first
      | exact absurd scalar Bool.false_ne_true
      | exact ⟨rfl, rfl⟩
      | exact ⟨rfl, scalar⟩
  · rcases refers.value with same | same <;> (rw [same]; exact ⟨rfl, rfl⟩)

/-- Fields of one value are the same. -/
theorem IsField.same {other : Node} (field : node.IsField) (equal : other.value = node.value) :
    other.same node := by
  have plain := field.plain
  rcases node with ⟨value, annotations⟩
  rcases other with ⟨value', annotations'⟩
  cases equal
  exact Value.same_self _ plain.1 plain.2

end Node

/-! ## Passes -/

namespace Graph

variable {fields now : List (String × Node)} {node : Node} {key : String}

/-- What a reference finds among the fields. -/
def outcome (fields : List (String × Node)) (key : String) : Outcome :=
  match fields.lookup key with
  | none => .ofIssue (.notFound [key])
  | some target =>
      if target.isResolved then .value (.ofSource target.source target.value) {} else .waiting

/-- What a pass over the fields makes of one of them. -/
def follow (fields : List (String × Node)) (node : Node) : Node :=
  match node.named? with
  | none => node
  | some key => Pass.ofOutcome node (.reference [key]) (outcome fields key)

theorem follow_of_scalar (scalar : node.value.isScalar) : follow fields node = node := by
  unfold follow
  rw [Node.named_of_scalar scalar]

theorem follow_of_refers (refers : node.Refers key) :
    follow fields node = Pass.ofOutcome node (.reference [key]) (outcome fields key) := by
  unfold follow
  rw [refers.named]

/-- In the fields of the whole document a reference finds the field under its key. -/
theorem evaluate_reference {binding : Binding} (scopes : binding.scopes = [fields])
    (locals : binding.locals = []) (legible : IsKey key) :
    Expression.evaluate Expression.callDepth binding (.reference [key]) =
      .ok (outcome fields key) := by
  have other : key ≠ "" := by
    rintro rfl
    exact absurd legible.1 (by decide)
  have evaluated : Expression.evaluate Expression.callDepth binding (.reference [key]) =
      .ok (binding.referenceOutcome [key]) := rfl
  have found : binding.lookup [key] = ((fields.lookup key).map Lookup.found).getD .missing := by
    unfold Binding.lookup
    split
    · rename_i same
      exact absurd (List.cons.inj same).1 other
    · rw [Binding.findReference, scopes, locals, List.findSome?_cons, List.findSome?_cons,
        List.findSome?_nil]
      cases held : fields.lookup key with
      | none => simp [Binding.findIn, held]
      | some node => simp [Binding.findIn, held, Node.find]
  rw [evaluated, Binding.referenceOutcome, found, outcome]
  cases fields.lookup key with
  | none => rfl
  | some target => rfl

variable {binding : Binding} {mode : Override}

theorem visit_field (scopes : binding.scopes = [fields]) (locals : binding.locals = [])
    (stubs : binding.stubs = []) (field : node.IsField) :
    Pass.visit (Expression.evaluate Expression.callDepth) binding mode node =
      .ok (follow fields node) := by
  have alone : Pass.stubFor? node (binding.withSource node.source) mode = none := by
    have none (path : List String) :
        (binding.withSource node.source).findInStubs? path = none := by
      unfold Binding.findInStubs?
      have same : (binding.withSource node.source).stubs = [] := stubs
      rw [same]
      rfl
    unfold Pass.stubFor?
    simp only [none, Option.map_none, ite_self]
  rw [Pass.visit_leaf field.kind.1 field.kind.2, Pass.leaf, alone, Option.getD_none]
  rcases field with scalar | ⟨key, refers⟩
  · rw [follow_of_scalar scalar, Pass.evaluateNode_of_resolved
      (Node.isLocallyResolved_of_isResolved (Node.resolved_of_scalar scalar))]
  · have evaluated : Expression.evaluate Expression.callDepth (binding.withSource node.source)
        (.reference [key]) = .ok (outcome fields key) :=
      evaluate_reference scopes locals refers.legible
    unfold Pass.evaluateNode
    rw [refers.expression, follow_of_refers refers]
    simp only [evaluated]
    rfl

/-- The fields after a pass. -/
def followAll (fields : List (String × Node)) : List (String × Node) :=
  fields.map fun (key, node) => (key, follow fields node)

theorem visit_fields (scopes : binding.scopes = [now]) (locals : binding.locals = [])
    (stubs : binding.stubs = []) (all : ∀ field ∈ fields, field.2.IsField) :
    Pass.visitFields (Expression.evaluate Expression.callDepth) binding mode .ordinary fields =
      .ok (fields.map fun (key, node) => (key, follow now node)) := by
  induction fields with
  | nil => rfl
  | cons field fields induction =>
      rcases field with ⟨key, node⟩
      rw [List.forall_mem_cons] at all
      have visited : Pass.visit _ (binding.withPath key) mode node = _ :=
        visit_field scopes locals stubs all.1
      rw [Pass.visitFields_visited (.inl rfl), visited, induction all.2]
      rfl

/-- A pass over the document is a pass over its fields. -/
theorem run_followAll (answers : Answers) (annotations : Annotations)
    (keys : ∀ field ∈ fields, IsKey field.1) (all : ∀ field ∈ fields, field.2.IsField) :
    Pass.run answers [] (.mk (.map fields) annotations) =
      .ok (.mk (.map (followAll fields)) annotations) := by
  have resolved : markerResolved fields := by
    have none : fields.lookup markerKey = none := by
      refine List.lookup_eq_none_iff.mpr fun field member => ?_
      rw [bne_iff_ne]
      intro same
      have named := (keys field member).1
      rw [← same] at named
      exact absurd named (by decide)
    unfold markerResolved
    rw [none]
    rfl
  have inner : ((Pass.inside { stubs := [], answers } annotations).withScope fields).scopes =
      [fields] ∧ (Pass.inside { stubs := [], answers } annotations).locals = [] ∧
        (Pass.inside { stubs := [], answers } annotations).stubs = [] := by
    rcases Pass.followRedirect_eq (({ stubs := [], answers } : Binding).withSource
      annotations.source) annotations.redirect with ⟨path, same⟩
    unfold Pass.inside
    rw [same]
    exact ⟨rfl, rfl, rfl⟩
  unfold Pass.run
  rw [Pass.visit_map resolved, visit_fields inner.1 inner.2.1 inner.2.2 all]
  rfl

/-! ## The fields after some passes -/

def nodeAfter (fields : List (String × Node)) : Nat → Node → Node
  | 0, node => node
  | passes + 1, node =>
      follow (fields.map fun (key, other) => (key, nodeAfter fields passes other))
        (nodeAfter fields passes node)

def fieldsAfter (fields : List (String × Node)) (passes : Nat) : List (String × Node) :=
  fields.map fun (key, node) => (key, nodeAfter fields passes node)

theorem nodeAfter_succ (passes : Nat) (node : Node) :
    nodeAfter fields (passes + 1) node =
      follow (fieldsAfter fields passes) (nodeAfter fields passes node) := rfl

theorem fieldsAfter_zero : fieldsAfter fields 0 = fields :=
  List.map_id' fields

theorem fieldsAfter_succ (passes : Nat) :
    fieldsAfter fields (passes + 1) = followAll (fieldsAfter fields passes) := by
  unfold fieldsAfter followAll
  rw [List.map_map]
  rfl

theorem lookup_fieldsAfter (passes : Nat) (key : String) :
    (fieldsAfter fields passes).lookup key =
      (fields.lookup key).map (nodeAfter fields passes) :=
  lookup_map (nodeAfter fields passes) key fields

/-- A reference that has found nothing yet. -/
def pending (fields : List (String × Node)) (next : String) (node : Node) : Node :=
  (node.withValue (.expression (.reference [next]))).withIssue
    (if (fields.lookup next).isNone then some (.notFound [next]) else none)

/-- What the fields are after some passes. A value has come along the chains that have no more
references than there were passes, and all other references have found nothing. -/
structure Progress (fields : List (String × Node)) (passes : Nat) : Prop where
  reached : ∀ {key length scalar node}, Reaches fields key length scalar →
    fields.lookup key = some node → length ≤ passes →
      (nodeAfter fields passes node).value = scalar.value
  waiting : ∀ {key next node}, fields.lookup key = some node → Names fields key next →
    Later fields key passes →
      nodeAfter fields passes node = if passes = 0 then node else pending fields next node

theorem Progress.refers (graph : IsGraph fields) {passes : Nat} (progress : Progress fields passes)
    {next : String} (held : fields.lookup key = some node) (names : Names fields key next)
    (later : Later fields key passes) : (nodeAfter fields passes node).Refers next := by
  rw [progress.waiting held names later]
  split
  · exact ⟨graph.legible names, .inl (names.value held)⟩
  · exact ⟨graph.legible names, .inr rfl⟩

theorem progress_succ (graph : IsGraph fields) {passes : Nat} (progress : Progress fields passes) :
    Progress fields (passes + 1) := by
  constructor
  · intro key length scalar node reaches held few
    rw [nodeAfter_succ]
    rcases Nat.le_or_eq_of_le_succ few with few | rfl
    · have same := progress.reached reaches held few
      have plain : (nodeAfter fields passes node).value.isScalar := same ▸ reaches.isScalar
      rw [follow_of_scalar plain, same]
    · -- In this pass the value comes from the field that the reference names.
      have later := reaches.later (Nat.lt_succ_self passes)
      cases reaches with
      | reference names others =>
          rcases others.held with ⟨target, found⟩
          have same := progress.reached others found (Nat.le_refl _)
          have plain : (nodeAfter fields passes target).value.isScalar := same ▸ others.isScalar
          rw [follow_of_refers (progress.refers graph held names later), outcome,
            lookup_fieldsAfter, found]
          simp only [Option.map_some, Node.resolved_of_scalar plain, if_true]
          exact same
  · intro key next node held names later
    have old := progress.waiting held names later.shorter
    rw [nodeAfter_succ, follow_of_refers (progress.refers graph held names later.shorter),
      if_neg (Nat.succ_ne_zero _), outcome, lookup_fieldsAfter]
    have again (issue : Option Issue) :
        ((nodeAfter fields passes node).withValue (.expression (.reference [next]))).withIssue
          issue = (node.withValue (.expression (.reference [next]))).withIssue issue := by
      rw [old]
      split <;> rfl
    cases found : fields.lookup next with
    | none =>
        rw [Option.map_none, pending, found]
        exact again _
    | some target =>
        have behind := later.behind names
        have stays : (nodeAfter fields passes target).isResolved = false := by
          rcases graph.names_of_later found behind with ⟨last, names⟩
          exact (progress.refers graph found names behind).not_resolved
        simp only [Option.map_some, stays, pending, found]
        exact again _

theorem progress (graph : IsGraph fields) (passes : Nat) : Progress fields passes := by
  induction passes with
  | zero =>
      refine ⟨fun reaches held few => ?_, fun _ _ _ => rfl⟩
      cases Nat.le_zero.mp few
      cases reaches with
      | scalar held' _ =>
          cases held.symm.trans held'
          rfl
  | succ passes induction => exact progress_succ graph induction

theorem isField_nodeAfter (graph : IsGraph fields) (passes : Nat)
    (held : fields.lookup key = some node) : (nodeAfter fields passes node).IsField := by
  have progress := progress graph passes
  rcases reaches_or_later fields key passes with ⟨length, scalar, reaches, few⟩ | later
  · exact .inl (progress.reached reaches held few ▸ reaches.isScalar)
  · rcases graph.names_of_later held later with ⟨next, names⟩
    exact .inr ⟨next, progress.refers graph held names later⟩

theorem mem_fieldsAfter {passes : Nat} {motive : String × Node → Prop}
    (all : ∀ field ∈ fields, motive (field.1, nodeAfter fields passes field.2)) :
    ∀ field ∈ fieldsAfter fields passes, motive field := by
  intro field member
  rcases List.mem_map.mp member with ⟨before, inside, rfl⟩
  exact all before inside

/-- The document after some passes. -/
def documentAfter (fields : List (String × Node)) (annotations : Annotations) (passes : Nat) :
    Node :=
  .mk (.map (fieldsAfter fields passes)) annotations

theorem run_documentAfter (graph : IsGraph fields) (answers : Answers) (annotations : Annotations)
    (passes : Nat) :
    Pass.run answers [] (documentAfter fields annotations passes) =
      .ok (documentAfter fields annotations (passes + 1)) := by
  have keys : ∀ field ∈ fieldsAfter fields passes, IsKey field.1 :=
    mem_fieldsAfter fun field member => graph.keys field member
  have all : ∀ field ∈ fieldsAfter fields passes, field.2.IsField :=
    mem_fieldsAfter fun field member => isField_nodeAfter graph passes (graph.lookup member)
  rw [documentAfter, run_followAll answers annotations keys all, documentAfter, fieldsAfter_succ]

end Graph

end Stencil
