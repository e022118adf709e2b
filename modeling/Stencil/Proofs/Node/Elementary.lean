import Stencil.Expression.Parse
import Stencil.Proofs.Node.Plain

namespace Stencil

/-! Elementary documents: their expressions are put together from literals, lists,
references and operators, their maps have no markers, and neither the entries of their
lists nor the names of entries are expressions. All texts besides are plain. -/

mutual
/-- Literals, lists of expressions, references, operators, conditions and preferences. -/
def Expression.isElementary : Expression → Bool
  | .nil | .boolean _ | .integer _ | .reference _ => true
  | .text text => Text.isUnopened text
  | .list entries => allElementary entries
  | .group inner | .not inner | .prefer inner => inner.isElementary
  | .binary _ left right => left.isElementary && right.isElementary
  | .conditional condition consequence alternative =>
      condition.isElementary && consequence.isElementary && alternative.isElementary
  | _ => false

def allElementary : List Expression → Bool
  | [] => true
  | entry :: entries => entry.isElementary && allElementary entries
end

mutual
def Value.isElementary (place : List String) : Value → Bool
  | .text text =>
      match Text.embedded? text with
      | some source =>
          match Expression.parse source place with
          | .ok expression => expression.isElementary
          | .error _ => false
      | none => Text.isUnopened text
  | .expression expression => expression.isElementary
  | .list entries => entriesElementary place 0 entries
  | .map fields => fieldsElementary place fields
  | _ => true

/-- The place is the logical path of the node. Only what is plain may be redirected. -/
def Node.isElementary (place : List String) : Node → Bool
  | .mk value annotations =>
      value.isPlain || (annotations.redirect.isNone && value.isElementary place)

def entriesElementary (place : List String) (index : Nat) : List Node → Bool
  | [] => true
  | entry :: entries =>
      entry.isSettledEntry && entry.isElementary (place ++ [stepName index entry])
        && entriesElementary place (index + 1) entries

def fieldsElementary (place : List String) : List (String × Node) → Bool
  | [] => true
  | (key, field) :: fields =>
      key != markerKey && field.isElementary (place ++ [key]) && fieldsElementary place fields
end

mutual
/-- Elementary but for the names in its lists, and their entries, which may be expressions. -/
def Value.isSimple : Value → Bool
  | .list entries => entriesSimple entries
  | .map fields => fieldsSimple fields
  | leaf => leaf.isElementary []

def Node.isSimple : Node → Bool
  | .mk value annotations => value.isPlain || (annotations.redirect.isNone && value.isSimple)

def entriesSimple : List Node → Bool
  | [] => true
  | entry :: entries => entry.isSimple && entriesSimple entries

def fieldsSimple : List (String × Node) → Bool
  | [] => true
  | (key, field) :: fields => key != markerKey && field.isSimple && fieldsSimple fields
end

/-! ## Simple trees -/

theorem Node.isSimple_of_isPlain {node : Node} (plain : node.isPlain) : node.isSimple := by
  rcases node with ⟨value, annotations⟩
  have plain : value.isPlain = true := plain
  simp [Node.isSimple, plain]

theorem Node.simple_cases {node : Node} (simple : node.isSimple) :
    node.isPlain ∨ node.redirect = none ∧ node.value.isSimple := by
  rcases node with ⟨value, annotations⟩
  rw [Node.isSimple, Bool.or_eq_true, Bool.and_eq_true] at simple
  rcases simple with plain | ⟨direct, simple⟩
  · exact .inl plain
  · exact .inr ⟨Option.isNone_iff_eq_none.mp direct, simple⟩

theorem Node.isSimple_of_direct {node : Node} (direct : node.redirect = none)
    (simple : node.value.isSimple) : node.isSimple := by
  rcases node with ⟨value, annotations⟩
  rw [Node.isSimple, Bool.or_eq_true, Bool.and_eq_true]
  exact .inr ⟨Option.isNone_iff_eq_none.mpr direct, simple⟩

/-! What is resolved in them is plain. -/

mutual
theorem Value.isPlain_of_resolved : ∀ {value : Value}, value.isSimple → value.isResolved →
    value.isPlain
  | .list _, simple, resolved => entriesPlain_of_resolved simple resolved
  | .map _, simple, resolved => fieldsPlain_of_resolved simple resolved
  | .text text, simple, resolved => by
      have none : Text.embedded? text = none := by
        simpa [Value.isResolved, Value.isLocallyResolved] using resolved
      simpa [Value.isSimple, Value.isElementary, none, Value.isPlain] using simple
  | .expression _, _, resolved => by cases resolved
  | .null, _, _ | .boolean _, _, _ | .integer _, _, _ | .decimal _, _, _ | .lambda _ _ _, _, _ => rfl

theorem Node.isPlain_of_resolved : ∀ {node : Node}, node.isSimple → node.isResolved → node.isPlain
  | .mk value annotations, simple, resolved => by
      rw [Node.isSimple, Bool.or_eq_true, Bool.and_eq_true] at simple
      rcases simple with plain | ⟨_, simple⟩
      · exact plain
      · exact Value.isPlain_of_resolved simple resolved

theorem entriesPlain_of_resolved : ∀ {entries : List Node}, entriesSimple entries →
    entriesResolved entries → entriesPlain entries
  | [], _, _ => rfl
  | _ :: _, simple, resolved => by
      rw [entriesSimple, Bool.and_eq_true] at simple
      rw [entriesResolved, Bool.and_eq_true] at resolved
      rw [entriesPlain, Bool.and_eq_true]
      exact ⟨Node.isPlain_of_resolved simple.1 resolved.1,
        entriesPlain_of_resolved simple.2 resolved.2⟩

theorem fieldsPlain_of_resolved : ∀ {fields : List (String × Node)}, fieldsSimple fields →
    fieldsResolved fields → fieldsPlain fields
  | [], _, _ => rfl
  | (_, _) :: _, simple, resolved => by
      rw [fieldsSimple, Bool.and_eq_true, Bool.and_eq_true] at simple
      rw [fieldsResolved, Bool.and_eq_true] at resolved
      rw [fieldsPlain, Bool.and_eq_true, Bool.and_eq_true]
      exact ⟨⟨simple.1.1, Node.isPlain_of_resolved simple.1.2 resolved.1⟩,
        fieldsPlain_of_resolved simple.2 resolved.2⟩
end

/-! ## Looking up -/

theorem lookup_plain {fields : List (String × Node)} {key : String} {field : Node}
    (plain : fieldsPlain fields) (found : fields.lookup key = some field) :
    key ≠ markerKey ∧ field.isPlain := by
  induction fields with
  | nil => cases found
  | cons entry fields induction =>
      rcases entry with ⟨first, here⟩
      rw [fieldsPlain, Bool.and_eq_true, Bool.and_eq_true] at plain
      rw [List.lookup_cons] at found
      cases same : key == first with
      | true =>
          rw [same] at found
          cases found
          rw [beq_iff_eq.mp same]
          exact ⟨by simpa using plain.1.1, plain.1.2⟩
      | false =>
          rw [same] at found
          exact induction plain.2 found

theorem lookup_simple {fields : List (String × Node)} {key : String} {field : Node}
    (simple : fieldsSimple fields) (found : fields.lookup key = some field) :
    key ≠ markerKey ∧ field.isSimple := by
  induction fields with
  | nil => cases found
  | cons entry fields induction =>
      rcases entry with ⟨first, here⟩
      rw [fieldsSimple, Bool.and_eq_true, Bool.and_eq_true] at simple
      rw [List.lookup_cons] at found
      cases same : key == first with
      | true =>
          rw [same] at found
          cases found
          rw [beq_iff_eq.mp same]
          exact ⟨by simpa using simple.1.1, simple.1.2⟩
      | false =>
          rw [same] at found
          exact induction simple.2 found

theorem member_plain {entries : List Node} {entry : Node} (plain : entriesPlain entries)
    (member : entry ∈ entries) : entry.isPlain := by
  induction entries with
  | nil => cases member
  | cons first entries induction =>
      rw [entriesPlain, Bool.and_eq_true] at plain
      rcases List.mem_cons.mp member with rfl | member
      · exact plain.1
      · exact induction plain.2 member

theorem member_simple {entries : List Node} {entry : Node} (simple : entriesSimple entries)
    (member : entry ∈ entries) : entry.isSimple := by
  induction entries with
  | nil => cases member
  | cons first entries induction =>
      rw [entriesSimple, Bool.and_eq_true] at simple
      rcases List.mem_cons.mp member with rfl | member
      · exact simple.1
      · exact induction simple.2 member

namespace Node

theorem find_simple {node next : Node} {path : List String} (simple : node.isSimple)
    (found : node.find path = .found next) : next.isSimple := by
  refine find_induction (motive := fun node => node.isSimple) ?_ simple found
  intro node step next simple found
  rcases child_cases found with ⟨fields, annotations, rfl, held⟩ | ⟨entries, annotations, rfl, held⟩
  · rcases simple_cases simple with plain | ⟨_, simple⟩
    · exact isSimple_of_isPlain (lookup_plain plain held).2
    · exact (lookup_simple simple held).2
  · rcases simple_cases simple with plain | ⟨_, simple⟩
    · exact isSimple_of_isPlain (member_plain plain (listEntry_member held))
    · exact member_simple simple (listEntry_member held)

end Node

end Stencil
