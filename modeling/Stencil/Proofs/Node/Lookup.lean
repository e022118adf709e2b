import Stencil.Node.Lookup

namespace Stencil

/-! What a look into a tree can come upon. -/

theorem Node.isLocallyResolved_of_isResolved {node : Node} (resolved : node.isResolved) :
    node.isLocallyResolved := by
  rcases node with ⟨value, annotations⟩
  cases value with
  | list entries | map fields => rfl
  | _ => exact resolved

/-- Whether a node is resolved is a matter of its value. -/
theorem Node.isResolved_congr {node other : Node} (same : node.value = other.value) :
    node.isResolved = other.isResolved := by
  rcases node with ⟨value, annotations⟩
  rcases other with ⟨value', annotations'⟩
  cases same
  rfl

theorem lookup_resolved {fields : List (String × Node)} {key : String} {field : Node}
    (resolved : fieldsResolved fields) (found : fields.lookup key = some field) :
    field.isResolved := by
  induction fields with
  | nil => cases found
  | cons entry fields induction =>
      rcases entry with ⟨first, here⟩
      rw [fieldsResolved, Bool.and_eq_true] at resolved
      rw [List.lookup_cons] at found
      cases same : key == first with
      | true =>
          rw [same] at found
          cases found
          exact resolved.1
      | false =>
          rw [same] at found
          exact induction resolved.2 found

theorem member_resolved {entries : List Node} {entry : Node} (resolved : entriesResolved entries)
    (member : entry ∈ entries) : entry.isResolved := by
  induction entries with
  | nil => cases member
  | cons first entries induction =>
      rw [entriesResolved, Bool.and_eq_true] at resolved
      rcases List.mem_cons.mp member with rfl | member
      · exact resolved.1
      · exact induction resolved.2 member

theorem listEntry_member {entries : List Node} {step : String} {entry : Node}
    (found : Node.listEntry entries step = some entry) : entry ∈ entries := by
  unfold Node.listEntry at found
  split at found
  · exact List.mem_of_getElem? found
  · exact List.mem_of_find?_eq_some found

namespace Node

/-- A step leads to a field of a map or to an entry of a list. -/
theorem child_cases {node next : Node} {step : String} (found : node.child step = .found next) :
    (∃ fields annotations, node = .mk (.map fields) annotations ∧
        fields.lookup step = some next) ∨
      ∃ entries annotations, node = .mk (.list entries) annotations ∧
        listEntry entries step = some next := by
  rcases node with ⟨value, annotations⟩
  unfold child at found
  split at found
  · cases found
  · cases value with
    | map fields =>
        simp only [value_mk] at found
        cases held : fields.lookup step with
        | some field =>
            rw [held] at found
            cases found
            exact .inl ⟨fields, annotations, rfl, held⟩
        | none =>
            rw [held] at found
            cases marker : fields.lookup markerKey with
            | none =>
                rw [marker] at found
                cases found
            | some marker =>
                simp only [‹fields.lookup markerKey = _›] at found
                split at found <;> cases found
    | list entries =>
        simp only [value_mk] at found
        cases held : listEntry entries step with
        | some entry =>
            rw [held] at found
            cases found
            exact .inr ⟨entries, annotations, rfl, held⟩
        | none =>
            rw [held] at found
            cases found
    | _ => cases found

/-- What holds of every child of a node of which it holds, holds of all that is found below
such a node. -/
theorem find_induction {motive : Node → Prop}
    (step : ∀ node step next, motive node → node.child step = .found next → motive next)
    {node next : Node} {path : List String} (first : motive node)
    (found : node.find path = .found next) : motive next := by
  induction path generalizing node with
  | nil =>
      cases found
      exact first
  | cons key rest induction =>
      unfold find at found
      cases below : node.child key with
      | found child =>
          rw [below] at found
          exact induction (step node key child first below) found
      | unresolved | missing =>
          rw [below] at found
          cases found

theorem isResolved_of_find {node next : Node} {path : List String} (resolved : node.isResolved)
    (found : node.find path = .found next) : next.isResolved := by
  refine find_induction (motive := fun node => node.isResolved) ?_ resolved found
  intro node step next resolved found
  rcases child_cases found with ⟨fields, annotations, rfl, held⟩ | ⟨entries, annotations, rfl, held⟩
  · exact lookup_resolved resolved held
  · exact member_resolved resolved (listEntry_member held)

end Node

end Stencil
